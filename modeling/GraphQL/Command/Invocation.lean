/-! What the arguments of the command line ask for. -/
namespace GraphQL.Command

/-- Which rules a document is validated with. -/
inductive ValidationMode where
  /-- A document without executable definitions defines a schema. -/
  | auto
  | executable
  | sdl
  deriving DecidableEq

def ValidationMode.ofName? : String → Option ValidationMode
  | "auto" => some auto
  | "executable" => some executable
  | "sdl" => some sdl
  | _ => none

structure ValidateOptions where
  /-- The extensions of files that are looked for in directories. -/
  extensions : List String
  mode : ValidationMode
  paths : List String
  deriving DecidableEq

inductive Task where
  /-- Nothing is asked for, which is answered by help. -/
  | overview
  | help
  | version
  | print (path : String)
  | tokens (path : String)
  | validate (options : ValidateOptions)
  deriving DecidableEq

/-- The path texts that a task starts from. -/
def Task.paths : Task → List String
  | overview | help | version => []
  | print path | tokens path => [path]
  | validate options => options.paths

/-- Whether the log is set up for a task. Help and version are answered before. -/
def Task.logs : Task → Bool
  | help | version => false
  | overview | print _ | tokens _ | validate _ => true

structure Invocation where
  verbose : Bool
  task : Task
  deriving DecidableEq

/-- Whether an argument is written like an option. A dash alone is not. -/
def isOption (argument : String) : Bool :=
  argument.toList.head? = some '-' && argument ≠ "-"

/-- The value of a long option that is written behind an equals sign. -/
def attached? (option argument : String) : Option String :=
  let front := (option ++ "=").toList
  if front.isPrefixOf argument.toList then
    some (String.ofList (argument.toList.drop front.length))
  else none

/-- What has been read of the arguments of validation. An option that was not given is empty. -/
structure ValidateDraft where
  extensions : List String
  mode : Option ValidationMode
  paths : List String
  deriving DecidableEq

namespace ValidateDraft

/-- Extensions are separated by commas, and the option may be repeated. -/
def addExtensions (d : ValidateDraft) (value : String) : ValidateDraft :=
  { d with extensions := d.extensions ++ value.splitOn "," }

/-- The mode can be given once. -/
def setMode? (d : ValidateDraft) (value : String) : Option ValidateDraft :=
  match d.mode, ValidationMode.ofName? value with
  | none, some mode => some { d with mode := some mode }
  | _, _ => none

def addPath (d : ValidateDraft) (path : String) : ValidateDraft :=
  { d with paths := d.paths ++ [path] }

/-- Reads arguments in any order. Behind two dashes all of them are paths. -/
def read? (d : ValidateDraft) : List String → Option ValidateDraft
  | [] => some d
  | "--" :: rest => some (rest.foldl addPath d)
  | "--graphql-file-exts" :: value :: rest =>
    if isOption value then none else (d.addExtensions value).read? rest
  | "--mode" :: value :: rest => do (← d.setMode? value).read? rest
  | argument :: rest =>
    match attached? "--graphql-file-exts" argument, attached? "--mode" argument with
    | some value, _ => (d.addExtensions value).read? rest
    | none, some value => do (← d.setMode? value).read? rest
    | none, none => if isOption argument then none else (d.addPath argument).read? rest

/-- The options with defaults for those that were not given. There has to be a path. -/
def finish? (d : ValidateDraft) : Option ValidateOptions :=
  if d.paths.isEmpty || d.paths.contains "" then none
  else
    some {
      extensions := if d.extensions.isEmpty then ["graphql", "graphqls", "gql"] else d.extensions
      mode := d.mode.getD .auto
      paths := d.paths }

end ValidateDraft

/-- Arguments without options. Behind two dashes all of them are taken as they are. -/
def operands? : List String → Option (List String)
  | [] => some []
  | "--" :: rest => some rest
  | argument :: rest => if isOption argument then none else (operands? rest).map (argument :: ·)

/-- The one path that is given. -/
def onlyPath? (arguments : List String) : Option String :=
  match operands? arguments with
  | some [path] => if path = "" then none else some path
  | _ => none

/-- The task that is written behind the general options. -/
def Task.read? : List String → Option Task
  | [] | ["--"] => some overview
  | ["help"] | ["-h"] | ["--help"] => some help
  | ["-V"] | ["--version"] => some version
  | "print" :: rest => (onlyPath? rest).map print
  | "tokens" :: rest => (onlyPath? rest).map tokens
  | "validate" :: rest => ((ValidateDraft.read? ⟨[], none, []⟩ rest).bind (·.finish?)).map validate
  | _ => none

/-- The invocation that the arguments write, if they are well formed. -/
def Invocation.read? (arguments : List String) : Option Invocation :=
  let (verbose, rest) := match arguments with
    | "-v" :: rest | "--verbose" :: rest => (true, rest)
    | rest => (false, rest)
  (Task.read? rest).map fun task => ⟨verbose, task⟩

end GraphQL.Command
