import GraphQL.Command.Environment
import GraphQL.Command.Outcome
import GraphQL.Text.Quoted

/-! The search for the files to validate, at and under the paths that are given. -/
namespace GraphQL.Command

/-- A given path that cannot be followed. -/
structure Unreached where
  argument : String
  error : PathError
  deriving DecidableEq

def Unreached.message (u : Unreached) : String :=
  "IO error for operation on " ++ u.argument ++ ": " ++ u.error.message

/-- What a search comes upon. A file is found as often as it is reached. -/
structure Scan where
  found : List Path
  /-- How many files are passed over for their extension. -/
  skipped : Nat
  unreached : List Unreached
  log : Log
  deriving DecidableEq

/-- Where the log lines of validation come from. -/
def validateTarget : String := "gqlparse::commands::validate"

namespace Scan

def empty : Scan := ⟨[], 0, [], []⟩

/-- A search and then another. -/
def append (s t : Scan) : Scan :=
  ⟨s.found ++ t.found, s.skipped + t.skipped, s.unreached ++ t.unreached, s.log ++ t.log⟩

instance : Append Scan := ⟨append⟩

def concat (scans : List Scan) : Scan := scans.foldr (· ++ ·) empty

/-- Whether the name of the file at a path ends in one of the extensions. -/
def hasExtension (extensions : List String) (p : Path) : Bool :=
  ((p.getLast?).bind fileExtension?).any extensions.contains

/-- How a place below a given path is shown: the given text and the names that lead on from there. -/
def entryText (argument : String) (names : Path) : String :=
  names.foldl
    (fun text name => if text.toList.getLast? = some '/' then text ++ name else text ++ "/" ++ name)
    argument

/-- One directory or file at or under a given path, which resolves to `base`. -/
def ofEntry (extensions : List String) (argument : String) (base : Path) :
    Path × Content → Scan
  | (p, content) =>
    let shown := Text.quote (entryText argument (p.drop base.length)).toList
    match content with
    | .directory =>
      { empty with log := [⟨.trace, validateTarget, "Skipping non-file: " ++ shown ++ "."⟩] }
    | .file _ =>
      if hasExtension extensions p then
        { empty with
          found := [p]
          log := [⟨.trace, validateTarget, "Found file at " ++ shown ++ "."⟩] }
      else { empty with skipped := 1 }

/-- Everything at and under a given path. -/
def ofArgument (env : Environment) (extensions : List String) (argument : String) : Scan :=
  match env.resolve argument with
  | .ok p => concat ((env.tree.below p).map (ofEntry extensions argument p))
  | .error e =>
    { empty with
      unreached := [⟨argument, e⟩]
      log := [⟨.trace, validateTarget,
        "Encountered an error while iterating recursive filesystem entities at/under " ++
          Text.quote argument.toList ++ "."⟩] }

/-- Whether the path text names a file. -/
def namesFile (env : Environment) (argument : String) : Option Path :=
  match env.resolve argument with
  | .ok p =>
    match env.tree.content? p with
    | some (.file _) => some p
    | _ => none
  | .error _ => none

/-- A file that is the only path given is taken whatever its extension is. -/
def takeOnly (host : Host) (env : Environment) (extensions arguments : List String) (s : Scan) : Scan :=
  match s.found, arguments with
  | [], [argument] =>
    match namesFile env argument with
    | none => s
    | some p =>
      let shown := ", ".intercalate ((host.extensions.arrange extensions).map fun e => "`." ++ e ++ "`")
      { s with
        found := [p]
        skipped := s.skipped - 1
        log := s.log ++ [⟨.warn, validateTarget,
          "Proceeding to validate " ++ Text.quote argument.toList ++
            " even though it doesn't match any of the --graphql-file-exts (" ++ shown ++ ")."⟩] }
  | _, _ => s

/-- The extensions without dots in front, each once. -/
def distinctExtensions (extensions : List String) : List String :=
  (extensions.map fun e => String.ofList (e.toList.dropWhile (· = '.'))).eraseDups

/-- The search at and under all paths that are given. -/
def ofArguments (host : Host) (env : Environment) (extensions arguments : List String) : Scan :=
  let known := distinctExtensions extensions
  let start := { empty with
    log := [⟨.debug, validateTarget, "Scanning " ++ toString arguments.length ++ " input paths..."⟩] }
  takeOnly host env known arguments (start ++ concat (arguments.map (ofArgument env known)))

/-- The paths found, in the order of their names and each once. -/
def files (s : Scan) : List Path :=
  (s.found.mergeSort fun a b => !decide (b < a)).eraseDups

end Scan
end GraphQL.Command
