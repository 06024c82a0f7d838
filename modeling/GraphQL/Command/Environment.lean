import GraphQL.Command.FileTree
import GraphQL.Text.Encoding

/-! What a run of the program sees besides its arguments, and reading files in it. -/
namespace GraphQL.Command

structure Environment where
  tree : FileTree
  /-- The working directory. -/
  directory : Path
  /-- The level of the log that is asked for. -/
  logLevel : Option String
  deriving DecidableEq

/-- Why there is no text to be read. -/
inductive ReadError where
  | unresolved (e : PathError)
  | isDirectory
  | notUtf8
  deriving DecidableEq

def ReadError.message : ReadError → String
  | unresolved e => e.message
  | isDirectory => "Is a directory (os error 21)"
  | notUtf8 => "stream did not contain valid UTF-8"

/-- The text of what stands at a path. -/
def Content.text : Content → Except ReadError (List Char)
  | directory => .error .isDirectory
  | file bytes =>
    match Text.decodeUtf8 bytes with
    | (text, []) => .ok text
    | (_, _ :: _) => .error .notUtf8

namespace Environment

def resolve (env : Environment) (text : String) : Except PathError Path :=
  env.tree.resolve env.directory text

/-- The text of the file at a path. -/
def readFile (env : Environment) (p : Path) : Except ReadError (List Char) :=
  match env.tree.content? p with
  | some c => c.text
  | none => .error (.unresolved .missing)

/-- The text of the file that a path text names. -/
def readNamed (env : Environment) (text : String) : Except ReadError (List Char) :=
  match env.resolve text with
  | .ok p => env.readFile p
  | .error e => .error (.unresolved e)

end Environment
end GraphQL.Command
