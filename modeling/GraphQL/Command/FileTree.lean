/-! Trees of files and directories without links, and the places in them that path texts name. -/
namespace GraphQL.Command

/-- The names from the root of a tree down to a file or directory. -/
abbrev Path := List String

/-- The text of a path, which starts at the root. -/
def Path.text (p : Path) : String := "/" ++ "/".intercalate p

inductive Content where
  | directory
  | file (bytes : List UInt8)
  deriving DecidableEq

/-- Everything in a tree but its root, directories before what is in them. -/
structure FileTree where
  entries : List (Path × Content)
  deriving DecidableEq

/-- Why a path text names nothing. -/
inductive PathError where
  | missing
  | notDirectory
  | tooLong
  deriving DecidableEq

def PathError.message : PathError → String
  | missing => "No such file or directory (os error 2)"
  | notDirectory => "Not a directory (os error 20)"
  | tooLong => "File name too long (os error 36)"

/-- How many bytes a name may have. -/
def maxNameSize : Nat := 255

/-- How many bytes a path text may have. -/
def maxPathSize : Nat := 4095

namespace FileTree

/-- What stands at a path. The root is a directory. -/
def content? (t : FileTree) (p : Path) : Option Content :=
  if p.isEmpty then some .directory else t.entries.lookup p

/-- Puts something at a path, in the place of what was there. -/
def put (t : FileTree) (p : Path) (c : Content) : FileTree :=
  ⟨t.entries.filter (·.1 != p) ++ [(p, c)]⟩

/-- The paths of the directories above a path, from the root down. -/
def ancestors (p : Path) : List Path :=
  (List.range' 1 (p.length - 1)).map p.take

def putDirectory (t : FileTree) (p : Path) : FileTree :=
  if t.content? p = some .directory then t else t.put p .directory

/-- Puts a file at a path and directories above it. -/
def putFile (t : FileTree) (p : Path) (bytes : List UInt8) : FileTree :=
  ((ancestors p).foldl putDirectory t).put p (.file bytes)

/-- The paths in the order of their names, each directory right before what is in it. -/
def sorted (t : FileTree) : FileTree :=
  ⟨t.entries.mergeSort fun a b => !decide (b.1 < a.1)⟩

/-- The tree with files at these paths. -/
def ofFiles (files : List (Path × List UInt8)) : FileTree :=
  (files.foldl (fun (t : FileTree) (p, bytes) => t.putFile p bytes) ⟨[]⟩).sorted

/-- The place that one more name of a path text leads to. -/
def step (t : FileTree) (p : Path) (name : String) : Except PathError Path :=
  if t.content? p ≠ some .directory then .error .notDirectory
  else if name = "" || name = "." then .ok p
  else if name = ".." then .ok p.dropLast
  else if maxNameSize < name.utf8ByteSize then .error .tooLong
  else if (t.content? (p ++ [name])).isSome then .ok (p ++ [name])
  else .error .missing

/-- The place that a path text names, seen from a directory. -/
def resolve (t : FileTree) (directory : Path) (text : String) : Except PathError Path :=
  let start := if text.toList.head? = some '/' then [] else directory
  if maxPathSize < text.utf8ByteSize then .error .tooLong
  else (text.splitOn "/").foldlM t.step start

/-- What is at a path and below it, directories before what is in them. -/
def below (t : FileTree) (p : Path) : List (Path × Content) :=
  let root := if p.isEmpty then [(p, .directory)] else []
  root ++ t.entries.filter fun (q, _) => p.isPrefixOf q

end FileTree

/-- The part of a name behind its last dot. A dot at the start of the name does not count. -/
def fileExtension? (name : String) : Option String :=
  let reversed := name.toList.reverse
  let (extension, rest) := reversed.span (· ≠ '.')
  match rest with
  | [] | ['.'] => none
  | _ => some (String.ofList extension.reverse)

end GraphQL.Command
