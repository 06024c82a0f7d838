import GraphQL.Command.Run

/-! The program. It loads what the arguments name, runs on that, and writes what comes of it. -/
namespace GraphQL.Command

/-- The names on an absolute path. -/
def absoluteNames (path : String) : Path := (path.splitOn "/").filter (· ≠ "")

/-- Adds a directory and those above it. -/
def FileTree.loadDirectory (t : FileTree) (p : Path) : FileTree :=
  (FileTree.ancestors p ++ [p]).foldl FileTree.putDirectory t

/-- Adds what is at a place and below it. What cannot be read is left out. -/
partial def loadBelow (t : FileTree) (place : String) : IO FileTree := do
  try
    let real ← IO.FS.realPath place
    let names := absoluteNames real.toString
    if ← real.isDir then
      let entries ← real.readDir
      entries.foldlM (fun t e => loadBelow t e.path.toString) (t.loadDirectory names)
    else
      let bytes ← IO.FS.readBinFile real
      return t.putFile names bytes.toList
  catch _ => return t

/-- Adds the directory at a place, if there is one. -/
def loadPassed (t : FileTree) (place : String) : IO FileTree := do
  try
    let real ← IO.FS.realPath place
    return if ← real.isDir then t.loadDirectory (absoluteNames real.toString) else t
  catch _ => return t

/-- Adds the directories that a path text passes, and everything at its end. -/
def loadNamed (t : FileTree) (text : String) : IO FileTree := do
  let names := text.splitOn "/"
  let passed := (List.range' 1 (names.length - 1)).map fun n => "/".intercalate (names.take n) ++ "/"
  loadBelow (← passed.foldlM loadPassed t) text

end GraphQL.Command

open GraphQL.Command in
def main (arguments : List String) : IO UInt32 := do
  let directory := absoluteNames (← IO.currentDir).toString
  let paths := ((Invocation.read? arguments).map (·.task.paths)).getD []
  let tree ← paths.foldlM loadNamed (FileTree.loadDirectory ⟨[]⟩ directory)
  let out := run .inOrder ⟨tree.sorted, directory, ← IO.getEnv "LOG_LEVEL"⟩ arguments
  (← IO.getStderr).putStr out.stderr
  (← IO.getStdout).putStr out.stdout
  return out.code.toUInt32
