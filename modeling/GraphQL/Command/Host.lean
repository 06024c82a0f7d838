import GraphQL.Command.FileTree
import GraphQL.Command.Log

/-! What a run does not take from its input: how lines of the log and faults of the arguments are written, and in which
order things come out that are done at the same time. -/
namespace GraphQL.Command

/-- The exit code and all of the text that a run writes. -/
structure Output where
  code : Nat
  stdout : String
  stderr : String
  deriving DecidableEq

/-- An order for the elements of lists. -/
structure Arrangement (α : Type) where
  arrange : List α → List α
  perm : ∀ l, (arrange l).Perm l

def Arrangement.asGiven {α : Type} : Arrangement α := ⟨id, fun _ => .refl _⟩

def Arrangement.reversed {α : Type} : Arrangement α := ⟨List.reverse, List.reverse_perm⟩

/-- What two runs on the same input may differ in. -/
structure Host where
  /-- A line of the log with the time, from its place among the lines that are shown. -/
  logText : Nat → LogLine → String
  /-- What is answered to arguments that ask for none of the tasks. -/
  refuse : List String → Output
  /-- The order in which files have been read that are read at the same time. Each comes with its place. -/
  reads : Arrangement (Path × Nat)
  /-- The order in which a set of extensions is listed. -/
  extensions : Arrangement String
  /-- The order of log lines about files that are worked on at the same time. -/
  lines : Arrangement LogLine

/-- A usage error that does not go into what is wrong. -/
def misuse : Output where
  code := 2
  stdout := ""
  stderr := "error: unexpected arguments\n\nUsage: gqlparse [OPTIONS] [COMMAND]\n\n" ++
    "For more information, try '--help'.\n"

/-- The host that does one thing after another and leaves out the time. -/
def Host.inOrder : Host where
  logText _ l := l.text
  refuse _ := misuse
  reads := .asGiven
  extensions := .asGiven
  lines := .asGiven

end GraphQL.Command
