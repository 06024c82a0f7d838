import GraphQL.Command.Host

/-! What a command comes to: its exit code, what it writes, and what it logs on the way. -/
namespace GraphQL.Command

/-- The texts are written with a line break behind them. -/
structure Outcome where
  code : Nat
  stdout : Option String
  stderr : Option String
  log : Log
  deriving DecidableEq

namespace Outcome

def success (text : String) : Outcome := ⟨0, some text, none, []⟩

def failure (text : String) : Outcome := ⟨1, none, some ("❌ " ++ text), []⟩

/-- The outcome with log lines in front of its own. -/
def after (log : Log) (o : Outcome) : Outcome := { o with log := log ++ o.log }

end Outcome

/-- One item on each line. -/
def bulleted (items : List String) : String :=
  "\n".intercalate (items.map ("  * " ++ ·))

/-- A text that is there, with a line break. -/
private def lineOf (text : Option String) : String :=
  match text with
  | some s => s ++ "\n"
  | none => ""

/-- The lines of a log as they are written. -/
def Log.shown (host : Host) (log : Log) : String :=
  String.join (log.mapIdx fun n l => host.logText n l ++ "\n")

/-- Log lines up to the level stand in front of what the command writes to standard error. -/
def Outcome.output (host : Host) (level : LogLevel) (o : Outcome) : Output where
  code := o.code
  stdout := lineOf o.stdout
  stderr := (o.log.visible level).shown host ++ lineOf o.stderr

end GraphQL.Command
