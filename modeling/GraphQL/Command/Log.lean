import GraphQL.Text.Trim

/-! Log lines and the level up to which they are shown. -/
namespace GraphQL.Command

inductive LogLevel where
  | error
  | warn
  | info
  | debug
  | trace
  deriving DecidableEq

namespace LogLevel

/-- Higher levels show more. -/
def rank : LogLevel → Nat
  | error => 1
  | warn => 2
  | info => 3
  | debug => 4
  | trace => 5

def label : LogLevel → String
  | error => "ERROR"
  | warn => "WARN"
  | info => "INFO"
  | debug => "DEBUG"
  | trace => "TRACE"

/-- The level of a name in either case. -/
def ofName? (name : String) : Option LogLevel :=
  match name.map Char.toLower with
  | "error" => some error
  | "warn" => some warn
  | "info" => some info
  | "debug" | "verbose" => some debug
  | "trace" => some trace
  | _ => none

/-- The level of a number, which may have a plus sign and leading zeros. -/
def ofNumber? (text : String) : Option LogLevel :=
  let digits := match text.toList with
    | '+' :: rest => rest
    | cs => cs
  match digits.dropWhile (· = '0') with
  | ['1'] => some error
  | ['2'] => some warn
  | ['3'] => some info
  | ['4'] => some debug
  | ['5'] => some trace
  | _ => none

def ofText? (text : String) : Option LogLevel := (ofNumber? text).or (ofName? text)

end LogLevel

/-- A message with the part of the program that it comes from. -/
structure LogLine where
  level : LogLevel
  target : String
  message : String
  deriving DecidableEq

abbrev Log := List LogLine

/-- A character of a message. Controls that could steer a terminal are escaped. -/
def logChar (c : Char) : List Char :=
  match c with
  | '\x07' => ['\\', 'x', '0', '7']
  | '\x08' => ['\\', 'x', '0', '8']
  | '\x0c' => ['\\', 'x', '0', 'c']
  | '\x1b' => ['\\', 'x', '1', 'b']
  | '\x7f' => ['\\', 'x', '7', 'f']
  | c =>
    if 0x80 ≤ c.toNat && c.toNat ≤ 0x9f then
      ['\\', 'u', '\x7b'] ++ Nat.toDigits 16 c.toNat ++ ['\x7d']
    else [c]

/-- What stands in a written line behind the time. -/
def LogLine.text (l : LogLine) : String :=
  l.level.label ++ " " ++ l.target ++ ": " ++ String.ofList (l.message.toList.flatMap logChar)

/-- The lines that a level shows. -/
def Log.visible (level : LogLevel) (log : Log) : Log :=
  log.filter fun l => l.level.rank ≤ level.rank

/-- The level to show, and a warning if the setting names none. A setting counts only if the arguments
do not ask for more output. -/
def chooseLevel (verbose : Bool) (setting : Option String) : LogLevel × Log :=
  if verbose then (.debug, [])
  else
    match setting.map fun s => String.ofList (Text.trim s.toList) with
    | none => (.info, [])
    | some text =>
      match LogLevel.ofText? text with
      | some level => (level, [])
      | none =>
        (.info, [⟨.warn, "gqlparse",
          "Invalid `LOG_LEVEL` environment variable value: `" ++ text ++ "`"⟩])

end GraphQL.Command
