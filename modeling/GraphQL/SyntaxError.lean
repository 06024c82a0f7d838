import GraphQL.Text.Location

/-! The error that ends a failed parse, and how it is shown with the line of the source it points at. -/
namespace GraphQL

inductive SyntaxErrorKind where
  /-- The lexer gave an illegal token. -/
  | lexical
  | unexpectedToken (expected : List String) (found : String)
  /-- The input ended inside a construct. -/
  | unexpectedEof (expected : List String)
  /-- Selection sets, values or list types are nested too deep. -/
  | nestingExceeded
  | invalidUtf8
  deriving DecidableEq

/-- A terse text for the kind alone. -/
def SyntaxErrorKind.summary : SyntaxErrorKind → String
  | lexical => "lexical error"
  | unexpectedToken _ found => "unexpected token: " ++ found
  | unexpectedEof _ => "unexpected end of input"
  | nestingExceeded => "maximum nesting depth exceeded"
  | invalidUtf8 => "invalid UTF-8"

/-- Whether a note explains the error or says how to mend it. -/
inductive NoteKind where
  | general
  | help
  deriving DecidableEq

structure Note where
  kind : NoteKind
  message : String
  deriving DecidableEq

/-- An error at the place of the token that cannot be continued. The width counts the characters of
the source line that it underlines. -/
structure SyntaxError where
  message : String
  kind : SyntaxErrorKind
  line : Nat
  position : Nat
  width : Nat
  notes : List Note
  deriving DecidableEq

namespace SyntaxError

/-- An error that underlines one character and has no notes. -/
def new (message : String) (kind : SyntaxErrorKind) (line position : Nat) : SyntaxError :=
  ⟨message, kind, line, position, 1, []⟩

/-- The underline is never empty. -/
def withWidth (e : SyntaxError) (width : Nat) : SyntaxError := { e with width := max width 1 }

def addNote (e : SyntaxError) (message : String) : SyntaxError :=
  { e with notes := e.notes ++ [⟨.general, message⟩] }

def addHelp (e : SyntaxError) (message : String) : SyntaxError :=
  { e with notes := e.notes ++ [⟨.help, message⟩] }

def place (e : SyntaxError) : String := toString e.line ++ ":" ++ toString e.position

/-- The error on one line. -/
def summary (e : SyntaxError) : String := e.place ++ ": error: " ++ e.message

private def spaces (n : Nat) : String := String.ofList (List.replicate n ' ')

/-- The line of the source with its number, and the underline. A line that the source does not have is
not shown. -/
def snippet? (e : SyntaxError) (source : List Char) : Option String :=
  if e.line = 0 then none
  else
    (textLines source)[e.line - 1]?.map fun content =>
      let number := toString e.line
      let width := max number.length 2
      spaces width ++ " |\n" ++
        spaces (width - number.length) ++ number ++ " | " ++ String.ofList content ++ "\n" ++
        spaces width ++ " | " ++ spaces (e.position - 1) ++
        String.ofList (List.replicate e.width '^') ++ "\n"

def noteLine (note : Note) : String :=
  let label := match note.kind with
    | .general => "note"
    | .help => "help"
  "   = " ++ label ++ ": " ++ note.message ++ "\n"

/-- The error over several lines, with a snippet of the source if it is given. -/
def detailed (e : SyntaxError) (source : Option (List Char)) : String :=
  "error: " ++ e.message ++ "\n" ++ "  --> " ++ e.place ++ "\n" ++
    ((source.bind e.snippet?).getD "") ++ String.join (e.notes.map noteLine)

end SyntaxError
end GraphQL
