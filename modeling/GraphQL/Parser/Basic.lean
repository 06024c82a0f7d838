import GraphQL.SyntaxError
import GraphQL.Text.Quoted
import GraphQL.TokenStream

/-! Parsers over a token stream. They look one token ahead, stop at the first error, and leave the token
that caused it unread. -/
namespace GraphQL

/-- The token as messages name what was found. -/
def Token.found (t : Token) : String :=
  match t.kind with
  | .name => "name `" ++ t.literal ++ "`"
  | .punctuator p => "`" ++ p.text ++ "`"
  | .int => "int `" ++ t.literal ++ "`"
  | .float => "float `" ++ t.literal ++ "`"
  | .string => "string " ++ Text.quote t.literal.toList
  | .blockString => "block string"
  | .illegal => t.literal
  | .eof => "end of input"

namespace SyntaxError

/-- The error of an illegal token. A literal of one character is the character that starts no token. -/
def ofIllegal (t : Token) : SyntaxError :=
  let message := match t.literal.toList with
    | [c] => "unexpected character " ++ Text.describeChar c
    | _ => t.literal
  .new message .lexical t.line t.position

/-- The error of a token that is none of those expected. An illegal token brings its own message. -/
def unexpected (expected : List String) (t : Token) : SyntaxError :=
  let message := "expected " ++ " or ".intercalate expected ++ ", found " ++ t.found
  match t.kind with
  | .illegal => .ofIllegal t
  | .eof => .new message (.unexpectedEof expected) t.line t.position
  | _ =>
    (SyntaxError.new message (.unexpectedToken expected t.found) t.line t.position).withWidth
      t.literal.length

end SyntaxError

/-- A failing parser leaves the stream where it failed. -/
abbrev Parser (α : Type) := EStateM SyntaxError TokenStream α

namespace Parser
variable {α : Type}

/-- The next token, left unread. -/
def peek : Parser Token := return (← get).peek

/-- Consumes the next token. -/
def advance : Parser Unit := modify (·.advance)

/-- Fails at the next token. -/
def unexpected (expected : List String) : Parser α := do
  throw (.unexpected expected (← peek))

/-- The same parser with a change to its errors. -/
def mapError (f : SyntaxError → SyntaxError) (p : Parser α) : Parser α := fun s =>
  match p s with
  | .ok a s => .ok a s
  | .error e s => .error (f e) s

def isAt (p : Punctuator) : Parser Bool := return (← peek).kind = .punctuator p

def isAtKeyword (keyword : String) : Parser Bool := return (← peek).isKeyword keyword

def isAtEnd : Parser Bool := return (← get).isAtEnd

/-- Consumes the punctuator if it is next, and says whether it was. -/
def accept (p : Punctuator) : Parser Bool := do
  if ← isAt p then
    advance
    return true
  return false

/-- Consumes the keyword if it is next, and says whether it was. -/
def acceptKeyword (keyword : String) : Parser Bool := do
  if ← isAtKeyword keyword then
    advance
    return true
  return false

def expect (p : Punctuator) : Parser Unit := do
  unless ← accept p do unexpected ["`" ++ p.text ++ "`"]

def expectKeyword (keyword : String) : Parser Unit := do
  unless ← acceptKeyword keyword do unexpected ["`" ++ keyword ++ "`"]

def expectName : Parser String := do
  match (← peek).name? with
  | some name =>
    advance
    return name
  | none => unexpected ["a name"]

/-- How deep selection sets, list values, object values and list types may be nested in each other. -/
def maxNesting : Nat := 64

/-- Fails at the token behind one that opens a level too many. -/
def nestingExceeded : Parser α := do
  let t ← peek
  throw (.new ("maximum nesting depth of " ++ toString maxNesting ++ " exceeded") .nestingExceeded
    t.line t.position)

/-- The parser for the inside of a level, if there is room for another level. -/
def enter (inner : Option (Parser α)) : Parser (Parser α) :=
  match inner with
  | some p => pure p
  | none => nestingExceeded

end Parser
end GraphQL
