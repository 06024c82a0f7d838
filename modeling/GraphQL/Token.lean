/-! Lexical tokens. Keywords are names: what a name means depends on where it stands. -/
namespace GraphQL

inductive Punctuator where
  | ampersand
  | atSign
  | bang
  | colon
  | braceClose
  | braceOpen
  | dollar
  | ellipsis
  | equals
  | parenClose
  | parenOpen
  | pipe
  | bracketClose
  | bracketOpen
  deriving DecidableEq

namespace Punctuator

/-- How the punctuator is written. -/
def text : Punctuator → String
  | ampersand => "&"
  | atSign => "@"
  | bang => "!"
  | colon => ":"
  | braceClose => "\x7d"
  | braceOpen => "\x7b"
  | dollar => "$"
  | ellipsis => "..."
  | equals => "="
  | parenClose => ")"
  | parenOpen => "("
  | pipe => "|"
  | bracketClose => "]"
  | bracketOpen => "["

/-- The punctuator written with this one character. The ellipsis takes three. -/
def ofChar? : Char → Option Punctuator
  | '&' => some ampersand
  | '@' => some atSign
  | '!' => some bang
  | ':' => some colon
  | '}' => some braceClose
  | '{' => some braceOpen
  | '$' => some dollar
  | '=' => some equals
  | ')' => some parenClose
  | '(' => some parenOpen
  | '|' => some pipe
  | ']' => some bracketClose
  | '[' => some bracketOpen
  | _ => none

end Punctuator

inductive TokenKind where
  | name
  | punctuator (p : Punctuator)
  | int
  | float
  | string
  | blockString
  /-- A malformed token. Its literal is a diagnosis, or the single character that starts no token. -/
  | illegal
  | eof
  deriving DecidableEq

/-- How messages call a kind of token. -/
def TokenKind.describe : TokenKind → String
  | name => "name"
  | punctuator p => p.text
  | int => "int"
  | float => "float"
  | string => "string"
  | blockString => "block string"
  | illegal => "illegal token"
  | eof => "end of input"

/-- A token with the line and the position on that line, both counted from one, where it starts. The
literal of a string is its decoded content. -/
structure Token where
  kind : TokenKind
  literal : String
  line : Nat
  position : Nat
  deriving DecidableEq

namespace Token

/-- Whether the token is a name spelled like the keyword. -/
def isKeyword (t : Token) (keyword : String) : Bool :=
  t.kind = .name && t.literal == keyword

/-- The literal of a name. -/
def name? (t : Token) : Option String :=
  if t.kind = .name then some t.literal else none

end Token
end GraphQL
