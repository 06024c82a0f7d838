import GraphQL.Text.Quoted
import GraphQL.Token
import GraphQL.Value

/-! Printed text as a row of symbols with gaps between them. A document is laid out first and written
after, so that what it spells can be read off without its spacing. -/
namespace GraphQL

/-- A token without its place. -/
structure Symbol where
  kind : TokenKind
  literal : String
  deriving DecidableEq

def Token.symbol (t : Token) : Symbol := ⟨t.kind, t.literal⟩

/-- A character of a string literal. -/
def escapeChar (c : Char) : List Char :=
  match c with
  | '"' => ['\\', '"']
  | '\\' => ['\\', '\\']
  | '\n' => ['\\', 'n']
  | '\r' => ['\\', 'r']
  | '\t' => ['\\', 't']
  | '\x08' => ['\\', 'b']
  | '\x0c' => ['\\', 'f']
  | c => if c < ' ' then '\\' :: 'u' :: Text.hex4 c.toNat else [c]

/-- The content of a block string with each run of closing quotes escaped. -/
def escapeBlock : List Char → List Char
  | [] => []
  | '"' :: '"' :: '"' :: rest => '\\' :: '"' :: '"' :: '"' :: escapeBlock rest
  | c :: rest => c :: escapeBlock rest

/-- Whether a block string can hold the text: no control character but the tab and line breaks. -/
def isBlockPrintable (text : List Char) : Bool :=
  text.all fun c => ' ' ≤ c || c = '\t' || c = '\n' || c = '\r'

def writeString (text : List Char) : List Char :=
  '"' :: text.flatMap escapeChar ++ ['"']

/-- The content stands on lines of its own. A carriage return at its end would be taken for a part of
the line break behind it, so that one gets a carriage return too. -/
def writeBlockString (text : List Char) : List Char :=
  let quotes := ['"', '"', '"']
  let lineBreak := if text.getLast? = some '\r' then ['\r', '\n'] else ['\n']
  quotes ++ '\n' :: escapeBlock text ++ lineBreak ++ quotes

/-- How a symbol is written. -/
def Symbol.write (s : Symbol) : List Char :=
  match s.kind with
  | .name | .int | .float | .illegal => s.literal.toList
  | .punctuator p => p.text.toList
  | .string => writeString s.literal.toList
  | .blockString => writeBlockString s.literal.toList
  | .eof => []

/-- A part of a printed text. -/
inductive Piece where
  | symbol (s : Symbol)
  | gap (text : String)
  deriving DecidableEq

abbrev Layout := List Piece

namespace Layout

def write (l : Layout) : List Char :=
  l.flatMap fun
    | .symbol s => s.write
    | .gap text => text.toList

/-- What the layout spells. -/
def symbols (l : Layout) : List Symbol :=
  l.filterMap fun
    | .symbol s => some s
    | .gap _ => none

/-- A name or keyword. -/
def word (name : String) : Piece := .symbol ⟨.name, name⟩

def punctuator (p : Punctuator) : Piece := .symbol ⟨.punctuator p, p.text⟩

def space : Piece := .gap " "

/-- A line break and the indentation of the next line, two spaces for each level. -/
def newline (depth : Nat) : Piece :=
  .gap (String.ofList ('\n' :: List.replicate (2 * depth) ' '))

/-- The parts one after another with a separator between each two. -/
def joined (separator : Layout) (parts : List Layout) : Layout :=
  (parts.intersperse separator).flatten

def commaJoined (parts : List Layout) : Layout := joined [.gap ", "] parts

/-- The parts separated by a punctuator with spaces around it. -/
def punctuated (p : Punctuator) (parts : List Layout) : Layout :=
  joined [space, punctuator p, space] parts

/-- The parts in braces, each on a line of its own. -/
def block (depth : Nat) (parts : List Layout) : Layout :=
  punctuator .braceOpen :: parts.flatMap (newline (depth + 1) :: ·) ++
    [newline depth, punctuator .braceClose]

/-- A space and a block, or nothing if there is no part. -/
def optionalBlock (depth : Nat) (parts : List Layout) : Layout :=
  if parts.isEmpty then [] else space :: block depth parts

/-- The parts in parentheses, or nothing if there is none. -/
def optionalParens (parts : List Layout) : Layout :=
  if parts.isEmpty then []
  else punctuator .parenOpen :: commaJoined parts ++ [punctuator .parenClose]

end Layout

/-- A block string that its quotes cannot hold is written as a string. -/
def StringValue.symbol (s : StringValue) : Symbol :=
  ⟨if s.isBlock && isBlockPrintable s.text.toList then .blockString else .string, s.text⟩

end GraphQL
