/-! Lines and columns of a text. A carriage return followed by a line feed is one line break, and so
is each of the two alone. -/
namespace GraphQL

/-- A place in a text: its line, counted from one, and how many characters of the line precede it. -/
structure Cursor where
  line : Nat
  column : Nat
  /-- Whether the character before was a carriage return, whose line feed breaks no second line. -/
  afterReturn : Bool
  deriving DecidableEq

namespace Cursor

/-- The start of a text. -/
def start : Cursor := ⟨1, 0, false⟩

/-- The place behind one more character. -/
def step (here : Cursor) (c : Char) : Cursor :=
  if c = '\n' then
    if here.afterReturn then { here with afterReturn := false } else ⟨here.line + 1, 0, false⟩
  else if c = '\r' then ⟨here.line + 1, 0, true⟩
  else ⟨here.line, here.column + 1, false⟩

/-- The place behind a text that starts here. -/
def advance (here : Cursor) (text : List Char) : Cursor :=
  text.foldl step here

/-- The place behind `n` characters of one line, passed at once. -/
def forward (here : Cursor) (n : Nat) : Cursor := ⟨here.line, here.column + n, false⟩

/-- The column counted from one. -/
def position (here : Cursor) : Nat := here.column + 1

end Cursor

/-- The line and the position behind a text that starts behind `column` characters of a line. -/
def positionFrom (line column : Nat) (afterReturn : Bool) : List Char → Nat × Nat
  | [] => (line, column + 1)
  | c :: text =>
    if c = '\n' && afterReturn then positionFrom line column false text
    else if c = '\n' || c = '\r' then positionFrom (line + 1) 0 (c = '\r') text
    else positionFrom line (column + 1) false text

/-- The line and the position behind a text, both counted from one. -/
def positionAfter (text : List Char) : Nat × Nat := positionFrom 1 0 false text

/-- The lines of a text without their line breaks; there is always at least one. -/
def textLines : List Char → List (List Char)
  | [] => [[]]
  | '\r' :: '\n' :: rest => [] :: textLines rest
  | '\r' :: rest => [] :: textLines rest
  | '\n' :: rest => [] :: textLines rest
  | c :: rest =>
    match textLines rest with
    | [] => [[c]]
    | line :: lines => (c :: line) :: lines

end GraphQL
