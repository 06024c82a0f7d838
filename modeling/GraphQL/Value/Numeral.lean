import GraphQL.Binary64
import GraphQL.Lexeme
import GraphQL.Value

/-! The numbers that numeric values stand for. A value built by hand may hold any text, so the readers
here accept more than the grammar of documents does. -/
namespace GraphQL

namespace Numeral

/-- Whether the text starts with a minus sign, and what follows its sign. -/
def splitSign : List Char → Bool × List Char
  | '-' :: rest => (true, rest)
  | '+' :: rest => (false, rest)
  | text => (false, text)

def digitValue (c : Char) : Nat := c.toNat - '0'.toNat

/-- The number that decimal digits write. -/
def ofDigits (ds : List Char) : Nat := ds.foldl (fun n d => 10 * n + digitValue d) 0

/-- The number of a text that is nothing but digits, at least one. -/
def ofDigits? (ds : List Char) : Option Nat :=
  if ds.isEmpty || !ds.all isDigit then none else some (ofDigits ds)

/-- A signed number that is written in digits. -/
def readInt? (text : List Char) : Option Int :=
  let (negative, ds) := splitSign text
  (ofDigits? ds).map fun n => if negative then -n else n

/-- The same if it fits into 64 bits with a sign. -/
def readInt64? (text : List Char) : Option Int :=
  (readInt? text).filter fun i => -0x8000000000000000 ≤ i && i < 0x8000000000000000

/-- What follows the digits of a decimal: nothing, or an exponent. -/
def readExponent? : List Char → Option Int
  | [] => some 0
  | c :: rest => if c = 'e' || c = 'E' then readInt? rest else none

/-- Digits with a point before, between or behind them, and an exponent. The pair `(m, e)` is the
number `m * 10 ^ e`. -/
def readDecimal? (text : List Char) : Option (Nat × Int) := do
  let (whole, rest) := text.span isDigit
  let (fraction, rest) := match rest with
    | '.' :: rest => rest.span isDigit
    | _ => ([], rest)
  let m ← ofDigits? (whole ++ fraction)
  let e ← readExponent? rest
  return (m, e - fraction.length)

/-- Words for what has no digits, in either case. -/
def readWord? (text : List Char) : Option Nat :=
  match String.ofList (text.map Char.toLower) with
  | "inf" | "infinity" => some Binary64.infinityBits
  | "nan" => some Binary64.nanBits
  | _ => none

def readBinary64? (text : List Char) : Option Binary64 :=
  let (negative, rest) := splitSign text
  let magnitude := match readDecimal? rest with
    | some (m, e) => some (Binary64.magnitudeOfDecimal m e)
    | none => readWord? rest
  magnitude.map (.ofParts negative)

end Numeral

namespace Value

/-- The integer that an integer value stands for, if it fits. -/
def int64? : Value → Option Int
  | .int literal => Numeral.readInt64? literal.toList
  | _ => none

/-- The nearest binary number to an integer or float value. -/
def binary64? : Value → Option Binary64
  | .int literal | .float literal => Numeral.readBinary64? literal.toList
  | _ => none

end Value
end GraphQL
