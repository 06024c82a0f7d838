import GraphQL.Text.CharacterClass

/-! Characters and texts as messages show them: a text in quotes with hidden characters escaped, and
a single character with its code point or in backticks. -/
namespace GraphQL.Text

/-- A character inside quotes. -/
def quoteChar (c : Char) : List Char :=
  match c with
  | '\x00' => ['\\', '0']
  | '\t' => ['\\', 't']
  | '\r' => ['\\', 'r']
  | '\n' => ['\\', 'n']
  | '"' => ['\\', '"']
  | '\\' => ['\\', '\\']
  | c =>
    if isShown c then [c]
    else ['\\', 'u', '\x7b'] ++ Nat.toDigits 16 c.toNat ++ ['\x7d']

/-- A text in quotes. -/
def quote (text : List Char) : String :=
  String.ofList ('"' :: text.flatMap quoteChar ++ ['"'])

/-- The number in hexadecimal, in upper case and with at least four digits. -/
def hex4 (n : Nat) : List Char :=
  let digits := (Nat.toDigits 16 n).map Char.toUpper
  List.replicate (4 - digits.length) '0' ++ digits

/-- The names of the hidden characters that sources are most likely to hold. -/
def characterName? (c : Char) : Option String :=
  match c.toNat with
  | 0x0 => some "NULL"
  | 0x7 => some "BELL"
  | 0x8 => some "BACKSPACE"
  | 0x9 => some "HORIZONTAL TAB"
  | 0xa => some "LINE FEED"
  | 0xb => some "VERTICAL TAB"
  | 0xc => some "FORM FEED"
  | 0xd => some "CARRIAGE RETURN"
  | 0x1b => some "ESCAPE"
  | 0x7f => some "DELETE"
  | 0xa0 => some "NO-BREAK SPACE"
  | 0x2028 => some "LINE SEPARATOR"
  | 0x2029 => some "PARAGRAPH SEPARATOR"
  | _ => none

/-- A character in backticks. Controls and blanks other than the space are given by code point and,
where it has one, name. -/
def describeChar (c : Char) : String :=
  if isControl c || (isSpace c && c != ' ') then
    let code := "U+" ++ String.ofList (hex4 c.toNat)
    match characterName? c with
    | some name => code ++ " (" ++ name ++ ")"
    | none => code
  else "`" ++ c.toString ++ "`"

end GraphQL.Text
