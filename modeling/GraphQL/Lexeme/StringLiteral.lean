import GraphQL.Lexeme
import GraphQL.Text.Quoted

/-! String and block string literals. A string holds characters and escapes; escaped code units are
decoded as UTF-16. In a block string only the closing quotes can be escaped. -/
namespace GraphQL.StringLiteral

/-- What follows an opening quote: the content up to the closing quote, or why there is none. The
extent covers all that was read. -/
inductive Body (α : Type) where
  | closed (content : List α) (extent rest : List Char)
  | malformed (diagnosis : String) (extent rest : List Char)
  deriving DecidableEq

variable {α β : Type}

/-- The same body behind some more content that covers the characters `cs`. -/
def Body.behind (content : List α) (cs : List Char) : Body α → Body α
  | closed more extent rest => closed (content ++ more) (cs ++ extent) rest
  | malformed diagnosis extent rest => malformed diagnosis (cs ++ extent) rest

/-- The token of a literal whose opening quotes are `quotes`. -/
def Body.lexeme (kind : TokenKind) (quotes : List Char) (decode : List α → List Char) :
    Body α → Lexeme
  | closed content extent rest =>
    ⟨kind, String.ofList (decode content), quotes ++ extent, rest⟩
  | malformed diagnosis extent rest => .illegal diagnosis (quotes ++ extent) rest

/-- A character of a string, or a code unit that an escape gives by number. -/
inductive Unit16 where
  | char (c : Char)
  | unit (n : Nat)
  deriving DecidableEq

def isHighSurrogate (n : Nat) : Bool := 0xd800 ≤ n && n ≤ 0xdbff

def isLowSurrogate (n : Nat) : Bool := 0xdc00 ≤ n && n ≤ 0xdfff

/-- The character of a code unit; a surrogate has none and is replaced. -/
def charOfUnit (n : Nat) : Char :=
  if isHighSurrogate n || isLowSurrogate n then '\ufffd' else Char.ofNat n

/-- The character that a high and a low surrogate stand for together. -/
def charOfPair (high low : Nat) : Char :=
  Char.ofNat (0x10000 + (high - 0xd800) * 0x400 + (low - 0xdc00))

/-- Joins each high surrogate with a low one right behind it and replaces all other surrogates. -/
def decodeUnits : List Unit16 → List Char
  | [] => []
  | .char c :: rest => c :: decodeUnits rest
  | .unit high :: .unit low :: rest =>
    if isHighSurrogate high && isLowSurrogate low then charOfPair high low :: decodeUnits rest
    else charOfUnit high :: decodeUnits (.unit low :: rest)
  | .unit n :: rest => charOfUnit n :: decodeUnits rest

/-- The value of a hexadecimal digit in either case. -/
def hexDigit? (c : Char) : Option Nat :=
  if '0' ≤ c && c ≤ '9' then some (c.toNat - '0'.toNat)
  else if 'a' ≤ c && c ≤ 'f' then some (c.toNat - 'a'.toNat + 10)
  else if 'A' ≤ c && c ≤ 'F' then some (c.toNat - 'A'.toNat + 10)
  else none

/-- The number written by four hexadecimal digits. -/
def hexQuad? (a b c d : Char) : Option Nat := do
  return (((← hexDigit? a) * 16 + (← hexDigit? b)) * 16 + (← hexDigit? c)) * 16 + (← hexDigit? d)

/-- The character of an escape with a single letter. -/
def simpleEscape? : Char → Option Char
  | '"' => some '"'
  | '\\' => some '\\'
  | '/' => some '/'
  | 'b' => some '\x08'
  | 'f' => some '\x0c'
  | 'n' => some '\n'
  | 'r' => some '\r'
  | 't' => some '\t'
  | _ => none

def badEscape (shown rest : List Char) : Body α :=
  .malformed ("invalid character escape sequence: \\" ++ String.ofList shown) ('\\' :: shown) rest

/-- A code unit escape with fewer than four digits. It is shown with the character that stands where
a digit is due, unless that is the closing quote. -/
def badQuad (text : List Char) : Body α :=
  match text.span fun c => (hexDigit? c).isSome with
  | (ds, []) => badEscape ('u' :: ds) []
  | (ds, c :: rest) =>
    if c = '"' then badEscape ('u' :: ds) (c :: rest) else badEscape ('u' :: ds ++ [c]) rest

/-- What follows the opening quote of a string. Control characters other than the tab end it. -/
def body : List Char → Body Unit16
  | [] => .malformed "unterminated string" [] []
  | '"' :: rest => .closed [] ['"'] rest
  | ['\\'] => .malformed "unterminated string" ['\\'] []
  | '\\' :: 'u' :: text =>
    match text with
    | a :: b :: c :: d :: rest =>
      match hexQuad? a b c d with
      | some n => (body rest).behind [.unit n] ['\\', 'u', a, b, c, d]
      | none => badQuad text
    | _ => badQuad text
  | '\\' :: c :: rest =>
    match simpleEscape? c with
    | some e => (body rest).behind [.char e] ['\\', c]
    | none => badEscape [c] rest
  | c :: rest =>
    if c < ' ' && c != '\t' then
      .malformed ("invalid character within string: " ++ Text.describeChar c) [c] rest
    else (body rest).behind [.char c] [c]

/-- Control characters that a block string may not hold. -/
def isBlockControl (c : Char) : Bool :=
  c < ' ' && c != '\t' && c != '\n' && c != '\r'

/-- What follows the opening quotes of a block string. -/
def blockBody : List Char → Body Char
  | [] => .malformed "unterminated block string" [] []
  | '"' :: '"' :: '"' :: rest => .closed [] ['"', '"', '"'] rest
  | '\\' :: '"' :: '"' :: '"' :: rest =>
    (blockBody rest).behind ['"', '"', '"'] ['\\', '"', '"', '"']
  | c :: rest =>
    if isBlockControl c then
      .malformed ("invalid character within block string: " ++ Text.describeChar c) [c] rest
    else (blockBody rest).behind [c] [c]

/-- The text without the character `c` at its head. -/
def dropFirst (c : Char) : List Char → List Char
  | [] => []
  | d :: text => if d = c then text else d :: text

/-- The text without the character `c` at its end. -/
def dropLast (c : Char) (text : List Char) : List Char :=
  if text.getLast? = some c then text.dropLast else text

/-- Takes one line break off each end. Indentation stays. -/
def trimBlock (content : List Char) : List Char :=
  dropLast '\r' (dropLast '\n' (dropFirst '\n' (dropFirst '\r' content)))

/-- The literal at the head of a text that starts with a quote. -/
def lexeme : List Char → Lexeme
  | '"' :: '"' :: '"' :: rest => (blockBody rest).lexeme .blockString ['"', '"', '"'] trimBlock
  | text => (body text.tail).lexeme .string ['"'] decodeUnits

end GraphQL.StringLiteral
