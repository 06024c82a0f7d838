import GraphQL.Lexeme.Ignored
import GraphQL.Lexeme.Number
import GraphQL.Lexeme.StringLiteral
import GraphQL.Text.Location

/-! The tokens of a source text. Malformed input gives an illegal token and lexing goes on behind it. -/
namespace GraphQL

namespace Lexeme

/-- Three dots, or the fault of fewer. It shows the three characters found there. -/
def dots : List Char → Lexeme
  | '.' :: '.' :: '.' :: rest => ⟨.punctuator .ellipsis, "...", ['.', '.', '.'], rest⟩
  | text =>
    let (extent, rest) := text.span (· = '.')
    .illegal ("invalid punctuator, expected \"...\" but got: " ++ Text.quote (text.take 3))
      extent rest

def name (text : List Char) : Lexeme :=
  let (extent, rest) := text.span isNameChar
  ⟨.name, String.ofList extent, extent, rest⟩

/-- The token at the head of the text `c :: rest`. A character that starts no token is one itself. -/
def read (c : Char) (rest : List Char) : Lexeme :=
  if c = '.' then dots (c :: rest)
  else if c = '"' then StringLiteral.lexeme (c :: rest)
  else if c = '-' || isDigit c then Number.lexeme (c :: rest)
  else if isNameStart c then name (c :: rest)
  else
    match Punctuator.ofChar? c with
    | some p => ⟨.punctuator p, p.text, [c], rest⟩
    | none => .illegal c.toString [c] rest

/-- The place behind the characters of a token. A name and three dots are passed at once. -/
def pass (x : Lexeme) (here : Cursor) : Cursor :=
  match x.kind with
  | .name | .punctuator .ellipsis => here.forward x.extent.length
  | _ => here.advance x.extent

end Lexeme

/-- The place behind ignored characters. A comment is passed at once where it ends; `comment` counts the
characters of one that has begun. -/
def Cursor.passIgnored (here : Cursor) : (comment : Option Nat) → List Char → Cursor
  | none, [] => here
  | none, c :: text =>
    if c = '#' then here.passIgnored (some 1) text else (here.step c).passIgnored none text
  | some n, [] => here.forward n
  | some n, c :: text =>
    if isLineBreak c then ((here.forward n).step c).passIgnored none text
    else here.passIgnored (some (n + 1)) text

/-- The text that is left to lex, the place where it starts, and whether the end of input has been
handed out. -/
structure Lexer where
  rest : List Char
  cursor : Cursor
  finished : Bool
  deriving DecidableEq

/-- One step of a lexer: the text skipped, the text of the token, the token, and the lexer behind. -/
structure Scan where
  gap : List Char
  extent : List Char
  token : Token
  next : Lexer
  deriving DecidableEq

namespace Lexer

def ofSource (source : List Char) : Lexer := ⟨source, .start, false⟩

/-- Skips what is ignored and reads a token. At the end of the text this is the end of input, as often
as it is asked for. -/
def scan (l : Lexer) : Scan :=
  let (gap, text) := splitIgnored false l.rest
  let here := l.cursor.passIgnored none gap
  match text with
  | [] => ⟨gap, [], ⟨.eof, "", here.line, here.position⟩, ⟨[], here, l.finished⟩⟩
  | c :: text =>
    let x := Lexeme.read c text
    ⟨gap, x.extent, ⟨x.kind, x.literal, here.line, here.position⟩,
      ⟨x.rest, x.pass here, l.finished⟩⟩

/-- The next token of an iteration, which hands out the end of input once and then ends. -/
def next (l : Lexer) : Option Token × Lexer :=
  if l.finished then (none, l)
  else
    let s := l.scan
    (some s.token, { s.next with finished := s.token.kind = .eof })

/-- The steps up to the end of input, at most `fuel` of them. -/
def scansUpTo : (fuel : Nat) → Lexer → List Scan
  | 0, _ => []
  | fuel + 1, l =>
    let s := l.scan
    if s.token.kind = .eof then [s] else s :: scansUpTo fuel s.next

/-- All steps on a text. Each but the last takes a character, which bounds their number. -/
def scans (l : Lexer) : List Scan :=
  l.scansUpTo (l.rest.length + 1)

end Lexer

/-- The tokens of a text; the end of input is the last and the only one of its kind. -/
def tokenize (source : List Char) : List Token :=
  (Lexer.ofSource source).scans.map (·.token)

end GraphQL
