import GraphQL.TokenStream

/-! A token stream over a source that hands out each token once. Tokens that were looked at wait in a buffer, so every
call changes the stream, looking ahead as well. -/
namespace GraphQL

/-- The tokens that the source still has, those pulled out of it and not consumed, and the place behind the last one
consumed. -/
structure BufferedStream where
  source : List Token
  buffer : List Token
  line : Nat
  position : Nat
  deriving DecidableEq

namespace BufferedStream

def ofTokens (tokens : List Token) : BufferedStream := ⟨tokens, [], 1, 1⟩

/-- Pulls tokens until the buffer holds `count` of them or the source is dry. -/
def fill (count : Nat) (s : BufferedStream) : BufferedStream :=
  let missing := count - s.buffer.length
  { s with source := s.source.drop missing, buffer := s.buffer ++ s.source.take missing }

/-- The end of input that a dry source is followed by. -/
def endToken (s : BufferedStream) : Token := ⟨.eof, "", s.line, s.position⟩

/-- The next token, which is in the buffer afterwards, even if it is the end of input behind a dry source. -/
def peek (s : BufferedStream) : Token × BufferedStream :=
  let s := s.fill 1
  match s.buffer with
  | t :: _ => (t, s)
  | [] => (s.endToken, { s with buffer := [s.endToken] })

/-- The next token and the stream behind it. -/
def consume (s : BufferedStream) : Token × BufferedStream :=
  let s := s.fill 1
  let t := s.buffer.headD s.endToken
  (t, ⟨s.source, s.buffer.tail, t.line, t.position + t.literal.length⟩)

def isAtEnd (s : BufferedStream) : Bool × BufferedStream :=
  let (t, s) := s.peek
  (t.kind = .eof, s)

end BufferedStream

namespace TokenStream

/-- What can be asked of a stream. -/
inductive Call where
  | peek
  | consume
  | isAtEnd
  deriving DecidableEq

inductive Answer where
  | token (t : Token)
  | atEnd (yes : Bool)
  deriving DecidableEq

/-- The answers to calls one after another, by what a single call does. -/
def Call.answers {σ : Type} (call : Call → σ → Answer × σ) : List Call → σ → List Answer
  | [], _ => []
  | c :: calls, s => (call c s).1 :: answers call calls (call c s).2

def call (s : TokenStream) : Call → Answer × TokenStream
  | .peek => (.token s.peek, s)
  | .consume => (.token s.consume.1, s.consume.2)
  | .isAtEnd => (.atEnd s.isAtEnd, s)

def answers (s : TokenStream) (calls : List Call) : List Answer := Call.answers (fun c s => s.call c) calls s

end TokenStream

namespace BufferedStream
open TokenStream (Call Answer)

def call (s : BufferedStream) : Call → Answer × BufferedStream
  | .peek => (.token s.peek.1, s.peek.2)
  | .consume => (.token s.consume.1, s.consume.2)
  | .isAtEnd => (.atEnd s.isAtEnd.1, s.isAtEnd.2)

def answers (s : BufferedStream) (calls : List Call) : List Answer := Call.answers (fun c s => s.call c) calls s

end BufferedStream
end GraphQL
