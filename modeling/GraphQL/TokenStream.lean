import GraphQL.Token

/-! Tokens in reading order with one token of lookahead. A stream never runs dry: behind its last token
it holds the end of input, right after the token consumed last. -/
namespace GraphQL

/-- The tokens not yet consumed, and the place behind the last one that was. -/
structure TokenStream where
  unread : List Token
  line : Nat
  position : Nat
  deriving DecidableEq

namespace TokenStream

def ofTokens (tokens : List Token) : TokenStream := ⟨tokens, 1, 1⟩

/-- The end of input that a stream without unread tokens shows. -/
def endToken (s : TokenStream) : Token := ⟨.eof, "", s.line, s.position⟩

/-- The next token, which stays in the stream. -/
def peek (s : TokenStream) : Token := s.unread.headD s.endToken

/-- The stream behind its next token. -/
def advance (s : TokenStream) : TokenStream :=
  let t := s.peek
  ⟨s.unread.tail, t.line, t.position + t.literal.length⟩

/-- The next token and the stream behind it. -/
def consume (s : TokenStream) : Token × TokenStream := (s.peek, s.advance)

def isAtEnd (s : TokenStream) : Bool := s.peek.kind = .eof

end TokenStream
end GraphQL
