import GraphQL.Token

/-! The token at the head of a text together with the characters that it takes. Nothing here looks at
what stands before the token. -/
namespace GraphQL

/-- A token without its place, the characters of the source that it covers and those behind it. -/
structure Lexeme where
  kind : TokenKind
  literal : String
  extent : List Char
  rest : List Char
  deriving DecidableEq

/-- A malformed token with its diagnosis. -/
def Lexeme.illegal (diagnosis : String) (extent rest : List Char) : Lexeme :=
  ⟨.illegal, diagnosis, extent, rest⟩

def isDigit (c : Char) : Bool := '0' ≤ c && c ≤ '9'

/-- The first character of a name: an underscore or an ASCII letter. -/
def isNameStart (c : Char) : Bool :=
  c = '_' || ('a' ≤ c && c ≤ 'z') || ('A' ≤ c && c ≤ 'Z')

def isNameChar (c : Char) : Bool := isNameStart c || isDigit c

end GraphQL
