import GraphQL.Proofs.Lexeme.Unbroken
import GraphQL.Proofs.Lexer.Tiling
import GraphQL.Proofs.Parser.Failure
import GraphQL.Proofs.Parser.Raises.Document

/-! The underline of an error about an unexpected token. It begins under the token and has as many characters as the
token's literal, which are not those of the source where the literal is decoded. -/
namespace GraphQL

namespace Lexer

theorem length_string {l : Lexer} (h : l.scan.token.kind = .string) :
    l.scan.token.literal.length + 2 ≤ l.scan.extent.length := by
  revert h
  unfold scan
  split
  next gap text hs =>
  cases text with
  | nil => exact nofun
  | cons c text => exact Lexeme.length_string c text

end Lexer

end GraphQL
