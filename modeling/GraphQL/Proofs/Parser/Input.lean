import GraphQL.Proofs.Parser.Reads

/-! The tokens that a parser is given. It starts at the first one and is at the end of input where none is
left or where one says so. -/
namespace GraphQL

/-- What stands before the end of input. -/
def spelledSymbols (tokens : List Token) : List Symbol :=
  (tokens.takeWhile (·.kind ≠ .eof)).map Token.bare

namespace TokenStream

/-- The stream behind its next `k` tokens. -/
def skip : (k : Nat) → TokenStream → TokenStream
  | 0, s => s
  | k + 1, s => skip k s.advance

/-- The tokens before the end of input lead to the end. -/
theorem reads_end (s : TokenStream) :
    ∃ s', s.Reads (s.unread.takeWhile (·.kind ≠ .eof)) s' ∧ s'.peek.kind = .eof := by
  obtain ⟨ts, line, position⟩ := s
  induction ts generalizing line position with
  | nil => exact ⟨_, .done, rfl⟩
  | cons t ts ih =>
    by_cases hk : t.kind = .eof
    · exact ⟨⟨t :: ts, line, position⟩, by simpa [hk] using .done, hk⟩
    · obtain ⟨s', hr, he⟩ := ih t.line (t.position + t.literal.length)
      have step : Reads ⟨t :: ts, line, position⟩ (t :: ts.takeWhile (·.kind ≠ .eof)) s' := .step hk hr
      exact ⟨s', by simpa [hk] using step, he⟩

/-- What lies before the end of input is determined. -/
theorem Reads.takeWhile_eq {s s' : TokenStream} {ts : List Token} (h : s.Reads ts s')
    (he : s'.peek.kind = .eof) : s.unread.takeWhile (·.kind ≠ .eof) = ts := by
  have hn : s'.unread.takeWhile (·.kind ≠ .eof) = [] := by
    obtain ⟨vs, line, position⟩ := s'
    cases vs with
    | nil => rfl
    | cons t vs =>
      have ht : t.kind = .eof := he
      simp [ht]
  rw [h.unread_eq, List.takeWhile_append_of_pos (by simpa using h.not_eof), hn, List.append_nil]

theorem Reads.skip_eq {s s' : TokenStream} {ts : List Token} (h : s.Reads ts s') :
    s.skip ts.length = s' := by
  induction h with
  | done => rfl
  | step _ _ ih => exact ih

end TokenStream

/-- The token at a place in the input, counted from zero. Behind the last one there is the end of input,
right after it. -/
def tokenAt (tokens : List Token) (k : Nat) : Token := ((TokenStream.ofTokens tokens).skip k).peek

end GraphQL
