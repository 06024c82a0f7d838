import GraphQL.Proofs.Grammar.Spelling
import GraphQL.TokenStream

/-! The tokens between two states of a stream. None of them is the end of input, which nothing consumes,
so they stand at the head of the tokens that are unread. -/
namespace GraphQL.TokenStream

/-- Consuming the tokens `ts` leads from one stream to another. -/
inductive Reads : TokenStream → List Token → TokenStream → Prop where
  | done {s : TokenStream} : Reads s [] s
  | step {s s' : TokenStream} {ts : List Token} (h : s.peek.kind ≠ .eof)
      (rest : Reads s.advance ts s') : Reads s (s.peek :: ts) s'

theorem unread_of_peek {s : TokenStream} (h : s.peek.kind ≠ .eof) :
    s.unread = s.peek :: s.advance.unread := by
  obtain ⟨ts, line, position⟩ := s
  cases ts with
  | nil => exact absurd rfl h
  | cons t ts => rfl

namespace Reads
variable {s s' s'' u : TokenStream} {ts vs : List Token}

theorem one (h : s.peek.kind ≠ .eof) : Reads s [s.peek] s.advance := .step h .done

theorem append (h : s.Reads ts s') (h' : s'.Reads vs s'') : s.Reads (ts ++ vs) s'' := by
  induction h with
  | done => exact h'
  | step h _ ih => exact .step h (ih h')

theorem split (h : s.Reads (ts ++ vs) s'') : ∃ s', s.Reads ts s' ∧ s'.Reads vs s'' := by
  induction ts generalizing s with
  | nil => exact ⟨s, .done, h⟩
  | cons t ts ih =>
    cases h with
    | step h rest =>
      obtain ⟨s', hl, hr⟩ := ih rest
      exact ⟨s', .step h hl, hr⟩

theorem unread_eq (h : s.Reads ts s') : s.unread = ts ++ s'.unread := by
  induction h with
  | done => rfl
  | step h _ ih => rw [unread_of_peek h, ih, List.cons_append]

theorem length_le (h : s.Reads ts s') : ts.length + s'.unread.length = s.unread.length := by
  rw [h.unread_eq, List.length_append]

theorem not_eof (h : s.Reads ts s') : ∀ t ∈ ts, t.kind ≠ .eof := by
  induction h with
  | done => simp
  | step h _ ih => simpa [h] using ih

theorem nil_iff : s.Reads [] s' ↔ s' = s := by
  constructor
  · intro h
    cases h
    rfl
  · rintro rfl
    exact .done

/-- The next token is the first of those consumed, or the one behind them. -/
theorem peek_eq (h : s.Reads ts s') : s.peek = ts.headD s'.peek := by
  cases h <;> rfl

/-- Two streams that agree on the tokens consumed and on the token behind agree on the next token. -/
theorem peek_congr (h : s.Reads ts s') (h' : u.Reads ts s'') (hp : s''.peek = s'.peek) :
    u.peek = s.peek := by
  rw [h.peek_eq, h'.peek_eq, hp]

end Reads
end GraphQL.TokenStream
