import GraphQL.Proofs.Parser.Input
import GraphQL.TokenStream.Buffered

/-! A buffered stream answers like a stream that looks ahead without changing: each answer hangs on the tokens and on
how many of them were consumed before, and on no earlier look. -/
namespace GraphQL

namespace BufferedStream
open TokenStream (Call Answer)

/-- The buffered stream shows the tokens of the other. What waits in its buffer is unread, or it is the end of input
behind a dry source, with the place where the other has it. -/
inductive Represents : BufferedStream → TokenStream → Prop where
  | unread (source buffer : List Token) (line position : Nat) :
    Represents ⟨source, buffer, line, position⟩ ⟨buffer ++ source, line, position⟩
  | ended (line position : Nat) :
    Represents ⟨[], [⟨.eof, "", line, position⟩], line, position⟩ ⟨[], line, position⟩

namespace Represents
variable {b : BufferedStream} {s : TokenStream}

theorem ofTokens (tokens : List Token) : (BufferedStream.ofTokens tokens).Represents (.ofTokens tokens) :=
  .unread tokens [] 1 1

/-- Looking ahead finds the next token and leaves it there. -/
theorem peek (h : b.Represents s) : b.peek.1 = s.peek ∧ b.peek.2.Represents s := by
  cases h with
  | ended line position => exact ⟨rfl, .ended line position⟩
  | unread source buffer line position =>
    cases buffer with
    | cons t buffer =>
      refine ⟨rfl, ?_⟩
      simpa [BufferedStream.peek, fill] using unread source (t :: buffer) line position
    | nil =>
      cases source with
      | nil => exact ⟨rfl, .ended line position⟩
      | cons t source => exact ⟨rfl, .unread source [t] line position⟩

theorem consume (h : b.Represents s) : b.consume.1 = s.peek ∧ b.consume.2.Represents s.advance := by
  cases h with
  | ended line position => exact ⟨rfl, .unread [] [] line position⟩
  | unread source buffer line position =>
    cases buffer with
    | cons t buffer =>
      refine ⟨rfl, ?_⟩
      simpa [BufferedStream.consume, fill, TokenStream.advance, TokenStream.peek] using
        unread source buffer t.line (t.position + t.literal.length)
    | nil =>
      cases source with
      | nil => exact ⟨rfl, .unread [] [] line position⟩
      | cons t source => exact ⟨rfl, .unread source [] t.line (t.position + t.literal.length)⟩

/-- One call, whichever it is. -/
theorem call (h : b.Represents s) (c : Call) : (b.call c).1 = (s.call c).1 ∧ (b.call c).2.Represents (s.call c).2 := by
  cases c with
  | peek => exact ⟨congrArg Answer.token h.peek.1, h.peek.2⟩
  | consume => exact ⟨congrArg Answer.token h.consume.1, h.consume.2⟩
  | isAtEnd =>
    refine ⟨congrArg Answer.atEnd ?_, h.peek.2⟩
    simp [BufferedStream.isAtEnd, TokenStream.isAtEnd, h.peek.1]

theorem answers_eq (h : b.Represents s) (calls : List Call) : b.answers calls = s.answers calls := by
  induction calls generalizing b s with
  | nil => rfl
  | cons c calls ih =>
    obtain ⟨same, next⟩ := h.call c
    exact List.cons_eq_cons.mpr ⟨same, ih next⟩

end Represents
end BufferedStream

namespace TokenStream

/-- The end of input right behind a token. -/
def endBehind (t : Token) : Token := ⟨.eof, "", t.line, t.position + t.literal.length⟩

/-- What a call answers where the next token is `t`. -/
def Call.answerAt (t : Token) : Call → Answer
  | .peek | .consume => .token t
  | .isAtEnd => .atEnd (t.kind = .eof)

section
variable (s : TokenStream)

theorem call_answer (c : Call) : (s.call c).1 = c.answerAt s.peek := by cases c <;> rfl

/-- Only consuming moves on. -/
theorem skip_call (c : Call) (calls : List Call) :
    (s.call c).2.skip (calls.count .consume) = s.skip ((c :: calls).count .consume) := by
  cases c with
  | consume => rw [List.count_cons_self]; rfl
  | peek => rw [List.count_cons_of_ne (by decide)]; rfl
  | isAtEnd => rw [List.count_cons_of_ne (by decide)]; rfl

@[simp] theorem length_answers (calls : List Call) : (s.answers calls).length = calls.length := by
  induction calls generalizing s with
  | nil => rfl
  | cons c calls ih => exact congrArg Nat.succ (ih _)

/-- Later calls start where the earlier ones have consumed to. -/
theorem answers_append (before after : List Call) :
    s.answers (before ++ after) = s.answers before ++ (s.skip (before.count .consume)).answers after := by
  induction before generalizing s with
  | nil => rfl
  | cons c before ih => exact congrArg _ ((ih (s.call c).2).trans (by rw [skip_call]; rfl))

/-- Each answer is about the token behind those consumed before. -/
theorem getElem?_answers (calls : List Call) (j : Nat) :
    (s.answers calls)[j]? = calls[j]?.map (Call.answerAt (s.skip ((calls.take j).count .consume)).peek) := by
  induction calls generalizing s j with
  | nil => rfl
  | cons c calls ih =>
    cases j with
    | zero => exact congrArg some (s.call_answer c)
    | succ j => exact (ih (s.call c).2 j).trans (by rw [skip_call]; rfl)

/-- Looks among the calls leave the other answers as they are. -/
theorem answers_looks (before looks after : List Call) (h : ∀ c ∈ looks, c ≠ .consume) :
    s.answers (before ++ after) = (s.answers (before ++ looks ++ after)).take before.length ++
      (s.answers (before ++ looks ++ after)).drop (before.length + looks.length) := by
  have none_consumed : looks.count .consume = 0 := List.count_eq_zero.mpr fun mem => h _ mem rfl
  have without := s.answers_append before after
  have between := s.answers_append (before ++ looks) after
  rw [List.count_append, none_consumed, Nat.add_zero, s.answers_append before looks] at between
  rw [without, between, List.drop_left' (by simp), List.append_assoc, List.take_left' (s.length_answers before)]

end

theorem unread_skip (k : Nat) (s : TokenStream) : (s.skip k).unread = s.unread.drop k := by
  induction k generalizing s with
  | zero => rfl
  | succ k ih => rw [skip, ih, advance, List.drop_tail]

theorem skip_succ (k : Nat) (s : TokenStream) : s.skip (k + 1) = (s.skip k).advance := by
  induction k generalizing s with
  | zero => rfl
  | succ k ih => exact ih s.advance

theorem peek_of_unread {s : TokenStream} (h : s.unread = []) : s.peek = s.endToken := by rw [peek, h]; rfl

end TokenStream

variable {tokens : List Token} {k : Nat}

theorem tokenAt_of_lt (h : k < tokens.length) : tokenAt tokens k = tokens[k] := by
  rw [tokenAt, TokenStream.peek, TokenStream.unread_skip, TokenStream.ofTokens, List.drop_eq_getElem_cons h]
  rfl

/-- Behind the tokens every further one is the end of input, right behind the one before. -/
theorem tokenAt_succ (h : tokens.length ≤ k + 1) :
    tokenAt tokens (k + 1) = TokenStream.endBehind (tokenAt tokens k) := by
  have dry : (TokenStream.skip (k + 1) (.ofTokens tokens)).unread = [] := by
    rw [TokenStream.unread_skip]
    exact List.drop_eq_nil_of_le h
  rw [tokenAt, TokenStream.peek_of_unread dry, TokenStream.skip_succ]
  rfl

namespace BufferedStream
open TokenStream (Call Answer)

/-- Looking ahead is invisible. Each answer is about the token that the next consumption delivers: the tokens one after
another, and then ends of input, each right behind the token delivered before. Looks put in or left out anywhere change
no other answer, and the stream that parsers read answers the same. -/
theorem answers_ofTokens (tokens : List Token) :
    (∀ calls j, ((ofTokens tokens).answers calls)[j]? =
      calls[j]?.map (Call.answerAt (tokenAt tokens ((calls.take j).count .consume)))) ∧
    (∀ k (h : k < tokens.length), tokenAt tokens k = tokens[k]) ∧
    (tokens = [] → tokenAt tokens 0 = ⟨.eof, "", 1, 1⟩) ∧
    (∀ k, tokens.length ≤ k + 1 → tokenAt tokens (k + 1) = TokenStream.endBehind (tokenAt tokens k)) ∧
    (∀ before looks after, (∀ c ∈ looks, c ≠ .consume) →
      (ofTokens tokens).answers (before ++ after) =
        ((ofTokens tokens).answers (before ++ looks ++ after)).take before.length ++
          ((ofTokens tokens).answers (before ++ looks ++ after)).drop (before.length + looks.length)) ∧
    (∀ calls, (ofTokens tokens).answers calls = (TokenStream.ofTokens tokens).answers calls) := by
  have same := (Represents.ofTokens tokens).answers_eq
  refine ⟨?_, fun k => tokenAt_of_lt, ?_, fun k => tokenAt_succ, ?_, same⟩
  · intro calls j
    rw [same]
    exact TokenStream.getElem?_answers _ calls j
  · rintro rfl
    rfl
  · intro before looks after h
    rw [same, same]
    exact TokenStream.answers_looks _ before looks after h

/-- Two looks past the end, where the buffer holds an end of input that the source never had. -/
theorem answers_ofTokens_pastEnd :
    (ofTokens [⟨.name, "ab", 1, 1⟩]).answers [.consume, .peek, .isAtEnd, .consume] =
      [.token ⟨.name, "ab", 1, 1⟩, .token ⟨.eof, "", 1, 3⟩, .atEnd true, .token ⟨.eof, "", 1, 3⟩] ∧
    (ofTokens [⟨.name, "ab", 1, 1⟩]).answers [.consume, .consume] =
      [.token ⟨.name, "ab", 1, 1⟩, .token ⟨.eof, "", 1, 3⟩] := by
  have answered : (ofTokens [⟨.name, "ab", 1, 1⟩]).answers [.consume, .peek, .isAtEnd, .consume] =
      [.token ⟨.name, "ab", 1, 1⟩, .token ⟨.eof, "", 1, 3⟩, .atEnd true, .token ⟨.eof, "", 1, 3⟩] := by decide
  obtain ⟨-, -, -, -, invisible, -⟩ := answers_ofTokens [⟨.name, "ab", 1, 1⟩]
  have without := invisible [.consume] [.peek, .isAtEnd] [.consume] (by decide)
  refine ⟨answered, without.trans ?_⟩
  simp only [List.cons_append, List.nil_append, answered]
  rfl

end BufferedStream
end GraphQL
