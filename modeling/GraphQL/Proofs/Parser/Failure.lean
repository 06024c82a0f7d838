import GraphQL.Proofs.Grammar.Symbols
import GraphQL.Proofs.Parser.Conforms.Document
import GraphQL.Proofs.Parser.Input

/-! Where the parser stops. It fails at the first token that no document could have there, having looked
at none behind it. -/
namespace GraphQL

/-- How many tokens the parser of documents has consumed when it ends. -/
def consumedTokens (tokens : List Token) : Nat :=
  match Parser.document (.ofTokens tokens) with
  | .ok _ s | .error _ s => tokens.length - s.unread.length

/-- The error tells what its token is, unless it is about nesting. -/
def SyntaxError.Tells (e : SyntaxError) (t : Token) : Prop :=
  (e.kind = .lexical ↔ t.kind = .illegal) ∧
    ((∃ expected, e.kind = .unexpectedEof expected) ↔ t.kind = .eof) ∧
    ((∃ expected found, e.kind = .unexpectedToken expected found) ↔ t.kind ≠ .illegal ∧ t.kind ≠ .eof) ∧
    e.line = t.line ∧ e.position = t.position

private theorem SyntaxError.Blames.tells {e : SyntaxError} {t : Token} (h : e.Blames t)
    (he : e.kind ≠ .nestingExceeded) : e.Tells t := by
  have hk := h.kind he
  split at hk
  · next ht => exact ⟨by simp [hk, ht], by simp [hk, ht], by simp [hk, ht], h.line, h.position⟩
  · next ht =>
    obtain ⟨expected, hk⟩ := hk
    exact ⟨by simp [hk, ht], by simp [hk, ht], by simp [hk, ht], h.line, h.position⟩
  · next hi he =>
    obtain ⟨expected, found, hk⟩ := hk
    exact ⟨by simpa [hk] using hi, by simpa [hk] using he, by simpa [hk] using ⟨hi, he⟩, h.line, h.position⟩

namespace TokenStream

/-- A stream that agrees with another on the tokens consumed there and on the one behind is consumed in
the same way. -/
theorem Reads.agree {s s' u : TokenStream} {ts : List Token} (h : s.Reads ts s')
    (hu : ∀ i ≤ ts.length, (u.skip i).peek = (s.skip i).peek) :
    u.Reads ts (u.skip ts.length) ∧ (u.skip ts.length).peek = s'.peek := by
  induction h generalizing u with
  | done => exact ⟨.done, hu 0 (Nat.le_refl _)⟩
  | @step s s' ts hk _ ih =>
    have hp : u.peek = s.peek := hu 0 (Nat.zero_le _)
    obtain ⟨hr, he⟩ := ih (u := u.advance) fun i hi => hu (i + 1) (Nat.succ_le_succ hi)
    exact ⟨hp ▸ .step (hp ▸ hk) hr, he⟩

end TokenStream

theorem spelledSymbols_of_not_eof {tokens : List Token} (h : ∀ t ∈ tokens, t.kind ≠ .eof) :
    spelledSymbols tokens = tokens.map Token.bare := by
  induction tokens with
  | nil => rfl
  | cons t ts ih =>
    obtain ⟨ht, hts⟩ := List.forall_mem_cons.mp h
    rw [List.map_cons, ← ih hts]
    simp [spelledSymbols, ht]

/-- Where the parser of documents fails. -/
theorem document_error {tokens : List Token} {e : SyntaxError}
    (h : parseTokens tokens = .error e) :
    ∃ (ts : List Token) (s : TokenStream), (TokenStream.ofTokens tokens).Reads ts s ∧
      consumedTokens tokens = ts.length ∧ e.Blames s.peek ∧
      (∀ u u', u.Reads ts u' → u'.peek = s.peek → Parser.document u = .error e u') ∧
      (e.kind ≠ .nestingExceeded →
        ∃ (d : Document) (w : List Symbol), (d.WellFormed ∧ d.Spells (ts.map Token.bare ++ w))) := by
  unfold parseTokens at h
  cases hr : Parser.document (.ofTokens tokens) with
  | ok d s => simp [hr] at h
  | error e' s =>
    simp only [hr, Except.error.injEq] at h
    subst h
    cases (Parser.Conforms.document (s := .ofTokens tokens)).ends with
    | ok d ts s' run => cases hr.symm.trans run
    | error e' ts s' run reads same blames viable =>
      cases hr.symm.trans run
      have consumed : consumedTokens tokens = ts.length := by
        have length : ts.length + s.unread.length = tokens.length := reads.length_le
        rw [consumedTokens, hr]
        exact Nat.sub_eq_of_eq_add length.symm
      exact ⟨ts, s, reads, consumed, blames, same, viable⟩

/-- The parser fails at the first token that it has not consumed. Inputs that agree up to that token fail
alike, whatever follows. Unless nesting is the reason, what was consumed can be continued to a spelling of
a document and the error tells what the token is. -/
theorem parseTokens_error {tokens : List Token} {e : SyntaxError} (h : parseTokens tokens = .error e) :
    (∀ others, (∀ i ≤ consumedTokens tokens, tokenAt others i = tokenAt tokens i) →
      parseTokens others = .error e) ∧
    (e.kind ≠ .nestingExceeded → ∃ (d : Document) (rest : List Token), d.WellFormed ∧
      (∀ t ∈ tokens.take (consumedTokens tokens) ++ rest, t.kind ≠ .eof) ∧
      d.Spells (spelledSymbols (tokens.take (consumedTokens tokens) ++ rest))) ∧
    (e.kind ≠ .nestingExceeded → e.Tells (tokenAt tokens (consumedTokens tokens))) := by
  obtain ⟨ts, s, reads, consumed, blames, same, viable⟩ := document_error h
  rw [consumed]
  refine ⟨fun others ho => ?_, fun he => ?_, fun he => ?_⟩
  · obtain ⟨hr, hp⟩ := reads.agree ho
    rw [parseTokens, same _ _ hr hp]
  · obtain ⟨d, w, hd, hw⟩ := viable he
    obtain ⟨rest, hrest, rfl⟩ := (AllSpelled.append_iff.mp hw.allSpelled).2.tokens
    have taken : tokens.take ts.length = ts := by
      rw [show tokens = (TokenStream.ofTokens tokens).unread from rfl, reads.unread_eq,
        List.take_left]
    have unended : ∀ t ∈ ts ++ rest, t.kind ≠ .eof :=
      List.forall_mem_append.mpr ⟨reads.not_eof, hrest⟩
    refine ⟨d, rest, hd, taken.symm ▸ unended, ?_⟩
    rw [taken, spelledSymbols_of_not_eof unended, List.map_append]
    exact hw
  · rw [tokenAt, reads.skip_eq]
    exact blames.tells he

/-- A selection set that is never closed. -/
theorem parseTokens_error_unclosed :
    ∃ e, parseTokens (tokenize "\x7ba".toList) = .error e ∧ e.kind ≠ .nestingExceeded ∧
      (∃ (d : Document) (rest : List Token), d.WellFormed ∧
        (∀ t ∈ (tokenize "\x7ba".toList).take 2 ++ rest, t.kind ≠ .eof) ∧
        d.Spells (spelledSymbols ((tokenize "\x7ba".toList).take 2 ++ rest))) ∧
      e.Tells (tokenAt (tokenize "\x7ba".toList) 2) := by
  have h : parseTokens (tokenize "\x7ba".toList) = .error _ := rfl
  have consumed : consumedTokens (tokenize "\x7ba".toList) = 2 := rfl
  obtain ⟨-, viable, tells⟩ := parseTokens_error h
  rw [consumed] at viable tells
  exact ⟨_, h, by decide, viable (by decide), tells (by decide)⟩

end GraphQL
