import GraphQL.Proofs.Lexeme.Readable
import GraphQL.Proofs.Parser.Input

/-! The symbols of a text. They are found without regard to places, and are those of its tokens. -/
namespace GraphQL

theorem Lexeme.kind_read_ne_eof (c : Char) (rest : List Char) : (read c rest).kind ≠ .eof := by
  rcases isReadable_read c rest with h | h
  · simp [h]
  · exact h.legal.2

theorem Lexeme.bare_read (c : Char) (rest : List Char) (line position : Nat) :
    Token.bare ⟨(read c rest).kind, (read c rest).literal, line, position⟩ = (read c rest).symbol := by
  rcases isReadable_read c rest with h | h
  · simp [Token.bare, symbol, h]
  · unfold Token.bare
    split
    · next p hp => rw [symbol, show (read c rest).kind = _ from hp, ← h.text p hp, symbol]
    · rfl

theorem spelledSymbols_cons {t : Token} (h : t.kind ≠ .eof) (ts : List Token) :
    spelledSymbols (t :: ts) = t.bare :: spelledSymbols ts := by
  simp [spelledSymbols, h]

/-- The text is read as these symbols, with the end of input behind them. -/
inductive Lexes : List Char → List Symbol → Prop where
  | done {text gap : List Char} (skip : splitIgnored false text = (gap, [])) : Lexes text []
  | step {text gap : List Char} {c : Char} {rest : List Char} {xs : List Symbol}
      (skip : splitIgnored false text = (gap, c :: rest)) (tail : Lexes (Lexeme.read c rest).rest xs) :
      Lexes text ((Lexeme.read c rest).symbol :: xs)

namespace Lexes

private theorem scansUpTo {text : List Char} {xs : List Symbol} (h : Lexes text xs) {fuel : Nat}
    (hf : xs.length < fuel) (here : Cursor) (finished : Bool) :
    spelledSymbols (((Lexer.mk text here finished).scansUpTo fuel).map (·.token)) = xs := by
  induction h generalizing fuel here with
  | done skip =>
    obtain ⟨fuel, rfl⟩ := Nat.exists_eq_succ_of_ne_zero (Nat.ne_zero_of_lt hf)
    simp [Lexer.scansUpTo, Lexer.scan, skip, spelledSymbols]
  | @step text gap c rest xs skip tail ih =>
    obtain ⟨fuel, rfl⟩ := Nat.exists_eq_succ_of_ne_zero (Nat.ne_zero_of_lt hf)
    have more := ih (Nat.lt_of_succ_lt_succ hf) ((Lexeme.read c rest).pass (here.passIgnored none gap))
    simp [Lexer.scansUpTo, Lexer.scan, skip, Lexeme.kind_read_ne_eof, spelledSymbols_cons,
      Lexeme.bare_read, more]

/-- The symbols of a text are those of its tokens. -/
theorem spelledSymbols_tokenize {text : List Char} {xs : List Symbol} (h : Lexes text xs)
    (hl : xs.length ≤ text.length) : spelledSymbols (tokenize text) = xs :=
  h.scansUpTo (Nat.lt_succ_of_le hl) .start false

/-- Blanks in front of a text are skipped. -/
theorem blank {gap : List Char} (hg : ∀ c ∈ gap, isBlank c) {text : List Char} {xs : List Symbol}
    (h : Lexes text xs) : Lexes (gap ++ text) xs := by
  have skip : ∀ r, splitIgnored false text = r → ∃ g, splitIgnored false (gap ++ text) = (g, r.2) := by
    rintro r rfl
    induction gap with
    | nil => exact ⟨_, rfl⟩
    | cons c gap ih =>
      obtain ⟨hc, hg⟩ := List.forall_mem_cons.mp hg
      obtain ⟨g, hs⟩ := ih hg
      exact ⟨c :: g, by simp [splitIgnored, ignores, hc, hs]⟩
  cases h with
  | done h =>
    obtain ⟨g, hs⟩ := skip _ h
    exact .done hs
  | step h tail =>
    obtain ⟨g, hs⟩ := skip _ h
    exact .step hs tail

/-- A symbol in front of a text is read, if nothing that attaches itself follows. -/
theorem symbol {x : Symbol} (hx : x.IsReadable) {text : List Char} {xs : List Symbol}
    (ht : x.isOpen → HeadNot attaches text) (h : Lexes text xs) : Lexes (x.write ++ text) (x :: xs) := by
  obtain ⟨c, rest, same, read⟩ := hx.read text ht
  have legal : (Lexeme.read c rest).kind ≠ .illegal := by simp [read, hx.legal.1]
  have skip : splitIgnored false (x.write ++ text) = ([], c :: rest) := by
    simp [same, splitIgnored, Lexeme.ignores_of_legal legal]
  have step : Lexes (x.write ++ text) ((Lexeme.read c rest).symbol :: xs) :=
    .step skip (by rw [read]; exact h)
  rwa [read] at step

end Lexes

private theorem isReadable_scan {l : Lexer} (he : l.scan.token.kind ≠ .eof)
    (hi : l.scan.token.kind ≠ .illegal) : l.scan.token.bare.IsReadable := by
  unfold Lexer.scan at he hi ⊢
  split at he
  next gap text hs =>
  cases text with
  | nil => simp at he
  | cons c rest =>
    simp only [hs] at hi ⊢
    rw [Lexeme.bare_read]
    exact (Lexeme.isReadable_read c rest).resolve_left hi

/-- The symbols of a text can be read back, apart from those that are malformed. -/
theorem isReadable_of_mem_tokenize {text : List Char} {t : Token} (h : t ∈ tokenize text)
    (he : t.kind ≠ .eof) (hi : t.kind ≠ .illegal) : t.bare.IsReadable := by
  have steps (fuel : Nat) (l : Lexer) (ht : t ∈ (l.scansUpTo fuel).map (·.token)) :
      t.bare.IsReadable := by
    induction fuel generalizing l with
    | zero => simp [Lexer.scansUpTo] at ht
    | succ fuel ih =>
      unfold Lexer.scansUpTo at ht
      dsimp only at ht
      split at ht
      · next hk =>
        obtain rfl : t = l.scan.token := by simpa using ht
        exact absurd hk he
      · obtain rfl | ht : t = l.scan.token ∨ t ∈ (l.scan.next.scansUpTo fuel).map (·.token) := by
          simpa using ht
        · exact isReadable_scan he hi
        · exact ih _ ht
  exact steps _ _ h

end GraphQL
