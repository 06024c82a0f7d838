import GraphQL.Proofs.Lexeme.Written
import GraphQL.Proofs.Lexer.Places

/-! The symbols of texts that are joined by a line break. They are those of the first text and behind them those
of the second. -/
namespace GraphQL

/-- Behind a gap only one thing counts of what was skipped: whether a comment goes on, which it does at most where the
text ends. -/
theorem splitIgnored_behind {inComment : Bool} {text gap behind : List Char}
    (h : splitIgnored inComment text = (gap, behind)) : ∃ goesOn, (behind ≠ [] → goesOn = false) ∧
      ∀ more, (splitIgnored inComment (gap ++ more)).2 = (splitIgnored goesOn more).2 := by
  induction text generalizing inComment gap with
  | nil =>
    cases h
    exact ⟨inComment, absurd rfl, fun _ => rfl⟩
  | cons c text ih =>
    rw [splitIgnored] at h
    split at h
    · next stops =>
      cases h
      -- only outside a comment is there anything that is not skipped
      cases inComment with
      | true => cases stops
      | false => exact ⟨false, fun _ => rfl, fun _ => rfl⟩
    · next state goesOn =>
      obtain ⟨rfl, rfl⟩ := Prod.mk.inj h
      obtain ⟨last, apart, same⟩ := ih rfl
      refine ⟨last, apart, fun more => ?_⟩
      rw [List.cons_append, splitIgnored, goesOn]
      exact same more

/-- More text on a new line, if all in front of it is ignored. A comment has ended there. -/
theorem splitIgnored_newline {inComment : Bool} {text gap : List Char}
    (h : splitIgnored inComment text = (gap, [])) (more : List Char) :
    (splitIgnored inComment (text ++ '\n' :: more)).2 = (splitIgnored false more).2 := by
  obtain ⟨goesOn, -, same⟩ := splitIgnored_behind h
  obtain rfl : gap = text := by simpa using (splitIgnored_eq h).1
  rw [same]
  cases goesOn <;> rfl

namespace Lexes

/-- Every text is read as some symbols, each of which takes a character. -/
theorem exists_of_text (text : List Char) : ∃ xs, Lexes text xs ∧ xs.length ≤ text.length := by
  induction h : text.length using Nat.strongRecOn generalizing text with
  | ind n ih =>
    subst h
    cases hs : splitIgnored false text with
    | mk gap behind =>
      cases behind with
      | nil => exact ⟨[], .done hs, Nat.zero_le _⟩
      | cons c rest =>
        have covered := congrArg List.length (splitIgnored_eq hs).1
        obtain ⟨more, -, same⟩ := Lexeme.extent_read c rest
        have taken := congrArg List.length same
        simp only [List.length_append, List.length_cons] at covered taken
        obtain ⟨xs, tail, bound⟩ := ih _ (by omega) (Lexeme.read c rest).rest rfl
        refine ⟨_, .step hs tail, ?_⟩
        rw [List.length_cons]
        omega

/-- The symbols depend on what is left behind ignored text only. -/
theorem of_splitIgnored_eq {s t : List Char} {xs : List Symbol} (h : Lexes t xs)
    (same : (splitIgnored false s).2 = (splitIgnored false t).2) : Lexes s xs := by
  cases h with
  | done skip =>
    rw [skip] at same
    exact .done (Prod.ext rfl same)
  | step skip tail =>
    rw [skip] at same
    exact .step (Prod.ext rfl same) tail

/-- A well-formed token is read again with another text behind it. -/
theorem step_local {text gap : List Char} {c : Char} {rest : List Char}
    (skip : splitIgnored false text = (gap, c :: rest)) (legal : (Lexeme.read c rest).kind ≠ .illegal)
    {more : List Char} (free : TakesPlaceOf more (Lexeme.read c rest).rest) {xs : List Symbol} (tail : Lexes more xs) :
    Lexes (gap ++ ((Lexeme.read c rest).extent ++ more)) ((Lexeme.read c rest).symbol :: xs) := by
  obtain ⟨w, extent, -, again⟩ := Lexeme.read_local legal
  obtain ⟨goesOn, apart, same⟩ := splitIgnored_behind skip
  obtain rfl := apart (by simp)
  have begins : ignores false c = none := (splitIgnored_eq skip).2 c rfl
  have skipped : (splitIgnored false (gap ++ c :: (w ++ more))).2 = c :: (w ++ more) := by
    rw [same, splitIgnored, begins]
  have read := again more free
  have first : Lexes (gap ++ c :: (w ++ more)) ((Lexeme.read c (w ++ more)).symbol :: xs) :=
    step (Prod.ext rfl skipped) (by rw [read]; exact tail)
  rw [read] at first
  rw [extent]
  exact first

/-- A line break ends whatever a text ends in, unless something there is malformed. -/
theorem newline {s t : List Char} {xs ys : List Symbol} (hs : Lexes s xs) (legal : ∀ x ∈ xs, x.kind ≠ .illegal)
    (ht : Lexes t ys) : Lexes (s ++ '\n' :: t) (xs ++ ys) := by
  induction hs with
  | done skip => exact ht.of_splitIgnored_eq (splitIgnored_newline skip t)
  | @step text gap c rest xs skip tail ih =>
    obtain ⟨here, behind⟩ := List.forall_mem_cons.mp legal
    have free : TakesPlaceOf ((Lexeme.read c rest).rest ++ '\n' :: t) (Lexeme.read c rest).rest := by
      cases (Lexeme.read c rest).rest with
      | nil => exact .inr (HeadNot.cons_iff.mpr rfl)
      | cons d u => exact .inl rfl
    obtain ⟨w, extent, same, -⟩ := Lexeme.read_local here
    have covered : gap ++ ((Lexeme.read c rest).extent ++ (Lexeme.read c rest).rest) = text := by
      rw [extent, List.cons_append, same, (splitIgnored_eq skip).1]
    have whole := step_local skip here free (ih behind)
    rwa [← List.append_assoc (Lexeme.read c rest).extent, ← List.append_assoc, covered] at whole

end Lexes

/-- The symbols of texts that are joined by a line break. -/
theorem spelledSymbols_newline {s t : List Char} (legal : ∀ x ∈ spelledSymbols (tokenize s), x.kind ≠ .illegal) :
    spelledSymbols (tokenize (s ++ '\n' :: t)) = spelledSymbols (tokenize s) ++ spelledSymbols (tokenize t) := by
  obtain ⟨xs, hs, short⟩ := Lexes.exists_of_text s
  obtain ⟨ys, ht, short'⟩ := Lexes.exists_of_text t
  rw [hs.spelledSymbols_tokenize short] at legal ⊢
  rw [ht.spelledSymbols_tokenize short']
  apply (hs.newline legal ht).spelledSymbols_tokenize
  simp only [List.length_append, List.length_cons]
  omega

end GraphQL
