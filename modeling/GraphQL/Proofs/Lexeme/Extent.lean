import GraphQL.Lexer
import GraphQL.Proofs.Lexeme.Number

/-! What a token takes of the text, be it malformed or not: its extent and what is left are the text
again, and the extent begins with the first character. -/
namespace GraphQL

namespace Number

/-- From one progress to another by taking some of what is left. -/
def Progress.Leads (p q : Progress) : Prop := ∃ w, p.rest = w ++ q.rest ∧ q.taken = p.taken ++ w

namespace Progress.Leads

theorem refl (p : Progress) : p.Leads p := ⟨[], rfl, by simp⟩

theorem trans {p q r : Progress} (h : p.Leads q) (h' : q.Leads r) : p.Leads r := by
  obtain ⟨w, hw, ht⟩ := h
  obtain ⟨w', hw', ht'⟩ := h'
  exact ⟨w ++ w', by rw [hw, hw', List.append_assoc], by rw [ht', ht, List.append_assoc]⟩

theorem take {p : Progress} {cs rest : List Char} (h : p.rest = cs ++ rest) : p.Leads (p.take cs rest) :=
  ⟨cs, h, rfl⟩

/-- What was taken stays taken. -/
theorem taken_ne_nil {p q : Progress} (h : p.Leads q) (hp : p.taken ≠ []) : q.taken ≠ [] := by
  obtain ⟨w, -, ht⟩ := h
  simp [ht, hp]

end Progress.Leads

/-- How far a reader has come, whether or not it has found a fault. -/
def reached : Except Fault Progress → Progress
  | .ok p => p
  | .error fault => fault.progress

/-- The reader takes of what is left and changes nothing else. -/
def Advances (f : Progress → Except Fault Progress) : Prop :=
  ∀ p : Progress, p.Leads (reached (f p))

namespace Advances
variable {f g : Progress → Except Fault Progress}

theorem bind (hf : Advances f) (hg : Advances g) : Advances fun p => f p >>= g := by
  intro p
  have first := hf p
  change p.Leads (reached (f p >>= g))
  cases hp : f p with
  | error fault =>
    rw [hp] at first
    exact first
  | ok q =>
    rw [hp] at first
    exact first.trans (hg q)

theorem missingDigit (p : Progress) : p.Leads (missingDigit p).progress := by
  unfold Number.missingDigit
  split
  · exact .refl p
  · next h => exact .take h

theorem digits : Advances digits := by
  intro p
  unfold Number.digits
  split
  · exact missingDigit p
  · next hs => exact .take (span_eq_iff.mp hs).1

theorem integerPart : Advances integerPart := by
  intro p
  unfold Number.integerPart
  split
  · next h =>
    split
    · exact .take h
    · exact .take h
  · next h => exact .take h
  · exact digits p

theorem fractionPart : Advances fractionPart := by
  intro p
  unfold Number.fractionPart
  split
  · next h => exact .trans (.take h) (digits _)
  · exact .refl p

theorem exponentSign (p : Progress) : p.Leads (exponentSign p) := by
  unfold Number.exponentSign
  split
  · next h =>
    split
    · exact .take h
    · exact .refl p
  · exact .refl p

theorem exponentPart : Advances exponentPart := by
  intro p
  unfold Number.exponentPart
  split
  · next h =>
    split
    · exact .trans (.take h) ((exponentSign _).trans (digits _))
    · exact .refl p
  · exact .refl p

theorem endPart : Advances endPart := by
  intro p
  unfold Number.endPart
  split
  · next h =>
    split
    · exact .take h
    · exact .refl p
  · exact .refl p

end Advances

/-- Where a digit stands, the integer part takes it, even if it is at fault. -/
private theorem taken_integerPart {p : Progress} {d : Char} {text : List Char} (hp : p.rest = d :: text)
    (hd : isDigit d) : (reached (integerPart p)).taken ≠ [] := by
  unfold integerPart
  split
  · split <;> simp [reached, Progress.take]
  · simp [reached, Progress.take]
  · unfold digits
    split
    · next hs =>
      have stops := (span_eq_iff.mp hs).2.2
      have same := (span_eq_iff.mp hs).1
      rw [hp, List.nil_append] at same
      rw [← same, HeadNot.cons_iff, hd] at stops
      contradiction
    · next hne _ => simpa [reached, Progress.take] using fun _ => hne

/-- The token of a number covers all that its reader has taken. -/
private theorem lexeme_reached (text : List Char) :
    ∃ q, (reached (integerPart (sign text))).Leads q ∧
      (lexeme text).extent = q.taken ∧ (lexeme text).rest = q.rest := by
  cases hi : integerPart (sign text) with
  | error fault =>
    have run : read text = .error fault := by rw [read_eq, hi]; rfl
    exact ⟨fault.progress, .refl _, by simp [lexeme, run, Lexeme.illegal]⟩
  | ok integer =>
    have behind : integer.Leads (reached (fractionPart integer >>= fun p => exponentPart p >>= endPart)) :=
      Advances.fractionPart.bind (Advances.exponentPart.bind .endPart) integer
    have run : read text = (fractionPart integer >>= fun p => exponentPart p >>= endPart) >>=
        fun number => pure (integer, number) := by rw [read_eq, hi]; rfl
    refine ⟨_, behind, ?_⟩
    generalize (fractionPart integer >>= fun p => exponentPart p >>= endPart) = outcome at run ⊢
    rw [lexeme, run]
    cases outcome <;> exact ⟨rfl, rfl⟩

theorem extent_lexeme {c : Char} (hc : c = '-' ∨ isDigit c) (text : List Char) :
    (lexeme (c :: text)).extent ≠ [] ∧
      (lexeme (c :: text)).extent ++ (lexeme (c :: text)).rest = c :: text := by
  obtain ⟨q, hq, extent, rest⟩ := lexeme_reached (c :: text)
  have covered : (sign (c :: text)).taken ++ (sign (c :: text)).rest = c :: text := by
    unfold sign
    split <;> simp_all
  have leads := (Advances.integerPart (sign (c :: text))).trans hq
  rw [extent, rest]
  refine ⟨?_, ?_⟩
  · rcases hc with rfl | hd
    · exact leads.taken_ne_nil (by simp [sign])
    · have unsigned : sign (c :: text) = ⟨[], c :: text⟩ := by
        unfold sign
        split
        · next h =>
          obtain ⟨rfl, -⟩ : c = '-' ∧ _ := by simpa using h
          cases hd
        · rfl
      refine hq.taken_ne_nil ?_
      rw [unsigned]
      exact taken_integerPart rfl hd
  · obtain ⟨w, hw, ht⟩ := leads
    rw [ht, List.append_assoc, ← hw, covered]

end Number

namespace StringLiteral
variable {α : Type}

/-- The text that a body was read from. -/
def Body.text : Body α → List Char
  | closed _ extent rest | malformed _ extent rest => extent ++ rest

@[simp] theorem Body.text_closed (content : List α) (extent rest : List Char) :
    (closed content extent rest).text = extent ++ rest := rfl

@[simp] theorem Body.text_malformed (diagnosis : String) (extent rest : List Char) :
    (malformed diagnosis extent rest : Body α).text = extent ++ rest := rfl

@[simp] theorem Body.text_behind (content : List α) (cs : List Char) (b : Body α) :
    (b.behind content cs).text = cs ++ b.text := by
  cases b <;> simp [behind]

theorem Body.extent_lexeme (kind : TokenKind) {quotes : List Char} (decode : List α → List Char)
    (b : Body α) : (b.lexeme kind quotes decode).extent ++ (b.lexeme kind quotes decode).rest =
      quotes ++ b.text := by
  cases b <;> simp [Body.lexeme, Lexeme.illegal]

private theorem text_badQuad (text : List Char) :
    (badQuad text : Body α).text = '\\' :: 'u' :: text := by
  unfold badQuad
  split
  · next hs =>
    obtain ⟨rfl, -⟩ := span_eq_iff.mp hs
    simp [badEscape]
  · next hs =>
    obtain ⟨rfl, -⟩ := span_eq_iff.mp hs
    split <;> simp [badEscape]

theorem text_body (text : List Char) : (body text).text = text := by
  fun_induction body text <;> simp_all [text_badQuad, badEscape]

theorem text_blockBody (text : List Char) : (blockBody text).text = text := by
  fun_induction blockBody text <;> simp_all

theorem extent_lexeme (text : List Char) :
    (lexeme ('"' :: text)).extent ≠ [] ∧
      (lexeme ('"' :: text)).extent ++ (lexeme ('"' :: text)).rest = '"' :: text := by
  unfold lexeme
  split
  · next rest h =>
    rw [Body.extent_lexeme, text_blockBody, h]
    refine ⟨?_, rfl⟩
    cases blockBody rest <;> simp [Body.lexeme, Lexeme.illegal]
  · rw [Body.extent_lexeme, text_body]
    refine ⟨?_, rfl⟩
    cases body ('"' :: text).tail <;> simp [Body.lexeme, Lexeme.illegal]

end StringLiteral

namespace Lexeme

/-- A run that begins with the first character takes it. -/
private theorem extent_run {p : Char → Bool} {c : Char} (hc : p c) (text : List Char) :
    ((c :: text).span p).1 ≠ [] ∧ ((c :: text).span p).1 ++ ((c :: text).span p).2 = c :: text := by
  cases hs : (c :: text).span p with
  | mk run rest =>
    obtain ⟨same, -, stops⟩ := span_eq_iff.mp hs
    refine ⟨?_, same.symm⟩
    rintro rfl
    rw [List.nil_append] at same
    rw [← same, HeadNot.cons_iff, hc] at stops
    contradiction

private theorem extent_dots (text : List Char) :
    (dots ('.' :: text)).extent ≠ [] ∧
      (dots ('.' :: text)).extent ++ (dots ('.' :: text)).rest = '.' :: text := by
  unfold dots
  split
  · next rest h => exact ⟨by simp, h.symm⟩
  · exact extent_run (p := (· = '.')) (decide_eq_true rfl) text

/-- A token takes at least the character that it is read at. -/
theorem extent_read (c : Char) (text : List Char) :
    ∃ more, (read c text).extent = c :: more ∧ more ++ (read c text).rest = text := by
  have nonempty : (read c text).extent ≠ [] ∧ (read c text).extent ++ (read c text).rest = c :: text := by
    unfold read
    split
    · next h => exact h ▸ extent_dots text
    split
    · next h => exact h ▸ StringLiteral.extent_lexeme text
    split
    · next h => exact Number.extent_lexeme (by simpa using h) text
    split
    · next h => exact extent_run (by simp [isNameChar, h]) text
    split <;> simp [illegal]
  obtain ⟨hne, same⟩ := nonempty
  obtain ⟨d, more, hd⟩ := List.exists_cons_of_ne_nil hne
  rw [hd, List.cons_append, List.cons.injEq] at same
  exact ⟨more, by rw [hd, same.1], same.2⟩

end Lexeme
end GraphQL
