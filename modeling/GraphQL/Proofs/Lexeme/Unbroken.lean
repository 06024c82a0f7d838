import GraphQL.Proofs.Lexeme.Written
import GraphQL.Proofs.Lexer.Places

/-! Tokens that end on the line where they start: all that are well-formed, apart from block strings. What a string
is decoded to is shorter than the string. -/
namespace GraphQL

theorem isLineBreak_eq_false {c : Char} (feed : c ≠ '\n') (carriage : c ≠ '\r') : isLineBreak c = false := by
  simp [isLineBreak, feed, carriage]

namespace Number

end Number

namespace StringLiteral

/-- Escapes only make fewer characters of more. -/
theorem length_decodeUnits_le (units : List Unit16) : (decodeUnits units).length ≤ units.length := by
  fun_induction decodeUnits units <;> simp_all; omega

theorem isLineBreak_of_hexDigit? {c : Char} {n : Nat} (h : hexDigit? c = some n) : isLineBreak c = false :=
  isLineBreak_eq_false (by rintro rfl; cases h) (by rintro rfl; cases h)

/-- If the body is closed then it ends on its line, and takes more characters than it holds. -/
def Body.EndsOnLine (b : Body Unit16) : Prop :=
  ∀ content extent rest, b = .closed content extent rest →
    (∀ c ∈ extent, isLineBreak c = false) ∧ content.length < extent.length

namespace Body.EndsOnLine

theorem malformed (diagnosis : String) (extent rest : List Char) : EndsOnLine (.malformed diagnosis extent rest) :=
  nofun

/-- One character or code unit more. -/
theorem behind {b : Body Unit16} (h : EndsOnLine b) (u : Unit16) {cs : List Char} (hne : cs ≠ [])
    (unbroken : ∀ c ∈ cs, isLineBreak c = false) : EndsOnLine (b.behind [u] cs) := by
  intro _ _ _ closed
  obtain ⟨content, extent, hb, rfl, rfl⟩ := closed_of_behind closed
  obtain ⟨rest, longer⟩ := h _ _ _ hb
  refine ⟨List.forall_mem_append.mpr ⟨unbroken, rest⟩, ?_⟩
  have taken := List.length_pos_iff.mpr hne
  simp only [List.length_append, List.length_singleton]
  omega

end Body.EndsOnLine

theorem endsOnLine_body (text : List Char) : (body text).EndsOnLine := by
  fun_induction body text with
  | case1 => exact .malformed _ _ _
  | case2 rest =>
    rintro _ _ _ ⟨⟩
    simp [isLineBreak]
  | case3 => exact .malformed _ _ _
  | case4 a b c d rest n hn ih =>
    refine ih.behind _ (by simp) ?_
    simp only [hexQuad?, Option.bind_eq_bind, Option.bind_eq_some_iff] at hn
    obtain ⟨_, ha, _, hb, _, hc, _, hd, -⟩ := hn
    have begins : ∀ e ∈ ['\\', 'u'], isLineBreak e = false := by simp [isLineBreak]
    refine List.forall_mem_append.mpr ⟨begins, ?_⟩
    simp [isLineBreak_of_hexDigit? ha, isLineBreak_of_hexDigit? hb, isLineBreak_of_hexDigit? hc,
      isLineBreak_of_hexDigit? hd]
  | case5 | case6 =>
    unfold badQuad
    split
    · exact .malformed _ _ _
    · split <;> exact .malformed _ _ _
  | case7 c rest hu e he ih =>
    refine ih.behind _ (by simp) ?_
    have unbroken : isLineBreak c = false := by
      unfold simpleEscape? at he
      split at he <;> first | rfl | cases he
    simpa [isLineBreak] using unbroken
  | case8 => exact .malformed _ _ _
  | case9 => exact .malformed _ _ _
  | case10 c rest hq hend hu hescape hc ih =>
    have unbroken : isLineBreak c = false := isLineBreak_eq_false (by rintro rfl; exact hc rfl)
      (by rintro rfl; exact hc rfl)
    exact ih.behind _ (by simp) (List.forall_mem_singleton.mpr unbroken)

private theorem closed_of_string {text : List Char} (h : (lexeme ('"' :: text)).kind = .string) :
    ∃ content extent rest, body text = .closed content extent rest ∧
      lexeme ('"' :: text) = ⟨.string, String.ofList (decodeUnits content), '"' :: extent, rest⟩ := by
  revert h
  unfold lexeme
  split
  · next rest _ => cases blockBody rest <;> exact nofun
  · rw [List.tail_cons]
    cases body text with
    | malformed => exact nofun
    | closed content extent rest => exact fun _ => ⟨content, extent, rest, rfl, rfl⟩

theorem length_string {text : List Char} (h : (lexeme ('"' :: text)).kind = .string) :
    (lexeme ('"' :: text)).literal.length + 2 ≤ (lexeme ('"' :: text)).extent.length := by
  obtain ⟨content, extent, rest, closed, same⟩ := closed_of_string h
  have decoded := length_decodeUnits_le content
  have longer := (endsOnLine_body _ _ _ _ closed).2
  rw [same]
  simp only [String.length_ofList, List.length_cons]
  omega

end StringLiteral

namespace Lexeme

theorem length_string (c : Char) (text : List Char) (h : (read c text).kind = .string) :
    (read c text).literal.length + 2 ≤ (read c text).extent.length := by
  generalize hx : read c text = x at h ⊢
  unfold read at hx
  split at hx
  · subst hx
    unfold dots at h
    split at h <;> cases h
  split at hx
  · next quote =>
    subst hx quote
    exact StringLiteral.length_string h
  split at hx
  · subst hx
    have legal : (Number.lexeme (c :: text)).kind ≠ .illegal := by simp [h]
    obtain ⟨integer, more, rest, same, number, stops⟩ := Number.isNumber_of_lexeme legal
    rw [same, Number.lexeme_of_isNumber number stops] at h
    dsimp only at h
    split at h <;> cases h
  split at hx
  · subst hx
    cases h
  split at hx <;> subst hx <;> cases h

end Lexeme
end GraphQL
