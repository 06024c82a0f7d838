import GraphQL.Proofs.Parser.Completeness

/-! What is accepted spells the document that is made of it. -/
namespace GraphQL

/-- A document that is made of tokens is well formed, and its spelling is all that stands before the end of
input. -/
theorem wellFormed_of_parseTokens {d : Document} {tokens : List Token} (h : parseTokens tokens = .ok d) :
    d.WellFormed ∧ d.Spells (spelledSymbols tokens) := by
  unfold parseTokens at h
  cases hr : Parser.document (.ofTokens tokens) with
  | error e s => simp [hr] at h
  | ok d' s =>
    simp only [hr, Except.ok.injEq] at h
    subst h
    cases (Parser.Conforms.document (s := .ofTokens tokens)).ends with
    | error e ts s' run => cases hr.symm.trans run
    | ok d' ts s' run reads _ spelled =>
      cases hr.symm.trans run
      have he : s.peek.kind = .eof := Parser.ensures_document _ _ _ hr
      rw [spelledSymbols, show tokens = (TokenStream.ofTokens tokens).unread from rfl,
        reads.takeWhile_eq he]
      exact spelled

/-- The tokens before the end of input are a spelling of the document, each part of it once and in
grammar order, and the document nests no deeper than 64 levels. -/
theorem parseTokens_sound {d : Document} {tokens : List Token} (h : parseTokens tokens = .ok d) :
    d.Spells (spelledSymbols tokens) ∧ d.nesting ≤ 64 := by
  obtain ⟨hd, hw⟩ := wellFormed_of_parseTokens h
  exact ⟨hw, nesting_le_of_parseTokens hd hw h⟩

/-- Neighbouring definitions with optional separators and without a keyword. -/
theorem parseTokens_sound_sample : parseTokens sampleTokens = .ok sampleDocument ∧
    sampleDocument.definitions.len = 3 ∧ sampleDocument.Spells (spelledSymbols sampleTokens) ∧
      sampleDocument.nesting ≤ 64 := by
  have h : parseTokens sampleTokens = .ok sampleDocument := rfl
  exact ⟨h, rfl, parseTokens_sound h⟩

end GraphQL
