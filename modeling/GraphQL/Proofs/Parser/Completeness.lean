import GraphQL.Proofs.Parser.Input
import GraphQL.Proofs.Parser.Recovers.Document

/-! Every spelling of a well-formed document is accepted, unless the document nests too deep. -/
namespace GraphQL

private theorem parseTokens_run {d : Document} {tokens : List Token} (hd : d.WellFormed)
    (hw : d.Spells (spelledSymbols tokens)) :
    (d.nesting ≤ Parser.maxNesting → parseTokens tokens = .ok d) ∧
      (¬ d.nesting ≤ Parser.maxNesting →
        ∃ e, parseTokens tokens = .error e ∧ e.kind = .nestingExceeded) := by
  obtain ⟨s', hr, he⟩ := TokenStream.reads_end (.ofTokens tokens)
  obtain ⟨hok, herr⟩ := (Parser.Recovers.document hd hw).run _ _ s' hr rfl (by rw [Token.bare_kind, he])
  refine ⟨fun h => by rw [parseTokens, hok h], fun h => ?_⟩
  obtain ⟨e, s'', hrun, hk⟩ := herr h
  exact ⟨e, by rw [parseTokens, hrun], hk⟩

theorem parseTokens_of_spells {d : Document} {tokens : List Token} (hd : d.WellFormed)
    (hw : d.Spells (spelledSymbols tokens)) (hn : d.nesting ≤ Parser.maxNesting) :
    parseTokens tokens = .ok d :=
  (parseTokens_run hd hw).1 hn

/-- What is accepted nests no deeper than is allowed. -/
theorem nesting_le_of_parseTokens {d : Document} {tokens : List Token} (hd : d.WellFormed)
    (hw : d.Spells (spelledSymbols tokens)) (h : parseTokens tokens = .ok d) :
    d.nesting ≤ Parser.maxNesting := by
  refine Decidable.byContradiction fun hn => ?_
  obtain ⟨e, he, -⟩ := (parseTokens_run hd hw).2 hn
  cases he.symm.trans h

/-- Whatever stands behind the end of input, a spelling of a well-formed document yields the document if
no more than 64 levels stand in each other, and fails because of nesting otherwise. -/
theorem parseTokens_complete {d : Document} {tokens : List Token} (hd : d.WellFormed)
    (hw : d.Spells (spelledSymbols tokens)) :
    (d.nesting ≤ 64 → parseTokens tokens = .ok d) ∧
      (64 < d.nesting → ∃ e, parseTokens tokens = .error e ∧ e.kind = .nestingExceeded) := by
  obtain ⟨hok, herr⟩ := parseTokens_run hd hw
  exact ⟨hok, fun h => herr (Nat.not_le.mpr h)⟩

section Samples
open IndexedList

private abbrev sampleUnion : TypeDefinition := ⟨none, "U", .nil, .union (.ofList [.named "A" false, .named "B" false])⟩

private abbrev sampleSelections : SelectionSet :=
  .ofList [.field none "a" (.ofList [⟨"x", .list (.ofList [.int "1", .int "2"])⟩]) .nil none,
    .field none "b" .nil .nil none]

private abbrev sampleObject : TypeDefinition :=
  ⟨none, "T", .ofList [⟨"d", .nil⟩, ⟨"e", .nil⟩], .object (.ofList [.named "I" false, .named "J" false]) .nil⟩

/-- A query between two types, of which the second one lacks its block. -/
def sampleDocument : Document :=
  ⟨.ofList [.typeSystem (.type sampleUnion), .executable (.operation ⟨.query, none, .nil, .nil, sampleSelections⟩),
    .typeSystem (.type sampleObject)]⟩

/-- The query has no keyword, and a separator stands in front of the members and of the interfaces. -/
def sampleTokens : List Token := tokenize "union U=|A|B\x7ba(x:[1 2])b\x7dtype T implements&I&J@d@e".toList

private theorem wellFormed_sampleDocument : sampleDocument.WellFormed := by
  have named (name : String) : TypeReference.IsPlain (.named name false) := ⟨name, rfl⟩
  simp [sampleDocument, Document.WellFormed, Each, numbered_ofList, Numbered, toList, Definition.WellFormed,
    TypeDefinition.WellFormed, TypeBody.WellFormed, Directive.WellFormed, OperationDefinition.WellFormed,
    SelectionSet.WellFormed, Selection.WellFormed, Argument.WellFormed, Value.WellFormed, Value.itemsWellFormed_iff,
    named]

private theorem spells_sampleDocument : sampleDocument.Spells (spelledSymbols sampleTokens) := by
  have spelled : spelledSymbols sampleTokens =
      sampleUnion.spelling true ++ (sampleSelections.spelling ++ (sampleObject.spelling true ++ [])) := by
    decide +kernel
  have apart {d : Definition} {w : List Symbol} (h : d.lacksBlock = false) :
      d.lacksBlock → w.head? ≠ some (Symbol.mark .braceOpen) := by simp [h]
  rw [spelled]
  exact .cons (.type _ true) (by simp) (.cons (.shorthand ⟨.query, none, .nil, .nil, sampleSelections⟩ rfl)
    (apart rfl) (.cons (.type _ true) (apart rfl) .nil))

/-- Selection sets of one field each, so many of them inside another one. -/
def nestedSet : Nat → SelectionSet
  | 0 => .ofList [.field none "a" .nil .nil none]
  | levels + 1 => .ofList [.field none "a" .nil .nil (some (nestedSet levels))]

def nestedDocument (levels : Nat) : Document :=
  ⟨.ofList [.executable (.operation ⟨.query, none, .nil, .nil, nestedSet levels⟩)]⟩

def nestedTokens (levels : Nat) : List Token :=
  tokenize ((List.replicate (levels + 1) ['\x7b', 'a']).flatten ++ List.replicate (levels + 1) '\x7d')

theorem wellFormed_nestedSet (levels : Nat) : SelectionSet.WellFormed (nestedSet levels) := by
  induction levels with
  | zero => simp [nestedSet, SelectionSet.WellFormed, Each, numbered_ofList, Numbered, toList, Selection.WellFormed]
  | succ levels ih =>
    simpa [nestedSet, SelectionSet.WellFormed, Each, numbered_ofList, Numbered, toList,
      Selection.wellFormed_field] using ih

theorem nesting_nestedSet (levels : Nat) : SelectionSet.nesting (nestedSet levels) = levels + 1 := by
  induction levels with
  | zero => rfl
  | succ levels ih =>
    simpa [nestedSet, SelectionSet.nesting, deepest, toList, Selection.nesting, Selection.allNesting_eq] using ih

private theorem wellFormed_nestedDocument (levels : Nat) : (nestedDocument levels).WellFormed := by
  simp [nestedDocument, Document.WellFormed, Each, numbered_ofList, Numbered, toList, Definition.WellFormed,
    OperationDefinition.WellFormed, wellFormed_nestedSet]

private theorem nesting_nestedDocument (levels : Nat) : (nestedDocument levels).nesting = levels + 1 := by
  simp [nestedDocument, Document.nesting, deepest, toList, Definition.nesting, OperationDefinition.nesting,
    nesting_nestedSet]

private theorem spells_nestedDocument : (nestedDocument 64).Spells (spelledSymbols (nestedTokens 64)) := by
  have spelled : spelledSymbols (nestedTokens 64) = (nestedSet 64).spelling ++ [] := by decide +kernel
  rw [spelled]
  exact .cons (.shorthand ⟨.query, none, .nil, .nil, nestedSet 64⟩ rfl) (by simp) .nil

/-- Neighbouring definitions with optional separators, and a selection set inside 64 others. -/
theorem parseTokens_complete_samples :
    (sampleDocument.WellFormed ∧ sampleDocument.Spells (spelledSymbols sampleTokens) ∧
      parseTokens sampleTokens = .ok sampleDocument) ∧
    (nestedDocument 64).WellFormed ∧ (nestedDocument 64).Spells (spelledSymbols (nestedTokens 64)) ∧
      (nestedDocument 64).nesting = 65 ∧
      ∃ e, parseTokens (nestedTokens 64) = .error e ∧ e.kind = .nestingExceeded := by
  have sample := parseTokens_complete wellFormed_sampleDocument spells_sampleDocument
  have deep := parseTokens_complete (wellFormed_nestedDocument 64) spells_nestedDocument
  have levels := nesting_nestedDocument 64
  exact ⟨⟨wellFormed_sampleDocument, spells_sampleDocument, sample.1 (by decide +kernel)⟩,
    wellFormed_nestedDocument 64, spells_nestedDocument, levels, deep.2 (by rw [levels]; decide)⟩

end Samples

end GraphQL
