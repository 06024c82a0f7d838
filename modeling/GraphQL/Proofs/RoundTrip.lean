import GraphQL.Proofs.Grammar.Symbols
import GraphQL.Proofs.Layout.Document
import GraphQL.Proofs.Parser.Soundness

/-! Printed documents are parsed to themselves. What is parsed from a text can be printed, and so can
what is joined from such documents or reversed. -/
namespace GraphQL
open GraphQL.Symbol

namespace IndexedList
variable {α : Type}

private theorem separatedSpelling_sublist (p : Punctuator) (lead : Bool) (f : α → List Symbol)
    (l : IndexedList α) : (l.separatedSpelling p false f).Sublist (l.separatedSpelling p lead f) := by
  cases lead with
  | true => exact List.tail_sublist _
  | false => exact .refl _

end IndexedList

private theorem TypeBody.spelling_sublist (lead : Bool) (dirs : IndexedList Directive) (b : TypeBody) :
    (b.spelling false dirs).Sublist (b.spelling lead dirs) := by
  have interfaces (l : IndexedList TypeReference) :
      (interfacesSpelling false l).Sublist (interfacesSpelling lead l) := by
    unfold interfacesSpelling
    split
    · exact .refl _
    · exact .cons_cons _ (IndexedList.separatedSpelling_sublist ..)
  have members (l : IndexedList TypeReference) :
      (membersSpelling false l).Sublist (membersSpelling lead l) := by
    unfold membersSpelling
    split
    · exact .refl _
    · exact .cons_cons _ (IndexedList.separatedSpelling_sublist ..)
  cases b with
  | object is fields => exact ((interfaces is).append (.refl _)).append (.refl _)
  | interface is fields => exact ((interfaces is).append (.refl _)).append (.refl _)
  | union ms => exact .append (.refl _) (members ms)
  | scalar => exact .refl _
  | enum values => exact .refl _
  | inputObject fields => exact .refl _

private theorem TypeDefinition.spelling_sublist (lead : Bool) (t : TypeDefinition) :
    (t.spelling false).Sublist (t.spelling lead) :=
  .append (.refl _) (.cons_cons _ (.cons_cons _ (t.body.spelling_sublist lead t.directives)))

private theorem DirectiveDefinition.spelling_sublist (lead : Bool) (d : DirectiveDefinition) :
    (d.spelling false).Sublist (d.spelling lead) :=
  .append (.refl _) (.cons_cons _ (IndexedList.separatedSpelling_sublist ..))

namespace Definition

/-- Any spelling has all the symbols that are printed, but for the keyword of a query. -/
theorem Spells.mem_printedSpelling {d : Definition} {w : List Symbol} (h : d.Spells w) {x : Symbol}
    (hx : x ∈ d.printedSpelling false) : x ∈ w ∨ x = word "query" := by
  cases h with
  | operation o =>
    exact .inl (by simpa [printedSpelling, OperationDefinition.printedSpelling] using hx)
  | shorthand o h =>
    have written : x ∈ o.spelling := by
      simpa [printedSpelling, OperationDefinition.printedSpelling] using hx
    rw [OperationDefinition.eq_of_isShorthand h] at written
    exact (List.mem_cons.mp written).symm
  | type t lead => exact .inl ((t.spelling_sublist lead).subset hx)
  | directive d lead => exact .inl ((d.spelling_sublist lead).subset hx)
  | typeExtension t lead => exact .inl ((List.Sublist.cons_cons _ (t.spelling_sublist lead)).subset hx)
  | fragment | schema | schemaExtension => exact .inl hx

/-- All symbols of the definition can be read back. -/
def IsReadable (d : Definition) : Prop := ∀ x ∈ d.printedSpelling false, x.IsReadable

theorem isReadable_of_spells {d : Definition} {w : List Symbol} (h : d.Spells w)
    (hw : ∀ x ∈ w, x.IsReadable) : d.IsReadable := by
  have query : Symbol.IsReadable ⟨.name, String.ofList ('q' :: ['u', 'e', 'r', 'y'])⟩ :=
    .name rfl (by simp [isNameChar, isNameStart])
  intro x hx
  rcases h.mem_printedSpelling hx with hx | rfl
  · exact hw x hx
  · exact query

theorem isReadable_of_spellRow {lacking : Bool} {ds : List Definition} {w : List Symbol}
    (h : SpellRow lacking ds w) (hw : ∀ x ∈ w, x.IsReadable) : ∀ d ∈ ds, d.IsReadable := by
  induction h with
  | nil => simp
  | cons head _ _ ih =>
    obtain ⟨hu, hv⟩ := List.forall_mem_append.mp hw
    exact List.forall_mem_cons.mpr ⟨isReadable_of_spells head hu, ih hv⟩

/-- With the shorthand there is no other symbol. -/
theorem IsReadable.printedSpelling {d : Definition} (h : d.IsReadable) (shorthand : Bool) :
    ∀ x ∈ d.printedSpelling shorthand, x.IsReadable := by
  cases shorthand with
  | false => exact h
  | true =>
    rcases d with (o | f) | (s | t | d) | (s | t)
    · have all : ∀ x ∈ o.spelling, x.IsReadable := by
        simpa [IsReadable, Definition.printedSpelling, OperationDefinition.printedSpelling] using h
      simp only [Definition.printedSpelling, OperationDefinition.printedSpelling]
      split
      · exact fun x hx => all x (List.mem_append_right _ hx)
      · exact all
    all_goals exact h

theorem isReadable_printedSpellings {ds : List Definition} (h : ∀ d ∈ ds, d.IsReadable)
    (shorthand : Bool) : ∀ x ∈ (printedSpellings shorthand ds).flatten, x.IsReadable := by
  induction ds generalizing shorthand with
  | nil => simp [printedSpellings]
  | cons d ds ih =>
    obtain ⟨hd, hds⟩ := List.forall_mem_cons.mp h
    exact List.forall_mem_append.mpr ⟨hd.printedSpelling shorthand, ih hds d.isExecutable⟩

end Definition

namespace Document

/-- What it takes for a document to be parsed from its own text. -/
structure IsPrintable (d : Document) : Prop where
  wellFormed : d.WellFormed
  nesting : d.nesting ≤ Parser.maxNesting
  readable : ∀ a ∈ d.definitions.toList, a.IsReadable

theorem IsPrintable.parsed_again {d : Document} (h : d.IsPrintable) : parse d.print = .ok d := by
  have readable := Definition.isReadable_printedSpellings h.readable true
  refine parseTokens_of_spells h.wellFormed ?_ h.nesting
  rw [spelledSymbols_print readable]
  exact d.spells_printedSpelling

theorem isPrintable_of_parse {source : List Char} {d : Document} (h : parse source = .ok d) :
    d.IsPrintable := by
  obtain ⟨hd, hw⟩ := wellFormed_of_parseTokens h
  refine ⟨hd, nesting_le_of_parseTokens hd hw h, Definition.isReadable_of_spellRow hw fun x hx => ?_⟩
  obtain ⟨u, ⟨-, legal⟩, same⟩ := hw.allSpelled x hx
  obtain ⟨t, ht, rfl⟩ := List.mem_map.mp hx
  refine isReadable_of_mem_tokenize ((List.takeWhile_sublist _).subset ht) ?_ ?_
  · simpa using List.mem_takeWhile_imp ht
  · rwa [← Token.bare_kind, ← same, Token.bare_kind]

namespace IsPrintable

/-- A document whose definitions are those of others. -/
private theorem of_mem {d : Document} (numbered : d.definitions.Numbered) (hne : d.definitions ≠ .nil)
    (h : ∀ a ∈ d.definitions.toList, ∃ e : Document, e.IsPrintable ∧ a ∈ e.definitions.toList) :
    d.IsPrintable where
  wellFormed := by
    refine ⟨hne, numbered, fun a ha => ?_⟩
    obtain ⟨e, he, hae⟩ := h a ha
    exact he.wellFormed.2.2 a hae
  nesting := by
    refine IndexedList.deepest_le_iff.mpr fun a ha => ?_
    obtain ⟨e, he, hae⟩ := h a ha
    exact IndexedList.deepest_le_iff.mp he.nesting a hae
  readable a ha := by
    obtain ⟨e, he, hae⟩ := h a ha
    exact he.readable a hae

theorem join {d e : Document} (hd : d.IsPrintable) (he : e.IsPrintable) : (d.join e).IsPrintable := by
  refine of_mem (hd.wellFormed.2.1.join he.wellFormed.2.1) ?_ fun a ha => ?_
  · rw [ne_eq, ← IndexedList.toList_eq_nil_iff, toList_join]
    simp [hd.wellFormed.1]
  · rw [toList_join] at ha
    exact (List.mem_append.mp ha).elim (fun h => ⟨d, hd, h⟩) fun h => ⟨e, he, h⟩

theorem reversed {d : Document} (h : d.IsPrintable) :
    IsPrintable ⟨d.definitions.intoReversed⟩ := by
  refine of_mem (IndexedList.numbered_intoReversed _) ?_ fun a ha => ?_
  · rw [ne_eq, ← IndexedList.toList_eq_nil_iff, IndexedList.toList_intoReversed]
    simp [h.wellFormed.1]
  · exact ⟨d, h, by simpa using ha⟩

end IsPrintable

/-- Documents parsed from texts, and those made of them by joining their definitions and by reversing. -/
inductive IsAssembled : Document → Prop where
  | parsed {source : List Char} {d : Document} (h : parse source = .ok d) : IsAssembled d
  | join {d e : Document} (hd : IsAssembled d) (he : IsAssembled e) : IsAssembled (d.join e)
  | reversed {d : Document} (h : IsAssembled d) : IsAssembled ⟨d.definitions.intoReversed⟩

theorem IsAssembled.isPrintable {d : Document} (h : d.IsAssembled) : d.IsPrintable := by
  induction h with
  | parsed h => exact isPrintable_of_parse h
  | join _ _ hd he => exact hd.join he
  | reversed _ h => exact h.reversed

end Document

/-- A document that is parsed, or assembled from parsed ones, is parsed from its printed text again, with
all its positions. -/
theorem parse_print {d : Document} (h : d.IsAssembled) : parse d.print = .ok d :=
  h.isPrintable.parsed_again

/-- Behind a type without a block the keyword of the query is written, which the source has left out. -/
theorem parse_print_joined :
    ∃ d e : Document, parse "type A".toList = .ok d ∧ parse "\x7ba\x7d".toList = .ok e ∧
      parse (d.join e).print = .ok (d.join e) := by
  have hd : parse "type A".toList = .ok _ := rfl
  have he : parse "\x7ba\x7d".toList = .ok _ := rfl
  exact ⟨_, _, hd, he, parse_print (.join (.parsed hd) (.parsed he))⟩

end GraphQL
