import Mathlib.Order.Lattice
import GraphQL.Proofs.RoundTrip
import GraphQL.Proofs.Schema.Extension

/-! Definitions that can be printed and parsed again. Whether a definition is one depends on its parts
alone, so it stays one when it is extended. -/
namespace GraphQL
open GraphQL.Symbol

/-- All symbols can be read back. -/
def AllReadable (w : List Symbol) : Prop := ∀ x ∈ w, x.IsReadable

namespace AllReadable

@[simp] theorem nil : AllReadable [] := by simp [AllReadable]

@[simp] theorem cons_iff {x : Symbol} {w : List Symbol} :
    AllReadable (x :: w) ↔ x.IsReadable ∧ AllReadable w := by
  simp [AllReadable]

@[simp] theorem append_iff {u v : List Symbol} :
    AllReadable (u ++ v) ↔ AllReadable u ∧ AllReadable v := by
  simp [AllReadable, or_imp, forall_and]

@[simp] theorem mark (p : Punctuator) : (Symbol.mark p).IsReadable := .mark p

variable {α : Type} {f : α → List Symbol}

@[simp] theorem spelling_iff (l : IndexedList α) :
    AllReadable (l.spelling f) ↔ ∀ a ∈ l.toList, AllReadable (f a) := by
  simp only [AllReadable, IndexedList.spelling, List.mem_flatMap]
  grind

@[simp] theorem blockSpelling_iff (l : IndexedList α) (opening closing : Punctuator) :
    AllReadable (l.blockSpelling opening closing f) ↔ ∀ a ∈ l.toList, AllReadable (f a) := by
  simp [IndexedList.blockSpelling]

@[simp] theorem optionalSpelling_iff (l : IndexedList α) (opening closing : Punctuator) :
    AllReadable (l.optionalSpelling opening closing f) ↔ ∀ a ∈ l.toList, AllReadable (f a) := by
  cases l with
  | nil => simp [IndexedList.optionalSpelling, IndexedList.toList]
  | cons => simp [IndexedList.optionalSpelling, IndexedList.isEmpty]

/-- The separators can be read in any case. -/
@[simp] theorem separatedSpelling_iff (l : IndexedList α) (separator : Punctuator) :
    AllReadable (l.separatedSpelling separator false f) ↔ ∀ a ∈ l.toList, AllReadable (f a) := by
  cases l with
  | nil => simp [IndexedList.separatedSpelling, IndexedList.spelling, IndexedList.toList]
  | cons p a rest =>
    have tail : (IndexedList.cons p a rest).separatedSpelling separator false f =
        f a ++ rest.spelling (Symbol.mark separator :: f ·) := rfl
    simp [tail, IndexedList.toList]

theorem word {name : String} {c : Char} {cs : List Char} (same : name.toList = c :: cs)
    (hc : isNameStart c) (hcs : cs.all isNameChar) : (Symbol.word name).IsReadable := by
  have whole : name = String.ofList (c :: cs) := by rw [← same, String.ofList_toList]
  rw [whole]
  exact .name hc (List.all_eq_true.mp hcs)

@[simp] theorem keyword (kind : TypeKind) : (Symbol.word kind.keyword).IsReadable := by
  cases kind <;> exact word rfl rfl rfl

@[simp] theorem interfaces_iff (l : IndexedList TypeReference) :
    AllReadable (interfacesSpelling false l) ↔ ∀ t ∈ l.toList, AllReadable t.spelling := by
  have keyword : (Symbol.word "implements").IsReadable := word rfl rfl rfl
  cases l with
  | nil => simp [interfacesSpelling, IndexedList.toList]
  | cons => simp [interfacesSpelling, IndexedList.isEmpty, keyword]

@[simp] theorem members_iff (l : IndexedList TypeReference) :
    AllReadable (membersSpelling false l) ↔ ∀ t ∈ l.toList, AllReadable t.spelling := by
  cases l with
  | nil => simp [membersSpelling, IndexedList.toList]
  | cons => simp [membersSpelling, IndexedList.isEmpty]

end AllReadable

theorem allReadable_body_iff (dirs : IndexedList Directive) (b : TypeBody) :
    AllReadable (b.spelling false dirs) ↔ (∀ d ∈ dirs.toList, AllReadable d.spelling) ∧
      (∀ i ∈ b.interfaces.toList, AllReadable i.spelling) ∧ (∀ f ∈ b.fields.toList, AllReadable f.spelling) ∧
      (∀ m ∈ b.members.toList, AllReadable m.spelling) ∧ (∀ v ∈ b.values.toList, AllReadable v.spelling) ∧
      ∀ i ∈ b.inputFields.toList, AllReadable i.spelling := by
  cases b <;> simp [TypeBody.spelling, directivesSpelling, TypeBody.interfaces, TypeBody.fields,
    TypeBody.members, TypeBody.values, TypeBody.inputFields, IndexedList.toList] <;> tauto

theorem nesting_body_le_iff (b : TypeBody) (n : Nat) :
    b.nesting ≤ n ↔ b.interfaces.deepest TypeReference.nesting ≤ n ∧
      b.fields.deepest FieldDefinition.nesting ≤ n ∧ b.members.deepest TypeReference.nesting ≤ n ∧
      b.values.deepest EnumValueDefinition.nesting ≤ n ∧
      b.inputFields.deepest InputValueDefinition.nesting ≤ n := by
  cases b <;> simp [TypeBody.nesting, TypeBody.interfaces, TypeBody.fields, TypeBody.members,
    TypeBody.values, TypeBody.inputFields, IndexedList.deepest_le_iff, IndexedList.toList]

/-- A list of parts each of which can be printed and parsed again, as far as it depends on them. -/
def EachPrintable {α : Type} (wellFormed : α → Prop) (nesting : α → Nat) (spelling : α → List Symbol)
    (l : IndexedList α) : Prop :=
  l.Each fun a => wellFormed a ∧ nesting a ≤ Parser.maxNesting ∧ AllReadable (spelling a)

theorem eachPrintable_iff {α : Type} {wellFormed : α → Prop} {nesting : α → Nat}
    {spelling : α → List Symbol} {l : IndexedList α} :
    EachPrintable wellFormed nesting spelling l ↔ l.Each wellFormed ∧
      l.deepest nesting ≤ Parser.maxNesting ∧ ∀ a ∈ l.toList, AllReadable (spelling a) := by
  simp only [EachPrintable, IndexedList.Each, IndexedList.deepest_le_iff, forall_and, and_assoc]

/-- All directives and all that stands in the body can be printed and parsed again. -/
structure TypeDefinition.PartsPrintable (t : TypeDefinition) : Prop where
  directives : EachPrintable Directive.WellFormed Directive.nesting Directive.spelling t.directives
  interfaces : EachPrintable TypeReference.IsPlain TypeReference.nesting TypeReference.spelling
    t.body.interfaces
  fields : EachPrintable FieldDefinition.WellFormed FieldDefinition.nesting FieldDefinition.spelling
    t.body.fields
  members : EachPrintable TypeReference.IsPlain TypeReference.nesting TypeReference.spelling t.body.members
  values : EachPrintable EnumValueDefinition.WellFormed EnumValueDefinition.nesting
    EnumValueDefinition.spelling t.body.values
  inputFields : EachPrintable InputValueDefinition.WellFormed InputValueDefinition.nesting
    InputValueDefinition.spelling t.body.inputFields

theorem TypeDefinition.partsPrintable_iff (t : TypeDefinition) :
    t.PartsPrintable ↔ t.WellFormed ∧ t.nesting ≤ Parser.maxNesting ∧
      AllReadable (t.body.spelling false t.directives) := by
  rw [WellFormed, TypeBody.wellFormed_iff, nesting, Nat.max_le, nesting_body_le_iff, allReadable_body_iff]
  constructor
  · rintro ⟨dirs, is, fs, ms, vs, inputs⟩
    rw [eachPrintable_iff] at dirs is fs ms vs inputs
    tauto
  · rintro ⟨⟨dirs, is, fs, ms, vs, inputs⟩, nesting, readable⟩
    constructor <;> rw [eachPrintable_iff] <;> tauto

theorem TypeDefinition.PartsPrintable.extend {t x : TypeDefinition} (ht : t.PartsPrintable)
    (hx : x.PartsPrintable) : (t.extend x).PartsPrintable := by
  by_cases kind : t.kind = x.kind
  · obtain ⟨body, same, joins⟩ := exists_extend kind
    rw [same]
    exact {
      directives := ht.directives.join hx.directives
      interfaces := joins.interfaces ▸ ht.interfaces.join hx.interfaces
      fields := joins.fields ▸ ht.fields.join hx.fields
      members := joins.members ▸ ht.members.join hx.members
      values := joins.values ▸ ht.values.join hx.values
      inputFields := joins.inputFields ▸ ht.inputFields.join hx.inputFields }
  · rwa [extend_of_kind_ne kind]

theorem allReadable_schema_iff (s : SchemaDefinition) (isExtension : Bool) :
    AllReadable (s.spelling isExtension) ↔ AllReadable (descriptionSpelling s.description) ∧
      (∀ d ∈ s.directives.toList, AllReadable d.spelling) ∧ ∀ r ∈ s.roots.toList, AllReadable r.spelling := by
  have keyword : (word "schema").IsReadable := AllReadable.word rfl rfl rfl
  cases roots : s.roots with
  | nil => cases isExtension <;>
      simp [SchemaDefinition.spelling, directivesSpelling, keyword, roots, IndexedList.toList]
  | cons => simp [SchemaDefinition.spelling, directivesSpelling, keyword, roots, IndexedList.isEmpty]

/-- All directives and roots can be printed and parsed again. -/
structure SchemaDefinition.PartsPrintable (s : SchemaDefinition) : Prop where
  directives : EachPrintable Directive.WellFormed Directive.nesting Directive.spelling s.directives
  roots : s.roots.Each fun r => AllReadable r.spelling

theorem SchemaDefinition.PartsPrintable.extend {s x : SchemaDefinition} (hs : s.PartsPrintable)
    (hx : x.PartsPrintable) : (s.extend x).PartsPrintable :=
  ⟨hs.directives.join hx.directives, hs.roots.join hx.roots⟩

namespace Definition

/-- What it takes for a definition to be parsed from its own text. -/
structure IsPrintable (d : Definition) : Prop where
  wellFormed : d.WellFormed
  nesting : d.nesting ≤ Parser.maxNesting
  readable : d.IsReadable

theorem isPrintable_type_iff (t : TypeDefinition) :
    (typeSystem (.type t)).IsPrintable ↔
      AllReadable (descriptionSpelling t.description) ∧ (word t.name).IsReadable ∧ t.PartsPrintable := by
  have readable : (typeSystem (.type t)).IsReadable ↔ AllReadable (t.spelling false) := .rfl
  rw [TypeDefinition.spelling, AllReadable.append_iff, AllReadable.cons_iff, AllReadable.cons_iff] at readable
  rw [TypeDefinition.partsPrintable_iff]
  constructor
  · intro h
    obtain ⟨description, -, name, body⟩ := readable.mp h.readable
    exact ⟨description, name, h.wellFormed, h.nesting, body⟩
  · rintro ⟨description, name, wellFormed, nesting, body⟩
    exact ⟨wellFormed, nesting, readable.mpr ⟨description, AllReadable.keyword _, name, body⟩⟩

theorem IsPrintable.typeExtension {t : TypeDefinition} (h : (extension (.type t)).IsPrintable) :
    t.PartsPrintable := by
  have readable : AllReadable (word "extend" :: t.spelling false) := h.readable
  rw [TypeDefinition.spelling, AllReadable.cons_iff, AllReadable.append_iff, AllReadable.cons_iff,
    AllReadable.cons_iff] at readable
  obtain ⟨-, -, -, -, body⟩ := readable
  exact t.partsPrintable_iff.mpr ⟨h.wellFormed.1, h.nesting, body⟩

private theorem schemaParts {s : SchemaDefinition} {isExtension : Bool} (wellFormed : s.WellFormed isExtension)
    (nesting : s.nesting ≤ Parser.maxNesting) (readable : AllReadable (s.spelling isExtension)) :
    s.PartsPrintable := by
  obtain ⟨-, directives, roots⟩ := (allReadable_schema_iff s isExtension).mp readable
  exact ⟨eachPrintable_iff.mpr ⟨wellFormed.1, nesting, directives⟩, wellFormed.2.1, roots⟩

theorem isPrintable_schema_iff (s : SchemaDefinition) :
    (typeSystem (.schema s)).IsPrintable ↔
      AllReadable (descriptionSpelling s.description) ∧ s.roots ≠ .nil ∧ s.PartsPrintable := by
  constructor
  · intro h
    exact ⟨((allReadable_schema_iff s false).mp h.readable).1, h.wellFormed.2.2 rfl,
      schemaParts h.wellFormed h.nesting h.readable⟩
  · rintro ⟨description, some, parts⟩
    obtain ⟨wellFormed, nesting, directives⟩ := eachPrintable_iff.mp parts.directives
    exact ⟨⟨wellFormed, parts.roots.1, fun _ => some⟩, nesting,
      (allReadable_schema_iff s false).mpr ⟨description, directives, parts.roots.2⟩⟩

theorem IsPrintable.schemaExtension {s : SchemaDefinition} (h : (extension (.schema s)).IsPrintable) :
    s.PartsPrintable := by
  have readable : AllReadable (word "extend" :: s.spelling true) := h.readable
  exact schemaParts h.wellFormed.1 h.nesting (AllReadable.cons_iff.mp readable).2

end Definition

/-- A document can be printed if all its definitions can, and if there is any. -/
theorem Document.isPrintable_iff (d : Document) :
    d.IsPrintable ↔ d.definitions ≠ .nil ∧ d.definitions.Each Definition.IsPrintable := by
  constructor
  · intro h
    have nesting := IndexedList.deepest_le_iff.mp h.nesting
    exact ⟨h.wellFormed.1, h.wellFormed.2.1,
      fun a ha => ⟨h.wellFormed.2.2 a ha, nesting a ha, h.readable a ha⟩⟩
  · rintro ⟨some, numbered, all⟩
    exact ⟨⟨some, numbered, fun a ha => (all a ha).wellFormed⟩,
      IndexedList.deepest_le_iff.mpr fun a ha => (all a ha).nesting, fun a ha => (all a ha).readable⟩

end GraphQL
