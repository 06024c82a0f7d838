import GraphQL.Proofs.Schema.Extension

/-! The order of definitions. Apart from the order in which the schema, or one type, is extended it makes no
difference to what is built, other than the order in which types and directives are listed. -/
namespace GraphQL

/-- The same definitions in another order, in which the extensions of the schema and those of each type have kept
theirs. -/
structure Document.Reorders (d' d : Document) : Prop where
  definitions : d'.definitions.toList.Perm d.definitions.toList
  schemaExtensions : Schema.schemaExtensions d' = Schema.schemaExtensions d
  typeExtensions : ∀ name, (Schema.typeExtensions d').filter (·.name = name) =
    (Schema.typeExtensions d).filter (·.name = name)

/-- The same types and directives under the same names, listed in any order, with the same definition of the schema
and the same roots. -/
structure Schema.Lists (s' s : Schema) : Prop where
  definition : s'.definition = s.definition
  roots : s'.roots = s.roots
  types : ∀ name, s'.types.get? name = s.types.get? name
  typesListed : s'.types.entries.Perm s.types.entries
  directives : ∀ name, s'.directives.get? name = s.directives.get? name
  directivesListed : s'.directives.entries.Perm s.directives.entries

namespace Document.Reorders
variable {d d' : Document} {s : Schema}

theorem symm (h : d'.Reorders d) : d.Reorders d' :=
  ⟨h.definitions.symm, h.schemaExtensions.symm, fun name => (h.typeExtensions name).symm⟩

theorem types (h : d'.Reorders d) : d'.types.entries.Perm d.types.entries :=
  (h.definitions.filterMap _).map _

theorem directives (h : d'.Reorders d) : d'.directives.entries.Perm d.directives.entries :=
  (h.definitions.filterMap _).map _

/-- What extends a type of the one document does so in the other. -/
theorem mem_typeExtensions (h : d'.Reorders d) {x : TypeDefinition} (hx : x ∈ Schema.typeExtensions d') :
    x ∈ Schema.typeExtensions d :=
  ((h.definitions.filterMap _).mem_iff).mp hx

/-- A document that can be merged defines the schema at most once, so there is nothing to be reordered. -/
theorem schemaDefinitions (h : d'.Reorders d) (hd : d.Extends s) : d'.schemaDefinitions = d.schemaDefinitions := by
  have perm : d'.schemaDefinitions.Perm d.schemaDefinitions := h.definitions.filterMap _
  rcases hd.schemas with none | ⟨-, one⟩
  · rw [none] at perm ⊢
    exact perm.eq_nil
  · obtain ⟨x, alone⟩ := List.length_eq_one_iff.mp one
    rw [alone] at perm ⊢
    exact List.perm_singleton.mp perm

theorem get?_types (h : d'.Reorders d) (hd : d.Extends s) (name : String) :
    (s.types.append d'.types).get? name = (s.types.append d.types).get? name := by
  rw [Registry.get?_append, Registry.get?_append, Registry.get?_of_perm h.types hd.types.distinct]

theorem extends_of_extends (h : d'.Reorders d) (hd : d.Extends s) : d'.Extends s where
  schemas := by
    rw [h.schemaDefinitions hd]
    exact hd.schemas
  types := hd.types.of_perm h.types
  directives := hd.directives.of_perm h.directives
  extensions := by
    intro x hx
    rw [h.get?_types hd]
    exact hd.extensions x (h.mem_typeExtensions hx)

theorem extends_iff (h : d'.Reorders d) : d'.Extends s ↔ d.Extends s :=
  ⟨h.symm.extends_of_extends, h.extends_of_extends⟩

/-- Each type takes its own extensions, wherever it is listed. -/
theorem typesListed (h : d'.Reorders d) (hd : d.Extends s) :
    (s.merge d').types.entries.Perm (s.merge d).types.entries := by
  rw [Schema.merge_types hd, Schema.merge_types (h.extends_of_extends hd), Schema.entries_extendTypes,
    Schema.entries_extendTypes]
  simp only [h.typeExtensions]
  apply List.Perm.map
  exact h.types.append_left _

theorem get?_merge_types (h : d'.Reorders d) (hd : d.Extends s) (name : String) :
    (s.merge d').types.get? name = (s.merge d).types.get? name := by
  rw [Schema.merge_types hd, Schema.merge_types (h.extends_of_extends hd), Schema.get?_extendTypes,
    Schema.get?_extendTypes, h.get?_types hd, h.typeExtensions]

theorem merge_definition (h : d'.Reorders d) (hd : d.Extends s) : (s.merge d').definition = (s.merge d).definition := by
  rw [Schema.merge_definition hd, Schema.merge_definition (h.extends_of_extends hd), h.schemaDefinitions hd,
    h.schemaExtensions]

/-- Roots are set by the only definition of the schema and by its extensions in order. The default ones are known by
name. -/
theorem merge_roots (h : d'.Reorders d) (hd : d.Extends s) : (s.merge d').roots = (s.merge d).roots := by
  have contains : (s.merge d').types.contains = (s.merge d).types.contains := by
    funext name
    rw [Registry.contains, h.get?_merge_types hd, Registry.contains]
  rw [Schema.merge_roots hd, Schema.merge_roots (h.extends_of_extends hd), h.merge_definition hd,
    h.schemaDefinitions hd, h.schemaExtensions, contains]

theorem lists_merge (h : d'.Reorders d) (hd : d.Extends s) : (s.merge d').Lists (s.merge d) where
  definition := h.merge_definition hd
  roots := h.merge_roots hd
  types := h.get?_merge_types hd
  typesListed := h.typesListed hd
  directives name := by
    rw [Schema.merge_directives hd, Schema.merge_directives (h.extends_of_extends hd), Registry.get?_append,
      Registry.get?_append, Registry.get?_of_perm h.directives hd.directives.distinct]
  directivesListed := by
    rw [Schema.merge_directives hd, Schema.merge_directives (h.extends_of_extends hd)]
    exact h.directives.append_left _

end Document.Reorders

namespace Schema

/-- On top of any schema a document can be built in any order of its definitions or in none, and the schemas differ
at most in the order in which they list their types and directives. -/
theorem build_reorders (existing : Option Schema) {d d' : Document} (h : d'.Reorders d) :
    ((∃ s', build existing d' = .ok s') ↔ ∃ s, build existing d = .ok s) ∧
      ∀ s s', build existing d = .ok s → build existing d' = .ok s' → s'.Lists s := by
  constructor
  · simp only [build_eq_ok_iff, h.extends_iff]
    constructor
    · rintro ⟨-, extends', -⟩
      exact ⟨_, extends', rfl⟩
    · rintro ⟨-, extends', -⟩
      exact ⟨_, extends', rfl⟩
  · intro s s' built built'
    obtain ⟨hd, rfl⟩ := build_eq_ok_iff.mp built
    obtain ⟨-, rfl⟩ := build_eq_ok_iff.mp built'
    exact h.lists_merge hd

/-- The type stands behind its extension, or in front of it. -/
theorem build_reorders_extended : ∃ d d' s s' a, parse "extend type A @a scalar B type A".toList = .ok d ∧
    parse "type A scalar B extend type A @a".toList = .ok d' ∧ build none d = .ok s ∧ build none d' = .ok s' ∧
    (s.types.keys = ["B", "A"] ∧ s'.types.keys = ["A", "B"] ∧ s.types.get? "A" = some a ∧
      a.directives.toList.map (·.name) = ["a"]) ∧
    d'.Reorders d ∧ s'.Lists s := by
  let a : Definition := .typeSystem (.type ⟨none, "A", .nil, .object .nil .nil⟩)
  let b : Definition := .typeSystem (.type ⟨none, "B", .nil, .scalar⟩)
  let x : Definition := .extension (.type ⟨none, "A", IndexedList.nil.add ⟨"a", .nil⟩, .object .nil .nil⟩)
  have reorders : Document.Reorders ⟨.ofList [a, b, x]⟩ ⟨.ofList [x, b, a]⟩ :=
    ⟨List.reverse_perm [x, b, a], rfl, fun _ => rfl⟩
  have same := (build_reorders none reorders).2 _ _ rfl rfl
  exact ⟨_, _, _, _, _, rfl, rfl, rfl, rfl, ⟨rfl, rfl, rfl, rfl⟩, reorders, same⟩

end Schema

end GraphQL
