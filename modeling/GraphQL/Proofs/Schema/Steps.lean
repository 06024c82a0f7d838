import GraphQL.Parser.Document
import GraphQL.Proofs.Schema.Extension

/-! Building in steps. Two documents one after another give the types, the directives and the schema
definition that both together give at once. -/
namespace GraphQL

namespace Document

theorem schemaDefinitions_join (d e : Document) :
    (d.join e).schemaDefinitions = d.schemaDefinitions ++ e.schemaDefinitions := by
  rw [schemaDefinitions, toList_join, List.filterMap_append]
  rfl

theorem schemaExtensions_join (d e : Document) :
    Schema.schemaExtensions (d.join e) = Schema.schemaExtensions d ++ Schema.schemaExtensions e := by
  rw [Schema.schemaExtensions, toList_join, List.filterMap_append]
  rfl

theorem typeExtensions_join (d e : Document) :
    Schema.typeExtensions (d.join e) = Schema.typeExtensions d ++ Schema.typeExtensions e := by
  rw [Schema.typeExtensions, toList_join, List.filterMap_append]
  rfl

theorem types_join (d e : Document) : (d.join e).types = d.types.append e.types := by
  rw [types, typeDefinitions, toList_join, List.filterMap_append]
  exact Registry.ofList_append ..

theorem directives_join (d e : Document) : (d.join e).directives = d.directives.append e.directives := by
  rw [directives, directiveDefinitions, toList_join, List.filterMap_append]
  exact Registry.ofList_append ..

end Document

namespace RootTypes

theorem eq_none_of_orDefaults {r : RootTypes} {known : String → Bool} (h : r.orDefaults known = .none) :
    r = .none := by
  obtain ⟨query, mutation, subscription⟩ := r
  simp only [orDefaults, none, mk.injEq, Option.or_eq_none_iff] at h
  simp [none, h]

end RootTypes

namespace Schema

theorem foldl_extendDefinition_eq_none_iff (known : Option SchemaDefinition) (xs : List SchemaDefinition) :
    xs.foldl extendDefinition known = none ↔ known = none ∧ xs = [] := by
  induction xs using List.reverseRecOn with
  | nil => simp
  | append_singleton xs x => simp [extendDefinition]

variable {s : Schema} {d e : Document}

/-- Only a schema that was undefined stays so, and only with a document that says nothing about schemas. -/
theorem undefined_of_merge (h : d.Extends s) (undefined : (s.merge d).isDefined = false) :
    s.isDefined = false ∧ d.schemaDefinitions = [] ∧ schemaExtensions d = [] := by
  obtain ⟨definition, roots⟩ := (isDefined_eq_false_iff _).mp undefined
  have before := definition
  rw [merge_definition h, foldl_extendDefinition_eq_none_iff, Option.or_eq_none_iff,
    List.getLast?_eq_none_iff] at before
  obtain ⟨⟨noDefinition, undefined⟩, noExtension⟩ := before
  rw [merge_roots h, definition, noDefinition, noExtension] at roots
  exact ⟨(isDefined_eq_false_iff s).mpr ⟨undefined, RootTypes.eq_none_of_orDefaults roots⟩, noDefinition,
    noExtension⟩

theorem map_kind_get?_extendTypes (types : Registry TypeDefinition) (xs : List TypeDefinition) (name : String) :
    ((extendTypes types xs).get? name).map (·.kind) = (types.get? name).map (·.kind) := by
  rw [get?_extendTypes, Option.map_map]
  congr 1
  funext t
  exact TypeDefinition.kind_foldl_extend ..

theorem mem_keys_of_extends (h : d.Extends s) {x : TypeDefinition} (hx : x ∈ typeExtensions d) :
    x.name ∈ (s.types.append d.types).keys := by
  obtain ⟨t, found, -⟩ := Option.map_eq_some_iff.mp (h.extensions x hx)
  exact Registry.contains_iff.mp (by simp [Registry.contains, found])

theorem extends_join (hd : d.Extends s) (he : e.Extends (s.merge d)) : (d.join e).Extends s where
  schemas := by
    rw [Document.schemaDefinitions_join]
    rcases he.schemas with none | ⟨undefined, one⟩
    · rw [none, List.append_nil]
      exact hd.schemas
    · obtain ⟨undefined, none, -⟩ := undefined_of_merge hd undefined
      rw [none, List.nil_append]
      exact .inr ⟨undefined, one⟩
  types := by
    rw [Document.types_join]
    exact hd.types.append (he.types.of_keys_eq (by rw [merge_types hd, keys_extendTypes]))
  directives := by
    rw [Document.directives_join]
    exact hd.directives.append (merge_directives hd ▸ he.directives)
  extensions := by
    rw [Document.typeExtensions_join, Document.types_join, ← Registry.append_assoc]
    refine List.forall_mem_append.mpr ⟨fun x hx => ?_, fun x hx => ?_⟩
    · rw [Registry.get?_append, Option.map_or, hd.extensions x hx]
      rfl
    · rw [← he.extensions x hx, merge_types hd, Registry.get?_append, Registry.get?_append _ e.types,
        Option.map_or, Option.map_or, map_kind_get?_extendTypes]

/-- The extensions of a document do not touch what is defined later. -/
theorem merge_join_types (hd : d.Extends s) (he : e.Extends (s.merge d)) :
    (s.merge (d.join e)).types = ((s.merge d).merge e).types := by
  have untouched : extendTypes e.types (typeExtensions d) = e.types := by
    refine extendTypes_eq_self fun x hx defined => he.types.new x.name defined ?_
    rw [merge_types hd, keys_extendTypes]
    exact mem_keys_of_extends hd hx
  rw [merge_types he, merge_types (extends_join hd he), merge_types hd, Document.typeExtensions_join,
    Document.types_join]
  calc
    _ = extendTypes (extendTypes ((s.types.append d.types).append e.types) (typeExtensions d))
        (typeExtensions e) := by rw [Registry.append_assoc]; exact List.foldl_append
    _ = _ := by rw [extendTypes_append _ e.types, untouched]

theorem merge_join_directives (hd : d.Extends s) (he : e.Extends (s.merge d)) :
    (s.merge (d.join e)).directives = ((s.merge d).merge e).directives := by
  rw [merge_directives he, merge_directives (extends_join hd he), merge_directives hd,
    Document.directives_join, Registry.append_assoc]

/-- If the second document defines the schema then the first one has said nothing about it. -/
theorem merge_join_definition (hd : d.Extends s) (he : e.Extends (s.merge d)) :
    (s.merge (d.join e)).definition = ((s.merge d).merge e).definition := by
  rw [merge_definition he, merge_definition (extends_join hd he), merge_definition hd,
    Document.schemaDefinitions_join, Document.schemaExtensions_join, List.foldl_append]
  rcases he.schemas with none | ⟨undefined, -⟩
  · rw [none, List.append_nil]
    rfl
  · obtain ⟨undefined, noDefinition, noExtension⟩ := undefined_of_merge hd undefined
    rw [noDefinition, noExtension, ((isDefined_eq_false_iff s).mp undefined).1]
    rfl

/-- Where two documents can be built one after the other, they can be built as one, with the same result
in all that is written in a schema. -/
theorem build_join {existing : Option Schema} {s₁ s₂ : Schema} (h₁ : build existing d = .ok s₁)
    (h₂ : build (some s₁) e = .ok s₂) :
    ∃ s, build existing (d.join e) = .ok s ∧ s.definition = s₂.definition ∧ s.types = s₂.types ∧
      s.directives = s₂.directives := by
  obtain ⟨hd, rfl⟩ := build_eq_ok_iff.mp h₁
  obtain ⟨he, rfl⟩ := build_eq_ok_iff.mp h₂
  exact ⟨_, build_eq_ok_iff.mpr ⟨extends_join hd he, rfl⟩, merge_join_definition hd he,
    merge_join_types hd he, merge_join_directives hd he⟩

set_option maxRecDepth 1000 in
/-- In steps `A` is first extended before `B` is there. At once both extensions are merged behind it. -/
theorem build_join_extended : ∃ d e s₁ s₂ a fields,
    parse "extend type A @a type A \x7b x: A \x7d directive @c on FIELD".toList = .ok d ∧
    parse "type B extend type A @b \x7b y: B \x7d".toList = .ok e ∧
    build none d = .ok s₁ ∧ build (some s₁) e = .ok s₂ ∧
    (s₂.types.keys = ["A", "B"] ∧ s₂.types.get? "A" = some a ∧ a.body = .object .nil fields ∧
      a.directives.toList.map (·.name) = ["a", "b"] ∧ fields.toList.map (·.name) = ["x", "y"] ∧
      s₂.directives.keys = ["c"]) ∧
    ∃ s, build none (d.join e) = .ok s ∧ s.definition = s₂.definition ∧ s.types = s₂.types ∧
      s.directives = s₂.directives := by
  have parsed : parse "extend type A @a type A \x7b x: A \x7d directive @c on FIELD".toList = .ok _ := rfl
  have parsed' : parse "type B extend type A @b \x7b y: B \x7d".toList = .ok _ := rfl
  exact ⟨_, _, _, _, _, _, parsed, parsed', rfl, rfl, ⟨rfl, rfl, rfl, rfl, rfl, rfl⟩, build_join rfl rfl⟩

end Schema

end GraphQL
