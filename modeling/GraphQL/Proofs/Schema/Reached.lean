import GraphQL.Proofs.Schema.Printable

/-! The schemas that can be built. Their types and directives stand under their own names, and printing
and parsing gives each of them back. -/
namespace GraphQL.Schema

/-- The schemas that builds lead to, one document after another, from no schema at the start. Whether a
document is admitted may depend on the schema before it. -/
inductive IsReached (admits : Option Schema → Document → Prop) : Option Schema → Prop where
  | none : IsReached admits none
  | build {existing : Option Schema} {d : Document} {s : Schema} (before : IsReached admits existing)
      (assembled : d.IsAssembled) (admitted : admits existing d) (h : build existing d = .ok s) :
      IsReached admits (some s)

/-- No two types and no two directives share a name, each stands under its own and can be printed. -/
structure IsSound (s : Schema) : Prop where
  typesDistinct : s.types.keys.Nodup
  types : ∀ e ∈ s.types.entries, e.2.name = e.1 ∧ (Definition.typeSystem (.type e.2)).IsPrintable
  directivesDistinct : s.directives.keys.Nodup
  directives : ∀ e ∈ s.directives.entries,
    e.2.name = e.1 ∧ (Definition.typeSystem (.directive e.2)).IsPrintable

theorem isSound_empty : empty.IsSound where
  typesDistinct := .nil
  types := by simp [empty, Registry.empty]
  directivesDistinct := .nil
  directives := by simp [empty, Registry.empty]

/-- A type that can be printed can be printed with its extensions. -/
theorem isPrintable_foldl_extend {t : TypeDefinition} {xs : List TypeDefinition}
    (ht : (Definition.typeSystem (.type t)).IsPrintable) (hx : ∀ x ∈ xs, x.PartsPrintable) :
    (Definition.typeSystem (.type (xs.foldl TypeDefinition.extend t))).IsPrintable := by
  induction xs generalizing t with
  | nil => exact ht
  | cons x xs ih =>
    obtain ⟨hx, hxs⟩ := List.forall_mem_cons.mp hx
    obtain ⟨description, name, parts⟩ := (Definition.isPrintable_type_iff t).mp ht
    refine ih ((Definition.isPrintable_type_iff _).mpr ⟨?_, ?_, parts.extend hx⟩) hxs
    · rwa [TypeDefinition.description_extend]
    · rwa [TypeDefinition.name_extend]

/-- Before any extension the types are those of the schema and those of the document. -/
theorem IsSound.registered {s : Schema} {d : Document} (hs : s.IsSound)
    (hd : ∀ a ∈ d.definitions.toList, a.IsPrintable) : ∀ e ∈ (s.types.append d.types).entries,
      e.2.name = e.1 ∧ (Definition.typeSystem (.type e.2)).IsPrintable := by
  refine List.forall_mem_append.mpr ⟨hs.types, List.forall_mem_map.mpr fun t ht => ⟨rfl, ?_⟩⟩
  exact hd _ (Document.mem_of_mem_typeDefinitions ht)

theorem IsSound.merge {s : Schema} {d : Document} (hs : s.IsSound) (h : d.Extends s)
    (hd : ∀ a ∈ d.definitions.toList, a.IsPrintable) : (s.merge d).IsSound where
  typesDistinct := by
    rw [merge_types h, keys_extendTypes]
    exact h.types.nodup_keys_append hs.typesDistinct
  types := by
    have known := hs.registered hd
    rw [merge_types h, entries_extendTypes]
    refine List.forall_mem_map.mpr fun e he => ⟨?_, isPrintable_foldl_extend (known e he).2 fun x hx => ?_⟩
    · rw [TypeDefinition.name_foldl_extend, (known e he).1]
    · exact (hd _ (Document.mem_of_mem_typeExtensions (List.mem_filter.mp hx).1)).typeExtension
  directivesDistinct := by
    rw [merge_directives h]
    exact h.directives.nodup_keys_append hs.directivesDistinct
  directives := by
    rw [merge_directives h]
    refine List.forall_mem_append.mpr ⟨hs.directives, List.forall_mem_map.mpr fun x hx => ⟨rfl, ?_⟩⟩
    exact hd _ (Document.mem_of_mem_directiveDefinitions hx)

theorem IsReached.isSound {admits : Option Schema → Document → Prop} {existing : Option Schema}
    (h : IsReached admits existing) : (existing.getD .empty).IsSound := by
  induction h with
  | none => exact isSound_empty
  | build _ assembled _ h ih =>
    obtain ⟨fits, rfl⟩ := build_eq_ok_iff.mp h
    exact ih.merge fits ((Document.isPrintable_iff _).mp assembled.isPrintable).2.2

end GraphQL.Schema
