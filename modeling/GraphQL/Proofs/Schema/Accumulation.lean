import Mathlib.Data.List.Forall2
import GraphQL.Proofs.Schema.Reached

/-! Building loses nothing: all types, directives and extensions of a document are in the schema that is
built, behind those that were there. -/
namespace GraphQL.Schema

/-- What a document adds to a schema. The types of the schema are followed by those of the document, each
of them with all its extensions, and the directives of the schema by those of the document. -/
structure Accumulates (old : Schema) (d : Document) (s : Schema) : Prop where
  typesDistinct : s.types.keys.Nodup
  types : List.Forall₂ (fun before after => after.1 = before.1 ∧ after.2.name = after.1 ∧
      after.2.Merges before.2 ((typeExtensions d).filter (·.name = before.1)))
    (old.types.append d.types).entries s.types.entries
  directivesDistinct : s.directives.keys.Nodup
  directives : s.directives = old.directives.append d.directives
  /-- When its turn comes, the type that is extended is there and can be joined with the extension. -/
  noneSkipped : ∀ xs x ys, typeExtensions d = xs ++ x :: ys →
    ∃ t body, (old.midway d xs).types.get? x.name = some t ∧ t.body.join? x.body = some body

variable {old : Schema} {d : Document}

private theorem registered_merges (sound : old.IsSound) (fits : d.Extends old)
    (printable : ∀ a ∈ d.definitions.toList, a.IsPrintable) {e : String × TypeDefinition}
    (he : e ∈ (old.types.append d.types).entries) :
    (((typeExtensions d).filter (·.name = e.1)).foldl TypeDefinition.extend e.2).Merges e.2
      ((typeExtensions d).filter (·.name = e.1)) := by
  refine TypeDefinition.merges_foldl_extend (sound.registered printable e he).2.wellFormed fun x hx => ?_
  obtain ⟨hx, same⟩ := List.mem_filter.mp hx
  have extension := (printable _ (Document.mem_of_mem_typeExtensions hx)).wellFormed
  have distinct := fits.types.nodup_keys_append sound.typesDistinct
  have found : (old.types.append d.types).get? x.name = some e.2 := by
    rw [of_decide_eq_true same]
    exact Registry.get?_of_mem distinct he
  have kind := fits.extensions x hx
  rw [found, Option.map_some, Option.some.injEq] at kind
  exact ⟨extension.1, kind.symm⟩

/-- Merging keeps kinds, so what the validation has found about the kinds is true until the end. -/
private theorem exists_join_midway (fits : d.Extends old) (xs : List TypeDefinition) {x : TypeDefinition}
    (hx : x ∈ typeExtensions d) :
    ∃ t body, (old.midway d xs).types.get? x.name = some t ∧ t.body.join? x.body = some body := by
  obtain ⟨t, found, kind⟩ := Option.map_eq_some_iff.mp (fits.extensions x hx)
  have now : (old.midway d xs).types.get? x.name =
      some ((xs.filter (·.name = x.name)).foldl TypeDefinition.extend t) := by
    rw [midway_eq fits, get?_extendTypes, found, Option.map_some]
  obtain ⟨body, same, -⟩ := TypeBody.exists_joins ((TypeDefinition.kind_foldl_extend ..).trans kind)
  exact ⟨_, body, now, same⟩

/-- A build loses nothing, whichever builds came before it. All documents are parsed, or assembled from parsed
ones. -/
theorem build_accumulates {admits : Option Schema → Document → Prop} {existing : Option Schema} {d : Document}
    {s : Schema} (reached : IsReached admits existing) (assembled : d.IsAssembled)
    (h : build existing d = .ok s) : Accumulates (existing.getD .empty) d s := by
  obtain ⟨fits, rfl⟩ := build_eq_ok_iff.mp h
  have printable := ((Document.isPrintable_iff d).mp assembled.isPrintable).2.2
  have sound := reached.isSound
  have merged := sound.merge fits printable
  refine ⟨merged.typesDistinct, ?_, merged.directivesDistinct, merge_directives fits, fun xs x ys split => ?_⟩
  · rw [merge_types fits, entries_extendTypes]
    refine List.forall₂_map_right_iff.mpr (List.forall₂_same.mpr fun e he => ⟨rfl, ?_, ?_⟩)
    · rw [TypeDefinition.name_foldl_extend, (sound.registered printable e he).1]
    · exact registered_merges sound fits printable he
  · exact exists_join_midway fits xs (by simp [split])

/-- A type of the schema and one of the document are extended, the latter by what stands in front of it. -/
theorem build_accumulates_extended : ∃ d₁ d₂ s₁ s₂,
    parse "type A".toList = .ok d₁ ∧ build none d₁ = .ok s₁ ∧
      parse "extend union U = B union U = A extend type A @c".toList = .ok d₂ ∧
      build (some s₁) d₂ = .ok s₂ ∧ Accumulates s₁ d₂ s₂ := by
  have parsed₁ : parse "type A".toList = .ok _ := rfl
  have parsed₂ : parse "extend union U = B union U = A extend type A @c".toList = .ok _ := rfl
  have reached : IsReached (fun _ _ => True) (some _) := .build .none (.parsed parsed₁) trivial rfl
  exact ⟨_, _, _, _, parsed₁, rfl, parsed₂, rfl, build_accumulates reached (.parsed parsed₂) rfl⟩

end GraphQL.Schema
