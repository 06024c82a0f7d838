import GraphQL.Proofs.Schema.Reached

/-! A schema that was built can be printed, parsed and built again. Its roots need not be written down, as
they follow from its definition or from the names of its types. -/
namespace GraphQL

namespace RootTypes

private theorem filter_or_filter {α : Type} {p q : α → Bool} (h : ∀ a, p a → q a) (a : α) :
    ((some a).filter p).or ((some a).filter q) = (some a).filter q := by
  cases hp : p a with
  | false => simp [Option.filter, hp]
  | true => simp [Option.filter, hp, h a hp]

/-- A root that stands at its default stays there when there are more types. -/
theorem orDefaults_orDefaults {known more : String → Bool} (h : ∀ name, known name → more name) :
    (RootTypes.none.orDefaults known).orDefaults more = RootTypes.none.orDefaults more := by
  simp only [orDefaults, none, Option.none_or, filter_or_filter h]

end RootTypes

namespace SchemaDefinition

theorem roots_foldl_extend (s : SchemaDefinition) (xs : List SchemaDefinition) :
    (xs.foldl extend s).roots.toList = s.roots.toList ++ xs.flatMap (·.roots.toList) := by
  induction xs generalizing s with
  | nil => simp
  | cons x xs ih => simp [ih, extend]

/-- An extension has no description and takes no root away. -/
theorem isPrintable_foldl_extend {s : SchemaDefinition} {xs : List SchemaDefinition}
    (hs : (Definition.typeSystem (.schema s)).IsPrintable) (hx : ∀ x ∈ xs, x.PartsPrintable) :
    (Definition.typeSystem (.schema (xs.foldl extend s))).IsPrintable := by
  induction xs generalizing s with
  | nil => exact hs
  | cons x xs ih =>
    obtain ⟨hx, hxs⟩ := List.forall_mem_cons.mp hx
    obtain ⟨description, some, parts⟩ := (Definition.isPrintable_schema_iff s).mp hs
    refine ih ((Definition.isPrintable_schema_iff _).mpr ⟨description, ?_, parts.extend hx⟩) hxs
    rw [ne_eq, ← IndexedList.toList_eq_nil_iff, extend, IndexedList.toList_join]
    simp [some]

end SchemaDefinition

namespace Schema

theorem foldl_extendDefinition_some (x : SchemaDefinition) (xs : List SchemaDefinition) :
    xs.foldl extendDefinition (some x) = some (xs.foldl SchemaDefinition.extend x) := by
  induction xs generalizing x with
  | nil => rfl
  | cons y ys ih => exact ih (x.extend y)

/-- The roots that a definition sets, or without one those of the default names. -/
def impliedRoots (definition : Option SchemaDefinition) (types : Registry TypeDefinition) : RootTypes :=
  match definition with
  | some x => RootTypes.none.setAll x.roots.toList
  | none => RootTypes.none.orDefaults types.contains

/-- The definition can be printed and has all that there is to say about the roots. -/
structure IsSettled (s : Schema) : Prop where
  definition : ∀ x ∈ s.definition, (Definition.typeSystem (.schema x)).IsPrintable
  roots : s.roots = impliedRoots s.definition s.types

theorem isSettled_empty : empty.IsSettled := ⟨by simp [empty], rfl⟩

/-- A document with an extension of the schema also has a definition, unless there is one already. -/
def DefinesFirst (existing : Option Schema) (d : Document) : Prop :=
  schemaExtensions d ≠ [] → d.schemaDefinitions ≠ [] ∨ (existing.getD .empty).definition.isSome

variable {s : Schema} {d : Document}

/-- With a definition, old or new, all roots are those of the definition and its extensions. -/
private theorem IsSettled.merge_defined {x : SchemaDefinition} (h : d.Extends s)
    (hd : ∀ a ∈ d.definitions.toList, a.IsPrintable)
    (defined : d.schemaDefinitions.getLast?.or s.definition = some x)
    (hx : (Definition.typeSystem (.schema x)).IsPrintable)
    (roots : s.roots.setAll (d.schemaDefinitions.flatMap (·.roots.toList)) =
      RootTypes.none.setAll x.roots.toList) : (s.merge d).IsSettled := by
  have definition : (s.merge d).definition = some ((schemaExtensions d).foldl SchemaDefinition.extend x) := by
    rw [merge_definition h, defined, foldl_extendDefinition_some]
  constructor
  · rw [definition]
    rintro _ ⟨⟩
    refine SchemaDefinition.isPrintable_foldl_extend hx fun y hy => ?_
    exact (hd _ (Document.mem_of_mem_schemaExtensions hy)).schemaExtension
  · rw [merge_roots h, definition]
    change s.roots.setAll _ = RootTypes.none.setAll _
    rw [SchemaDefinition.roots_foldl_extend, List.flatMap_append, RootTypes.setAll_append, roots,
      RootTypes.setAll_append]

theorem IsSettled.merge (hs : s.IsSettled) (h : d.Extends s)
    (hd : ∀ a ∈ d.definitions.toList, a.IsPrintable)
    (first : schemaExtensions d ≠ [] → d.schemaDefinitions ≠ [] ∨ s.definition.isSome) :
    (s.merge d).IsSettled := by
  rcases h.schemas with noDefinition | ⟨undefined, one⟩
  · cases definition : s.definition with
    | some x =>
      refine .merge_defined h hd (by simp [noDefinition, definition]) (hs.definition x definition) ?_
      rw [noDefinition, hs.roots, definition]
      rfl
    | none =>
      have noExtension : schemaExtensions d = [] := by
        by_contra some
        simpa [noDefinition, definition] using first some
      have stays : (s.merge d).definition = none := by
        rw [merge_definition h, noDefinition, noExtension, definition]
        rfl
      refine ⟨by simp [stays], ?_⟩
      rw [merge_roots h, stays, noDefinition, noExtension, hs.roots, definition]
      refine RootTypes.orDefaults_orDefaults fun name known => ?_
      rw [Registry.contains_iff, merge_types h, keys_extendTypes, Registry.keys_append]
      exact List.mem_append_left _ (Registry.contains_iff.mp known)
  · obtain ⟨x, single⟩ := List.length_eq_one_iff.mp one
    have roots := ((isDefined_eq_false_iff s).mp undefined).2
    refine .merge_defined h hd (x := x) (by simp [single]) ?_ (by simp [single, roots])
    exact hd _ (Document.mem_of_mem_schemaDefinitions (by simp [single]))

theorem IsReached.isSettled {existing : Option Schema} (h : IsReached DefinesFirst existing) :
    (existing.getD .empty).IsSettled := by
  induction h with
  | none => exact isSettled_empty
  | build _ assembled first h ih =>
    obtain ⟨fits, rfl⟩ := build_eq_ok_iff.mp h
    exact ih.merge fits ((Document.isPrintable_iff _).mp assembled.isPrintable).2.2 first

/-- The definition of the schema, if there is one, all types and all directives as one document. -/
def toDocument (s : Schema) : Document :=
  ⟨.ofList (s.definition.toList.map (fun x => .typeSystem (.schema x)) ++
    s.types.entries.map (fun e => .typeSystem (.type e.2)) ++
    s.directives.entries.map (fun e => .typeSystem (.directive e.2)))⟩

section Document
variable (s : Schema)

theorem schemaDefinitions_toDocument : s.toDocument.schemaDefinitions = s.definition.toList := by
  simp [Document.schemaDefinitions, toDocument, Definition.schemaDefinition?]

theorem typeDefinitions_toDocument : s.toDocument.typeDefinitions = s.types.entries.map (·.2) := by
  simp [Document.typeDefinitions, toDocument, Definition.typeDefinition?]

theorem directiveDefinitions_toDocument :
    s.toDocument.directiveDefinitions = s.directives.entries.map (·.2) := by
  simp [Document.directiveDefinitions, toDocument, Definition.directiveDefinition?]

theorem schemaExtensions_toDocument : schemaExtensions s.toDocument = [] := by
  simp [schemaExtensions, toDocument, Definition.schemaExtension?]

theorem typeExtensions_toDocument : typeExtensions s.toDocument = [] := by
  simp [typeExtensions, toDocument, Definition.typeExtension?]

end Document

variable {s : Schema}

theorem types_toDocument (h : s.IsSound) : s.toDocument.types = s.types := by
  rw [Document.types, typeDefinitions_toDocument]
  exact Registry.ofList_values fun e he => (h.types e he).1

theorem directives_toDocument (h : s.IsSound) : s.toDocument.directives = s.directives := by
  rw [Document.directives, directiveDefinitions_toDocument]
  exact Registry.ofList_values fun e he => (h.directives e he).1

theorem extends_toDocument (h : s.IsSound) : s.toDocument.Extends .empty where
  schemas := by
    rw [schemaDefinitions_toDocument]
    cases s.definition with
    | none => exact .inl rfl
    | some x => exact .inr ⟨rfl, rfl⟩
  types := by
    rw [types_toDocument h]
    exact ⟨h.typesDistinct, fun _ _ => List.not_mem_nil⟩
  directives := by
    rw [directives_toDocument h]
    exact ⟨h.directivesDistinct, fun _ _ => List.not_mem_nil⟩
  extensions := by simp [typeExtensions_toDocument]

theorem merge_toDocument (h : s.IsSound) (hs : s.IsSettled) : Schema.merge .empty s.toDocument = s := by
  have fits := extends_toDocument h
  have definition : (Schema.merge .empty s.toDocument).definition = s.definition := by
    rw [merge_definition fits, schemaExtensions_toDocument, schemaDefinitions_toDocument]
    cases s.definition <;> rfl
  have types : (Schema.merge .empty s.toDocument).types = s.types := by
    rw [merge_types fits, typeExtensions_toDocument, types_toDocument h]
    rfl
  have directives : (Schema.merge .empty s.toDocument).directives = s.directives := by
    rw [merge_directives fits, directives_toDocument h]
    rfl
  have roots : (Schema.merge .empty s.toDocument).roots = s.roots := by
    rw [merge_roots fits, definition, types, schemaExtensions_toDocument, schemaDefinitions_toDocument, hs.roots]
    cases s.definition with
    | none => rfl
    | some x => simp [impliedRoots, empty]
  calc
    Schema.merge .empty s.toDocument = ⟨s.definition, s.roots, s.types, s.directives⟩ := by
      rw [← definition, ← roots, ← types, ← directives]
    _ = s := rfl

theorem isPrintable_toDocument (h : s.IsSound) (hs : s.IsSettled) (some : s ≠ .empty) :
    s.toDocument.IsPrintable := by
  refine (Document.isPrintable_iff _).mpr ⟨fun none => some ?_, IndexedList.numbered_ofList _, ?_⟩
  · have nothing : s.toDocument = ⟨.nil⟩ := congrArg Document.mk none
    rw [← merge_toDocument h hs, nothing]
    rfl
  · rw [toDocument, IndexedList.toList_ofList]
    refine List.forall_mem_append.mpr ⟨List.forall_mem_append.mpr ⟨?_, ?_⟩, ?_⟩
    · exact List.forall_mem_map.mpr fun x hx => hs.definition x (Option.mem_toList.mp hx)
    · exact List.forall_mem_map.mpr fun e he => (h.types e he).2
    · exact List.forall_mem_map.mpr fun e he => (h.directives e he).2

/-- A schema that is not empty is built again from the text that is printed for it, if no document has made
a definition out of a mere extension of the schema. -/
theorem build_print (reached : IsReached DefinesFirst (some s)) (nonempty : s ≠ .empty) :
    parse s.toDocument.print = .ok s.toDocument ∧ build none s.toDocument = .ok s := by
  have sound : s.IsSound := reached.isSound
  have settled : s.IsSettled := reached.isSettled
  exact ⟨(isPrintable_toDocument sound settled nonempty).parsed_again,
    build_eq_ok_iff.mpr ⟨extends_toDocument sound, merge_toDocument sound settled⟩⟩

/-- The definition is of one document, the directive that is printed with it of another. -/
theorem build_print_extended : ∃ d e s₁ s₂, parse "schema \x7b query: Q \x7d".toList = .ok d ∧
    parse "extend schema @a type Q".toList = .ok e ∧ build none d = .ok s₁ ∧ build (some s₁) e = .ok s₂ ∧
      parse s₂.toDocument.print = .ok s₂.toDocument ∧ build none s₂.toDocument = .ok s₂ := by
  have parsed : parse "schema \x7b query: Q \x7d".toList = .ok _ := rfl
  have parsed' : parse "extend schema @a type Q".toList = .ok _ := rfl
  have defined : IsReached DefinesFirst (some _) := .build .none (.parsed parsed) (fun h => absurd rfl h) rfl
  have extended : IsReached DefinesFirst (some _) := .build defined (.parsed parsed') (fun _ => .inr rfl) rfl
  exact ⟨_, _, _, _, parsed, parsed', rfl, rfl, build_print extended nofun⟩

end Schema

end GraphQL
