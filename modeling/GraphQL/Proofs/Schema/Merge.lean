import GraphQL.Proofs.Validation.Sdl

/-! What becomes of each part of a schema when a document is merged into it. -/
namespace GraphQL

namespace RootTypes

/-- The roots after several operations, of which the last one of a kind counts. -/
def setAll (r : RootTypes) (operations : List RootOperation) : RootTypes :=
  operations.foldl (fun r o => r.set o.type o.namedType) r

theorem setAll_append (r : RootTypes) (os os' : List RootOperation) :
    r.setAll (os ++ os') = (r.setAll os).setAll os' :=
  List.foldl_append

/-- The roots, where those that are not set stand at the types of their default names. -/
def orDefaults (r : RootTypes) (known : String → Bool) : RootTypes :=
  let default (type : OperationType) := (some (Schema.defaultRootName type)).filter known
  ⟨r.query.or (default .query), r.mutation.or (default .mutation), r.subscription.or (default .subscription)⟩

end RootTypes

namespace Schema

theorem isDefined_eq_false_iff (s : Schema) :
    s.isDefined = false ↔ s.definition = none ∧ s.roots = .none := by
  obtain ⟨definition, ⟨query, mutation, subscription⟩, types, directives⟩ := s
  simp [isDefined, RootTypes.none, and_assoc]

/-- Registers a definition. Extensions and executable definitions are passed over. -/
def register (s : Schema) : Definition → Schema
  | .typeSystem (.schema x) => { s.setRoots x.roots with definition := some x }
  | .typeSystem (.type t) => { s with types := s.types.insert t.name t }
  | .typeSystem (.directive d) => { s with directives := s.directives.insert d.name d }
  | _ => s

/-- What is gathered when a definition or extension is entered with the unions that it is in. -/
private theorem foldl_spine (x : Definition) (g : Gathering) :
    x.spine.foldl (fun g n => Walker.fire Gathering.handlers .enter n g) g =
      ⟨g.schema.register x, g.schemaExtensions ++ x.schemaExtension?.toList,
        g.typeExtensions ++ x.typeExtension?.toList⟩ := by
  rcases x with (o | f) | (x | t | x) | (x | t) <;>
    simp [Definition.spine, Walker.fire, Gathering.handlers, Node.kind, Gathering.addSchema, Gathering.addType,
      Gathering.addDirective, Gathering.noteSchemaExtension, Gathering.noteTypeExtension, register,
      Definition.schemaExtension?, Definition.typeExtension?]

/-- A walk registers one definition after another, and notes the extensions in their order. -/
theorem walk_handlers (s : Schema) (d : Document) : Walker.walk Gathering.handlers d ⟨s, [], []⟩ =
    ⟨d.definitions.toList.foldl register s, schemaExtensions d, typeExtensions d⟩ := by
  have gathered (xs : List Definition) (g : Gathering) :
      xs.foldl (fun g x => x.spine.foldl (fun g n => Walker.fire Gathering.handlers .enter n g) g) g =
        ⟨xs.foldl register g.schema, g.schemaExtensions ++ xs.filterMap (·.schemaExtension?),
          g.typeExtensions ++ xs.filterMap (·.typeExtension?)⟩ := by
    induction xs generalizing g with
    | nil => simp
    | cons x xs ih =>
      rw [List.foldl_cons, ih, foldl_spine]
      simp [List.filterMap_eq_flatMap_toList]
  have enter : ∀ x ∈ Gathering.handlers, x.phase = .enter := by simp [Gathering.handlers]
  have whole : ∀ x ∈ Gathering.handlers, x.kind.isPart = false := by simp [Gathering.handlers, NodeKind.isPart]
  rw [Walker.walk_eq_foldl_spine enter whole, gathered]
  rfl

/-- The definition of a schema with an extension, which becomes the definition if there is none. -/
def extendDefinition (known : Option SchemaDefinition) (x : SchemaDefinition) : Option SchemaDefinition :=
  some ((known.map (·.extend x)).getD x)

/-- The types with several extensions, each of which goes to all types of its name. -/
def extendTypes (types : Registry TypeDefinition) (xs : List TypeDefinition) : Registry TypeDefinition :=
  xs.foldl (fun r x => r.modify x.name (·.extend x)) types

private theorem getLast?_cons_or {α : Type} (a : α) (as : List α) (o : Option α) :
    (a :: as).getLast?.or o = as.getLast?.or (some a) := by
  rw [List.getLast?_cons]
  cases as.getLast? <;> rfl

private theorem foldl_register (ds : List Definition) (s : Schema) :
    ds.foldl register s =
      { definition := (ds.filterMap (·.schemaDefinition?)).getLast?.or s.definition
        roots := s.roots.setAll ((ds.filterMap (·.schemaDefinition?)).flatMap (·.roots.toList))
        types := (ds.filterMap (·.typeDefinition?)).foldl (fun r t => r.insert t.name t) s.types
        directives :=
          (ds.filterMap (·.directiveDefinition?)).foldl (fun r x => r.insert x.name x) s.directives } := by
  induction ds generalizing s with
  | nil => rfl
  | cons d ds ih =>
    rw [List.foldl_cons, ih]
    rcases d with x | (x | t | x) | x
    · rfl
    · change _ = Schema.mk ((x :: ds.filterMap (·.schemaDefinition?)).getLast?.or s.definition)
        (s.roots.setAll (x.roots.toList ++ (ds.filterMap (·.schemaDefinition?)).flatMap (·.roots.toList))) _ _
      rw [getLast?_cons_or, RootTypes.setAll_append]
      rfl
    · rfl
    · rfl
    · rfl

private theorem foldl_extendSchema (xs : List SchemaDefinition) (s : Schema) :
    xs.foldl extendSchema s =
      { s with
        definition := xs.foldl extendDefinition s.definition
        roots := s.roots.setAll (xs.flatMap (·.roots.toList)) } := by
  induction xs generalizing s with
  | nil => rfl
  | cons x xs ih =>
    have step : (s.extendSchema x).definition = extendDefinition s.definition x := by
      cases h : s.definition <;> simp [extendSchema, extendDefinition, h]
    rw [List.foldl_cons, ih, step, List.flatMap_cons, RootTypes.setAll_append]
    rfl

private theorem foldl_extendType (xs : List TypeDefinition) (s : Schema) :
    xs.foldl extendType s = { s with types := extendTypes s.types xs } := by
  induction xs generalizing s with
  | nil => rfl
  | cons x xs ih => rw [List.foldl_cons, ih]; rfl

theorem defaultRoots_eq (s : Schema) :
    s.defaultRoots =
      { s with roots := if s.definition.isSome then s.roots else s.roots.orDefaults s.types.contains } := by
  unfold defaultRoots
  split
  · rfl
  · obtain ⟨definition, ⟨query, mutation, subscription⟩, types, directives⟩ := s
    cases query <;> cases mutation <;> cases subscription <;>
      simp [defaultRoot, RootTypes.orDefaults, RootTypes.get, RootTypes.set, Option.filter] <;> grind

/-- The schema when all definitions of a document are registered and all extensions of the schema merged, but
only some of those of types. -/
def midway (s : Schema) (d : Document) (xs : List TypeDefinition) : Schema :=
  xs.foldl extendType ((schemaExtensions d).foldl extendSchema (d.definitions.toList.foldl register s))

theorem merge_eq_midway (s : Schema) (d : Document) :
    s.merge d = (s.midway d (typeExtensions d)).defaultRoots := by
  rw [merge, walk_handlers, midway]

theorem midway_eq {s : Schema} {d : Document} (h : d.Extends s) (xs : List TypeDefinition) :
    s.midway d xs =
      { definition := (schemaExtensions d).foldl extendDefinition (d.schemaDefinitions.getLast?.or s.definition)
        roots := s.roots.setAll ((d.schemaDefinitions ++ schemaExtensions d).flatMap (·.roots.toList))
        types := extendTypes (s.types.append d.types) xs
        directives := s.directives.append d.directives } := by
  have types : d.typeDefinitions.foldl (fun r t => r.insert t.name t) s.types = s.types.append d.types :=
    Registry.foldl_insert h.types
  have directives : d.directiveDefinitions.foldl (fun r x => r.insert x.name x) s.directives =
      s.directives.append d.directives :=
    Registry.foldl_insert h.directives
  rw [← types, ← directives, List.flatMap_append, RootTypes.setAll_append, midway, foldl_register,
    foldl_extendSchema, foldl_extendType]
  rfl

section Parts
variable {s : Schema} {d : Document}

theorem merge_definition (h : d.Extends s) :
    (s.merge d).definition =
      (schemaExtensions d).foldl extendDefinition (d.schemaDefinitions.getLast?.or s.definition) := by
  rw [merge_eq_midway, defaultRoots_eq, midway_eq h]

theorem merge_types (h : d.Extends s) :
    (s.merge d).types = extendTypes (s.types.append d.types) (typeExtensions d) := by
  rw [merge_eq_midway, defaultRoots_eq, midway_eq h]

theorem merge_directives (h : d.Extends s) :
    (s.merge d).directives = s.directives.append d.directives := by
  rw [merge_eq_midway, defaultRoots_eq, midway_eq h]

theorem merge_roots (h : d.Extends s) :
    (s.merge d).roots =
      let roots := s.roots.setAll ((d.schemaDefinitions ++ schemaExtensions d).flatMap (·.roots.toList))
      if (s.merge d).definition.isSome then roots else roots.orDefaults (s.merge d).types.contains := by
  rw [merge_eq_midway, defaultRoots_eq, midway_eq h]

end Parts

end Schema

end GraphQL
