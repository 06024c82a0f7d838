import GraphQL.Proofs.Schema.Steps

/-! The roots of a schema that no document defines. Extensions set some of them. The types of the default names
stand at the others only where the schema is not extended at all. -/
namespace GraphQL

namespace RootTypes

theorem get_set (r : RootTypes) (type other : OperationType) (name : String) :
    (r.set type name).get other = if other = type then some name else r.get other := by
  cases type <;> cases other <;> rfl

/-- The last operation of a kind decides about the root of that kind. -/
theorem get_setAll (r : RootTypes) (operations : List RootOperation) (type : OperationType) :
    (r.setAll operations).get type =
      ((operations.filter (·.type = type)).getLast?.map (·.namedType)).or (r.get type) := by
  induction operations using List.reverseRecOn with
  | nil => rfl
  | append_singleton operations o ih =>
    have last : (r.setAll (operations ++ [o])).get type =
        if type = o.type then some o.namedType else (r.setAll operations).get type := by
      rw [setAll_append]
      exact get_set ..
    rw [last, List.filter_append]
    by_cases same : type = o.type
    · simp [same]
    · simp [same, Ne.symm same, ih]

theorem get_orDefaults (r : RootTypes) (known : String → Bool) (type : OperationType) :
    (r.orDefaults known).get type = (r.get type).or ((some (Schema.defaultRootName type)).filter known) := by
  cases type <;> rfl

end RootTypes

namespace Schema

/-- The type that the last entry for an operation names, of all entries in extensions of the schema. -/
def extendedRoot? (d : Document) (type : OperationType) : Option String :=
  (((schemaExtensions d).flatMap (·.roots.toList)).filter (·.type = type)).getLast?.map (·.namedType)

/-- The default name of a root, if a type of this name is registered. -/
def registeredDefault? (s : Schema) (type : OperationType) : Option String :=
  (some (defaultRootName type)).filter s.types.contains

variable {d : Document} {s : Schema}

/-- The first extension becomes the definition, so that only a schema without extensions stays undefined. -/
theorem isSome_definition_merge_empty (h : d.Extends .empty) (noDefinition : d.schemaDefinitions = []) :
    (Schema.empty.merge d).definition.isSome ↔ schemaExtensions d ≠ [] := by
  have undefined := foldl_extendDefinition_eq_none_iff empty.definition (schemaExtensions d)
  rw [merge_definition h, noDefinition, Option.isSome_iff_ne_none]
  exact not_congr (undefined.trans (and_iff_right rfl))

theorem get_roots_merge_empty (h : d.Extends .empty) (noDefinition : d.schemaDefinitions = [])
    (type : OperationType) : (Schema.empty.merge d).roots.get type = (extendedRoot? d type).or
      (if schemaExtensions d = [] then (Schema.empty.merge d).registeredDefault? type else none) := by
  have entries : (empty.roots.setAll ((d.schemaDefinitions ++ schemaExtensions d).flatMap (·.roots.toList))).get type =
      extendedRoot? d type := by
    rw [noDefinition, List.nil_append, RootTypes.get_setAll]
    cases type <;> exact Option.or_none
  have defined := isSome_definition_merge_empty h noDefinition
  rw [merge_roots h]
  by_cases extended : schemaExtensions d = []
  · rw [if_pos extended, if_neg (by simpa [extended] using defined), RootTypes.get_orDefaults, entries]
    rfl
  · rw [if_neg extended, if_pos (defined.mpr extended), entries, Option.or_none]

/-- Without a definition of the schema a root stands at the type that the last entry for it names, and at its default
only if there are no extensions of the schema. So the default is missed exactly where the schema is extended, no entry
is there, and a type has the name. -/
theorem build_roots (h : build none d = .ok s) (noDefinition : d.schemaDefinitions = []) (type : OperationType) :
    s.roots.get type = (extendedRoot? d type).or
        (if schemaExtensions d = [] then s.registeredDefault? type else none) ∧
      (s.roots.get type = (extendedRoot? d type).or (s.registeredDefault? type) ↔
        schemaExtensions d = [] ∨ (extendedRoot? d type).isSome ∨ s.registeredDefault? type = none) := by
  obtain ⟨fits, rfl⟩ : d.Extends .empty ∧ Schema.empty.merge d = s := build_eq_ok_iff.mp h
  have root := get_roots_merge_empty fits noDefinition type
  refine ⟨root, ?_⟩
  rw [root]
  by_cases extended : schemaExtensions d = []
  · simp [extended]
  · cases extendedRoot? d type with
    | none => simp [extended, eq_comm]
    | some name => simp

/-- Of two entries for one operation the last counts. -/
theorem build_roots_last : ∃ d s,
    parse "extend schema \x7b query: A \x7d type Query extend schema \x7b query: B \x7d".toList = .ok d ∧
      build none d = .ok s ∧ d.schemaDefinitions = [] ∧ s.roots.get .query = some "B" ∧
      s.roots.get .query = (extendedRoot? d .query).or
        (if schemaExtensions d = [] then s.registeredDefault? .query else none) ∧
      (s.roots.get .query = (extendedRoot? d .query).or (s.registeredDefault? .query) ↔
        schemaExtensions d = [] ∨ (extendedRoot? d .query).isSome ∨ s.registeredDefault? .query = none) := by
  have parsed : parse "extend schema \x7b query: A \x7d type Query extend schema \x7b query: B \x7d".toList =
    .ok _ := rfl
  exact ⟨_, _, parsed, rfl, rfl, rfl, build_roots rfl rfl .query⟩

/-- An extension with a directive only takes the default away from all roots. -/
theorem build_roots_default_missed : ∃ d s,
    parse "extend schema @d type Query \x7b a: Int \x7d".toList = .ok d ∧ build none d = .ok s ∧
      d.schemaDefinitions = [] ∧ (extendedRoot? d .query).or (s.registeredDefault? .query) = some "Query" ∧
      s.roots.get .query = none :=
  ⟨_, _, rfl, rfl, rfl, rfl, rfl⟩

end Schema

end GraphQL
