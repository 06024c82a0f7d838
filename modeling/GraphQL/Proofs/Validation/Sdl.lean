import GraphQL.Proofs.Validation.Alone

/-! What is reported of a document that defines a schema, perhaps on top of an existing one. It is nothing exactly
if at most one schema is defined, all names are new, and every extended type is there and of the same kind. -/
namespace GraphQL

theorem Rule.nodup_sdl : sdl.Nodup := by decide

/-- The errors in definitions of the type system, each as often as it is reported. -/
structure Document.ReportsSdl (d : Document) (schema : Option Schema) (errors : List ValidationError) :
    Prop where
  schemaAlreadyDefined : errors.count .schemaAlreadyDefined =
    if schema.any (·.isDefined) then d.schemaDefinitions.length else 0
  schemaDefinitionNotAlone : errors.count .schemaDefinitionNotAlone =
    if schema.any (·.isDefined) then 0 else d.schemaDefinitions.length - 1
  existedTypeName : ∀ name, errors.count (.existedTypeName name) =
    if Rule.hasType schema name then (d.typeDefinitions.map (·.name)).count name else 0
  duplicateTypeName : ∀ name, errors.count (.duplicateTypeName name) =
    if Rule.hasType schema name then 0 else (d.typeDefinitions.map (·.name)).count name - 1
  existedDirectiveName : ∀ name, errors.count (.existedDirectiveName name) =
    if Rule.hasDirective schema name then (d.directiveDefinitions.map (·.name)).count name else 0
  duplicateDirectiveName : ∀ name, errors.count (.duplicateDirectiveName name) =
    if Rule.hasDirective schema name then 0 else (d.directiveDefinitions.map (·.name)).count name - 1
  /-- At most one error for each extension, in their order. -/
  typeExtensions : errors.filter (·.rule = .possibleTypeExtensions) =
    (Schema.typeExtensions d).filterMap fun t => Rule.extensionError? (Rule.kindOf? d schema t.name) t
  extendedTypeNotDefined : ∀ t ∈ Schema.typeExtensions d, .extendedTypeNotDefined t.name ∈ errors ↔
    t.name ∉ d.typeDefinitions.map (·.name) ∧ Rule.hasType schema t.name = false
  extendedTypeKindMismatch : ∀ t ∈ Schema.typeExtensions d, .extendedTypeKindMismatch t.name t.kind ∈ errors ↔
    ∃ kind, Rule.kindOf? d schema t.name = some kind ∧ kind ≠ t.kind
  nothingElse : ∀ e ∈ errors, e.rule ∈ Rule.sdl

section
variable (d : Document) (schema : Option Schema)

private theorem count_sdl {e : ValidationError} {r : Rule} (own : e.rule = r) (h : r ∈ Rule.sdl) :
    (validateSdl d schema).count e = (validate d schema [r]).count e :=
  count_validate Rule.nodup_sdl own h

private theorem count_schemaDefinitions :
    (validateSdl d schema).count .schemaAlreadyDefined =
        (if schema.any (·.isDefined) then d.schemaDefinitions.length else 0) ∧
      (validateSdl d schema).count .schemaDefinitionNotAlone =
        if schema.any (·.isDefined) then 0 else d.schemaDefinitions.length - 1 := by
  rw [count_sdl d schema (r := .loneSchemaDefinition) rfl (by decide),
    count_sdl d schema (r := .loneSchemaDefinition) rfl (by decide), Rule.validate_loneSchemaDefinition]
  split
  · simp [List.count_eq_zero]
  · simp [List.count_eq_zero]

private theorem count_typeNames (name : String) :
    (validateSdl d schema).count (.existedTypeName name) =
        (if Rule.hasType schema name then (d.typeDefinitions.map (·.name)).count name else 0) ∧
      (validateSdl d schema).count (.duplicateTypeName name) =
        if Rule.hasType schema name then 0 else (d.typeDefinitions.map (·.name)).count name - 1 := by
  rw [count_sdl d schema (r := .uniqueTypeNames) rfl (by decide),
    count_sdl d schema (r := .uniqueTypeNames) rfl (by decide)]
  exact count_perm_names (fun _ _ => ValidationError.existedTypeName.inj)
    (fun _ _ => ValidationError.duplicateTypeName.inj) nofun (Rule.validate_uniqueTypeNames d schema) name

private theorem count_directiveNames (name : String) :
    (validateSdl d schema).count (.existedDirectiveName name) =
        (if Rule.hasDirective schema name then (d.directiveDefinitions.map (·.name)).count name else 0) ∧
      (validateSdl d schema).count (.duplicateDirectiveName name) =
        if Rule.hasDirective schema name then 0 else (d.directiveDefinitions.map (·.name)).count name - 1 := by
  rw [count_sdl d schema (r := .uniqueDirectiveNames) rfl (by decide),
    count_sdl d schema (r := .uniqueDirectiveNames) rfl (by decide)]
  exact count_perm_names (fun _ _ => ValidationError.existedDirectiveName.inj)
    (fun _ _ => ValidationError.duplicateDirectiveName.inj) nofun (Rule.validate_uniqueDirectiveNames d schema)
    name

private theorem filter_typeExtensions : (validateSdl d schema).filter (·.rule = .possibleTypeExtensions) =
    (Schema.typeExtensions d).filterMap fun t => Rule.extensionError? (Rule.kindOf? d schema t.name) t := by
  have alone := filter_validate d schema Rule.nodup_sdl .possibleTypeExtensions
  exact (alone.trans (if_pos (by decide))).trans (Rule.validate_possibleTypeExtensions d schema)

private theorem mem_validateSdl_iff {e : ValidationError} (h : e.rule = .possibleTypeExtensions) :
    e ∈ validateSdl d schema ↔
      ∃ t ∈ Schema.typeExtensions d, Rule.extensionError? (Rule.kindOf? d schema t.name) t = some e := by
  rw [← List.mem_filterMap, ← filter_typeExtensions, List.mem_filter]
  simp [h]

theorem Document.reportsSdl_validateSdl : d.ReportsSdl schema (validateSdl d schema) where
  schemaAlreadyDefined := (count_schemaDefinitions d schema).1
  schemaDefinitionNotAlone := (count_schemaDefinitions d schema).2
  existedTypeName name := (count_typeNames d schema name).1
  duplicateTypeName name := (count_typeNames d schema name).2
  existedDirectiveName name := (count_directiveNames d schema name).1
  duplicateDirectiveName name := (count_directiveNames d schema name).2
  typeExtensions := filter_typeExtensions d schema
  extendedTypeNotDefined t ht := by
    rw [mem_validateSdl_iff d schema rfl, ← Rule.kindOf?_eq_none_iff]
    simp only [Rule.extensionError?_eq_notDefined_iff]
    exact ⟨fun ⟨_, _, unknown, same⟩ => same ▸ unknown, fun unknown => ⟨t, ht, unknown, rfl⟩⟩
  extendedTypeKindMismatch t ht := by
    rw [mem_validateSdl_iff d schema rfl]
    simp only [Rule.extensionError?_eq_kindMismatch_iff]
    exact ⟨fun ⟨_, _, other, name, kind⟩ => name ▸ kind ▸ other, fun other => ⟨t, ht, other, rfl, rfl⟩⟩
  nothingElse _ := rule_mem_of_mem_validate Rule.nodup_sdl

end

/-- What a document must fulfil to be merged into a schema: it defines the schema at most once and not
over one that is defined, the names of its types and directives are new, and what it extends is there. -/
structure Document.Extends (d : Document) (s : Schema) : Prop where
  schemas : d.schemaDefinitions = [] ∨ s.isDefined = false ∧ d.schemaDefinitions.length = 1
  types : d.types.IsNew s.types
  directives : d.directives.IsNew s.directives
  extensions : ∀ x ∈ Schema.typeExtensions d,
    ((s.types.append d.types).get? x.name).map (·.kind) = some x.kind

namespace Rule

/-- Where the names are new it makes no difference which of both is asked first for a kind. -/
theorem kindOf?_eq {d : Document} {schema : Option Schema} (types : d.types.IsNew (schema.getD .empty).types)
    (name : String) :
    kindOf? d schema name = (((schema.getD .empty).types.append d.types).get? name).map (·.kind) := by
  have same : schema.bind (·.types.get? name) = (schema.getD .empty).types.get? name := by
    cases schema <;> rfl
  have first : d.typeDefinitions.find? (·.name = name) = d.types.get? name := (Registry.get?_ofList ..).symm
  rw [kindOf?, first, Registry.get?_append, same]
  by_cases defined : name ∈ d.types.keys
  · rw [Registry.get?_eq_none_iff.mpr (types.new name defined)]
    simp
  · rw [Registry.get?_eq_none_iff.mpr defined]
    simp

end Rule

section
variable (d : Document) (schema : Option Schema)

private theorem loneSchemaDefinition_eq_nil_iff : validate d schema [.loneSchemaDefinition] = [] ↔
    d.schemaDefinitions = [] ∨ (schema.getD .empty).isDefined = false ∧ d.schemaDefinitions.length = 1 := by
  have defined : schema.any (·.isDefined) = (schema.getD .empty).isDefined := by
    cases schema <;> rfl
  rw [Rule.validate_loneSchemaDefinition, defined]
  split
  · next taken => simp [taken]
  · next free =>
    rcases d.schemaDefinitions with _ | ⟨x, _ | ⟨y, xs⟩⟩ <;> simp [free]

private theorem uniqueTypeNames_eq_nil_iff : validate d schema [.uniqueTypeNames] = [] ↔
    d.types.IsNew (schema.getD .empty).types := by
  have taken (name : String) : Rule.hasType schema name = (schema.getD .empty).types.contains name := by
    cases schema <;> rfl
  rw [eq_nil_iff_of_perm_names (Rule.validate_uniqueTypeNames d schema), Registry.isNew_iff, Document.types,
    Registry.keys_ofList]
  simp only [taken]

private theorem uniqueDirectiveNames_eq_nil_iff : validate d schema [.uniqueDirectiveNames] = [] ↔
    d.directives.IsNew (schema.getD .empty).directives := by
  have taken (name : String) :
      Rule.hasDirective schema name = (schema.getD .empty).directives.contains name := by
    cases schema <;> rfl
  rw [eq_nil_iff_of_perm_names (Rule.validate_uniqueDirectiveNames d schema), Registry.isNew_iff,
    Document.directives, Registry.keys_ofList]
  simp only [taken]

private theorem possibleTypeExtensions_eq_nil_iff : validate d schema [.possibleTypeExtensions] = [] ↔
    ∀ t ∈ Schema.typeExtensions d, Rule.kindOf? d schema t.name = some t.kind := by
  rw [Rule.validate_possibleTypeExtensions, List.filterMap_eq_nil_iff]
  simp only [Rule.extensionError?_eq_none_iff]

/-- No rule finds an error exactly if all requirements are fulfilled. -/
theorem validateSdl_eq_nil_iff : validateSdl d schema = [] ↔ d.Extends (schema.getD .empty) := by
  rw [validateSdl, validate_eq_nil_iff Rule.nodup_sdl]
  simp only [Rule.sdl, List.forall_mem_cons, loneSchemaDefinition_eq_nil_iff, uniqueTypeNames_eq_nil_iff,
    uniqueDirectiveNames_eq_nil_iff, possibleTypeExtensions_eq_nil_iff]
  constructor
  · rintro ⟨schemas, types, directives, extensions, -⟩
    have extensions (x) (hx) := (Rule.kindOf?_eq types x.name).symm.trans (extensions x hx)
    exact ⟨schemas, types, directives, extensions⟩
  · rintro ⟨schemas, types, directives, extensions⟩
    have extensions (x) (hx) := (Rule.kindOf?_eq types x.name).trans (extensions x hx)
    exact ⟨schemas, types, directives, extensions, by simp⟩

/-- What is reported is exactly what is wrong, so that nothing is if the document fits. -/
theorem validateSdl_exact :
    d.ReportsSdl schema (validateSdl d schema) ∧ (validateSdl d schema = [] ↔ d.Extends (schema.getD .empty)) :=
  ⟨d.reportsSdl_validateSdl schema, validateSdl_eq_nil_iff d schema⟩

/-- The extension is held against the first definition, which stands behind it. -/
example : (parse "extend type A @a scalar A type A".toList).map (validateSdl · none) =
    .ok [.extendedTypeKindMismatch "A" .object, .duplicateTypeName "A"] := rfl

end

namespace Schema

theorem build_eq_ok_iff {existing : Option Schema} {d : Document} {s : Schema} :
    build existing d = .ok s ↔
      d.Extends (existing.getD .empty) ∧ (existing.getD .empty).merge d = s := by
  rw [← validateSdl_eq_nil_iff, build]
  split <;> simp_all

end Schema

end GraphQL
