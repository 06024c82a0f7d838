import GraphQL.Proofs.Validation.Definitions
import GraphQL.Proofs.Validation.Sharing
import GraphQL.Proofs.Walker.Entered
import Mathlib.Data.List.Count
import Mathlib.Data.List.Perm.Basic

/-! What each rule reports when it is alone. -/
namespace GraphQL

section Repeated

theorem count_repeatedNames (seen names : List String) (name : String) :
    (repeatedNames seen names).count name = names.count name - if name ∈ seen then 0 else 1 := by
  induction names generalizing seen with
  | nil => simp [repeatedNames]
  | cons first names ih =>
    rw [repeatedNames]
    by_cases known : first ∈ seen
    · by_cases same : first = name
      · subst same
        simp [known, ih]
      · simp [known, ih, same]
    · by_cases same : first = name
      · subst same
        simp [known, ih]
      · simp [known, ih, same, Ne.symm same]

theorem repeatedNames_eq_nil_iff (seen names : List String) :
    repeatedNames seen names = [] ↔ names.Nodup ∧ ∀ name ∈ names, name ∉ seen := by
  induction names generalizing seen with
  | nil => simp [repeatedNames]
  | cons first names ih =>
    rw [repeatedNames]
    by_cases known : first ∈ seen
    · simp [known]
    · simp only [List.contains_iff_mem, known, if_false, ih, List.nodup_cons, List.mem_cons, not_or]
      grind

/-- How often each name is reported that is taken, and each that is repeated. -/
theorem count_perm_names {es : List ValidationError} {taken : String → Bool} {names : List String}
    {existed duplicate : String → ValidationError} (he : existed.Injective) (hd : duplicate.Injective)
    (apart : ∀ a b, existed a ≠ duplicate b) (found : es.Perm ((names.filter (taken ·)).map existed ++
      (repeatedNames [] (names.filter (!taken ·))).map duplicate)) (name : String) :
    es.count (existed name) = (if taken name then names.count name else 0) ∧
      es.count (duplicate name) = if taken name then 0 else names.count name - 1 := by
  have noDuplicate (l : List String) : (l.map duplicate).count (existed name) = 0 :=
    List.count_eq_zero.mpr fun h => by
      obtain ⟨b, -, same⟩ := List.mem_map.mp h
      exact apart name b same.symm
  have noExisted (l : List String) : (l.map existed).count (duplicate name) = 0 :=
    List.count_eq_zero.mpr fun h => by
      obtain ⟨a, -, same⟩ := List.mem_map.mp h
      exact apart a name same
  rw [found.count_eq, found.count_eq, List.count_append, List.count_append, noDuplicate, noExisted,
    List.count_map_of_injective _ _ he, List.count_map_of_injective _ _ hd, count_repeatedNames]
  cases h : taken name with
  | true =>
    have none : name ∉ names.filter (!taken ·) := by simp [h]
    simp [List.count_filter, h, List.count_eq_zero.mpr none]
  | false =>
    have none : name ∉ names.filter (taken ·) := by simp [h]
    simp [List.count_filter, h, List.count_eq_zero.mpr none]

theorem eq_nil_iff_of_perm_names {es : List ValidationError} {taken : String → Bool} {names : List String}
    {existed duplicate : String → ValidationError} (found : es.Perm ((names.filter (taken ·)).map existed ++
      (repeatedNames [] (names.filter (!taken ·))).map duplicate)) :
    es = [] ↔ names.Nodup ∧ ∀ name ∈ names, taken name = false := by
  rw [← List.perm_nil, found.congr_left, List.perm_nil, List.append_eq_nil_iff, List.map_eq_nil_iff,
    List.map_eq_nil_iff, repeatedNames_eq_nil_iff, List.filter_eq_nil_iff]
  constructor
  · rintro ⟨free, distinct, -⟩
    have free (name : String) (h : name ∈ names) : taken name = false := by simpa using free name h
    have all : names.filter (!taken ·) = names := List.filter_eq_self.mpr fun name h => by simp [free name h]
    exact ⟨all ▸ distinct, free⟩
  · rintro ⟨distinct, free⟩
    exact ⟨by simpa using free, distinct.filter _, by simp⟩

end Repeated

namespace Findings
variable {α β : Type}

@[simp] theorem errors_report (f : Findings) (e : ValidationError) : (f.report e).errors = f.errors ++ [e] := rfl

@[simp] theorem errors_reportAll (f : Findings) (es : List ValidationError) :
    (f.reportAll es).errors = f.errors ++ es := rfl

theorem report_ite (c : Prop) [Decidable c] (f : Findings) (e : ValidationError) :
    (if c then f.report e else f) = f.reportAll (if c then [e] else []) := by
  split <;> simp [report, reportAll]

/-- What a rule reports of one thing after another hangs on nothing that reporting changes. -/
theorem errors_foldl_reportAll (memory : Findings → β) (kept : ∀ f es, memory (f.reportAll es) = memory f)
    (found : β → α → List ValidationError) (as : List α) (f : Findings) :
    (as.foldl (fun f a => f.reportAll (found (memory f) a)) f).errors =
      f.errors ++ as.flatMap (found (memory f)) := by
  induction as generalizing f with
  | nil => simp
  | cons a as ih => simp [ih, kept]

/-- A list of names in the findings, with a way to replace it. -/
structure IsMemory (get : Findings → List String) (put : Findings → List String → Findings) : Prop where
  get_report : ∀ f e, get (f.report e) = get f
  get_put : ∀ f names, get (put f names) = names
  errors_put : ∀ f names, (put f names).errors = f.errors

/-- What a rule for names does that may be taken already. -/
def checkName (taken : String → Bool) (existed duplicate : String → ValidationError)
    (get : Findings → List String) (put : Findings → List String → Findings) (f : Findings) (name : String) :
    Findings :=
  if taken name then f.report (existed name)
  else if (get f).contains name then f.report (duplicate name)
  else put f (name :: get f)

theorem errors_foldl_checkName {taken : String → Bool} {existed duplicate : String → ValidationError}
    {get : Findings → List String} {put : Findings → List String → Findings} (memory : IsMemory get put)
    (names : List String) (f : Findings) :
    (names.foldl (checkName taken existed duplicate get put) f).errors.Perm
      (f.errors ++ ((names.filter (taken ·)).map existed ++
        (repeatedNames (get f) (names.filter (!taken ·))).map duplicate)) := by
  induction names generalizing f with
  | nil => simp [repeatedNames]
  | cons name names ih =>
    refine (ih _).trans ?_
    unfold checkName
    split
    · next old =>
      rw [memory.get_report, List.filter_cons_of_pos old, List.filter_cons_of_neg (by simp [old])]
      simp
    · next free =>
      rw [List.filter_cons_of_neg free, List.filter_cons_of_pos (by simpa using free), repeatedNames]
      split
      · rw [memory.get_report, errors_report, List.append_assoc, List.singleton_append, List.map_cons]
        exact .append_left _ List.perm_middle.symm
      · rw [memory.get_put, memory.errors_put]

end Findings

/-- The list of arguments that a field or a directive annotation has. -/
def Node.arguments? : Node → Option (IndexedList Argument)
  | selectionVariant (.field _ _ arguments _ _) => some arguments
  | directive d => some d.arguments
  | _ => none

/-- The argument lists of all fields and directive annotations, wherever they stand in the document. -/
def Document.argumentLists (d : Document) : List (IndexedList Argument) := d.nodes.filterMap (·.arguments?)

namespace Rule
variable {α β : Type} (d : Document) (schema : Option Schema)

theorem phase_handlers (r : Rule) : ∀ x ∈ r.handlers schema, x.phase = .enter := by cases r <;> simp [handlers]

/-- What a rule does when a node is entered. -/
def check (r : Rule) (n : Node) (f : Findings) : Findings := Walker.fire (r.handlers schema) .enter n f

theorem validate_eq_foldl_nodes (r : Rule) :
    validate d schema [r] = (d.nodes.foldl (fun f n => r.check schema n f) .none).errors := by
  rw [validate, List.flatMap_singleton, Walker.walk_eq_foldl_nodes (phase_handlers schema r)]
  rfl

/-- All rules but that for arguments look at definitions and extensions only. -/
theorem validate_eq_foldl {r : Rule} (hr : r ≠ uniqueArgumentNames) (pick : Definition → Option α)
    (step : Findings → α → Findings)
    (h : ∀ f x, x.spine.foldl (fun f n => r.check schema n f) f = (pick x).elim f (step f)) :
    validate d schema [r] =
      ((d.definitions.toList.filterMap pick).foldl step (r.check schema (.document d) .none)).errors := by
  have whole : ∀ x ∈ r.handlers schema, x.kind.isPart = false := by
    cases r <;> simp [handlers, NodeKind.isPart] at hr ⊢
  rw [validate, List.flatMap_singleton, Walker.walk_eq_foldl_spine (phase_handlers schema r) whole,
    List.foldl_filterMap]
  congr
  funext f x
  refine (h f x).trans ?_
  cases pick x <;> rfl

theorem errors_check_document (r : Rule) : (r.check schema (.document d) .none).errors = [] := by
  cases r <;> rfl

/-- A rule that reports what it sees, going by what it remembers from the start. -/
theorem validate_eq_flatMap {r : Rule} (hr : r ≠ uniqueArgumentNames) (memory : Findings → β)
    (kept : ∀ f es, memory (f.reportAll es) = memory f) (pick : Definition → Option α)
    (found : β → α → List ValidationError) (h : ∀ f x, x.spine.foldl (fun f n => r.check schema n f) f =
      (pick x).elim f fun a => f.reportAll (found (memory f) a)) :
    validate d schema [r] =
      (d.definitions.toList.filterMap pick).flatMap (found (memory (r.check schema (.document d) .none))) := by
  rw [validate_eq_foldl d schema hr pick _ h, Findings.errors_foldl_reportAll memory kept found,
    errors_check_document, List.nil_append]

theorem validate_executableDefinitions : validate d schema [executableDefinitions] =
    (d.definitions.toList.filterMap nonExecutableName?).map .nonExecutableDefinition := by
  rw [List.map_eq_flatMap]
  refine validate_eq_flatMap d schema (by decide) (fun _ => ()) (fun _ _ => rfl) nonExecutableName?
    (fun _ name => [.nonExecutableDefinition name]) fun f x => ?_
  rcases x with (_ | _) | (_ | _ | _) | (_ | _) <;> rfl

theorem validate_loneAnonymousOperation : validate d schema [loneAnonymousOperation] =
    d.operations.flatMap fun o =>
      if o.name.isNone && 1 < d.operations.length then [.anonymousOperationNotAlone] else [] := by
  refine validate_eq_flatMap d schema (by decide) (·.operationCount) (fun _ _ => rfl) (·.operation?)
    (fun count o => if o.name.isNone && 1 < count then [.anonymousOperationNotAlone] else []) fun f x => ?_
  rcases x with (o | _) | (_ | _ | _) | (_ | _)
  · exact Findings.report_ite _ f _
  all_goals rfl

theorem validate_uniqueVariableNames : validate d schema [uniqueVariableNames] = d.operations.flatMap fun o =>
    (repeatedNames [] (o.variableDefinitions.toList.map (·.name))).map .duplicateVariableName := by
  refine validate_eq_flatMap d schema (r := uniqueVariableNames) (by decide) (fun _ => ()) (fun _ _ => rfl)
    (·.operation?) (fun _ o =>
      (repeatedNames [] (o.variableDefinitions.toList.map (·.name))).map .duplicateVariableName) fun f x => ?_
  rcases x with (_ | _) | (_ | _ | _) | (_ | _) <;> rfl

theorem validate_uniqueArgumentNames :
    validate d schema [uniqueArgumentNames] = d.argumentLists.flatMap duplicateArguments := by
  have step (f : Findings) (n : Node) : uniqueArgumentNames.check schema n f =
      n.arguments?.elim f fun l => f.reportAll (duplicateArguments l) := by
    cases n with
    | selectionVariant x => cases x <;> rfl
    | _ => rfl
  have found := Findings.errors_foldl_reportAll (fun _ => ()) (fun _ _ => rfl) (fun _ => duplicateArguments)
    d.argumentLists .none
  refine Eq.trans ?_ found
  rw [validate_eq_foldl_nodes, Document.argumentLists, List.foldl_filterMap]
  congr
  funext f n
  rw [step f n]
  cases n.arguments? <;> rfl

/-- Whether the existing schema has a type of this name. -/
def hasType (name : String) : Bool := schema.any (·.types.contains name)

/-- Whether the existing schema has a directive of this name. -/
def hasDirective (name : String) : Bool := schema.any (·.directives.contains name)

/-- What is known of a type of this name: the kind of the first definition in the document, or else of the type
of the schema. -/
def kindOf? (name : String) : Option TypeKind :=
  ((d.typeDefinitions.find? (·.name = name)).map (·.kind)).or ((schema.bind (·.types.get? name)).map (·.kind))

theorem kindOf?_eq_none_iff {name : String} : kindOf? d schema name = none ↔
    name ∉ d.typeDefinitions.map (·.name) ∧ hasType schema name = false := by
  have existing : schema.bind (·.types.get? name) = none ↔ hasType schema name = false := by
    cases schema <;> simp [hasType, Registry.contains]
  rw [kindOf?, Option.or_eq_none_iff, Option.map_eq_none_iff, Option.map_eq_none_iff, existing]
  simp

/-- The first definition of a name in the document decides on the kind. -/
theorem get?_definedKinds (d : Document) (name : String) :
    (collectKinds (.document d) .none).definedKinds.get? name = (d.types.get? name).map (·.kind) :=
  Registry.get?_foldl_insertNew TypeDefinition.name TypeDefinition.kind d.typeDefinitions .empty name

theorem extensionError?_eq_none_iff {known : Option TypeKind} {t : TypeDefinition} :
    extensionError? known t = none ↔ known = some t.kind := by
  cases known <;> simp [extensionError?]

theorem extensionError?_eq_notDefined_iff {known : Option TypeKind} {t : TypeDefinition} {name : String} :
    extensionError? known t = some (.extendedTypeNotDefined name) ↔ known = none ∧ t.name = name := by
  cases known <;> simp [extensionError?]

theorem extensionError?_eq_kindMismatch_iff {known : Option TypeKind} {t : TypeDefinition} {name : String}
    {kind : TypeKind} : extensionError? known t = some (.extendedTypeKindMismatch name kind) ↔
      (∃ other, known = some other ∧ other ≠ t.kind) ∧ t.name = name ∧ t.kind = kind := by
  cases known <;> simp [extensionError?]

theorem validate_possibleTypeExtensions : validate d schema [possibleTypeExtensions] =
    (Schema.typeExtensions d).filterMap fun t => extensionError? (kindOf? d schema t.name) t := by
  have known (name : String) : kindOf? d schema name =
      knownKind schema (collectKinds (.document d) .none).definedKinds name := by
    rw [knownKind, get?_definedKinds, kindOf?, Document.types, Registry.get?_ofList]
  simp only [List.filterMap_eq_flatMap_toList, known]
  refine validate_eq_flatMap d schema (r := possibleTypeExtensions) (by decide) (·.definedKinds)
    (fun _ _ => rfl) (·.typeExtension?) (fun kinds t => (extensionError? (knownKind schema kinds t.name) t).toList) fun f x => ?_
  rcases x with (_ | _) | (_ | _ | _) | (_ | t)
  all_goals first | rfl | exact checkExtension_eq schema t f

/-- A second schema definition is reported, and each further one. -/
theorem errors_foldl_checkSchemaDefinition (free : schema.any (·.isDefined) = false)
    (xs : List SchemaDefinition) (f : Findings) :
    (xs.foldl (fun f x => checkSchemaDefinition schema (.schemaDefinition x) f) f).errors =
      f.errors ++
        (if 0 < f.schemaDefinitionCount then xs else xs.tail).map fun _ => .schemaDefinitionNotAlone := by
  induction xs generalizing f with
  | nil => simp
  | cons x xs ih =>
    rw [List.foldl_cons, ih]
    by_cases second : 0 < f.schemaDefinitionCount <;> simp [checkSchemaDefinition, free, second]

theorem validate_loneSchemaDefinition : validate d schema [loneSchemaDefinition] =
    if schema.any (·.isDefined) then d.schemaDefinitions.map fun _ => .schemaAlreadyDefined
    else d.schemaDefinitions.tail.map fun _ => .schemaDefinitionNotAlone := by
  rw [validate_eq_foldl d schema (r := loneSchemaDefinition) (by decide) (·.schemaDefinition?)
    (fun f x => checkSchemaDefinition schema (.schemaDefinition x) f)
    fun f x => by rcases x with (_ | _) | (_ | _ | _) | (_ | _) <;> rfl]
  split
  · next taken =>
    have step (f : Findings) (x : SchemaDefinition) : checkSchemaDefinition schema (.schemaDefinition x) f =
        f.reportAll [.schemaAlreadyDefined] := if_pos taken
    simp only [step]
    rw [Findings.errors_foldl_reportAll (fun _ => ()) (fun _ _ => rfl) (fun _ _ => [.schemaAlreadyDefined]),
      List.map_eq_flatMap]
    rfl
  · next free => exact errors_foldl_checkSchemaDefinition schema (by simpa using free) _ _

/-- A rule that goes by the names of definitions. -/
theorem validate_perm_names {r : Rule} (hr : r ≠ uniqueArgumentNames) (taken : String → Bool)
    (existed duplicate : String → ValidationError) {get : Findings → List String}
    {put : Findings → List String → Findings} (memory : Findings.IsMemory get put)
    (fresh : get (r.check schema (.document d) .none) = []) (pick : Definition → Option String)
    (h : ∀ f x, x.spine.foldl (fun f n => r.check schema n f) f =
      (pick x).elim f (Findings.checkName taken existed duplicate get put f)) :
    (validate d schema [r]).Perm
      (((d.definitions.toList.filterMap pick).filter (taken ·)).map existed ++
        (repeatedNames [] ((d.definitions.toList.filterMap pick).filter (!taken ·))).map duplicate) := by
  rw [validate_eq_foldl d schema hr pick _ h]
  refine (Findings.errors_foldl_checkName memory _ _).trans ?_
  rw [errors_check_document, fresh, List.nil_append]

theorem validate_uniqueOperationNames : (validate d schema [uniqueOperationNames]).Perm
    ((repeatedNames [] (d.operations.filterMap (·.name))).map .duplicateOperationName) := by
  have memory : Findings.IsMemory (·.operationNames) fun f names => { f with operationNames := names } :=
    ⟨fun _ _ => rfl, fun _ _ => rfl, fun _ _ => rfl⟩
  have found := validate_perm_names d schema (r := uniqueOperationNames) (by decide) (fun _ => false)
    .existedTypeName .duplicateOperationName memory rfl (fun x => x.operation?.bind (·.name)) fun f x => by
      rcases x with (⟨_, _ | _, _, _, _⟩ | _) | (_ | _ | _) | (_ | _) <;> rfl
  simpa [Document.operations, List.filterMap_filterMap] using found

theorem validate_uniqueFragmentNames : (validate d schema [uniqueFragmentNames]).Perm
    ((repeatedNames [] (d.fragments.map (·.name))).map .duplicateFragmentName) := by
  have memory : Findings.IsMemory (·.fragmentNames) fun f names => { f with fragmentNames := names } :=
    ⟨fun _ _ => rfl, fun _ _ => rfl, fun _ _ => rfl⟩
  have found := validate_perm_names d schema (r := uniqueFragmentNames) (by decide) (fun _ => false)
    .existedTypeName .duplicateFragmentName memory rfl (fun x => x.fragment?.map (·.name)) fun f x => by
      rcases x with (_ | _) | (_ | _ | _) | (_ | _) <;> rfl
  simpa [Document.fragments, List.map_filterMap] using found

theorem validate_uniqueTypeNames : (validate d schema [uniqueTypeNames]).Perm
    (((d.typeDefinitions.map (·.name)).filter (hasType schema ·)).map .existedTypeName ++
      (repeatedNames [] ((d.typeDefinitions.map (·.name)).filter (!hasType schema ·))).map
        .duplicateTypeName) := by
  have memory : Findings.IsMemory (·.typeNames) fun f names => { f with typeNames := names } :=
    ⟨fun _ _ => rfl, fun _ _ => rfl, fun _ _ => rfl⟩
  rw [Document.typeDefinitions, List.map_filterMap]
  refine validate_perm_names d schema (r := uniqueTypeNames) (by decide) _ _ _ memory rfl _ fun f x => ?_
  rcases x with (_ | _) | (_ | _ | _) | (_ | _) <;> rfl

theorem validate_uniqueDirectiveNames : (validate d schema [uniqueDirectiveNames]).Perm
    (((d.directiveDefinitions.map (·.name)).filter (hasDirective schema ·)).map .existedDirectiveName ++
      (repeatedNames [] ((d.directiveDefinitions.map (·.name)).filter (!hasDirective schema ·))).map
        .duplicateDirectiveName) := by
  have memory : Findings.IsMemory (·.directiveNames) fun f names => { f with directiveNames := names } :=
    ⟨fun _ _ => rfl, fun _ _ => rfl, fun _ _ => rfl⟩
  rw [Document.directiveDefinitions, List.map_filterMap]
  refine validate_perm_names d schema (r := uniqueDirectiveNames) (by decide) _ _ _ memory rfl _ fun f x => ?_
  rcases x with (_ | _) | (_ | _ | _) | (_ | _) <;> rfl

end Rule
end GraphQL
