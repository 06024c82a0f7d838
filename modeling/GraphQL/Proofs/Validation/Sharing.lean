import GraphQL.Parser.Document
import GraphQL.Proofs.Walker.Trace
import GraphQL.Validation.Rule

/-! Rules that share a walk. What a rule reports and remembers is not touched by any other rule, so that its
errors are those that it finds alone. -/
namespace GraphQL

/-- The rule that reports errors of this sort. -/
def ValidationError.rule : ValidationError → Rule
  | nonExecutableDefinition _ => .executableDefinitions
  | anonymousOperationNotAlone => .loneAnonymousOperation
  | duplicateOperationName _ => .uniqueOperationNames
  | duplicateFragmentName _ => .uniqueFragmentNames
  | duplicateVariableName _ => .uniqueVariableNames
  | duplicateArgumentName _ => .uniqueArgumentNames
  | schemaDefinitionNotAlone | schemaAlreadyDefined => .loneSchemaDefinition
  | duplicateTypeName _ | existedTypeName _ => .uniqueTypeNames
  | duplicateDirectiveName _ | existedDirectiveName _ => .uniqueDirectiveNames
  | extendedTypeNotDefined _ | extendedTypeKindMismatch _ _ => .possibleTypeExtensions

namespace Findings

/-- What a rule remembers, with nothing of the other rules. -/
def memory (r : Rule) (f : Findings) : Findings :=
  match r with
  | .loneAnonymousOperation => { none with operationCount := f.operationCount }
  | .uniqueOperationNames => { none with operationNames := f.operationNames }
  | .uniqueFragmentNames => { none with fragmentNames := f.fragmentNames }
  | .loneSchemaDefinition => { none with schemaDefinitionCount := f.schemaDefinitionCount }
  | .uniqueTypeNames => { none with typeNames := f.typeNames }
  | .uniqueDirectiveNames => { none with directiveNames := f.directiveNames }
  | .possibleTypeExtensions => { none with definedKinds := f.definedKinds }
  | .executableDefinitions | .uniqueVariableNames | .uniqueArgumentNames => none

/-- What a rule has reported and remembers. -/
def only (r : Rule) (f : Findings) : Findings := { f.memory r with errors := f.errors.filter (·.rule = r) }

theorem only_none (r : Rule) : none.only r = none := by cases r <;> rfl

theorem only_reportAll {own : Rule} {es : List ValidationError} (h : ∀ e ∈ es, e.rule = own) (r : Rule)
    (f : Findings) : (f.reportAll es).only r = if r = own then (f.only r).reportAll es else f.only r := by
  have memory : (f.reportAll es).memory r = f.memory r := by cases r <;> rfl
  unfold only
  rw [memory]
  split
  · next same =>
    have all : es.filter (·.rule = r) = es := by simpa [same] using h
    simp [reportAll, all]
  · next other =>
    have none : es.filter (·.rule = r) = [] := by
      simpa using fun e he same => other (same.symm.trans (h e he))
    simp [reportAll, none]

theorem only_report (e : ValidationError) (r : Rule) (f : Findings) :
    (f.report e).only r = if r = e.rule then (f.only r).report e else f.only r :=
  only_reportAll (List.forall_mem_singleton.mpr rfl) r f

end Findings

namespace Rule

/-- What a rule does to findings shows in its own part only, and hangs on that part only. -/
def KeepsTo (own : Rule) (g : Findings → Findings) : Prop :=
  ∀ r f, (g f).only r = if r = own then g (f.only r) else f.only r

namespace KeepsTo
variable {own : Rule} {g h : Findings → Findings}

theorem id : KeepsTo own fun f => f := fun r f => by simp

theorem report {e : ValidationError} (he : e.rule = own) : KeepsTo own (·.report e) :=
  fun r f => by simpa [he] using f.only_report e r

theorem reportAll {es : List ValidationError} (he : ∀ e ∈ es, e.rule = own) : KeepsTo own (·.reportAll es) :=
  fun r f => f.only_reportAll he r

/-- What is done may hang on something that the own part alone determines. -/
theorem on {β : Type} {c : Findings → β} {g : β → Findings → Findings}
    (hc : ∀ f : Findings, c (f.only own) = c f) (hg : ∀ b, KeepsTo own (g b)) : KeepsTo own fun f => g (c f) f := by
  intro r f
  refine (hg (c f) r f).trans ?_
  split
  · next same =>
    subst same
    simp only [hc]
  · rfl

theorem ite {c : Findings → Prop} [∀ f, Decidable (c f)] (hc : ∀ f : Findings, c (f.only own) ↔ c f)
    (hg : KeepsTo own g) (hh : KeepsTo own h) : KeepsTo own fun f => if c f then g f else h f := by
  have chosen : KeepsTo own fun f => if decide (c f) then g f else h f :=
    on (c := fun f => decide (c f)) (g := fun b f => if b then g f else h f)
      (fun f => decide_eq_decide.mpr (hc f)) fun b => by cases b <;> assumption
  simpa using chosen

theorem before (hg : KeepsTo own g) (hh : KeepsTo own h) : KeepsTo own fun f => h (g f) := by
  intro r f
  rw [hh r (g f), hg r f]
  split <;> rfl

end KeepsTo

open KeepsTo

variable (schema : Option Schema) (n : Node)

private theorem keepsTo_checkExecutable : KeepsTo executableDefinitions (checkExecutable n) := by
  cases n with
  | definition d =>
    rcases d with _ | (_ | _ | _) | (_ | _)
    · exact .id
    all_goals exact .report rfl
  | _ => exact .id

private theorem keepsTo_countOperations : KeepsTo loneAnonymousOperation (countOperations n) := by
  cases n with
  | document d => exact fun r f => by cases r <;> rfl
  | _ => exact .id

private theorem keepsTo_checkAnonymous : KeepsTo loneAnonymousOperation (checkAnonymous n) := by
  cases n with
  | operationDefinition o => exact .ite (fun _ => .rfl) (.report rfl) .id
  | _ => exact .id

private theorem keepsTo_checkOperationName : KeepsTo uniqueOperationNames (checkOperationName n) := by
  cases n with
  | operationDefinition o =>
    obtain ⟨_, name, _, _, _⟩ := o
    cases name with
    | none => exact .id
    | some name => exact .ite (fun _ => .rfl) (.report rfl) fun r f => by cases r <;> rfl
  | _ => exact .id

private theorem keepsTo_checkFragmentName : KeepsTo uniqueFragmentNames (checkFragmentName n) := by
  cases n with
  | fragmentDefinition x => exact .ite (fun _ => .rfl) (.report rfl) fun r f => by cases r <;> rfl
  | _ => exact .id

private theorem keepsTo_checkVariableNames : KeepsTo uniqueVariableNames (checkVariableNames n) := by
  cases n with
  | operationDefinition o => exact .reportAll (List.forall_mem_map.mpr fun _ _ => rfl)
  | _ => exact .id

private theorem keepsTo_checkArgumentNames : KeepsTo uniqueArgumentNames (checkArgumentNames n) := by
  cases n with
  | selectionVariant s =>
    cases s with
    | field => exact .reportAll (List.forall_mem_map.mpr fun _ _ => rfl)
    | _ => exact .id
  | directive d => exact .reportAll (List.forall_mem_map.mpr fun _ _ => rfl)
  | _ => exact .id

private theorem keepsTo_checkSchemaDefinition :
    KeepsTo loneSchemaDefinition (checkSchemaDefinition schema n) := by
  cases n with
  | schemaDefinition x =>
    refine .ite (c := fun _ => schema.any (·.isDefined)) (fun _ => .rfl) (.report rfl) ?_
    refine .on (c := (·.schemaDefinitionCount)) (fun _ => rfl) (g := fun count f =>
      { (if 0 < count then f.report .schemaDefinitionNotAlone else f) with schemaDefinitionCount := count + 1 })
      fun count => ?_
    exact before (.ite (c := fun _ => 0 < count) (fun _ => .rfl) (.report rfl) .id)
      (h := fun f => { f with schemaDefinitionCount := count + 1 }) fun r f => by cases r <;> rfl
  | _ => exact .id

private theorem keepsTo_checkTypeName : KeepsTo uniqueTypeNames (checkTypeName schema n) := by
  cases n with
  | typeDefinition t =>
    exact .ite (fun _ => .rfl) (.report rfl)
      (.ite (fun _ => .rfl) (.report rfl) fun r f => by cases r <;> rfl)
  | _ => exact .id

private theorem keepsTo_checkDirectiveName : KeepsTo uniqueDirectiveNames (checkDirectiveName schema n) := by
  cases n with
  | directiveDefinition x =>
    exact .ite (fun _ => .rfl) (.report rfl)
      (.ite (fun _ => .rfl) (.report rfl) fun r f => by cases r <;> rfl)
  | _ => exact .id

private theorem keepsTo_collectKinds : KeepsTo possibleTypeExtensions (collectKinds n) := by
  cases n with
  | document d => exact fun r f => by cases r <;> rfl
  | _ => exact .id

/-- The kind of the type of this name, be it one that the document defines or one of the schema. -/
def knownKind (schema : Option Schema) (kinds : Registry TypeKind) (name : String) : Option TypeKind :=
  (kinds.get? name).or ((schema.bind (·.types.get? name)).map (·.kind))

/-- What is wrong with an extension of a type, if this is known of it. -/
def extensionError? (known : Option TypeKind) (t : TypeDefinition) : Option ValidationError :=
  match known with
  | none => some (.extendedTypeNotDefined t.name)
  | some kind => if kind = t.kind then none else some (.extendedTypeKindMismatch t.name t.kind)

theorem checkExtension_eq (t : TypeDefinition) (f : Findings) : checkExtension schema (.typeExtension t) f =
    f.reportAll (extensionError? (knownKind schema f.definedKinds t.name) t).toList := by
  rw [checkExtension, ← knownKind]
  cases knownKind schema f.definedKinds t.name with
  | none => rfl
  | some kind =>
    by_cases same : kind = t.kind
    · simp [extensionError?, same, Findings.reportAll]
    · simp [extensionError?, same, Findings.reportAll, Findings.report]

private theorem keepsTo_checkExtension : KeepsTo possibleTypeExtensions (checkExtension schema n) := by
  cases n with
  | typeExtension t =>
    have step : checkExtension schema (.typeExtension t) = fun f =>
        f.reportAll (extensionError? (knownKind schema f.definedKinds t.name) t).toList :=
      funext (checkExtension_eq schema t)
    rw [step]
    refine .on (c := fun f => knownKind schema f.definedKinds t.name) (fun _ => rfl)
      (g := fun known f => f.reportAll (extensionError? known t).toList) fun known => .reportAll ?_
    cases known with
    | none => simp [extensionError?, ValidationError.rule]
    | some kind => by_cases same : kind = t.kind <;> simp [extensionError?, same, ValidationError.rule]
  | _ => exact .id

private theorem keepsTo_action (r : Rule) : ∀ h ∈ r.handlers schema, KeepsTo r (h.action n) := by
  cases r with
  | executableDefinitions => simpa [handlers] using keepsTo_checkExecutable n
  | loneAnonymousOperation =>
    simpa [handlers] using And.intro (keepsTo_countOperations n) (keepsTo_checkAnonymous n)
  | uniqueOperationNames => simpa [handlers] using keepsTo_checkOperationName n
  | uniqueFragmentNames => simpa [handlers] using keepsTo_checkFragmentName n
  | uniqueVariableNames => simpa [handlers] using keepsTo_checkVariableNames n
  | uniqueArgumentNames => simpa [handlers] using keepsTo_checkArgumentNames n
  | loneSchemaDefinition => simpa [handlers] using keepsTo_checkSchemaDefinition schema n
  | uniqueTypeNames => simpa [handlers] using keepsTo_checkTypeName schema n
  | uniqueDirectiveNames => simpa [handlers] using keepsTo_checkDirectiveName schema n
  | possibleTypeExtensions =>
    simpa [handlers] using And.intro (keepsTo_collectKinds n) (keepsTo_checkExtension schema n)

variable (phase : Phase)

private theorem keepsTo_fire {own : Rule} {w : Walker Findings} (h : ∀ x ∈ w, KeepsTo own (x.action n)) :
    KeepsTo own (w.fire phase n) := by
  induction w with
  | nil => exact .id
  | cons x w ih =>
    obtain ⟨hx, hw⟩ := List.forall_mem_cons.mp h
    have first := KeepsTo.ite (c := fun _ => x.kind = n.kind ∧ x.phase = phase) (fun _ => .rfl) hx .id
    exact first.before (ih hw)

/-- At one event a rule has its turn once, if it is among the rules, and all others leave its part alone. -/
private theorem only_fire {rules : List Rule} (distinct : rules.Nodup) (r : Rule) (f : Findings) :
    (Walker.fire (rules.flatMap (handlers schema)) phase n f).only r =
      if r ∈ rules then Walker.fire (r.handlers schema) phase n (f.only r) else f.only r := by
  induction rules generalizing f with
  | nil => rfl
  | cons own rules ih =>
    obtain ⟨new, distinct⟩ := List.nodup_cons.mp distinct
    have first := keepsTo_fire n phase (keepsTo_action schema n own) r f
    have parts : Walker.fire ((own :: rules).flatMap (handlers schema)) phase n f =
        Walker.fire (rules.flatMap (handlers schema)) phase n (Walker.fire (own.handlers schema) phase n f) :=
      List.foldl_append
    rw [parts, ih distinct, first]
    by_cases same : r = own
    · simp [same, new]
    · simp [same]

private theorem only_run {rules : List Rule} (distinct : rules.Nodup) (r : Rule) (t : List Event)
    (f : Findings) : (Walker.run (rules.flatMap (handlers schema)) t f).only r =
      if r ∈ rules then Walker.run (r.handlers schema) t (f.only r) else f.only r := by
  induction t generalizing f with
  | nil => simp
  | cons e t ih =>
    refine (ih _).trans ?_
    rw [only_fire schema e.node e.phase distinct r f]
    split <;> rfl

end Rule

/-- The errors of a rule are what it finds alone, and none if it is not among the rules. -/
theorem filter_validate (d : Document) (schema : Option Schema) {rules : List Rule} (distinct : rules.Nodup)
    (r : Rule) :
    (validate d schema rules).filter (·.rule = r) = if r ∈ rules then validate d schema [r] else [] := by
  have alone : [r].flatMap (Rule.handlers schema) = r.handlers schema := List.flatMap_singleton ..
  have part : (validate d schema rules).filter (·.rule = r) =
      ((Walker.walk (rules.flatMap (Rule.handlers schema)) d Findings.none).only r).errors := rfl
  rw [part, Walker.walk_eq_run, Rule.only_run schema distinct, Findings.only_none]
  split
  · rw [validate, Walker.walk_eq_run, alone]
  · rfl

/-- Every error belongs to one of the rules. -/
theorem rule_mem_of_mem_validate {d : Document} {schema : Option Schema} {rules : List Rule}
    (distinct : rules.Nodup) {e : ValidationError} (he : e ∈ validate d schema rules) : e.rule ∈ rules := by
  by_contra other
  have absent := (filter_validate d schema distinct e.rule).trans (if_neg other)
  have found : e ∈ (validate d schema rules).filter (·.rule = e.rule) := List.mem_filter.mpr ⟨he, by simp⟩
  rw [absent] at found
  cases found

/-- Rules that share a walk find what each of them finds alone, in the same order, and nothing else. So a rule
finds the same beside any others. -/
theorem validate_shared (d : Document) (schema : Option Schema) {rules : List Rule} (distinct : rules.Nodup) :
    (∀ r ∈ rules, (validate d schema rules).filter (·.rule = r) = validate d schema [r]) ∧
      (∀ e ∈ validate d schema rules, e.rule ∈ rules) ∧
      ∀ others : List Rule, others.Nodup → ∀ r ∈ rules, r ∈ others →
        (validate d schema others).filter (·.rule = r) = (validate d schema rules).filter (·.rule = r) := by
  have alone {rules : List Rule} (distinct : rules.Nodup) (r : Rule) (hr : r ∈ rules) :
      (validate d schema rules).filter (·.rule = r) = validate d schema [r] :=
    (filter_validate d schema distinct r).trans (if_pos hr)
  refine ⟨alone distinct, fun e => rule_mem_of_mem_validate distinct, fun others distinct' r hr hr' => ?_⟩
  rw [alone distinct' r hr', alone distinct r hr]

/-- Two rules with errors that alternate. -/
theorem validate_shared_types : ∃ d, parse "scalar A extend type A @a scalar A extend type B @b".toList = .ok d ∧
    [Rule.possibleTypeExtensions, .uniqueTypeNames].Nodup ∧
    validate d none [.possibleTypeExtensions, .uniqueTypeNames] =
      [.extendedTypeKindMismatch "A" .object, .duplicateTypeName "A", .extendedTypeNotDefined "B"] ∧
    (∀ r ∈ [Rule.possibleTypeExtensions, .uniqueTypeNames],
      (validate d none [.possibleTypeExtensions, .uniqueTypeNames]).filter (·.rule = r) = validate d none [r]) ∧
    (∀ e ∈ validate d none [.possibleTypeExtensions, .uniqueTypeNames],
      e.rule ∈ [Rule.possibleTypeExtensions, .uniqueTypeNames]) ∧
    ∀ others : List Rule, others.Nodup → ∀ r ∈ [Rule.possibleTypeExtensions, .uniqueTypeNames], r ∈ others →
      (validate d none others).filter (·.rule = r) =
        (validate d none [.possibleTypeExtensions, .uniqueTypeNames]).filter (·.rule = r) := by
  have parsed : parse "scalar A extend type A @a scalar A extend type B @b".toList = .ok _ := rfl
  have distinct : [Rule.possibleTypeExtensions, .uniqueTypeNames].Nodup := by decide
  exact ⟨_, parsed, distinct, rfl, validate_shared _ none distinct⟩

section Distinct
variable {d : Document} {schema : Option Schema} {rules : List Rule}

/-- How often an error is reported is up to its own rule. -/
theorem count_validate (distinct : rules.Nodup) {e : ValidationError} {r : Rule} (own : e.rule = r)
    (h : r ∈ rules) : (validate d schema rules).count e = (validate d schema [r]).count e := by
  have alone := (filter_validate d schema distinct r).trans (if_pos h)
  rw [← alone, List.count_filter (by simpa using own)]

theorem validate_eq_nil_iff (distinct : rules.Nodup) :
    validate d schema rules = [] ↔ ∀ r ∈ rules, validate d schema [r] = [] := by
  constructor
  · intro none r hr
    have alone := (filter_validate d schema distinct r).trans (if_pos hr)
    rw [← alone, none, List.filter_nil]
  · intro none
    refine List.eq_nil_iff_forall_not_mem.mpr fun e he => ?_
    have own := rule_mem_of_mem_validate distinct he
    have found := List.count_pos_iff.mpr he
    rw [count_validate distinct rfl own, none _ own] at found
    cases found

end Distinct
end GraphQL
