import GraphQL.Proofs.Validation.Alone

/-! What is reported of a document that is to be executed. -/
namespace GraphQL

theorem Rule.nodup_executable : executable.Nodup := by decide

/-- The sum over a list. -/
def total {α : Type} (as : List α) (f : α → Nat) : Nat := as.foldr (fun a n => f a + n) 0

theorem count_flatMap_total {α : Type} (as : List α) (f : α → List ValidationError) (e : ValidationError) :
    (as.flatMap f).count e = total as fun a => (f a).count e := by
  induction as with
  | nil => rfl
  | cons a as ih =>
    rw [List.flatMap_cons, List.count_append, ih]
    rfl

theorem Rule.isSome_nonExecutableName? (x : Definition) : (nonExecutableName? x).isSome = !x.isExecutable := by
  rcases x with _ | (_ | _ | _) | (_ | _) <;> rfl

namespace Document

/-- The errors in a document, each as often as it is reported. -/
structure ReportsExecutable (d : Document) (errors : List ValidationError) : Prop where
  nonExecutable : errors.filter (·.rule = .executableDefinitions) =
    (d.definitions.toList.filterMap Rule.nonExecutableName?).map .nonExecutableDefinition
  /-- One for each definition or extension of the type system. -/
  nonExecutableCount : (errors.filter (·.rule = .executableDefinitions)).length =
    d.definitions.toList.countP (!·.isExecutable)
  anonymousOperation : errors.count .anonymousOperationNotAlone =
    if 1 < d.operations.length then d.operations.countP (·.name.isNone) else 0
  operationName : ∀ name, errors.count (.duplicateOperationName name) =
    (d.operations.filterMap (·.name)).count name - 1
  fragmentName : ∀ name, errors.count (.duplicateFragmentName name) = (d.fragments.map (·.name)).count name - 1
  variableName : ∀ name, errors.count (.duplicateVariableName name) =
    total d.operations fun o => (o.variableDefinitions.toList.map (·.name)).count name - 1
  argumentName : ∀ name, errors.count (.duplicateArgumentName name) =
    total d.argumentLists fun l => (l.toList.map (·.name)).count name - 1
  nothingElse : ∀ e ∈ errors, e.rule ∈ Rule.executable

/-- What a document must fulfil to be executed. -/
structure IsExecutable (d : Document) : Prop where
  definitions : ∀ x ∈ d.definitions.toList, x.isExecutable
  anonymousOperation : ∀ o ∈ d.operations, o.name = none → d.operations.length = 1
  operationNames : (d.operations.filterMap (·.name)).Nodup
  fragmentNames : (d.fragments.map (·.name)).Nodup
  variableNames : ∀ o ∈ d.operations, (o.variableDefinitions.toList.map (·.name)).Nodup
  argumentNames : ∀ l ∈ d.argumentLists, (l.toList.map (·.name)).Nodup

end Document

section
variable (d : Document)

private theorem count_executable {e : ValidationError} {r : Rule} (own : e.rule = r) (h : r ∈ Rule.executable) :
    (validateExecutable d).count e = (validate d none [r]).count e :=
  count_validate Rule.nodup_executable own h

private theorem count_repeated {duplicate : String → ValidationError} (h : duplicate.Injective)
    (names : List String) (name : String) :
    ((repeatedNames [] names).map duplicate).count (duplicate name) = names.count name - 1 := by
  rw [List.count_map_of_injective _ _ h, count_repeatedNames]
  rfl

private theorem filter_nonExecutable : (validateExecutable d).filter (·.rule = .executableDefinitions) =
    (d.definitions.toList.filterMap Rule.nonExecutableName?).map .nonExecutableDefinition := by
  have alone := filter_validate d none Rule.nodup_executable .executableDefinitions
  exact (alone.trans (if_pos (by decide))).trans (Rule.validate_executableDefinitions d none)

private theorem count_ite {α : Type} (as : List α) (p : α → Bool) (e : ValidationError) :
    (as.flatMap fun a => if p a then [e] else []).count e = as.countP p := by
  induction as with
  | nil => rfl
  | cons a as ih => cases h : p a <;> simp [h, ih]

private theorem count_anonymous : (validateExecutable d).count .anonymousOperationNotAlone =
    if 1 < d.operations.length then d.operations.countP (·.name.isNone) else 0 := by
  rw [count_executable d (r := .loneAnonymousOperation) rfl (by decide), Rule.validate_loneAnonymousOperation,
    count_ite]
  split
  · next several => simp [several]
  · next alone => simp [alone]

theorem Document.reportsExecutable_validateExecutable : d.ReportsExecutable (validateExecutable d) where
  nonExecutable := filter_nonExecutable d
  nonExecutableCount := by
    rw [filter_nonExecutable, List.length_map, List.length_filterMap_eq_countP]
    exact List.countP_congr fun x _ => by rw [Rule.isSome_nonExecutableName?]
  anonymousOperation := count_anonymous d
  operationName name := by
    rw [count_executable d (r := .uniqueOperationNames) rfl (by decide),
      (Rule.validate_uniqueOperationNames d none).count_eq]
    exact count_repeated (fun _ _ => ValidationError.duplicateOperationName.inj) _ name
  fragmentName name := by
    rw [count_executable d (r := .uniqueFragmentNames) rfl (by decide),
      (Rule.validate_uniqueFragmentNames d none).count_eq]
    exact count_repeated (fun _ _ => ValidationError.duplicateFragmentName.inj) _ name
  variableName name := by
    rw [count_executable d (r := .uniqueVariableNames) rfl (by decide), Rule.validate_uniqueVariableNames,
      count_flatMap_total]
    simp only [count_repeated fun _ _ => ValidationError.duplicateVariableName.inj]
  argumentName name := by
    rw [count_executable d (r := .uniqueArgumentNames) rfl (by decide), Rule.validate_uniqueArgumentNames,
      count_flatMap_total]
    simp only [Rule.duplicateArguments, count_repeated fun _ _ => ValidationError.duplicateArgumentName.inj]
  nothingElse _ := rule_mem_of_mem_validate Rule.nodup_executable

private theorem executableDefinitions_eq_nil_iff :
    validate d none [.executableDefinitions] = [] ↔ ∀ x ∈ d.definitions.toList, x.isExecutable := by
  rw [Rule.validate_executableDefinitions, List.map_eq_nil_iff, List.filterMap_eq_nil_iff]
  refine forall₂_congr fun x _ => ?_
  rw [← Option.isNone_iff_eq_none, ← Option.not_isSome, Rule.isSome_nonExecutableName?, Bool.not_not]

private theorem loneAnonymousOperation_eq_nil_iff : validate d none [.loneAnonymousOperation] = [] ↔
    ∀ o ∈ d.operations, o.name = none → d.operations.length = 1 := by
  rw [Rule.validate_loneAnonymousOperation, List.flatMap_eq_nil_iff]
  refine forall₂_congr fun o ho => ?_
  have some : 0 < d.operations.length := List.length_pos_of_mem ho
  have one : d.operations.length = 1 ↔ ¬ 1 < d.operations.length := by omega
  rw [one]
  cases o.name <;> simp

private theorem repeated_eq_nil_iff (duplicate : String → ValidationError) (names : List String) :
    (repeatedNames [] names).map duplicate = [] ↔ names.Nodup := by
  simp [repeatedNames_eq_nil_iff]

private theorem eq_nil_iff_of_perm {es : List ValidationError} {duplicate : String → ValidationError}
    {names : List String} (found : es.Perm ((repeatedNames [] names).map duplicate)) :
    es = [] ↔ names.Nodup := by
  rw [← repeated_eq_nil_iff duplicate, ← List.perm_nil, found.congr_left, List.perm_nil]

theorem validateExecutable_eq_nil_iff : validateExecutable d = [] ↔ d.IsExecutable := by
  have operationNames := eq_nil_iff_of_perm (Rule.validate_uniqueOperationNames d none)
  have fragmentNames := eq_nil_iff_of_perm (Rule.validate_uniqueFragmentNames d none)
  rw [validateExecutable, validate_eq_nil_iff Rule.nodup_executable]
  simp only [Rule.executable, List.forall_mem_cons, executableDefinitions_eq_nil_iff,
    loneAnonymousOperation_eq_nil_iff, operationNames, fragmentNames, Rule.validate_uniqueVariableNames,
    Rule.validate_uniqueArgumentNames, Rule.duplicateArguments, List.flatMap_eq_nil_iff, repeated_eq_nil_iff]
  constructor
  · rintro ⟨definitions, anonymous, operations, fragments, vars, arguments, -⟩
    exact ⟨definitions, anonymous, operations, fragments, vars, arguments⟩
  · intro h
    exact ⟨h.definitions, h.anonymousOperation, h.operationNames, h.fragmentNames, h.variableNames,
      h.argumentNames, by simp⟩

/-- What is reported is exactly what is wrong, so that nothing is if the document fulfils all conditions. -/
theorem validateExecutable_exact :
    d.ReportsExecutable (validateExecutable d) ∧ (validateExecutable d = [] ↔ d.IsExecutable) :=
  ⟨d.reportsExecutable_validateExecutable, validateExecutable_eq_nil_iff d⟩

example : (parse "query A{a(b:1 b:2)}{a}query A{a}type T".toList).map validateExecutable =
    .ok [.duplicateArgumentName "b", .anonymousOperationNotAlone, .duplicateOperationName "A",
      .nonExecutableDefinition "T"] := rfl

end
end GraphQL
