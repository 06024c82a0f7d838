import Mathlib.Order.Lattice
import GraphQL.Proofs.Parser.Conforms.Executable
import GraphQL.Proofs.Parser.Recovers.Value

/-! Selections, operations and fragments are taken back from their spellings. -/
namespace GraphQL.Parser
open GraphQL.Symbol IndexedList

namespace Recovers
variable {F : Symbol → Prop} {room : Nat}

/-- What may not stand behind a selection. -/
private abbrev afterSelection : List Punctuator := [.colon, .parenOpen, .atSign, .braceOpen]

/-- A parser of selection sets with room for `n` levels. -/
private structure Sets (p : Parser SelectionSet) (n : Nat) : Prop where
  conforms : ∀ s, Conforms (.only SelectionSet.WellFormed SelectionSet.spelling) p s
  recovers : ∀ {F : Symbol → Prop} {set : SelectionSet}, SelectionSet.WellFormed set →
    Recovers p set (SelectionSet.spelling set) [.braceOpen] F (SelectionSet.nesting set ≤ n)

private theorem setSpelling_ne_nil (set : SelectionSet) : SelectionSet.spelling set ≠ [] := by
  simp [SelectionSet.spelling, blockSpelling]

/-- An inline fragment from its directives on. -/
private theorem inlineRest {inner : Parser SelectionSet} (on : Option String)
    {dirs : IndexedList Directive} {set : SelectionSet} (h : Sets inner room)
    (hd : dirs.Each Directive.WellFormed) (hs : SelectionSet.WellFormed set) :
    Recovers (Parser.directives room >>= fun dirs => inner >>= fun set =>
        Pure.pure (Selection.inlineFragment on dirs set)) (.inlineFragment on dirs set)
      (directivesSpelling dirs ++ SelectionSet.spelling set) [.atSign, .braceOpen] F
      ((Selection.inlineFragment on dirs set).nesting ≤ room) := by
  refine ((directives hd).bind_before (h.recovers hs).map (by decide) ?_).congr rfl ?_
  · exact setSpelling_ne_nil set
  · simp [Selection.nesting, SelectionSet.nesting, Selection.allNesting_eq]

/-- A field from its arguments on. -/
private abbrev fieldRest (room : Nat) (inner : Parser SelectionSet) (aliasName : Option String)
    (name : String) : Parser Selection := do
  let args ← Parser.arguments room
  let dirs ← Parser.directives room
  if ← isAt .braceOpen then return .field aliasName name args dirs (some (← inner))
  else return .field aliasName name args dirs none

private theorem fieldRest_recovers {inner : Parser SelectionSet} (aliasName : Option String)
    (name : String) {args : IndexedList Argument} {dirs : IndexedList Directive}
    {set : Option SelectionSet} (h : Sets inner room) (ha : args.Each Argument.WellFormed)
    (hd : dirs.Each Directive.WellFormed) (hs : ∀ ss ∈ set, SelectionSet.WellFormed ss) :
    Recovers (fieldRest room inner aliasName name) (.field aliasName name args dirs set)
      (argumentsSpelling args ++ (directivesSpelling dirs ++ set.elim [] SelectionSet.spelling))
      [.parenOpen, .atSign, .braceOpen] (Avoids afterSelection)
      ((Selection.field aliasName name args dirs set).nesting ≤ room) := by
  have block : Recovers (isAt .braceOpen >>= fun opened => if opened then inner >>= fun set =>
      Pure.pure (Selection.field aliasName name args dirs (some set))
      else Pure.pure (Selection.field aliasName name args dirs none))
      (.field aliasName name args dirs set) (set.elim [] SelectionSet.spelling) [.braceOpen]
      (Avoids afterSelection) (set.elim 0 SelectionSet.nesting ≤ room) := by
    cases set with
    | none =>
      have none : Recovers (Pure.pure (Selection.field aliasName name args dirs none))
        (Selection.field aliasName name args dirs none) [] [] (Avoids afterSelection)
        (0 ≤ room) := (pure _).congr rfl (by simp)
      exact (isAt_other none (by simp) fun _ x hx => hx .braceOpen (by decide)).fromWord
    | some set => exact isAt_next (h.recovers (hs set rfl)).map
  refine ((arguments ha).bind ((directives hd).bind block (by decide) fun _ => by decide) (by decide)
    fun _ => by decide).congr rfl ?_
  cases set <;> simp [Selection.nesting, SelectionSet.nesting, Selection.allNesting_eq]

/-- A field whose name stands behind a colon if there is an alias. -/
private theorem field_recovers {inner : Parser SelectionSet} {aliasName : Option String} {name : String}
    {args : IndexedList Argument} {dirs : IndexedList Directive} {set : Option SelectionSet}
    (h : Sets inner room) (hx : (Selection.field aliasName name args dirs set).WellFormed) :
    Recovers (do
        let first ← Parser.expectName
        if ← Parser.accept .colon then fieldRest room inner (some first) (← Parser.expectName)
        else fieldRest room inner none first)
      (.field aliasName name args dirs set) (Selection.field aliasName name args dirs set).spelling []
      (Avoids afterSelection) ((Selection.field aliasName name args dirs set).nesting ≤ room) := by
  obtain ⟨ha, hd, hs⟩ := (Selection.wellFormed_field ..).mp hx
  have rest := fieldRest_recovers aliasName name h ha hd hs
  rw [Selection.spelling_field]
  cases aliasName with
  | none =>
    refine (expectName_next (accept_other rest (by decide) fun _ x hx => hx .colon (.head _))).congr ?_
      Iff.rfl
    simp [aliasSpelling]
  | some first =>
    refine (expectName_next (accept_next (expectName_next rest))).congr ?_ Iff.rfl
    simp [aliasSpelling]

/-- What stands behind an ellipsis without a type condition. -/
private abbrev ellipsisRest (room : Nat) (inner : Parser SelectionSet) : Parser Selection := do
  match (← peek).name? with
  | some name =>
    advance
    return .spread name (← Parser.directives room)
  | none =>
    let directives ← Parser.directives room
    return .inlineFragment none directives (← inner)

private theorem spreadRest {inner : Parser SelectionSet} {name : String} {dirs : IndexedList Directive}
    (hd : dirs.Each Directive.WellFormed) :
    Recovers (ellipsisRest room inner) (.spread name dirs) (word name :: directivesSpelling dirs) []
      (Avoids afterSelection) ((Selection.spread name dirs).nesting ≤ room) := by
  refine peek_next among_word fun t ht => ?_
  simp only [Token.name_of_bare ht]
  exact advance_next among_word ((directives hd).map.next (by decide))

private theorem directives_set_marked (dirs : IndexedList Directive) (set : SelectionSet) :
    ∃ p w, directivesSpelling dirs ++ SelectionSet.spelling set = mark p :: w := by
  cases dirs with
  | nil => exact ⟨_, _, rfl⟩
  | cons => exact ⟨_, _, rfl⟩

private theorem inlineRest_none {inner : Parser SelectionSet} {dirs : IndexedList Directive}
    {set : SelectionSet} (h : Sets inner room) (hd : dirs.Each Directive.WellFormed)
    (hs : SelectionSet.WellFormed set) :
    Recovers (ellipsisRest room inner) (.inlineFragment none dirs set)
      (directivesSpelling dirs ++ SelectionSet.spelling set) [.atSign, .braceOpen] F
      ((Selection.inlineFragment none dirs set).nesting ≤ room) := by
  have rest := inlineRest (F := F) none h hd hs
  obtain ⟨p, w, hw⟩ := directives_set_marked dirs set
  rw [hw] at rest ⊢
  refine peek_next (rest.starts _ rfl) fun t ht => ?_
  have hn : t.name? = none := by simp [Token.name?, Token.kind_of_bare ht]
  simp only [hn]
  exact rest

theorem selectionWith {inner : Parser SelectionSet} (h : Sets inner room) {x : Selection}
    (hx : x.WellFormed) :
    Recovers (selectionWith room inner) x x.spelling [.ellipsis] (Avoids afterSelection)
      (x.nesting ≤ room) := by
  unfold Parser.selectionWith
  simp only [pure_bind]
  cases x with
  | spread name dirs =>
    obtain ⟨hn, hd⟩ := hx
    exact accept_next (acceptKeyword_other (spreadRest hd) (by simpa using hn) (by simp))
  | inlineFragment on dirs set =>
    obtain ⟨hd, hs⟩ := (Selection.wellFormed_inlineFragment ..).mp hx
    rw [Selection.spelling_inlineFragment]
    cases on with
    | none =>
      obtain ⟨p, w, hw⟩ := directives_set_marked dirs set
      exact accept_next (acceptKeyword_other (inlineRest_none h hd hs) (by simp [conditionSpelling, hw])
        (by simp [hw]))
    | some on =>
      exact (accept_next (acceptKeyword_next (expectName_next (inlineRest (some on) h hd hs)))).congr
        (by simp [conditionSpelling]) Iff.rfl
  | field aliasName name args dirs set =>
    have some (h : (Selection.field aliasName name args dirs set).spelling = []) : False :=
      Selection.spelling_ne_nil _ h
    exact (accept_other (field_recovers h hx) (by simp) fun hw => (some hw).elim).mono (by simp)
      fun _ => id

private theorem setFits_iff {set : SelectionSet} :
    SelectionSet.nesting set ≤ room + 1 ↔ ∀ x ∈ set.toList, x.nesting ≤ room := by
  rw [SelectionSet.nesting, Nat.add_le_add_iff_right, deepest_le_iff]

private theorem sets (room : Nat) : Sets (Parser.selectionSet room) room := by
  induction room with
  | zero =>
    refine ⟨Conforms.selectionSet 0, fun {F set} _ => ?_⟩
    obtain ⟨ps, none⟩ := nestingExceeded (a := set) (F := F)
      (IndexedList.spelling Selection.spelling set ++ [mark .braceClose])
      (show ¬ SelectionSet.nesting set ≤ 0 by simp [SelectionSet.nesting])
    exact expect_next none
  | succ room ih =>
    refine ⟨Conforms.selectionSet (room + 1), fun {F set} hs => ?_⟩
    have each : RecoversEach (Parser.selectionWith room (Parser.selectionSet room))
        Selection.WellFormed Selection.spelling [.ellipsis] afterSelection (·.nesting ≤ room) :=
      ⟨Conforms.selectionWith room ih.conforms, Selection.spelling_ne_nil, fun _ => selectionWith ih⟩
    have rows : Recovers (Parser.someThrough .braceClose _) set _ _ F _ :=
      someThrough each (by decide) (by decide) hs.2 hs.1
    refine peek_next (among_mark (.head _)) fun t _ => expect_next
      ((rows.mapError fun e => ?_).congr rfl setFits_iff)
    unfold noteUnclosed
    split <;> rfl

theorem selectionSet {set : SelectionSet} (hs : SelectionSet.WellFormed set) :
    Recovers (selectionSet room) set (SelectionSet.spelling set) [.braceOpen] F
      (SelectionSet.nesting set ≤ room) :=
  (sets room).recovers hs

theorem operationType_next {α : Type} {a : α} {t : OperationType} {f : OperationType → Parser α}
    {v : List Symbol} {ps : List Punctuator} {D : Prop} (h : Recovers (f t) a v ps F D) :
    Recovers (operationType >>= f) a (word t.keyword :: v) [] F D := by
  unfold operationType
  rw [bind_assoc]
  refine peek_next among_word fun u hu => ?_
  have ht : u.name?.bind OperationType.ofKeyword? = some t := by
    rw [Token.name_of_bare hu]
    cases t <;> rfl
  simp only [ht, bind_assoc, pure_bind]
  exact advance_next among_word h

/-- A type, perhaps a default value and directives behind it, and what is made of all. -/
theorem typed {α : Type} {v : Option Value} {dirs : IndexedList Directive}
    (make : TypeReference → Option Value → IndexedList Directive → α) (t : TypeReference)
    (hv : DefaultWellFormed v) (hd : dirs.Each Directive.WellFormed) :
    Recovers (do
        let t ← Parser.typeReference room
        let v ← Parser.optionalDefault room
        return make t v (← Parser.directives room))
      (make t v dirs) (t.spelling ++ (defaultSpelling v ++ directivesSpelling dirs))
      [.bracketOpen, .equals, .atSign] (Avoids [.bang, .equals, .atSign, .parenOpen])
      (t.nesting ≤ room ∧ defaultNesting v ≤ room ∧ dirs.deepest Directive.nesting ≤ room) := by
  have annotated : Recovers (Parser.directives room >>= fun dirs => Pure.pure (make t v dirs)) _ _ _
      (Avoids [.bang, .equals, .atSign, .parenOpen]) _ := (directives hd).map.next (by decide)
  refine .bind (typeReference room t) ?_ (by decide) fun _ => by decide
  exact .bind (optionalDefault hv) annotated (by decide) fun _ => by decide

theorem variableDefinition {v : VariableDefinition} (hv : v.WellFormed) :
    Recovers (variableDefinition room) v v.spelling [.dollar]
      (Avoids [.bang, .equals, .atSign, .parenOpen]) (v.nesting ≤ room) := by
  refine .congr (expect_next (expectName_next (expect_next (typed _ v.type hv.1 hv.2)))) ?_ ?_
  · simp [VariableDefinition.spelling]
  · simp [VariableDefinition.nesting]

/-- An operation from its variables on. -/
private abbrev operationRest (room : Nat) (type : OperationType) (name : Option String) :
    Parser OperationDefinition := do
  let variableDefinitions ←
    Parser.optionalBlock .parenOpen .parenClose (Parser.variableDefinition room)
  let directives ← Parser.directives room
  return ⟨type, name, variableDefinitions, directives, ← Parser.selectionSet room⟩

/-- What is spelled from the variables on. -/
private abbrev restSpelling (o : OperationDefinition) : List Symbol :=
  o.variableDefinitions.optionalSpelling .parenOpen .parenClose VariableDefinition.spelling ++
    (directivesSpelling o.directives ++ SelectionSet.spelling o.selections)

private theorem operationRest_recovers {o : OperationDefinition} (ho : o.WellFormed) :
    Recovers (operationRest room o.type o.name) o (restSpelling o) [.parenOpen, .atSign, .braceOpen] F
      (o.nesting ≤ room) := by
  obtain ⟨hv, hd, hs⟩ := ho
  have each : RecoversEach (Parser.variableDefinition room) VariableDefinition.WellFormed
      VariableDefinition.spelling [.dollar] [.bang, .equals, .atSign, .parenOpen]
      (·.nesting ≤ room) :=
    ⟨Conforms.variableDefinition, by simp [VariableDefinition.spelling], fun _ => variableDefinition⟩
  have vars : Recovers (Parser.optionalBlock .parenOpen .parenClose _) _ _ _ (Avoids [.parenOpen]) _ :=
    optionalBlock each (by decide) (by decide) (fun _ x hx => hx .parenOpen (.head _)) hv
  have set (x : List Symbol) : x ++ SelectionSet.spelling o.selections ≠ [] := by
    simp [setSpelling_ne_nil]
  refine .congr (.bind_before vars (.bind_before (directives hd) (selectionSet hs).map (by decide)
    (set [])) (by decide) (set _)) rfl ?_
  simp [OperationDefinition.nesting, deepest_le_iff]

/-- Without a name there is a punctuator behind the keyword. -/
private theorem restSpelling_marked (o : OperationDefinition) : ∃ p w, restSpelling o = mark p :: w := by
  obtain ⟨type, name, vars, dirs, set⟩ := o
  cases vars with
  | nil => exact directives_set_marked dirs set
  | cons => exact ⟨_, _, rfl⟩

/-- An operation from its name on. -/
private theorem operationName (room : Nat) {o : OperationDefinition} (ho : o.WellFormed) :
    ∃ ps, Recovers (do
        let name := (← peek).name?
        if name.isSome then advance
        operationRest room o.type name)
      o (nameSpelling o.name ++ restSpelling o) ps F (o.nesting ≤ room) := by
  have rest : Recovers (operationRest room o.type o.name) _ _ _ F _ := operationRest_recovers ho
  cases hn : o.name with
  | some name =>
    rw [hn] at rest
    refine ⟨[], peek_next among_word fun t ht => ?_⟩
    simp only [Token.name_of_bare ht]
    exact advance_next among_word rest
  | none =>
    obtain ⟨p, w, hw⟩ := restSpelling_marked o
    rw [hn, hw] at rest
    rw [nameSpelling, List.nil_append, hw]
    refine ⟨_, peek_next (rest.starts _ rfl) fun t ht => ?_⟩
    have ht : t.name? = none := by simp [Token.name?, Token.kind_of_bare ht]
    simp only [ht]
    exact rest

theorem operation {o : OperationDefinition} (ho : o.WellFormed) :
    Recovers (operation room) o o.spelling [] F (o.nesting ≤ room) := by
  obtain ⟨ps, rest⟩ := operationName (F := F) room ho
  refine .congr (isAt_other (operationType_next rest) (by simp) (by simp)) ?_ Iff.rfl
  simp [OperationDefinition.spelling]

theorem operation_shorthand {o : OperationDefinition} (ho : o.WellFormed) (hs : o.isShorthand) :
    Recovers (Parser.operation room) o (SelectionSet.spelling o.selections) [.braceOpen] F
      (o.nesting ≤ room) := by
  rw [OperationDefinition.eq_of_isShorthand hs]
  refine (isAt_next (selectionSet ho.2.2).map).congr rfl ?_
  simp [OperationDefinition.nesting, deepest, toList]

theorem fragment {f : FragmentDefinition} (hf : f.WellFormed) :
    Recovers (fragment room) f f.spelling [] F (f.nesting ≤ room) := by
  obtain ⟨hn, hd, hs⟩ := hf
  have rest : Recovers (Parser.directives room >>= fun dirs => Parser.selectionSet room >>= fun set =>
      Pure.pure (FragmentDefinition.mk f.name f.typeCondition dirs set)) f _ _ F _ :=
    .bind_before (directives hd) (selectionSet hs).map (by decide) (setSpelling_ne_nil _)
  refine .congr (expectKeyword_next (isAtKeyword_other (expectName_next (expectKeyword_next
    (expectName_next rest))) ?_ ?_)) ?_ ?_
  · simpa using hn
  · simp
  · simp [FragmentDefinition.spelling]
  · simp [FragmentDefinition.nesting]

end Recovers
end GraphQL.Parser
