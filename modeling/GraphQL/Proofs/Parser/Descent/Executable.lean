import GraphQL.Parser.Descent.Executable
import GraphQL.Proofs.Parser.Descent.Value

/-! Operations, fragments and their selections in a descent. -/
namespace GraphQL

namespace Parser
variable {α β : Type}

/-- A selection that has no ellipsis. -/
def field (room : Nat) (inner : Parser SelectionSet) : Parser Selection := do
  let first ← expectName
  let (aliasName, name) ← if ← accept .colon then pure (some first, ← expectName) else pure (none, first)
  let arguments ← arguments room
  let directives ← directives room
  let selections ← if ← isAt .braceOpen then pure (some (← inner)) else pure none
  return .field aliasName name arguments directives selections

/-- Where an ellipsis is next a field fails, and elsewhere it is the selection. -/
theorem progress_field (room : Nat) : Progress (field room (selectionSet room)) := by
  intro s a s' run
  by_cases hk : s.peek.kind = .punctuator .ellipsis
  · have fails : expectName s = .error (.unexpected ["a name"] s.peek) s := by
      have unnamed : s.peek.name? = none := by simp [Token.name?, hk]
      unfold expectName
      rw [peek_run, unnamed]
      rfl
    cases (bind_error fails).symm.trans run
  · exact Progress.selection room s a s' ((bind_ok (accept_of_not hk)).trans run)

end Parser

namespace Descent
open GraphQL.Parser (expect_of maxNesting)

/-- What room is left inside a selection set. -/
private theorem selectionSet_cases (d : Nat) : ∃ inner : Option (Parser SelectionSet),
    (inner = none ↔ maxNesting ≤ d) ∧ (∀ q ∈ inner, q = Parser.selectionSet (maxNesting - (d + 1))) ∧
    Parser.selectionSet (maxNesting - d) = (do
      let opening ← Parser.peek
      Parser.expect .braceOpen
      let set ← Parser.enter inner
      Parser.mapError (Parser.noteUnclosed opening)
        (Parser.someThrough .braceClose (Parser.selectionWith (maxNesting - (d + 1)) set))) := by
  by_cases h : d < maxNesting
  · have room : maxNesting - d = maxNesting - (d + 1) + 1 := by omega
    exact ⟨some (Parser.selectionSet (maxNesting - (d + 1))), by simpa using h, by simp, by rw [room]; rfl⟩
  · have full : maxNesting - d = 0 := by omega
    exact ⟨none, by simpa using h, by simp, by rw [full]; rfl⟩

namespace Tracks
variable {fuel d : Nat} {inBlock : Bool} {set : Descent SelectionSet} {inner : Parser SelectionSet} {s : TokenStream}

theorem field (h : ∀ s, Tracks fuel false [] set inner ⟨s, d⟩) :
    Tracks fuel false [] (Descent.field set fuel) (Parser.field (maxNesting - d) inner) ⟨s, d⟩ := by
  have rest (aliasName : Option String) (name : String) (s : TokenStream) : Tracks fuel false [] (do
      let arguments ← Descent.arguments fuel
      let directives ← Descent.directives fuel
      let selections ← if ← Descent.step (Parser.isAt .braceOpen) then Pure.pure (some (← set)) else Pure.pure none
      return Selection.field aliasName name arguments directives selections) (do
      let arguments ← Parser.arguments (maxNesting - d)
      let directives ← Parser.directives (maxNesting - d)
      let selections ← if ← Parser.isAt .braceOpen then Pure.pure (some (← inner)) else Pure.pure none
      return Selection.field aliasName name arguments directives selections) ⟨s, d⟩ :=
    arguments.bind fun _ _ _ => directives.bind fun _ s' _ =>
      isAt_bind (fun _ => (h s').bind fun _ _ _ => pure _) fun _ => pure _
  refine (step .expectName).bind fun first s' _ => (step (.accept rfl)).bind fun aliased s' _ => ?_
  cases aliased with
  | true => exact (step .expectName).bind fun name s' _ => rest (some first) name s'
  | false => exact rest none first s'

theorem selection (h : ∀ s, Tracks fuel false [] set inner ⟨s, d⟩) :
    Tracks fuel false [] (Descent.selection set fuel) (Parser.selectionWith (maxNesting - d) inner) ⟨s, d⟩ := by
  have inlineFragment (on : Option String) (s : TokenStream) : Tracks fuel false [] (do
      let directives ← Descent.directives fuel
      return Selection.inlineFragment on directives (← set)) (do
      let directives ← Parser.directives (maxNesting - d)
      return Selection.inlineFragment on directives (← inner)) ⟨s, d⟩ :=
    directives.bind fun _ s' _ => (h s').map _
  refine (step (.accept rfl)).bind fun ellipsis s' _ => ?_
  cases ellipsis with
  | true =>
    refine (step .acceptKeyword).bind fun conditioned s' _ => ?_
    cases conditioned with
    | true => exact (step .expectName).bind fun on s' _ => inlineFragment on s'
    | false =>
      apply peek_bind
      cases hn : s'.peek.name? with
      | none => exact inlineFragment none s'
      | some name => exact (step (.ofName hn rfl)).bind fun _ _ _ => directives.map _
  | false => exact field h

theorem selectionSet :
    Tracks fuel false [] (Descent.selectionSet fuel) (Parser.selectionSet (maxNesting - d)) ⟨s, d⟩ := by
  -- on the fuel, which every set inside lowers
  induction fuel generalizing s d with
  | zero => exact fun hs => absurd hs (Nat.not_lt_zero _)
  | succ fuel ih =>
    obtain ⟨inner, room, same, unfolds⟩ := selectionSet_cases d
    rw [unfolds]
    refine peek_bind (expect_bind fun hk => ?_)
    refine (level_bind (expect_of hk) hk rfl nofun room (fun q hq => ?_) fun _ _ => pure _).congr_bind
      (expect_of hk) rfl (by simp only [bind_pure]; rfl)
    rw [same q hq]
    have progress := Parser.Progress.selection (maxNesting - (d + 1))
    exact someThrough progress.mapError (Parser.mapError_someThrough progress)
      (fun _ => (selection fun _ => ih).mapError _) ⟨_, hk, rfl⟩

theorem variableDefinition :
    Tracks fuel false [] (Descent.variableDefinition fuel) (Parser.variableDefinition (maxNesting - d)) ⟨s, d⟩ :=
  (step (.expect rfl)).bind fun _ _ _ => (step .expectName).bind fun _ _ _ => (step (.expect rfl)).bind fun _ _ _ =>
    typeReference.bind fun _ _ _ => optionalDefault.bind fun _ _ _ => directives.map _

theorem variableDefinitions :
    Tracks fuel false [] (Descent.variableDefinitions fuel) (do
      Parser.expect .parenOpen
      Parser.someThrough .parenClose (Parser.variableDefinition (maxNesting - d))) ⟨s, d⟩ := by
  refine expect_bind fun hk => opening_bind (expect_of hk) hk rfl (fun _ => openLevels_paren hk) ?_
  have progress := Parser.Progress.variableDefinition (maxNesting - d)
  exact someThrough progress (Parser.someThrough_eq progress) (fun _ => variableDefinition) ⟨_, hk, rfl⟩

theorem operation : Tracks fuel false [] (Descent.operation fuel) (Parser.operation (maxNesting - d)) ⟨s, d⟩ := by
  have rest (type : OperationType) (name : Option String) (s : TokenStream) : Tracks fuel false [] (do
      let variableDefinitions ←
        if ← Descent.step (Parser.isAt .parenOpen) then Descent.variableDefinitions fuel else Pure.pure .nil
      let directives ← Descent.directives fuel
      return OperationDefinition.mk type name variableDefinitions directives (← Descent.selectionSet fuel)) (do
      let variableDefinitions ←
        Parser.optionalBlock .parenOpen .parenClose (Parser.variableDefinition (maxNesting - d))
      let directives ← Parser.directives (maxNesting - d)
      return OperationDefinition.mk type name variableDefinitions directives
        (← Parser.selectionSet (maxNesting - d))) ⟨s, d⟩ := by
    rw [Parser.optionalBlock_eq, bind_assoc]
    have behind (vars : IndexedList VariableDefinition) (s : TokenStream) : Tracks fuel false [] (do
        let directives ← Descent.directives fuel
        return OperationDefinition.mk type name vars directives (← Descent.selectionSet fuel)) (do
        let directives ← Parser.directives (maxNesting - d)
        return OperationDefinition.mk type name vars directives (← Parser.selectionSet (maxNesting - d))) ⟨s, d⟩ :=
      directives.bind fun _ _ _ => selectionSet.map _
    exact isAt_bind (fun _ => variableDefinitions.bind fun vars s' _ => behind vars s') fun _ => behind .nil s
  refine isAt_bind (fun _ => selectionSet.map _) fun _ => (step .operationType).bind fun type s' _ => ?_
  apply peek_bind
  cases hn : s'.peek.name? with
  | none => exact rest type none s'
  | some name => exact (step (.ofName hn rfl)).bind fun _ s'' _ => rest type (some name) s''

theorem fragment : Tracks fuel false [] (Descent.fragment fuel) (Parser.fragment (maxNesting - d)) ⟨s, d⟩ := by
  refine (step .expectKeyword).bind fun _ s' _ => ?_
  have rest (s : TokenStream) : Tracks fuel false [] (do
      let name ← Descent.step Parser.expectName
      Descent.step (Parser.expectKeyword "on")
      let typeCondition ← Descent.step Parser.expectName
      let directives ← Descent.directives fuel
      return FragmentDefinition.mk name typeCondition directives (← Descent.selectionSet fuel)) (do
      let name ← Parser.expectName
      Parser.expectKeyword "on"
      let typeCondition ← Parser.expectName
      let directives ← Parser.directives (maxNesting - d)
      return FragmentDefinition.mk name typeCondition directives (← Parser.selectionSet (maxNesting - d))) ⟨s, d⟩ :=
    (step .expectName).bind fun _ _ _ => (step .expectKeyword).bind fun _ _ _ => (step .expectName).bind fun _ _ _ =>
      directives.bind fun _ _ _ => selectionSet.map _
  refine look_bind rfl ?_
  cases s'.peek.isKeyword "on" with
  | true => exact ((unexpected.mapError _).bind fun _ s'' _ => rest s'')
  | false => exact rest s'

end Tracks
end Descent
end GraphQL
