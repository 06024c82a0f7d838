import GraphQL.Parser.Document
import GraphQL.Proofs.Parser.Conforms.Basic
import GraphQL.Proofs.Parser.Raises

/-! A law for errors holds of all errors of documents, from the values they hold on. -/
namespace GraphQL
namespace Parser.Raises
variable {α : Type} {Q : SyntaxError → Token → Prop} (law : SyntaxError.IsLaw Q)
include law

theorem named {value : Parser α} (h : Raises Q value) : Raises Q (named value) :=
  .bind (expectName law) fun _ => .bind (expect law .colon) fun _ => .map h _

theorem valueWith {inner : Option (Parser Value)} (h : ∀ p ∈ inner, Raises Q p) : Raises Q (valueWith inner) := by
  refine .peek fun t => ?_
  split
  · exact .bind advance fun _ => .map (expectName law) _
  · exact .bind advance fun _ => pure _
  · exact .bind advance fun _ => pure _
  · exact .bind advance fun _ => pure _
  · exact .bind advance fun _ => pure _
  · exact .bind advance fun _ => pure _
  · exact .bind advance fun _ => enter law h fun _ inner => .map (manyThrough law _ inner) _
  · exact .bind advance fun _ => enter law h fun _ inner => .map (manyThrough law _ (named law inner)) _
  · exact unexpected law _

theorem value (room : Nat) : Raises Q (value room) := by
  induction room with
  | zero => exact valueWith law (by simp)
  | succ room ih => exact valueWith law (by simpa using ih)

theorem optionalDefault (room : Nat) : Raises Q (optionalDefault room) :=
  .bind (accept .equals) fun _ => .ite (.map (value law room) _) (pure _)

theorem arguments (room : Nat) : Raises Q (arguments room) := optionalBlock law _ _ (named law (value law room))

theorem directives (room : Nat) : Raises Q (directives room) :=
  manyAfter _ (.bind (expectName law) fun _ => .map (arguments law room) _)

theorem typeReferenceWith {inner : Option (Parser TypeReference)} (h : ∀ p ∈ inner, Raises Q p) :
    Raises Q (typeReferenceWith inner) :=
  .bind (accept .bracketOpen) fun _ => .ite
    (enter law h fun _ inner => .bind inner fun _ => .bind (expect law .bracketClose) fun _ => .map (accept .bang) _)
    (.bind (expectName law) fun _ => .map (accept .bang) _)

theorem typeReference (room : Nat) : Raises Q (typeReference room) := by
  induction room with
  | zero => exact typeReferenceWith law (by simp)
  | succ room ih => exact typeReferenceWith law (by simpa using ih)

theorem namedType : Raises Q namedType := .map (expectName law) _

theorem selectionWith (room : Nat) {inner : Parser SelectionSet} (h : Raises Q inner) :
    Raises Q (selectionWith room inner) := by
  have inlineFragment (on : Option String) : Raises Q (do
      let directives ← Parser.directives room
      return Selection.inlineFragment on directives (← inner)) := .bind (directives law room) fun _ => .map h _
  refine .bind (accept .ellipsis) fun _ => .ite ?_ (.bind (expectName law) fun first => ?_)
  · refine .bind (acceptKeyword "on") fun _ => .ite (.bind (expectName law) fun on => inlineFragment on) ?_
    refine .peek fun t => ?_
    split
    · exact .bind advance fun _ => .map (directives law room) _
    · exact inlineFragment none
  · have field (aliasName : Option String) (name : String) : Raises Q (do
        let arguments ← Parser.arguments room
        let directives ← Parser.directives room
        let selections ← if ← Parser.isAt .braceOpen then Pure.pure (some (← inner)) else Pure.pure none
        return Selection.field aliasName name arguments directives selections) :=
      .bind (arguments law room) fun _ => .bind (directives law room) fun _ => .bind (isAt .braceOpen) fun _ =>
        .ite (.bind h fun _ => pure _) (pure _)
    refine .bind (accept .colon) fun _ => .ite (.bind (expectName law) fun name => ?_) ?_
    · exact field (some first) name
    · exact field none first

theorem selectionSet (room : Nat) : Raises Q (selectionSet room) := by
  induction room with
  | zero => exact .bind (expect law .braceOpen) fun _ => nestingExceeded law
  | succ room ih =>
    refine .peek fun opening => .bind (expect law .braceOpen) fun _ => ?_
    exact .mapError (someThrough law .braceClose (selectionWith law room ih)) fun e t => law.unclosed e t opening

theorem operationType : Raises Q operationType := by
  refine .peek fun t => ?_
  split
  · exact .bind advance fun _ => pure _
  · exact unexpected law _

theorem variableDefinition (room : Nat) : Raises Q (variableDefinition room) :=
  .bind (expect law .dollar) fun _ => .bind (expectName law) fun _ => .bind (expect law .colon) fun _ =>
    .bind (typeReference law room) fun _ => .bind (optionalDefault law room) fun _ => .map (directives law room) _

theorem operation (room : Nat) : Raises Q (operation room) := by
  refine .bind (isAt .braceOpen) fun _ =>
    .ite (.map (selectionSet law room) _) (.bind (operationType law) fun type => ?_)
  have rest (name : Option String) : Raises Q (do
      let variableDefinitions ← Parser.optionalBlock .parenOpen .parenClose (Parser.variableDefinition room)
      let directives ← Parser.directives room
      return OperationDefinition.mk type name variableDefinitions directives (← Parser.selectionSet room)) :=
    .bind (optionalBlock law _ _ (variableDefinition law room)) fun _ => .bind (directives law room) fun _ =>
      .map (selectionSet law room) _
  refine .peek fun t => ?_
  exact .ite (.bind advance fun _ => rest _) (rest _)

theorem fragment (room : Nat) : Raises Q (fragment room) := by
  have rest : Raises Q (do
      let name ← Parser.expectName
      Parser.expectKeyword "on"
      let typeCondition ← Parser.expectName
      let directives ← Parser.directives room
      return FragmentDefinition.mk name typeCondition directives (← Parser.selectionSet room)) :=
    .bind (expectName law) fun _ => .bind (expectKeyword law "on") fun _ => .bind (expectName law) fun _ =>
      .bind (directives law room) fun _ => .map (selectionSet law room) _
  refine .bind (expectKeyword law "fragment") fun _ => .bind (isAtKeyword "on") fun _ => .ite ?_ rest
  exact .bind (mapError (unexpected law _) fun e t => law.helped e t _) fun _ => rest

omit law in
theorem optionalDescription : Raises Q optionalDescription := by
  refine .peek fun t => ?_
  split
  · exact .bind advance fun _ => pure _
  · exact .bind advance fun _ => pure _
  · exact pure _

theorem rootOperation : Raises Q rootOperation :=
  .bind (operationType law) fun _ => .bind (expect law .colon) fun _ => .map (expectName law) _

theorem schema (room : Nat) (description : Option StringValue) (isExtension : Bool) :
    Raises Q (schema room description isExtension) :=
  .bind (expectKeyword law "schema") fun _ => .bind (directives law room) fun _ => .ite
    (.map (optionalBlock law _ _ (rootOperation law)) _)
    (.bind (expect law .braceOpen) fun _ => .map (someThrough law _ (rootOperation law)) _)

theorem inputValueDefinition (room : Nat) : Raises Q (inputValueDefinition room) :=
  .bind optionalDescription fun _ => .bind (expectName law) fun _ => .bind (expect law .colon) fun _ =>
    .bind (typeReference law room) fun _ => .bind (optionalDefault law room) fun _ => .map (directives law room) _

theorem argumentDefinitions (room : Nat) : Raises Q (argumentDefinitions room) :=
  optionalBlock law _ _ (inputValueDefinition law room)

theorem fieldDefinition (room : Nat) : Raises Q (fieldDefinition room) :=
  .bind optionalDescription fun _ => .bind (expectName law) fun _ => .bind (argumentDefinitions law room) fun _ =>
    .bind (expect law .colon) fun _ => .bind (typeReference law room) fun _ => .map (directives law room) _

theorem refuseReservedEnumValue : Raises Q refuseReservedEnumValue := by
  intro s e s' run
  rw [Parser.refuseReservedEnumValue, peek_run] at run
  cases hn : s.peek.name? with
  | none =>
    rw [hn] at run
    cases run
  | some name =>
    rw [hn] at run
    dsimp only at run
    split at run
    · cases run
      exact law.reserved _ _ _ _ hn
    · cases run

theorem enumValueDefinition (room : Nat) : Raises Q (enumValueDefinition room) :=
  .bind optionalDescription fun _ => .bind (refuseReservedEnumValue law) fun _ => .bind (expectName law) fun _ =>
    .map (directives law room) _

theorem interfaces : Raises Q interfaces :=
  .bind (acceptKeyword "implements") fun _ => .ite (someSeparated _ (namedType law)) (pure _)

theorem unionMembers : Raises Q unionMembers :=
  .bind (accept .equals) fun _ => .ite (someSeparated _ (namedType law)) (pure _)

theorem typeDefinition (room : Nat) (kind : TypeKind) (description : Option StringValue) :
    Raises Q (typeDefinition room kind description) := by
  refine .bind (expectKeyword law kind.keyword) fun _ => .bind (expectName law) fun _ => ?_
  have fields := optionalBlock law .braceOpen .braceClose (fieldDefinition law room)
  cases kind with
  | scalar => exact .map (directives law room) _
  | object => exact .bind (interfaces law) fun _ => .bind (directives law room) fun _ => .map fields _
  | interface => exact .bind (interfaces law) fun _ => .bind (directives law room) fun _ => .map fields _
  | union => exact .bind (directives law room) fun _ => .map (unionMembers law) _
  | enum => exact .bind (directives law room) fun _ => .map (optionalBlock law _ _ (enumValueDefinition law room)) _
  | inputObject =>
    exact .bind (directives law room) fun _ => .map (optionalBlock law _ _ (inputValueDefinition law room)) _

theorem directiveLocation : Raises Q directiveLocation := by
  refine .peek fun t => ?_
  split
  · exact .bind advance fun _ => pure _
  · exact mapError (unexpected law _) fun e t => law.helped e t _

theorem directiveDefinition (room : Nat) (description : Option StringValue) :
    Raises Q (directiveDefinition room description) :=
  .bind (expectKeyword law "directive") fun _ => .bind (expect law .atSign) fun _ => .bind (expectName law) fun _ =>
    .bind (argumentDefinitions law room) fun _ => .bind (acceptKeyword "repeatable") fun _ =>
      .bind (expectKeyword law "on") fun _ => .map (someSeparated _ (directiveLocation law)) _

theorem typeSystemDefinition (room : Nat) (description : Option StringValue) :
    Raises Q (typeSystemDefinition room description) := by
  refine .peek fun t => ?_
  refine .ite (.map (schema law room description false) _) (.ite (.map (directiveDefinition law room description) _) ?_)
  split
  · exact .map (typeDefinition law room _ description) _
  · exact .ite (mapError (unexpected law _) law.undescribed) (unexpected law _)

theorem extension (room : Nat) : Raises Q (extension room) := by
  refine .bind (expectKeyword law "extend") fun _ => .peek fun t => .ite ?_ ?_
  · exact .bind (schema law room none true) fun _ => .ite (.bind (unexpected law _) fun _ => pure _) (pure _)
  · split
    · exact .bind (typeDefinition law room _ none) fun _ => .ite (.bind (unexpected law _) fun _ => pure _) (pure _)
    · exact unexpected law _

theorem definition (room : Nat) : Raises Q (definition room) := by
  have operation : Raises Q (Parser.operation room >>= fun o => Pure.pure (Definition.executable (.operation o))) :=
    .map (operation law room) _
  have described : Raises Q (Parser.optionalDescription >>= fun description =>
      Parser.typeSystemDefinition room description >>= fun d => Pure.pure (Definition.typeSystem d)) :=
    .bind optionalDescription fun description => .map (typeSystemDefinition law room description) _
  refine .peek fun t => ?_
  split
  · exact operation
  · exact described
  · exact described
  · split
    · exact operation
    · exact operation
    · exact operation
    · exact .map (fragment law room) _
    · exact .map (extension law room) _
    · exact .map (typeSystemDefinition law room none) _
  · exact unexpected law _

theorem document : Raises Q document :=
  .bind (definition law _) fun _ => .map (manyToEnd (definition law _)) _

end Parser.Raises
end GraphQL
