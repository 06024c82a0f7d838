import GraphQL.Parser.Document
import GraphQL.Proofs.Parser.Placeless

/-! Documents are parsed without regard to places, from the values they hold on. -/
namespace GraphQL
namespace Parser.Placeless
variable {α : Type}

theorem named {value : Parser α} (h : Placeless value) : Placeless (named value) :=
  .bind expectName fun _ => .bind (expect .colon) fun _ => .map h _

theorem valueWith {inner : Option (Parser Value)} (h : ∀ p ∈ inner, Placeless p) : Placeless (valueWith inner) := by
  refine .peek (fun _ _ _ _ _ _ => rfl) fun t => ?_
  split
  · exact .bind advance fun _ => .map expectName _
  · exact .bind advance fun _ => pure _
  · exact .bind advance fun _ => pure _
  · exact .bind advance fun _ => pure _
  · exact .bind advance fun _ => pure _
  · exact .bind advance fun _ => pure _
  · exact .bind advance fun _ => .enter h fun _ inner => .map (manyThrough _ inner) _
  · exact .bind advance fun _ => .enter h fun _ inner => .map (manyThrough _ (named inner)) _
  · exact unexpected _

theorem value (room : Nat) : Placeless (value room) := by
  induction room with
  | zero => exact valueWith (by simp)
  | succ room ih => exact valueWith (by simpa using ih)

theorem optionalDefault (room : Nat) : Placeless (optionalDefault room) :=
  .bind (accept .equals) fun _ => .ite (.map (value room) _) (pure _)

theorem arguments (room : Nat) : Placeless (arguments room) := optionalBlock _ _ (named (value room))

theorem directives (room : Nat) : Placeless (directives room) :=
  manyAfter _ (.bind expectName fun _ => .map (arguments room) _)

theorem typeReferenceWith {inner : Option (Parser TypeReference)} (h : ∀ p ∈ inner, Placeless p) :
    Placeless (typeReferenceWith inner) :=
  .bind (accept .bracketOpen) fun _ => .ite
    (.enter h fun _ inner => .bind inner fun _ => .bind (expect .bracketClose) fun _ => .map (accept .bang) _)
    (.bind expectName fun _ => .map (accept .bang) _)

theorem typeReference (room : Nat) : Placeless (typeReference room) := by
  induction room with
  | zero => exact typeReferenceWith (by simp)
  | succ room ih => exact typeReferenceWith (by simpa using ih)

theorem namedType : Placeless namedType := .map expectName _

theorem selectionWith (room : Nat) {inner : Parser SelectionSet} (h : Placeless inner) :
    Placeless (selectionWith room inner) := by
  have inlineFragment (on : Option String) : Placeless (do
      let directives ← Parser.directives room
      return Selection.inlineFragment on directives (← inner)) := .bind (directives room) fun _ => .map h _
  refine .bind (accept .ellipsis) fun _ => .ite ?_ (.bind expectName fun first => ?_)
  · refine .bind (acceptKeyword "on") fun _ => .ite (.bind expectName fun on => inlineFragment on) ?_
    refine .peek (fun _ _ _ _ _ _ => rfl) fun t => ?_
    split
    · exact .bind advance fun _ => .map (directives room) _
    · exact inlineFragment none
  · have field (aliasName : Option String) (name : String) : Placeless (do
        let arguments ← Parser.arguments room
        let directives ← Parser.directives room
        let selections ← if ← Parser.isAt .braceOpen then Pure.pure (some (← inner)) else Pure.pure none
        return Selection.field aliasName name arguments directives selections) :=
      .bind (arguments room) fun _ => .bind (directives room) fun _ => .bind (isAt .braceOpen) fun _ =>
        .ite (.bind h fun _ => pure _) (pure _)
    refine .bind (accept .colon) fun _ => .ite (.bind expectName fun name => ?_) ?_
    · exact field (some first) name
    · exact field none first

theorem selectionSet (room : Nat) : Placeless (selectionSet room) := by
  induction room with
  | zero => exact .bind (expect .braceOpen) fun _ => nestingExceeded
  | succ room ih =>
    have kept (opening : Token) (e : SyntaxError) : (noteUnclosed opening e).kind = e.kind := by
      unfold noteUnclosed
      split <;> rfl
    -- the note on an unclosed set tells the place of its brace, so here the runs differ in more than their tokens
    refine Alike.peek fun t u _ => .bind (expect .braceOpen) fun _ => ?_
    exact .mapError (someThrough .braceClose (selectionWith room ih)) (kept t) (kept u)

theorem operationType : Placeless operationType := by
  refine .peek (fun _ _ _ _ _ _ => rfl) fun t => ?_
  split
  · exact .bind advance fun _ => pure _
  · exact unexpected _

theorem variableDefinition (room : Nat) : Placeless (variableDefinition room) :=
  .bind (expect .dollar) fun _ => .bind expectName fun _ => .bind (expect .colon) fun _ =>
    .bind (typeReference room) fun _ => .bind (optionalDefault room) fun _ => .map (directives room) _

theorem operation (room : Nat) : Placeless (operation room) := by
  refine .bind (isAt .braceOpen) fun _ => .ite (.map (selectionSet room) _) (.bind operationType fun type => ?_)
  have rest (name : Option String) : Placeless (do
      let variableDefinitions ← Parser.optionalBlock .parenOpen .parenClose (Parser.variableDefinition room)
      let directives ← Parser.directives room
      return OperationDefinition.mk type name variableDefinitions directives (← Parser.selectionSet room)) :=
    .bind (optionalBlock _ _ (variableDefinition room)) fun _ => .bind (directives room) fun _ =>
      .map (selectionSet room) _
  refine .peek (fun _ _ _ _ _ _ => rfl) fun t => ?_
  exact .ite (.bind advance fun _ => rest _) (rest _)

theorem fragment (room : Nat) : Placeless (fragment room) := by
  have rest : Placeless (do
      let name ← Parser.expectName
      Parser.expectKeyword "on"
      let typeCondition ← Parser.expectName
      let directives ← Parser.directives room
      return FragmentDefinition.mk name typeCondition directives (← Parser.selectionSet room)) :=
    .bind expectName fun _ => .bind (expectKeyword "on") fun _ => .bind expectName fun _ =>
      .bind (directives room) fun _ => .map (selectionSet room) _
  refine .bind (expectKeyword "fragment") fun _ => .bind (isAtKeyword "on") fun _ => .ite ?_ rest
  exact .bind (mapError (unexpected _) fun _ => rfl) fun _ => rest

theorem optionalDescription : Placeless optionalDescription := by
  refine .peek (fun _ _ _ _ _ _ => rfl) fun t => ?_
  split
  · exact .bind advance fun _ => pure _
  · exact .bind advance fun _ => pure _
  · exact pure _

theorem rootOperation : Placeless rootOperation :=
  .bind operationType fun _ => .bind (expect .colon) fun _ => .map expectName _

theorem schema (room : Nat) (description : Option StringValue) (isExtension : Bool) :
    Placeless (schema room description isExtension) :=
  .bind (expectKeyword "schema") fun _ => .bind (directives room) fun _ => .ite
    (.map (optionalBlock _ _ rootOperation) _)
    (.bind (expect .braceOpen) fun _ => .map (someThrough _ rootOperation) _)

theorem inputValueDefinition (room : Nat) : Placeless (inputValueDefinition room) :=
  .bind optionalDescription fun _ => .bind expectName fun _ => .bind (expect .colon) fun _ =>
    .bind (typeReference room) fun _ => .bind (optionalDefault room) fun _ => .map (directives room) _

theorem argumentDefinitions (room : Nat) : Placeless (argumentDefinitions room) :=
  optionalBlock _ _ (inputValueDefinition room)

theorem fieldDefinition (room : Nat) : Placeless (fieldDefinition room) :=
  .bind optionalDescription fun _ => .bind expectName fun _ => .bind (argumentDefinitions room) fun _ =>
    .bind (expect .colon) fun _ => .bind (typeReference room) fun _ => .map (directives room) _

theorem refuseReservedEnumValue : Placeless refuseReservedEnumValue := by
  -- the error has the place of the name, but its kind has not
  refine Alike.peek fun t u same => ?_
  have found := Token.found_of_content same
  rw [← Token.name?_of_content same]
  cases t.name? with
  | none => exact pure _
  | some name =>
    dsimp only
    split
    · exact .throw (by simp [SyntaxError.withWidth, SyntaxError.new, found])
    · exact pure _

theorem enumValueDefinition (room : Nat) : Placeless (enumValueDefinition room) :=
  .bind optionalDescription fun _ => .bind refuseReservedEnumValue fun _ => .bind expectName fun _ =>
    .map (directives room) _

theorem interfaces : Placeless interfaces :=
  .bind (acceptKeyword "implements") fun _ => .ite (someSeparated _ namedType) (pure _)

theorem unionMembers : Placeless unionMembers :=
  .bind (accept .equals) fun _ => .ite (someSeparated _ namedType) (pure _)

theorem typeDefinition (room : Nat) (kind : TypeKind) (description : Option StringValue) :
    Placeless (typeDefinition room kind description) := by
  refine .bind (expectKeyword kind.keyword) fun _ => .bind expectName fun _ => ?_
  cases kind with
  | scalar => exact .map (directives room) _
  | object =>
    exact .bind interfaces fun _ => .bind (directives room) fun _ => .map (optionalBlock _ _ (fieldDefinition room)) _
  | interface =>
    exact .bind interfaces fun _ => .bind (directives room) fun _ => .map (optionalBlock _ _ (fieldDefinition room)) _
  | union => exact .bind (directives room) fun _ => .map unionMembers _
  | enum => exact .bind (directives room) fun _ => .map (optionalBlock _ _ (enumValueDefinition room)) _
  | inputObject => exact .bind (directives room) fun _ => .map (optionalBlock _ _ (inputValueDefinition room)) _

theorem directiveLocation : Placeless directiveLocation := by
  refine .peek (fun _ _ _ _ _ _ => rfl) fun t => ?_
  split
  · exact .bind advance fun _ => pure _
  · exact mapError (unexpected _) fun _ => rfl

theorem directiveDefinition (room : Nat) (description : Option StringValue) :
    Placeless (directiveDefinition room description) :=
  .bind (expectKeyword "directive") fun _ => .bind (expect .atSign) fun _ => .bind expectName fun _ =>
    .bind (argumentDefinitions room) fun _ => .bind (acceptKeyword "repeatable") fun _ =>
      .bind (expectKeyword "on") fun _ => .map (someSeparated _ directiveLocation) _

theorem typeSystemDefinition (room : Nat) (description : Option StringValue) :
    Placeless (typeSystemDefinition room description) := by
  refine .peek (fun _ _ _ _ _ _ => rfl) fun t => ?_
  refine .ite (.map (schema room description false) _) (.ite (.map (directiveDefinition room description) _) ?_)
  split
  · exact .map (typeDefinition room _ description) _
  · exact .ite (mapError (unexpected _) fun _ => rfl) (unexpected _)

theorem extension (room : Nat) : Placeless (extension room) := by
  refine .bind (expectKeyword "extend") fun _ => .peek (fun _ _ _ _ _ _ => rfl) fun t => .ite ?_ ?_
  · exact .bind (schema room none true) fun _ => .ite (.bind (unexpected _) fun _ => pure _) (pure _)
  · split
    · exact .bind (typeDefinition room _ none) fun _ => .ite (.bind (unexpected _) fun _ => pure _) (pure _)
    · exact unexpected _

theorem definition (room : Nat) : Placeless (definition room) := by
  have operation : Placeless (Parser.operation room >>= fun o => Pure.pure (Definition.executable (.operation o))) :=
    .map (operation room) _
  have described : Placeless (Parser.optionalDescription >>= fun description =>
      Parser.typeSystemDefinition room description >>= fun d => Pure.pure (Definition.typeSystem d)) :=
    .bind optionalDescription fun description => .map (typeSystemDefinition room description) _
  refine .peek (fun _ _ _ _ _ _ => rfl) fun t => ?_
  split
  · exact operation
  · exact described
  · exact described
  · split
    · exact operation
    · exact operation
    · exact operation
    · exact .map (fragment room) _
    · exact .map (extension room) _
    · exact .map (typeSystemDefinition room none) _
  · exact unexpected _

theorem document : Placeless document :=
  .bind (definition _) fun _ => .map (manyToEnd (definition _)) _

end Parser.Placeless

/-- Tokens that differ in places only are parsed as the same document, or give the same kind of error. -/
theorem parseTokens_of_contents {tokens others : List Token} (h : tokens.map Token.content = others.map Token.content) :
    (parseTokens tokens).mapError SyntaxError.kind = (parseTokens others).mapError SyntaxError.kind := by
  have shown (tokens : List Token) : (parseTokens tokens).mapError SyntaxError.kind =
      (Parser.outcome (Parser.document (.ofTokens tokens))).1 := by
    unfold parseTokens
    cases Parser.document (.ofTokens tokens) <;> rfl
  have same := Parser.Placeless.document (.ofTokens tokens) (.ofTokens others) h
  rw [shown, shown, same]

end GraphQL
