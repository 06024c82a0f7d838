import GraphQL.Parser.Descent.TypeSystem
import GraphQL.Proofs.Parser.Descent.Value

/-! Definitions and extensions of the type system in a descent. Their outermost brackets are no levels. -/
namespace GraphQL.Descent.Tracks
open GraphQL.Parser (Progress expect_of maxNesting)
variable {α : Type} {fuel d : Nat} {inBlock : Bool} {description : Option StringValue} {s : TokenStream}

theorem rootOperation : Tracks fuel inBlock [] Descent.rootOperation Parser.rootOperation ⟨s, d⟩ :=
  (step .operationType).bind fun _ _ _ => (step (.expect rfl)).bind fun _ _ _ => (step .expectName).map _

theorem inputValueDefinition :
    Tracks fuel false [] (Descent.inputValueDefinition fuel) (Parser.inputValueDefinition (maxNesting - d)) ⟨s, d⟩ :=
  (step .optionalDescription).bind fun _ _ _ => (step .expectName).bind fun _ _ _ =>
    (step (.expect rfl)).bind fun _ _ _ => typeReference.bind fun _ _ _ => optionalDefault.bind fun _ _ _ =>
      directives.map _

/-- The definitions of arguments stand in parentheses. -/
theorem argumentDefinitions :
    Tracks fuel inBlock [] (Descent.argumentDefinitions fuel) (Parser.argumentDefinitions (maxNesting - d)) ⟨s, d⟩ :=
  optionalBlock (.inputValueDefinition _) rfl (fun _ _ => openLevels_paren) fun _ => inputValueDefinition

theorem fieldDefinition :
    Tracks fuel false [] (Descent.fieldDefinition fuel) (Parser.fieldDefinition (maxNesting - d)) ⟨s, d⟩ :=
  (step .optionalDescription).bind fun _ _ _ => (step .expectName).bind fun _ _ _ =>
    argumentDefinitions.bind fun _ _ _ => (step (.expect rfl)).bind fun _ _ _ => typeReference.bind fun _ _ _ =>
      directives.map _

theorem enumValueDefinition :
    Tracks fuel false [] (Descent.enumValueDefinition fuel) (Parser.enumValueDefinition (maxNesting - d)) ⟨s, d⟩ :=
  (step .optionalDescription).bind fun _ _ _ => (step .refuseReservedEnumValue).bind fun _ _ _ =>
    (step .expectName).bind fun _ _ _ => directives.map _

/-- The block of a definition. -/
theorem block {item : Nat → Descent α} {q : Parser α} (progress : Progress q)
    (h : ∀ s, Tracks fuel false [] (item fuel) q ⟨s, d⟩) :
    Tracks fuel true [] (Descent.block item fuel) (Parser.optionalBlock .braceOpen .braceClose q) ⟨s, d⟩ :=
  optionalBlock progress rfl (fun _ _ _ => openLevels_block) h

theorem fields : Tracks fuel true [] (Descent.block Descent.fieldDefinition fuel)
    (Parser.optionalBlock .braceOpen .braceClose (Parser.fieldDefinition (maxNesting - d))) ⟨s, d⟩ :=
  block (.fieldDefinition _) fun _ => fieldDefinition

theorem inputFields : Tracks fuel true [] (Descent.block Descent.inputValueDefinition fuel)
    (Parser.optionalBlock .braceOpen .braceClose (Parser.inputValueDefinition (maxNesting - d))) ⟨s, d⟩ :=
  block (.inputValueDefinition _) fun _ => inputValueDefinition

theorem enumValues : Tracks fuel true [] (Descent.block Descent.enumValueDefinition fuel)
    (Parser.optionalBlock .braceOpen .braceClose (Parser.enumValueDefinition (maxNesting - d))) ⟨s, d⟩ :=
  block (.enumValueDefinition _) fun _ => enumValueDefinition

theorem schema (isExtension : Bool) : Tracks fuel true [] (Descent.schema description isExtension fuel)
    (Parser.schema (maxNesting - d) description isExtension) ⟨s, d⟩ := by
  refine (step .expectKeyword).bind fun _ _ _ => directives.bind fun _ _ _ => ?_
  cases isExtension with
  | true => exact (optionalBlock .rootOperation rfl (fun _ _ _ => openLevels_block) fun _ => rootOperation).map _
  | false =>
    refine expect_bind fun hk => opening_bind (expect_of hk) hk rfl (fun _ => openLevels_block) (.map ?_ _)
    exact someThrough .rootOperation (Parser.someThrough_eq .rootOperation) (fun _ => rootOperation) ⟨_, hk, rfl⟩

theorem interfaces : Tracks fuel inBlock [] (Descent.interfaces fuel) Parser.interfaces ⟨s, d⟩ := by
  refine (step .acceptKeyword).bind fun given s' _ => ?_
  cases given with
  | true => exact someSeparated .namedType rfl fun _ => namedType
  | false => exact pure _

theorem unionMembers : Tracks fuel inBlock [] (Descent.unionMembers fuel) Parser.unionMembers ⟨s, d⟩ := by
  refine (step (.accept rfl)).bind fun given s' _ => ?_
  cases given with
  | true => exact someSeparated .namedType rfl fun _ => namedType
  | false => exact pure _

theorem typeDefinition (kind : TypeKind) : Tracks fuel true [] (Descent.typeDefinition kind description fuel)
    (Parser.typeDefinition (maxNesting - d) kind description) ⟨s, d⟩ := by
  refine (step .expectKeyword).bind fun _ _ _ => (step .expectName).bind fun name s' _ => ?_
  cases kind with
  | scalar => exact directives.map _
  | object => exact interfaces.bind fun _ _ _ => directives.bind fun _ _ _ => fields.map _
  | interface => exact interfaces.bind fun _ _ _ => directives.bind fun _ _ _ => fields.map _
  | union => exact directives.bind fun _ _ _ => unionMembers.map _
  | enum => exact directives.bind fun _ _ _ => enumValues.map _
  | inputObject => exact directives.bind fun _ _ _ => inputFields.map _

theorem directiveDefinition : Tracks fuel true [] (Descent.directiveDefinition description fuel)
    (Parser.directiveDefinition (maxNesting - d) description) ⟨s, d⟩ :=
  (step .expectKeyword).bind fun _ _ _ => (step (.expect rfl)).bind fun _ _ _ => (step .expectName).bind fun _ _ _ =>
    argumentDefinitions.bind fun _ _ _ => (step .acceptKeyword).bind fun _ _ _ =>
      (step .expectKeyword).bind fun _ _ _ =>
        (someSeparated .directiveLocation rfl fun _ => step .directiveLocation).map _

end GraphQL.Descent.Tracks
