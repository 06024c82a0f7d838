import GraphQL.Parser.Descent.Executable
import GraphQL.Parser.TypeSystem

/-! Definitions and extensions of the type system. -/
namespace GraphQL.Descent
open GraphQL.Parser (accept acceptKeyword expect expectKeyword expectName operationType optionalDescription
  refuseReservedEnumValue directiveLocation)

def rootOperation : Descent RootOperation := do
  let type ← step operationType
  step (expect .colon)
  return ⟨type, ← step expectName⟩

/-- A schema from its keyword on. Only an extension may leave out the root operations. -/
def schema (description : Option StringValue) (isExtension : Bool) (fuel : Nat) : Descent SchemaDefinition := do
  step (expectKeyword "schema")
  let directives ← directives fuel
  if isExtension then
    return ⟨description, directives, ← optionalBlock .braceOpen .braceClose rootOperation fuel⟩
  step (expect .braceOpen)
  return ⟨description, directives, ← someThrough .braceClose rootOperation fuel⟩

def inputValueDefinition (fuel : Nat) : Descent InputValueDefinition := do
  let description ← step optionalDescription
  let name ← step expectName
  step (expect .colon)
  let type ← typeReference fuel
  let defaultValue ← optionalDefault fuel
  return ⟨description, name, type, defaultValue, ← directives fuel⟩

def argumentDefinitions (fuel : Nat) : Descent (IndexedList InputValueDefinition) :=
  optionalBlock .parenOpen .parenClose (inputValueDefinition fuel) fuel

def fieldDefinition (fuel : Nat) : Descent FieldDefinition := do
  let description ← step optionalDescription
  let name ← step expectName
  let arguments ← argumentDefinitions fuel
  step (expect .colon)
  let type ← typeReference fuel
  return ⟨description, name, arguments, type, ← directives fuel⟩

def enumValueDefinition (fuel : Nat) : Descent EnumValueDefinition := do
  let description ← step optionalDescription
  step refuseReservedEnumValue
  let name ← step expectName
  return ⟨description, name, ← directives fuel⟩

/-- What a definition of the type system has in braces, or nothing. -/
def block {α : Type} (item : Nat → Descent α) (fuel : Nat) : Descent (IndexedList α) :=
  optionalBlock .braceOpen .braceClose (item fuel) fuel

/-- The interfaces behind their keyword, or none at all. -/
def interfaces (fuel : Nat) : Descent (IndexedList TypeReference) := do
  if ← step (acceptKeyword "implements") then someSeparated .ampersand namedType fuel else return .nil

/-- The members behind an equals sign, or none at all. -/
def unionMembers (fuel : Nat) : Descent (IndexedList TypeReference) := do
  if ← step (accept .equals) then someSeparated .pipe namedType fuel else return .nil

/-- A type from its keyword on. -/
def typeDefinition (kind : TypeKind) (description : Option StringValue) (fuel : Nat) : Descent TypeDefinition := do
  step (expectKeyword kind.keyword)
  let name ← step expectName
  match kind with
  | .scalar => return ⟨description, name, ← directives fuel, .scalar⟩
  | .object =>
    let interfaces ← interfaces fuel
    let directives ← directives fuel
    return ⟨description, name, directives, .object interfaces (← block fieldDefinition fuel)⟩
  | .interface =>
    let interfaces ← interfaces fuel
    let directives ← directives fuel
    return ⟨description, name, directives, .interface interfaces (← block fieldDefinition fuel)⟩
  | .union =>
    let directives ← directives fuel
    return ⟨description, name, directives, .union (← unionMembers fuel)⟩
  | .enum =>
    let directives ← directives fuel
    return ⟨description, name, directives, .enum (← block enumValueDefinition fuel)⟩
  | .inputObject =>
    let directives ← directives fuel
    return ⟨description, name, directives, .inputObject (← block inputValueDefinition fuel)⟩

def directiveDefinition (description : Option StringValue) (fuel : Nat) : Descent DirectiveDefinition := do
  step (expectKeyword "directive")
  step (expect .atSign)
  let name ← step expectName
  let arguments ← argumentDefinitions fuel
  let repeatable ← step (acceptKeyword "repeatable")
  step (expectKeyword "on")
  return ⟨description, name, arguments, repeatable, ← someSeparated .pipe (step directiveLocation) fuel⟩

end GraphQL.Descent
