import GraphQL.Parser.Executable
import GraphQL.TypeSystem

/-! Definitions and extensions of the type system. -/
namespace GraphQL.Parser

/-- A string in front of what it describes, or nothing. -/
def optionalDescription : Parser (Option StringValue) := do
  let t ← peek
  match t.kind with
  | .string =>
    advance
    return some ⟨t.literal, false⟩
  | .blockString =>
    advance
    return some ⟨t.literal, true⟩
  | _ => return none

def rootOperation : Parser RootOperation := do
  let type ← operationType
  expect .colon
  return ⟨type, ← expectName⟩

/-- A schema from its keyword on. Only an extension may leave out the root operations. -/
def schema (room : Nat) (description : Option StringValue) (isExtension : Bool) :
    Parser SchemaDefinition := do
  expectKeyword "schema"
  let directives ← directives room
  if isExtension then
    return ⟨description, directives, ← optionalBlock .braceOpen .braceClose rootOperation⟩
  expect .braceOpen
  return ⟨description, directives, ← someThrough .braceClose rootOperation⟩

def inputValueDefinition (room : Nat) : Parser InputValueDefinition := do
  let description ← optionalDescription
  let name ← expectName
  expect .colon
  let type ← typeReference room
  let defaultValue ← optionalDefault room
  return ⟨description, name, type, defaultValue, ← directives room⟩

def argumentDefinitions (room : Nat) : Parser (IndexedList InputValueDefinition) :=
  optionalBlock .parenOpen .parenClose (inputValueDefinition room)

def fieldDefinition (room : Nat) : Parser FieldDefinition := do
  let description ← optionalDescription
  let name ← expectName
  let arguments ← argumentDefinitions room
  expect .colon
  let type ← typeReference room
  return ⟨description, name, arguments, type, ← directives room⟩

/-- Names that enum values may not have. -/
def isReservedEnumValue (name : String) : Bool :=
  name == "true" || name == "false" || name == "null"

/-- Fails if the next token is a name that no enum value may have. -/
def refuseReservedEnumValue : Parser Unit := do
  let t ← peek
  if let some name := t.name? then
    if isReservedEnumValue name then
      throw ((SyntaxError.new ("enum values cannot be named `" ++ name ++ "`")
        (.unexpectedToken ["an enum value"] t.found) t.line t.position).withWidth name.length)

def enumValueDefinition (room : Nat) : Parser EnumValueDefinition := do
  let description ← optionalDescription
  refuseReservedEnumValue
  let name ← expectName
  return ⟨description, name, ← directives room⟩

/-- The interfaces behind their keyword, or none at all. -/
def interfaces : Parser (IndexedList TypeReference) := do
  if ← acceptKeyword "implements" then someSeparated .ampersand namedType else return .nil

/-- The members behind an equals sign, or none at all. -/
def unionMembers : Parser (IndexedList TypeReference) := do
  if ← accept .equals then someSeparated .pipe namedType else return .nil

/-- A type from its keyword on. -/
def typeDefinition (room : Nat) (kind : TypeKind) (description : Option StringValue) :
    Parser TypeDefinition := do
  expectKeyword kind.keyword
  let name ← expectName
  match kind with
  | .scalar => return ⟨description, name, ← directives room, .scalar⟩
  | .object =>
    let interfaces ← interfaces
    let directives ← directives room
    let fields ← optionalBlock .braceOpen .braceClose (fieldDefinition room)
    return ⟨description, name, directives, .object interfaces fields⟩
  | .interface =>
    let interfaces ← interfaces
    let directives ← directives room
    let fields ← optionalBlock .braceOpen .braceClose (fieldDefinition room)
    return ⟨description, name, directives, .interface interfaces fields⟩
  | .union =>
    let directives ← directives room
    return ⟨description, name, directives, .union (← unionMembers)⟩
  | .enum =>
    let directives ← directives room
    let values ← optionalBlock .braceOpen .braceClose (enumValueDefinition room)
    return ⟨description, name, directives, .enum values⟩
  | .inputObject =>
    let directives ← directives room
    let fields ← optionalBlock .braceOpen .braceClose (inputValueDefinition room)
    return ⟨description, name, directives, .inputObject fields⟩

def directiveLocation : Parser DirectiveLocation := do
  match (← peek).name?.bind DirectiveLocation.ofText? with
  | some location =>
    advance
    return location
  | none =>
    mapError (·.addHelp "directive locations are written in upper case, e.g. `FIELD`")
      (unexpected ["a directive location"])

def directiveDefinition (room : Nat) (description : Option StringValue) :
    Parser DirectiveDefinition := do
  expectKeyword "directive"
  expect .atSign
  let name ← expectName
  let arguments ← argumentDefinitions room
  let repeatable ← acceptKeyword "repeatable"
  expectKeyword "on"
  return ⟨description, name, arguments, repeatable, ← someSeparated .pipe directiveLocation⟩

end GraphQL.Parser
