import GraphQL.Executable
import GraphQL.Parser.Repetition

/-! Values, arguments, directive annotations and type references. Those that nest take the room that is
left: how many levels may still be opened. -/
namespace GraphQL.Parser

/-- A name, a colon and what is named. -/
def named {α : Type} (value : Parser α) : Parser (Named α) := do
  let name ← expectName
  expect .colon
  return ⟨name, ← value⟩

/-- The value that a name stands for: a boolean, null or an enum value. -/
def valueOfName : String → Value
  | "true" => .boolean true
  | "false" => .boolean false
  | "null" => .null
  | name => .enum name

/-- A value whose items and fields, if there is room for them, are read by `inner`. -/
def valueWith (inner : Option (Parser Value)) : Parser Value := do
  let t ← peek
  match t.kind with
  | .punctuator .dollar =>
    advance
    return .variable (← expectName)
  | .int =>
    advance
    return .int t.literal
  | .float =>
    advance
    return .float t.literal
  | .string =>
    advance
    return .string ⟨t.literal, false⟩
  | .blockString =>
    advance
    return .string ⟨t.literal, true⟩
  | .name =>
    advance
    return valueOfName t.literal
  | .punctuator .bracketOpen =>
    advance
    return .list (← manyThrough .bracketClose (← enter inner))
  | .punctuator .braceOpen =>
    advance
    return .object (← manyThrough .braceClose (named (← enter inner)))
  | _ => unexpected ["a value"]

def value : (room : Nat) → Parser Value
  | 0 => valueWith none
  | room + 1 => valueWith (some (value room))

/-- An equals sign and a value, or neither. -/
def optionalDefault (room : Nat) : Parser (Option Value) := do
  if ← accept .equals then return some (← value room) else return none

/-- The arguments in parentheses, or none at all. -/
def arguments (room : Nat) : Parser (IndexedList Argument) :=
  optionalBlock .parenOpen .parenClose (named (value room))

def directives (room : Nat) : Parser (IndexedList Directive) :=
  manyAfter .atSign do
    let name ← expectName
    return ⟨name, ← arguments room⟩

/-- A type reference whose element, if there is room for one, is read by `inner`. -/
def typeReferenceWith (inner : Option (Parser TypeReference)) : Parser TypeReference := do
  if ← accept .bracketOpen then
    let element ← (← enter inner)
    expect .bracketClose
    return .list element (← accept .bang)
  else
    let name ← expectName
    return .named name (← accept .bang)

def typeReference : (room : Nat) → Parser TypeReference
  | 0 => typeReferenceWith none
  | room + 1 => typeReferenceWith (some (typeReference room))

/-- A plain name as the reference to a type. -/
def namedType : Parser TypeReference := return .named (← expectName) false

end GraphQL.Parser
