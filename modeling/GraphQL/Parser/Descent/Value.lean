import GraphQL.Parser.Descent.Basic
import GraphQL.Parser.Value

/-! Values, arguments, directive annotations and type references. -/
namespace GraphQL.Descent
open GraphQL.Parser (peek advance accept expect expectName unexpected valueOfName)

/-- A name, a colon and what is named. -/
def named {α : Type} (value : Descent α) : Descent (Named α) := do
  let name ← step expectName
  step (expect .colon)
  return ⟨name, ← value⟩

def value : (fuel : Nat) → Descent Value
  | 0 => throw .exhausted
  | fuel + 1 => do
    let t ← step peek
    match t.kind with
    | .punctuator .dollar =>
      step advance
      return .variable (← step expectName)
    | .int =>
      step advance
      return .int t.literal
    | .float =>
      step advance
      return .float t.literal
    | .string =>
      step advance
      return .string ⟨t.literal, false⟩
    | .blockString =>
      step advance
      return .string ⟨t.literal, true⟩
    | .name =>
      step advance
      return valueOfName t.literal
    | .punctuator .bracketOpen =>
      step advance
      enterNested
      let items ← manyThrough .bracketClose (value fuel) fuel
      exitNested
      return .list items
    | .punctuator .braceOpen =>
      step advance
      enterNested
      let fields ← manyThrough .braceClose (named (value fuel)) fuel
      exitNested
      return .object fields
    | _ => step (unexpected ["a value"])

/-- An equals sign and a value, or neither. -/
def optionalDefault (fuel : Nat) : Descent (Option Value) := do
  if ← step (accept .equals) then return some (← value fuel) else return none

/-- The arguments in parentheses, or none at all. -/
def arguments (fuel : Nat) : Descent (IndexedList Argument) :=
  optionalBlock .parenOpen .parenClose (named (value fuel)) fuel

def directive (fuel : Nat) : Descent Directive := do
  let name ← step expectName
  return ⟨name, ← arguments fuel⟩

def directives (fuel : Nat) : Descent (IndexedList Directive) := manyAfter .atSign (directive fuel) fuel

def typeReference : (fuel : Nat) → Descent TypeReference
  | 0 => throw .exhausted
  | fuel + 1 => do
    if ← step (accept .bracketOpen) then
      enterNested
      let element ← typeReference fuel
      step (expect .bracketClose)
      exitNested
      return .list element (← step (accept .bang))
    else
      let name ← step expectName
      return .named name (← step (accept .bang))

/-- A plain name as the reference to a type. -/
def namedType : Descent TypeReference := return .named (← step expectName) false

end GraphQL.Descent
