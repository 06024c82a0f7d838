import GraphQL.Parser.Descent.Value
import GraphQL.Parser.Executable

/-! Operations, fragments and their selections. -/
namespace GraphQL.Descent
open GraphQL.Parser (peek advance isAt isAtKeyword accept acceptKeyword expect expectKeyword expectName unexpected
  noteUnclosed operationType)

/-- A field, whose selections are read by `set`. -/
def field (set : Descent SelectionSet) (fuel : Nat) : Descent Selection := do
  let first ← step expectName
  let (aliasName, name) ← if ← step (accept .colon) then pure (some first, ← step expectName)
    else pure (none, first)
  let arguments ← arguments fuel
  let directives ← directives fuel
  let selections ← if ← step (isAt .braceOpen) then pure (some (← set)) else pure none
  return .field aliasName name arguments directives selections

/-- A selection; `set` reads the selection sets inside it. -/
def selection (set : Descent SelectionSet) (fuel : Nat) : Descent Selection := do
  if ← step (accept .ellipsis) then
    if ← step (acceptKeyword "on") then
      let typeCondition ← step expectName
      let directives ← directives fuel
      return .inlineFragment (some typeCondition) directives (← set)
    match (← step peek).name? with
    | some name =>
      step advance
      return .spread name (← directives fuel)
    | none =>
      let directives ← directives fuel
      return .inlineFragment none directives (← set)
  else field set fuel

def selectionSet : (fuel : Nat) → Descent SelectionSet
  | 0 => throw .exhausted
  | fuel + 1 => do
    let opening ← step peek
    step (expect .braceOpen)
    enterNested
    let selections ← someThrough .braceClose
      (mapError (noteUnclosed opening) (selection (selectionSet fuel) fuel)) fuel
    exitNested
    return selections

def variableDefinition (fuel : Nat) : Descent VariableDefinition := do
  step (expect .dollar)
  let name ← step expectName
  step (expect .colon)
  let type ← typeReference fuel
  let defaultValue ← optionalDefault fuel
  return ⟨name, type, defaultValue, ← directives fuel⟩

def variableDefinitions (fuel : Nat) : Descent (IndexedList VariableDefinition) := do
  step (expect .parenOpen)
  someThrough .parenClose (variableDefinition fuel) fuel

def operation (fuel : Nat) : Descent OperationDefinition := do
  if ← step (isAt .braceOpen) then
    return ⟨.query, none, .nil, .nil, ← selectionSet fuel⟩
  let type ← step operationType
  let name := (← step peek).name?
  if name.isSome then step advance
  let variableDefinitions ← if ← step (isAt .parenOpen) then variableDefinitions fuel else pure .nil
  let directives ← directives fuel
  return ⟨type, name, variableDefinitions, directives, ← selectionSet fuel⟩

def fragment (fuel : Nat) : Descent FragmentDefinition := do
  step (expectKeyword "fragment")
  if ← step (isAtKeyword "on") then
    mapError (·.addHelp "fragments are written as `fragment Name on Type \x7b ... \x7d`")
      (step (unexpected ["a fragment name"]))
  let name ← step expectName
  step (expectKeyword "on")
  let typeCondition ← step expectName
  let directives ← directives fuel
  return ⟨name, typeCondition, directives, ← selectionSet fuel⟩

end GraphQL.Descent
