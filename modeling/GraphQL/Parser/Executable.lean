import GraphQL.Parser.Value

/-! Operations, fragments and their selections. -/
namespace GraphQL.Parser

/-- The error with a note on the selection set opened by a token, if the input ended inside it. -/
def noteUnclosed (opening : Token) (e : SyntaxError) : SyntaxError :=
  match e.kind with
  | .unexpectedEof _ =>
    e.addNote ("selection set opened at " ++ toString opening.line ++ ":" ++
      toString opening.position ++ " was never closed")
  | _ => e

/-- A selection inside which there is room for `room` levels; `inner` reads a selection set there. -/
def selectionWith (room : Nat) (inner : Parser SelectionSet) : Parser Selection := do
  if ← accept .ellipsis then
    if ← acceptKeyword "on" then
      let typeCondition ← expectName
      let directives ← directives room
      return .inlineFragment (some typeCondition) directives (← inner)
    match (← peek).name? with
    | some name =>
      advance
      return .spread name (← directives room)
    | none =>
      let directives ← directives room
      return .inlineFragment none directives (← inner)
  else
    let first ← expectName
    let (aliasName, name) ← if ← accept .colon then pure (some first, ← expectName)
      else pure (none, first)
    let arguments ← arguments room
    let directives ← directives room
    let selections ← if ← isAt .braceOpen then pure (some (← inner)) else pure none
    return .field aliasName name arguments directives selections

/-- A selection set opened where there is room for `room` levels. -/
def selectionSet : (room : Nat) → Parser SelectionSet
  | 0 => do
    expect .braceOpen
    nestingExceeded
  | room + 1 => do
    let opening ← peek
    expect .braceOpen
    mapError (noteUnclosed opening)
      (someThrough .braceClose (selectionWith room (selectionSet room)))

def operationType : Parser OperationType := do
  match (← peek).name?.bind OperationType.ofKeyword? with
  | some type =>
    advance
    return type
  | none => unexpected ["`query`", "`mutation`", "`subscription`"]

def variableDefinition (room : Nat) : Parser VariableDefinition := do
  expect .dollar
  let name ← expectName
  expect .colon
  let type ← typeReference room
  let defaultValue ← optionalDefault room
  return ⟨name, type, defaultValue, ← directives room⟩

def operation (room : Nat) : Parser OperationDefinition := do
  if ← isAt .braceOpen then
    return ⟨.query, none, .nil, .nil, ← selectionSet room⟩
  let type ← operationType
  let name := (← peek).name?
  if name.isSome then advance
  let variableDefinitions ← optionalBlock .parenOpen .parenClose (variableDefinition room)
  let directives ← directives room
  return ⟨type, name, variableDefinitions, directives, ← selectionSet room⟩

def fragment (room : Nat) : Parser FragmentDefinition := do
  expectKeyword "fragment"
  if ← isAtKeyword "on" then
    mapError (·.addHelp "fragments are written as `fragment Name on Type \x7b ... \x7d`")
      (unexpected ["a fragment name"])
  let name ← expectName
  expectKeyword "on"
  let typeCondition ← expectName
  let directives ← directives room
  return ⟨name, typeCondition, directives, ← selectionSet room⟩

end GraphQL.Parser
