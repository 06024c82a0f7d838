import GraphQL.Parser.Descent.TypeSystem
import GraphQL.Parser.Document

/-! Whole documents. -/
namespace GraphQL.Descent
open GraphQL.Parser (peek isAtEnd expectKeyword unexpected optionalDescription extensionStarts)

/-- The definition behind a description, or behind nothing. -/
def typeSystemDefinition (description : Option StringValue) (fuel : Nat) : Descent TypeSystemDefinition := do
  let keyword := (← step peek).name?
  if keyword = some "schema" then return .schema (← schema description false fuel)
  if keyword = some "directive" then return .directive (← directiveDefinition description fuel)
  match keyword.bind TypeKind.ofKeyword? with
  | some kind => return .type (← typeDefinition kind description fuel)
  | none =>
    if description.isSome then
      mapError (·.addNote "only type system definitions may have descriptions")
        (step (unexpected ["a type system definition"]))
    else step (unexpected ["a definition"])

/-- An extension, which has to add something. -/
def extension (fuel : Nat) : Descent TypeSystemExtension := do
  step (expectKeyword "extend")
  let keyword := (← step peek).name?
  if keyword = some "schema" then
    let s ← schema none true fuel
    if s.directives.isEmpty && s.roots.isEmpty then step (unexpected ["`@`", "`\x7b`"])
    return .schema s
  match keyword.bind TypeKind.ofKeyword? with
  | some kind =>
    let t ← typeDefinition kind none fuel
    if t.directives.isEmpty && t.body.isEmpty then step (unexpected (extensionStarts kind))
    return .type t
  | none =>
    step (unexpected ["`schema`", "`scalar`", "`type`", "`interface`", "`union`", "`enum`", "`input`"])

def definition (fuel : Nat) : Descent Definition := do
  let t ← step peek
  match t.kind with
  | .punctuator .braceOpen => return .executable (.operation (← operation fuel))
  | .string | .blockString =>
    let description ← step optionalDescription
    return .typeSystem (← typeSystemDefinition description fuel)
  | .name =>
    match t.literal with
    | "query" | "mutation" | "subscription" => return .executable (.operation (← operation fuel))
    | "fragment" => return .executable (.fragment (← fragment fuel))
    | "extend" => return .extension (← extension fuel)
    | _ => return .typeSystem (← typeSystemDefinition none fuel)
  | _ => step (unexpected ["a definition"])

/-- One definition or more up to the end of input. -/
def document (fuel : Nat) : Descent Document := do
  if ← step isAtEnd then step (unexpected ["a definition"])
  return ⟨← manyToEnd (definition fuel) fuel⟩

end GraphQL.Descent
