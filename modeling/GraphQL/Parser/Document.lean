import GraphQL.Document
import GraphQL.Lexer
import GraphQL.Parser.TypeSystem
import GraphQL.Text.Encoding

/-! Whole documents, from tokens, from text and from bytes. -/
namespace GraphQL

namespace Parser

/-- The definition behind a description, or behind nothing. -/
def typeSystemDefinition (room : Nat) (description : Option StringValue) :
    Parser TypeSystemDefinition := do
  let keyword := (← peek).name?
  if keyword = some "schema" then return .schema (← schema room description false)
  if keyword = some "directive" then return .directive (← directiveDefinition room description)
  match keyword.bind TypeKind.ofKeyword? with
  | some kind => return .type (← typeDefinition room kind description)
  | none =>
    if description.isSome then
      mapError (·.addNote "only type system definitions may have descriptions")
        (unexpected ["a type system definition"])
    else unexpected ["a definition"]

/-- What could still follow an extension of this kind that adds nothing. -/
def extensionStarts : TypeKind → List String
  | .scalar => ["`@`"]
  | .object | .interface => ["`implements`", "`@`", "`\x7b`"]
  | .union => ["`@`", "`=`"]
  | .enum | .inputObject => ["`@`", "`\x7b`"]

/-- An extension, which has to add something. -/
def extension (room : Nat) : Parser TypeSystemExtension := do
  expectKeyword "extend"
  let keyword := (← peek).name?
  if keyword = some "schema" then
    let s ← schema room none true
    if s.directives.isEmpty && s.roots.isEmpty then unexpected ["`@`", "`\x7b`"]
    return .schema s
  match keyword.bind TypeKind.ofKeyword? with
  | some kind =>
    let t ← typeDefinition room kind none
    if t.directives.isEmpty && t.body.isEmpty then unexpected (extensionStarts kind)
    return .type t
  | none =>
    unexpected ["`schema`", "`scalar`", "`type`", "`interface`", "`union`", "`enum`", "`input`"]

def definition (room : Nat) : Parser Definition := do
  let t ← peek
  match t.kind with
  | .punctuator .braceOpen => return .executable (.operation (← operation room))
  | .string | .blockString =>
    let description ← optionalDescription
    return .typeSystem (← typeSystemDefinition room description)
  | .name =>
    match t.literal with
    | "query" | "mutation" | "subscription" => return .executable (.operation (← operation room))
    | "fragment" => return .executable (.fragment (← fragment room))
    | "extend" => return .extension (← extension room)
    | _ => return .typeSystem (← typeSystemDefinition room none)
  | _ => unexpected ["a definition"]

/-- One definition or more up to the end of input. -/
def document : Parser Document := do
  let first ← definition maxNesting
  return ⟨(← manyToEnd (definition maxNesting)).add first⟩

end Parser

/-- The document that the tokens spell. -/
def parseTokens (tokens : List Token) : Except SyntaxError Document :=
  match Parser.document (.ofTokens tokens) with
  | .ok d _ => .ok d
  | .error e _ => .error e

/-- The document that a text spells. -/
def parse (source : List Char) : Except SyntaxError Document :=
  parseTokens (tokenize source)

/-- The document that bytes spell as UTF-8. An error in the encoding is placed behind the longest part
that is well encoded. -/
def parseBytes (bytes : List UInt8) : Except SyntaxError Document :=
  match Text.decodeUtf8 bytes with
  | (source, []) => parse source
  | (valid, _ :: _) =>
    let (line, position) := positionAfter valid
    .error (.new "invalid UTF-8 sequence" .invalidUtf8 line position)

end GraphQL
