import GraphQL.Validation.Rule

/-! Schemas built from documents. All definitions are registered before any extension is merged, so an
extension may stand in front of what it extends. -/
namespace GraphQL

/-- The parts of a type followed by those of an extension, if both are of one kind. -/
def TypeBody.join? : TypeBody → TypeBody → Option TypeBody
  | .scalar, .scalar => some .scalar
  | .object is fs, .object is' fs' => some (.object (is.join is') (fs.join fs'))
  | .interface is fs, .interface is' fs' => some (.interface (is.join is') (fs.join fs'))
  | .union ms, .union ms' => some (.union (ms.join ms'))
  | .enum vs, .enum vs' => some (.enum (vs.join vs'))
  | .inputObject fs, .inputObject fs' => some (.inputObject (fs.join fs'))
  | _, _ => none

/-- The type with an extension of its kind; with one of another kind it stays as it is. -/
def TypeDefinition.extend (t extension : TypeDefinition) : TypeDefinition :=
  match t.body.join? extension.body with
  | some body => { t with directives := t.directives.join extension.directives, body }
  | none => t

/-- The schema definition with an extension. -/
def SchemaDefinition.extend (s extension : SchemaDefinition) : SchemaDefinition :=
  { s with
    directives := s.directives.join extension.directives
    roots := s.roots.join extension.roots }

namespace Schema

/-- Takes over root operations; of two for one kind the last one counts. -/
def setRoots (s : Schema) (operations : IndexedList RootOperation) : Schema :=
  { s with roots := operations.toList.foldl (fun r o => r.set o.type o.namedType) s.roots }

/-- Merges an extension of the schema. Where there is no definition it becomes one. -/
def extendSchema (s : Schema) (x : SchemaDefinition) : Schema :=
  let definition := match s.definition with
    | some known => known.extend x
    | none => x
  { s.setRoots x.roots with definition := some definition }

/-- Merges an extension of a type, if the type is known. -/
def extendType (s : Schema) (t : TypeDefinition) : Schema :=
  { s with types := s.types.modify t.name (·.extend t) }

/-- The type that stands at a root by its name alone. -/
def defaultRootName : OperationType → String
  | .query => "Query"
  | .mutation => "Mutation"
  | .subscription => "Subscription"

/-- Fills a root that is not set, if there is a type of the default name. -/
def defaultRoot (s : Schema) (type : OperationType) : Schema :=
  let name := defaultRootName type
  if (s.roots.get type).isNone && s.types.contains name then
    { s with roots := s.roots.set type name }
  else s

/-- Without a schema definition the roots are the types of the default names. -/
def defaultRoots (s : Schema) : Schema :=
  if s.definition.isSome then s
  else [OperationType.query, .mutation, .subscription].foldl defaultRoot s

/-- What is gathered on a walk: the schema with the definitions so far, and the extensions, which may stand in front of
what they extend. -/
structure Gathering where
  schema : Schema
  schemaExtensions : List SchemaDefinition
  typeExtensions : List TypeDefinition
  deriving DecidableEq

namespace Gathering

def addSchema : Node → Gathering → Gathering
  | .schemaDefinition x, g => { g with schema := { g.schema.setRoots x.roots with definition := some x } }
  | _, g => g

def addType : Node → Gathering → Gathering
  | .typeDefinition t, g => { g with schema.types := g.schema.types.insert t.name t }
  | _, g => g

def addDirective : Node → Gathering → Gathering
  | .directiveDefinition d, g => { g with schema.directives := g.schema.directives.insert d.name d }
  | _, g => g

def noteSchemaExtension : Node → Gathering → Gathering
  | .schemaExtension x, g => { g with schemaExtensions := g.schemaExtensions ++ [x] }
  | _, g => g

def noteTypeExtension : Node → Gathering → Gathering
  | .typeExtension t, g => { g with typeExtensions := g.typeExtensions ++ [t] }
  | _, g => g

/-- The handlers that register definitions and note extensions. -/
def handlers : Walker Gathering :=
  [⟨.schemaDefinition, .enter, addSchema⟩, ⟨.typeDefinition, .enter, addType⟩,
    ⟨.directiveDefinition, .enter, addDirective⟩, ⟨.schemaExtension, .enter, noteSchemaExtension⟩,
    ⟨.typeExtension, .enter, noteTypeExtension⟩]

end Gathering

/-- The schema with everything that a valid document defines and extends. -/
def merge (s : Schema) (d : Document) : Schema :=
  let gathered := Walker.walk Gathering.handlers d ⟨s, [], []⟩
  let extended := gathered.schemaExtensions.foldl extendSchema gathered.schema
  (gathered.typeExtensions.foldl extendType extended).defaultRoots

/-- The schema that a document makes of an existing one, or of none. -/
def build (existing : Option Schema) (d : Document) : Except (List ValidationError) Schema :=
  match validateSdl d existing with
  | [] => .ok ((existing.getD empty).merge d)
  | errors => .error errors

end Schema
end GraphQL
