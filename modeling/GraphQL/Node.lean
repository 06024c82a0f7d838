import GraphQL.Document

/-! The nodes of a document under one type. A node of a union is there twice: as a member of the union,
and as the variant that it is. -/
namespace GraphQL

inductive NodeKind where
  | document
  | definition
  | executableDefinition
  | operationDefinition
  | operationVariant (type : OperationType)
  | fragmentDefinition
  | variableDefinition
  | selectionSet
  | selection
  | selectionVariant (kind : SelectionKind)
  | argument
  | directive
  | objectField
  | type
  | value
  | valueVariant (kind : ValueKind)
  | typeSystemDefinition
  | schemaDefinition
  | rootOperation
  | typeDefinition
  | typeVariant (kind : TypeKind)
  | fieldDefinition
  | inputValueDefinition
  | enumValueDefinition
  | directiveDefinition
  | typeSystemExtension
  | schemaExtension
  | typeExtension
  deriving DecidableEq

inductive Node where
  | document (d : Document)
  | definition (d : Definition)
  | executableDefinition (d : ExecutableDefinition)
  | operationDefinition (o : OperationDefinition)
  | operationVariant (o : OperationDefinition)
  | fragmentDefinition (f : FragmentDefinition)
  | variableDefinition (v : VariableDefinition)
  | selectionSet (s : SelectionSet)
  | selection (s : Selection)
  | selectionVariant (s : Selection)
  | argument (a : Argument)
  | directive (d : Directive)
  | objectField (f : Named Value)
  | type (t : TypeReference)
  | value (v : Value)
  | valueVariant (v : Value)
  | typeSystemDefinition (d : TypeSystemDefinition)
  | schemaDefinition (s : SchemaDefinition)
  | rootOperation (r : RootOperation)
  | typeDefinition (t : TypeDefinition)
  | typeVariant (t : TypeDefinition)
  | fieldDefinition (f : FieldDefinition)
  | inputValueDefinition (i : InputValueDefinition)
  | enumValueDefinition (v : EnumValueDefinition)
  | directiveDefinition (d : DirectiveDefinition)
  | typeSystemExtension (e : TypeSystemExtension)
  | schemaExtension (s : SchemaDefinition)
  | typeExtension (t : TypeDefinition)
  deriving DecidableEq

namespace NodeKind

private def operationTypes : List OperationType := [.query, .mutation, .subscription]

private def selectionKinds : List SelectionKind := [.field, .spread, .inlineFragment]

private def valueKinds : List ValueKind :=
  [.variable, .int, .float, .string, .boolean, .null, .enum, .list, .object]

private def typeKinds : List TypeKind :=
  [.scalar, .object, .interface, .union, .enum, .inputObject]

/-- Every kind of node, unions before their variants. -/
def all : List NodeKind :=
  [document, definition, executableDefinition, operationDefinition] ++
    operationTypes.map operationVariant ++
    [fragmentDefinition, variableDefinition, selectionSet, selection] ++
    selectionKinds.map selectionVariant ++
    [argument, directive, objectField, type, value] ++ valueKinds.map valueVariant ++
    [typeSystemDefinition, schemaDefinition, rootOperation, typeDefinition] ++
    typeKinds.map typeVariant ++
    [fieldDefinition, inputValueDefinition, enumValueDefinition, directiveDefinition,
      typeSystemExtension, schemaExtension, typeExtension]

end NodeKind

def Node.kind : Node → NodeKind
  | document _ => .document
  | definition _ => .definition
  | executableDefinition _ => .executableDefinition
  | operationDefinition _ => .operationDefinition
  | operationVariant o => .operationVariant o.type
  | fragmentDefinition _ => .fragmentDefinition
  | variableDefinition _ => .variableDefinition
  | selectionSet _ => .selectionSet
  | selection _ => .selection
  | selectionVariant s => .selectionVariant s.kind
  | argument _ => .argument
  | directive _ => .directive
  | objectField _ => .objectField
  | type _ => .type
  | value _ => .value
  | valueVariant v => .valueVariant v.kind
  | typeSystemDefinition _ => .typeSystemDefinition
  | schemaDefinition _ => .schemaDefinition
  | rootOperation _ => .rootOperation
  | typeDefinition _ => .typeDefinition
  | typeVariant t => .typeVariant t.kind
  | fieldDefinition _ => .fieldDefinition
  | inputValueDefinition _ => .inputValueDefinition
  | enumValueDefinition _ => .enumValueDefinition
  | directiveDefinition _ => .directiveDefinition
  | typeSystemExtension _ => .typeSystemExtension
  | schemaExtension _ => .schemaExtension
  | typeExtension _ => .typeExtension

end GraphQL
