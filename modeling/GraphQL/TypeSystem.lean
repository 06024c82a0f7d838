import GraphQL.Executable

/-! Schemas, types and directives as they are defined. An extension is written like a definition, with
no description, and adds to one. -/
namespace GraphQL

/-- The type at the root of one kind of operation. -/
structure RootOperation where
  type : OperationType
  namedType : String
  deriving DecidableEq

structure SchemaDefinition where
  description : Option StringValue
  directives : IndexedList Directive
  roots : IndexedList RootOperation
  deriving DecidableEq

/-- An argument of a field or directive, or a field of an input object type. -/
structure InputValueDefinition where
  description : Option StringValue
  name : String
  type : TypeReference
  defaultValue : Option Value
  directives : IndexedList Directive
  deriving DecidableEq

structure FieldDefinition where
  description : Option StringValue
  name : String
  arguments : IndexedList InputValueDefinition
  type : TypeReference
  directives : IndexedList Directive
  deriving DecidableEq

structure EnumValueDefinition where
  description : Option StringValue
  name : String
  directives : IndexedList Directive
  deriving DecidableEq

inductive TypeKind where
  | scalar
  | object
  | interface
  | union
  | enum
  | inputObject
  deriving DecidableEq

namespace TypeKind

/-- The word that opens a definition of this kind. -/
def keyword : TypeKind → String
  | scalar => "scalar"
  | object => "type"
  | interface => "interface"
  | union => "union"
  | enum => "enum"
  | inputObject => "input"

def ofKeyword? : String → Option TypeKind
  | "scalar" => some scalar
  | "type" => some object
  | "interface" => some interface
  | "union" => some union
  | "enum" => some enum
  | "input" => some inputObject
  | _ => none

end TypeKind

/-- What a type consists of, beside what all types have. Interfaces and union members are plain names. -/
inductive TypeBody where
  | scalar
  | object (interfaces : IndexedList TypeReference) (fields : IndexedList FieldDefinition)
  | interface (interfaces : IndexedList TypeReference) (fields : IndexedList FieldDefinition)
  | union (members : IndexedList TypeReference)
  | enum (values : IndexedList EnumValueDefinition)
  | inputObject (fields : IndexedList InputValueDefinition)
  deriving DecidableEq

namespace TypeBody

def kind : TypeBody → TypeKind
  | scalar => .scalar
  | object .. => .object
  | interface .. => .interface
  | union _ => .union
  | enum _ => .enum
  | inputObject _ => .inputObject

/-- Whether there is no interface, field, member or value. -/
def isEmpty : TypeBody → Bool
  | scalar => true
  | object interfaces fields => interfaces.isEmpty && fields.isEmpty
  | interface interfaces fields => interfaces.isEmpty && fields.isEmpty
  | union members => members.isEmpty
  | enum values => values.isEmpty
  | inputObject fields => fields.isEmpty

end TypeBody

structure TypeDefinition where
  description : Option StringValue
  name : String
  directives : IndexedList Directive
  body : TypeBody
  deriving DecidableEq

def TypeDefinition.kind (t : TypeDefinition) : TypeKind := t.body.kind

/-- A place where a directive may be applied. -/
inductive DirectiveLocation where
  | query
  | mutation
  | subscription
  | field
  | fragmentDefinition
  | fragmentSpread
  | inlineFragment
  | variableDefinition
  | schema
  | scalar
  | object
  | fieldDefinition
  | argumentDefinition
  | interface
  | union
  | enum
  | enumValue
  | inputObject
  | inputFieldDefinition
  deriving DecidableEq

namespace DirectiveLocation

def text : DirectiveLocation → String
  | query => "QUERY"
  | mutation => "MUTATION"
  | subscription => "SUBSCRIPTION"
  | field => "FIELD"
  | fragmentDefinition => "FRAGMENT_DEFINITION"
  | fragmentSpread => "FRAGMENT_SPREAD"
  | inlineFragment => "INLINE_FRAGMENT"
  | variableDefinition => "VARIABLE_DEFINITION"
  | schema => "SCHEMA"
  | scalar => "SCALAR"
  | object => "OBJECT"
  | fieldDefinition => "FIELD_DEFINITION"
  | argumentDefinition => "ARGUMENT_DEFINITION"
  | interface => "INTERFACE"
  | union => "UNION"
  | enum => "ENUM"
  | enumValue => "ENUM_VALUE"
  | inputObject => "INPUT_OBJECT"
  | inputFieldDefinition => "INPUT_FIELD_DEFINITION"

def ofText? : String → Option DirectiveLocation
  | "QUERY" => some query
  | "MUTATION" => some mutation
  | "SUBSCRIPTION" => some subscription
  | "FIELD" => some field
  | "FRAGMENT_DEFINITION" => some fragmentDefinition
  | "FRAGMENT_SPREAD" => some fragmentSpread
  | "INLINE_FRAGMENT" => some inlineFragment
  | "VARIABLE_DEFINITION" => some variableDefinition
  | "SCHEMA" => some schema
  | "SCALAR" => some scalar
  | "OBJECT" => some object
  | "FIELD_DEFINITION" => some fieldDefinition
  | "ARGUMENT_DEFINITION" => some argumentDefinition
  | "INTERFACE" => some interface
  | "UNION" => some union
  | "ENUM" => some enum
  | "ENUM_VALUE" => some enumValue
  | "INPUT_OBJECT" => some inputObject
  | "INPUT_FIELD_DEFINITION" => some inputFieldDefinition
  | _ => none

/-- Whether the place is in an operation or a fragment. -/
def isExecutable : DirectiveLocation → Bool
  | query | mutation | subscription | field | fragmentDefinition | fragmentSpread
  | inlineFragment | variableDefinition => true
  | _ => false

end DirectiveLocation

structure DirectiveDefinition where
  description : Option StringValue
  name : String
  arguments : IndexedList InputValueDefinition
  repeatable : Bool
  locations : IndexedList DirectiveLocation
  deriving DecidableEq

end GraphQL
