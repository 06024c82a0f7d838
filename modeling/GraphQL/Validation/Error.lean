import GraphQL.TypeSystem

/-! What is wrong with a document that can be parsed. -/
namespace GraphQL

inductive ValidationError where
  /-- A part of the type system in a document meant for execution. -/
  | nonExecutableDefinition (name : String)
  | anonymousOperationNotAlone
  | duplicateOperationName (name : String)
  | duplicateFragmentName (name : String)
  | duplicateVariableName (name : String)
  | duplicateArgumentName (name : String)
  | schemaDefinitionNotAlone
  | schemaAlreadyDefined
  | duplicateTypeName (name : String)
  /-- A type that the existing schema has. -/
  | existedTypeName (name : String)
  | duplicateDirectiveName (name : String)
  /-- A directive that the existing schema has. -/
  | existedDirectiveName (name : String)
  | extendedTypeNotDefined (name : String)
  /-- An extension of this kind, of a type of another. -/
  | extendedTypeKindMismatch (name : String) (kind : TypeKind)
  deriving DecidableEq

/-- How messages call a kind of type. -/
def TypeKind.label : TypeKind → String
  | scalar => "scalar"
  | object => "object"
  | interface => "interface"
  | union => "union"
  | enum => "enum"
  | inputObject => "input object"

namespace ValidationError

/-- The name that the error is about. -/
def name? : ValidationError → Option String
  | nonExecutableDefinition name | duplicateOperationName name | duplicateFragmentName name
  | duplicateVariableName name | duplicateArgumentName name | duplicateTypeName name
  | existedTypeName name | duplicateDirectiveName name | existedDirectiveName name
  | extendedTypeNotDefined name | extendedTypeKindMismatch name _ => some name
  | anonymousOperationNotAlone | schemaDefinitionNotAlone | schemaAlreadyDefined => none

private def onlyOne (what : String) : String := "There can be only one " ++ what ++ "\"."

def message : ValidationError → String
  | nonExecutableDefinition name => "The " ++ name ++ " definition is not executable."
  | anonymousOperationNotAlone => "This anonymous operation must be the only defined operation."
  | duplicateOperationName name => onlyOne ("operation named \"" ++ name)
  | duplicateFragmentName name => onlyOne ("fragment named \"" ++ name)
  | duplicateVariableName name => onlyOne ("variable named \"$" ++ name)
  | duplicateArgumentName name => onlyOne ("argument named \"" ++ name)
  | schemaDefinitionNotAlone => "Must provide only one schema definition."
  | schemaAlreadyDefined => "Cannot define a new schema within a schema extension."
  | duplicateTypeName name => onlyOne ("type named \"" ++ name)
  | existedTypeName name =>
    "Type \"" ++ name ++ "\" already exists in the schema. " ++
      "It cannot also be defined in this type definition."
  | duplicateDirectiveName name => onlyOne ("directive named \"@" ++ name)
  | existedDirectiveName name =>
    "Directive \"@" ++ name ++ "\" already exists in the schema. It cannot be redefined."
  | extendedTypeNotDefined name =>
    "Cannot extend type \"" ++ name ++ "\" because it is not defined."
  | extendedTypeKindMismatch name kind =>
    "Cannot extend non-" ++ kind.label ++ " type \"" ++ name ++ "\"."

end ValidationError
end GraphQL
