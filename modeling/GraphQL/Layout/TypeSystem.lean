import GraphQL.Layout.Executable
import GraphQL.TypeSystem

/-! Definitions of the type system laid out. -/
namespace GraphQL
open Layout

namespace Layout

/-- A description and what stands between it and the thing described. -/
def descriptionClause (between : Piece) (d : Option StringValue) : Layout :=
  match d with
  | some s => [.symbol s.symbol, between]
  | none => []

/-- Types behind an introduction and with a punctuator between them, or nothing if there is none. -/
def typeList (introduction : Layout) (p : Punctuator) (l : IndexedList TypeReference) : Layout :=
  if l.isEmpty then [] else introduction ++ punctuated p (l.toList.map (·.layout))

def interfaceClause (l : IndexedList TypeReference) : Layout :=
  typeList [space, word "implements", space] .ampersand l

def memberClause (l : IndexedList TypeReference) : Layout :=
  typeList [space, punctuator .equals, space] .pipe l

end Layout

def RootOperation.layout (r : RootOperation) : Layout :=
  [word r.type.keyword, punctuator .colon, space, word r.namedType]

/-- The schema; an extension may have no block. -/
def SchemaDefinition.layout (isExtension : Bool) (s : SchemaDefinition) : Layout :=
  descriptionClause (newline 0) s.description ++ word "schema" :: directiveList s.directives ++
    (if isExtension && s.roots.isEmpty then []
      else space :: block 0 (s.roots.toList.map (·.layout)))

/-- An input value whose description is set off by `between`. -/
def InputValueDefinition.layout (between : Piece) (i : InputValueDefinition) : Layout :=
  descriptionClause between i.description ++ word i.name :: typeClause i.type ++
    defaultClause i.defaultValue ++ directiveList i.directives

namespace Layout

/-- Definitions of arguments, on the line of what takes them. -/
def argumentDefinitionList (l : IndexedList InputValueDefinition) : Layout :=
  optionalParens (l.toList.map (·.layout space))

end Layout

def FieldDefinition.layout (f : FieldDefinition) : Layout :=
  descriptionClause (newline 1) f.description ++ word f.name :: argumentDefinitionList f.arguments ++
    typeClause f.type ++ directiveList f.directives

def EnumValueDefinition.layout (v : EnumValueDefinition) : Layout :=
  descriptionClause (newline 1) v.description ++ word v.name :: directiveList v.directives

def TypeDefinition.layout (t : TypeDefinition) : Layout :=
  descriptionClause (newline 0) t.description ++ [word t.kind.keyword, space, word t.name] ++
  match t.body with
  | .scalar => directiveList t.directives
  | .object is fields | .interface is fields =>
    interfaceClause is ++ directiveList t.directives ++
      optionalBlock 0 (fields.toList.map (·.layout))
  | .union members => directiveList t.directives ++ memberClause members
  | .enum values => directiveList t.directives ++ optionalBlock 0 (values.toList.map (·.layout))
  | .inputObject fields =>
    directiveList t.directives ++ optionalBlock 0 (fields.toList.map (·.layout (newline 1)))

def DirectiveDefinition.layout (d : DirectiveDefinition) : Layout :=
  descriptionClause (newline 0) d.description ++
    [word "directive", space, punctuator .atSign, word d.name] ++
    argumentDefinitionList d.arguments ++
    (if d.repeatable then [space, word "repeatable"] else []) ++
    [space, word "on", space] ++ punctuated .pipe (d.locations.toList.map ([word ·.text]))

end GraphQL
