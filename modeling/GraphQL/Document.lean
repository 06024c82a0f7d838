import GraphQL.TypeSystem

/-! Documents: executable definitions, type system definitions and extensions in any mixture. Nodes
carry no place in the source, so documents that differ in layout only are equal. -/
namespace GraphQL

inductive ExecutableDefinition where
  | operation (o : OperationDefinition)
  | fragment (f : FragmentDefinition)
  deriving DecidableEq

inductive TypeSystemDefinition where
  | schema (s : SchemaDefinition)
  | type (t : TypeDefinition)
  | directive (d : DirectiveDefinition)
  deriving DecidableEq

/-- A part added to a schema or a type; its description is absent. -/
inductive TypeSystemExtension where
  | schema (s : SchemaDefinition)
  | type (t : TypeDefinition)
  deriving DecidableEq

inductive Definition where
  | executable (d : ExecutableDefinition)
  | typeSystem (d : TypeSystemDefinition)
  | extension (e : TypeSystemExtension)
  deriving DecidableEq

namespace Definition

def isExecutable : Definition → Bool
  | executable _ => true
  | _ => false

def operation? : Definition → Option OperationDefinition
  | executable (.operation o) => some o
  | _ => none

def fragment? : Definition → Option FragmentDefinition
  | executable (.fragment f) => some f
  | _ => none

/-- The type that is defined, not one that is extended. -/
def typeDefinition? : Definition → Option TypeDefinition
  | typeSystem (.type t) => some t
  | _ => none

end Definition

structure Document where
  definitions : IndexedList Definition
  deriving DecidableEq

namespace Document

def operations (d : Document) : List OperationDefinition :=
  d.definitions.toList.filterMap (·.operation?)

def fragments (d : Document) : List FragmentDefinition :=
  d.definitions.toList.filterMap (·.fragment?)

def typeDefinitions (d : Document) : List TypeDefinition :=
  d.definitions.toList.filterMap (·.typeDefinition?)

/-- The definitions of `other` behind those of `d`. -/
def join (d other : Document) : Document := ⟨d.definitions.join other.definitions⟩

end Document
end GraphQL
