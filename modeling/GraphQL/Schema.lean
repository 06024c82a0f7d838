import GraphQL.Document
import GraphQL.Registry

/-! Schemas: named types and directives, and the types at the root of each kind of operation. -/
namespace GraphQL

/-- The names of the types at the roots. -/
structure RootTypes where
  query : Option String
  mutation : Option String
  subscription : Option String
  deriving DecidableEq

namespace RootTypes

def none : RootTypes := ⟨.none, .none, .none⟩

def get (r : RootTypes) : OperationType → Option String
  | .query => r.query
  | .mutation => r.mutation
  | .subscription => r.subscription

def set (r : RootTypes) (type : OperationType) (name : String) : RootTypes :=
  match type with
  | .query => { r with query := some name }
  | .mutation => { r with mutation := some name }
  | .subscription => { r with subscription := some name }

end RootTypes

/-- Types and directives stand in the order of their definitions, with their extensions merged in. The
definition of the schema itself may be absent. -/
structure Schema where
  definition : Option SchemaDefinition
  roots : RootTypes
  types : Registry TypeDefinition
  directives : Registry DirectiveDefinition
  deriving DecidableEq

namespace Schema

def empty : Schema := ⟨none, .none, .empty, .empty⟩

/-- Whether a schema definition or a root type is known. -/
def isDefined (s : Schema) : Bool :=
  s.definition.isSome || s.roots.query.isSome || s.roots.mutation.isSome ||
    s.roots.subscription.isSome

end Schema
end GraphQL
