import GraphQL.Proofs.Registry
import GraphQL.Schema.Build

/-! The definitions and extensions of each sort in a document. -/
namespace GraphQL

namespace Definition

def schemaDefinition? : Definition → Option SchemaDefinition
  | typeSystem (.schema x) => some x
  | _ => none

def directiveDefinition? : Definition → Option DirectiveDefinition
  | typeSystem (.directive x) => some x
  | _ => none

def schemaExtension? : Definition → Option SchemaDefinition
  | extension (.schema x) => some x
  | _ => none

def typeExtension? : Definition → Option TypeDefinition
  | extension (.type t) => some t
  | _ => none

end Definition

namespace Schema

def schemaExtensions (d : Document) : List SchemaDefinition :=
  d.definitions.toList.filterMap (·.schemaExtension?)

def typeExtensions (d : Document) : List TypeDefinition :=
  d.definitions.toList.filterMap (·.typeExtension?)

end Schema

namespace Document

def schemaDefinitions (d : Document) : List SchemaDefinition :=
  d.definitions.toList.filterMap (·.schemaDefinition?)

def directiveDefinitions (d : Document) : List DirectiveDefinition :=
  d.definitions.toList.filterMap (·.directiveDefinition?)

theorem mem_of_mem_schemaDefinitions {d : Document} {x : SchemaDefinition} (h : x ∈ d.schemaDefinitions) :
    .typeSystem (.schema x) ∈ d.definitions.toList := by
  obtain ⟨a, ha, same⟩ := List.mem_filterMap.mp h
  rcases a with _ | (_ | _ | _) | _ <;> cases same
  exact ha

theorem mem_of_mem_typeDefinitions {d : Document} {t : TypeDefinition} (h : t ∈ d.typeDefinitions) :
    .typeSystem (.type t) ∈ d.definitions.toList := by
  obtain ⟨a, ha, same⟩ := List.mem_filterMap.mp h
  rcases a with _ | (_ | _ | _) | _ <;> cases same
  exact ha

theorem mem_of_mem_directiveDefinitions {d : Document} {x : DirectiveDefinition}
    (h : x ∈ d.directiveDefinitions) : .typeSystem (.directive x) ∈ d.definitions.toList := by
  obtain ⟨a, ha, same⟩ := List.mem_filterMap.mp h
  rcases a with _ | (_ | _ | _) | _ <;> cases same
  exact ha

theorem mem_of_mem_schemaExtensions {d : Document} {x : SchemaDefinition}
    (h : x ∈ Schema.schemaExtensions d) : .extension (.schema x) ∈ d.definitions.toList := by
  obtain ⟨a, ha, same⟩ := List.mem_filterMap.mp h
  rcases a with _ | _ | (_ | _) <;> cases same
  exact ha

theorem mem_of_mem_typeExtensions {d : Document} {t : TypeDefinition} (h : t ∈ Schema.typeExtensions d) :
    .extension (.type t) ∈ d.definitions.toList := by
  obtain ⟨a, ha, same⟩ := List.mem_filterMap.mp h
  rcases a with _ | _ | (_ | _) <;> cases same
  exact ha

/-- The types that are defined, under their names. -/
def types (d : Document) : Registry TypeDefinition := .ofList (·.name) d.typeDefinitions

/-- The directives that are defined, under their names. -/
def directives (d : Document) : Registry DirectiveDefinition := .ofList (·.name) d.directiveDefinitions

end Document

end GraphQL
