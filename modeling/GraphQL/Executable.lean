import GraphQL.TypeReference
import GraphQL.Value

/-! Operations and fragments. -/
namespace GraphQL

/-- A directive annotation, without the at sign of its name. -/
structure Directive where
  name : String
  arguments : IndexedList Argument
  deriving DecidableEq

/-- A variable of an operation, without its dollar sign. -/
structure VariableDefinition where
  name : String
  type : TypeReference
  defaultValue : Option Value
  directives : IndexedList Directive
  deriving DecidableEq

inductive Selection where
  | field (aliasName : Option String) (name : String) (arguments : IndexedList Argument)
      (directives : IndexedList Directive) (selections : Option (IndexedList Selection))
  | spread (name : String) (directives : IndexedList Directive)
  | inlineFragment (typeCondition : Option String) (directives : IndexedList Directive)
      (selections : IndexedList Selection)

abbrev SelectionSet := IndexedList Selection

inductive SelectionKind where
  | field
  | spread
  | inlineFragment
  deriving DecidableEq

/-- The key under which the result of a field is stored. -/
def responseKey (aliasName : Option String) (name : String) : String := aliasName.getD name

namespace Selection

def kind : Selection → SelectionKind
  | .field .. => .field
  | .spread .. => .spread
  | .inlineFragment .. => .inlineFragment

mutual

/-- Whether two selections are the same, stored positions included. -/
def same : Selection → Selection → Bool
  | .field a m as ds none, .field b n bs es none => a == b && m == n && as == bs && ds == es
  | .field a m as ds (some ss), .field b n bs es (some ts) =>
    a == b && m == n && as == bs && ds == es && sameSet ss ts
  | .spread m ds, .spread n es => m == n && ds == es
  | .inlineFragment a ds ss, .inlineFragment b es ts => a == b && ds == es && sameSet ss ts
  | _, _ => false

def sameSet : IndexedList Selection → IndexedList Selection → Bool
  | .nil, .nil => true
  | .cons p a as, .cons q b bs => p == q && same a b && sameSet as bs
  | _, _ => false

end

mutual

theorem same_iff : ∀ a b : Selection, same a b = true ↔ a = b
  | .field _ _ _ _ none, b => by
    rcases b with ⟨_, _, _, _, _ | _⟩ | _ | _ <;> simp [same, and_assoc]
  | .field _ _ _ _ (some ss), b => by
    rcases b with ⟨_, _, _, _, _ | _⟩ | _ | _ <;> simp [same, sameSet_iff ss, and_assoc]
  | .spread .., b => by cases b <;> simp [same]
  | .inlineFragment _ _ ss, b => by cases b <;> simp [same, sameSet_iff ss, and_assoc]

theorem sameSet_iff : ∀ as bs : IndexedList Selection, sameSet as bs = true ↔ as = bs
  | .nil, bs => by cases bs <;> simp [sameSet]
  | .cons _ a as, bs => by cases bs <;> simp [sameSet, same_iff a, sameSet_iff as, and_assoc]

end

instance : DecidableEq Selection := fun a b => decidable_of_iff _ (same_iff a b)

end Selection

inductive OperationType where
  | query
  | mutation
  | subscription
  deriving DecidableEq

namespace OperationType

def keyword : OperationType → String
  | query => "query"
  | mutation => "mutation"
  | subscription => "subscription"

def ofKeyword? : String → Option OperationType
  | "query" => some query
  | "mutation" => some mutation
  | "subscription" => some subscription
  | _ => none

end OperationType

structure OperationDefinition where
  type : OperationType
  name : Option String
  variableDefinitions : IndexedList VariableDefinition
  directives : IndexedList Directive
  selections : SelectionSet
  deriving DecidableEq

/-- Whether the operation may be written as its selection set alone. -/
def OperationDefinition.isShorthand (o : OperationDefinition) : Bool :=
  o.type = .query && o.name.isNone && o.variableDefinitions.isEmpty && o.directives.isEmpty

structure FragmentDefinition where
  name : String
  typeCondition : String
  directives : IndexedList Directive
  selections : SelectionSet
  deriving DecidableEq

end GraphQL
