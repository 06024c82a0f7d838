import GraphQL.IndexedList

/-! Several lists under names, and the ways in which they are made from each other. -/
namespace GraphQL.IndexedList
variable {α : Type}

/-- A list for every name; one that was never made is empty. -/
abbrev Family (α : Type) := String → IndexedList α

namespace Family

def empty : Family α := fun _ => nil

/-- The family with another list under one name. -/
def put (f : Family α) (name : String) (l : IndexedList α) : Family α :=
  fun n => if n = name then l else f n

end Family

/-- One change to a family. The first name is that of the list that changes, apart from `reverse` and
`clone`, which read it and make the second. -/
inductive Change (α : Type) where
  | add (l : String) (a : α)
  /-- Moves the elements of `m`, which is left empty. A list cannot be moved into itself. -/
  | join (l m : String)
  /-- Joins a copy of `m`, which may be the list itself. -/
  | joinClone (l m : String)
  | reverse (l m : String)
  | clone (l m : String)
  | intoReversed (l : String)
  | ofList (l : String) (as : List α)
  deriving DecidableEq

/-- The family after a change. -/
def Change.apply (f : Family α) : Change α → Family α
  | add l a => f.put l ((f l).add a)
  | join l m => if l = m then f else (f.put l ((f l).join (f m))).put m nil
  | joinClone l m => f.put l ((f l).join (f m).clone)
  | reverse l m => f.put m (f l).reverse
  | clone l m => f.put m (f l).clone
  | intoReversed l => f.put l (f l).intoReversed
  | ofList l as => f.put l (IndexedList.ofList as)

end GraphQL.IndexedList
