/-! Values under names, in the order in which the names were first inserted. This is what is documented of a hash table
that keeps the order of insertion, as far as nothing is taken out of it: a name is there once, a new name goes to the
end, a value that is inserted under a known name takes the place of the old one, and a value that is changed where it
is moves nothing. -/
namespace GraphQL

structure Registry (α : Type) where
  entries : List (String × α)
  deriving DecidableEq

namespace Registry
variable {α : Type}

def empty : Registry α := ⟨[]⟩

def size (r : Registry α) : Nat := r.entries.length

def get? (r : Registry α) (name : String) : Option α := r.entries.lookup name

def contains (r : Registry α) (name : String) : Bool := (r.get? name).isSome

/-- Changes the value under a name, if there is one. -/
def modify (r : Registry α) (name : String) (f : α → α) : Registry α :=
  ⟨r.entries.map fun (n, a) => if n = name then (n, f a) else (n, a)⟩

/-- Puts a value under a name. A name that is already there keeps its place. -/
def insert (r : Registry α) (name : String) (a : α) : Registry α :=
  if r.contains name then r.modify name fun _ => a else ⟨r.entries ++ [(name, a)]⟩

/-- Puts a value under a name that is not yet there. -/
def insertNew (r : Registry α) (name : String) (a : α) : Registry α :=
  if r.contains name then r else ⟨r.entries ++ [(name, a)]⟩

end Registry
end GraphQL
