/-! Lists that grow at the head and remember each element's place of insertion. The head of a list
of `n` elements stands at position `n - 1` and its last element at position `0`. -/
namespace GraphQL

/-- A chain of positioned elements, head first. -/
inductive IndexedList (α : Type) where
  | nil : IndexedList α
  | cons (position : Nat) (value : α) (rest : IndexedList α) : IndexedList α
  deriving DecidableEq

namespace IndexedList
variable {α β : Type}

instance : Inhabited (IndexedList α) := ⟨nil⟩

def isEmpty : IndexedList α → Bool
  | nil => true
  | cons .. => false

def len : IndexedList α → Nat
  | nil => 0
  | cons _ _ rest => rest.len + 1

def first : IndexedList α → Option α
  | nil => none
  | cons _ a _ => some a

/-- The values from head to tail. -/
def toList : IndexedList α → List α
  | nil => []
  | cons _ a rest => a :: rest.toList

/-- The stored positions and values from head to tail. -/
def positioned : IndexedList α → List (Nat × α)
  | nil => []
  | cons p a rest => (p, a) :: rest.positioned

/-- A copy of each element, with its position. -/
def clone (l : IndexedList α) : IndexedList α :=
  l.positioned.foldr (fun (p, a) rest => cons p a rest) nil

@[simp] theorem clone_eq_self (l : IndexedList α) : l.clone = l := by
  induction l with
  | nil => rfl
  | cons p a rest ih => exact congrArg (cons p a) ih

/-- Positions and values are all that there is in a list. -/
theorem eq_of_positioned_eq {l m : IndexedList α} (same : l.positioned = m.positioned) : l = m := by
  rw [← l.clone_eq_self, ← m.clone_eq_self, clone, clone, same]

/-- Lists are compared by their positions and values, from head to tail. -/
instance [BEq α] : BEq (IndexedList α) := ⟨fun l m => l.positioned == m.positioned⟩

instance [BEq α] [LawfulBEq α] : LawfulBEq (IndexedList α) where
  eq_of_beq same := eq_of_positioned_eq (eq_of_beq same)
  rfl {l} := beq_self_eq_true l.positioned

/-- The place that the next element of a list takes: one above its head, zero in an empty list. -/
def nextPosition : IndexedList α → Nat
  | nil => 0
  | cons p _ _ => p + 1

/-- A new head; no other element moves. -/
def add (l : IndexedList α) (a : α) : IndexedList α :=
  cons l.nextPosition a l

/-- Every position raised by `n`, in front of the chain `tail`. -/
def shiftOnto (n : Nat) (tail : IndexedList α) : IndexedList α → IndexedList α
  | nil => tail
  | cons p a rest => cons (p + n) a (shiftOnto n tail rest)

/-- The elements of `other` after those of `l`. Those of `other` keep their positions. -/
def join (l other : IndexedList α) : IndexedList α :=
  shiftOnto other.len other l

/-- The values in opposite order, added one by one to an empty list. -/
def reverse (l : IndexedList α) : IndexedList α :=
  l.toList.foldl add nil

/-- Relinks a chain onto `done`, numbering its elements upward from `p`. -/
def relink (p : Nat) (done : IndexedList α) : IndexedList α → IndexedList α
  | nil => done
  | cons _ a rest => relink (p + 1) (cons p a done) rest

/-- The opposite order again, by relinking the elements in one pass. -/
def intoReversed (l : IndexedList α) : IndexedList α :=
  relink 0 nil l

/-- The list whose order from head to tail is that of `as`. -/
def ofList (as : List α) : IndexedList α :=
  as.foldr (fun a l => l.add a) nil

def map (f : α → β) : IndexedList α → IndexedList β
  | nil => nil
  | cons p a rest => cons p (f a) (rest.map f)

/-- Values with their distance from the head, which is not their position. -/
def enumerate (l : IndexedList α) : List (α × Nat) :=
  l.toList.zipIdx

end IndexedList
end GraphQL
