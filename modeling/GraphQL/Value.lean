import GraphQL.IndexedList

/-! Input values as they are written. Numbers keep their text. -/
namespace GraphQL

/-- The content of a string, and whether it is written as a block string. -/
structure StringValue where
  text : String
  isBlock : Bool
  deriving DecidableEq

/-- Something with a name: an argument or a field of an input object. -/
structure Named (α : Type) where
  name : String
  value : α
  deriving DecidableEq

inductive Value where
  /-- A variable, without its dollar sign. -/
  | variable (name : String)
  | int (literal : String)
  | float (literal : String)
  | string (s : StringValue)
  | boolean (b : Bool)
  | null
  | enum (name : String)
  | list (items : IndexedList Value)
  | object (fields : IndexedList (Named Value))

abbrev Argument := Named Value

inductive ValueKind where
  | variable
  | int
  | float
  | string
  | boolean
  | null
  | enum
  | list
  | object
  deriving DecidableEq

namespace Value

def kind : Value → ValueKind
  | .variable _ => .variable
  | .int _ => .int
  | .float _ => .float
  | .string _ => .string
  | .boolean _ => .boolean
  | .null => .null
  | .enum _ => .enum
  | .list _ => .list
  | .object _ => .object

/-- The content of either kind of string. -/
def text? : Value → Option String
  | .string s => some s.text
  | _ => none

mutual

/-- Whether two values are the same, stored positions included. -/
def same : Value → Value → Bool
  | .variable a, .variable b => a == b
  | .int a, .int b => a == b
  | .float a, .float b => a == b
  | .string a, .string b => a == b
  | .boolean a, .boolean b => a == b
  | .null, .null => true
  | .enum a, .enum b => a == b
  | .list a, .list b => sameItems a b
  | .object a, .object b => sameFields a b
  | _, _ => false

def sameItems : IndexedList Value → IndexedList Value → Bool
  | .nil, .nil => true
  | .cons p a as, .cons q b bs => p == q && same a b && sameItems as bs
  | _, _ => false

def sameFields : IndexedList (Named Value) → IndexedList (Named Value) → Bool
  | .nil, .nil => true
  | .cons p ⟨m, a⟩ as, .cons q ⟨n, b⟩ bs => p == q && m == n && same a b && sameFields as bs
  | _, _ => false

end

mutual

theorem same_iff : ∀ a b : Value, same a b = true ↔ a = b
  | .variable _, b | .int _, b | .float _, b | .string _, b | .boolean _, b | .null, b
  | .enum _, b => by cases b <;> simp [same]
  | .list as, b => by cases b <;> simp [same, sameItems_iff as]
  | .object as, b => by cases b <;> simp [same, sameFields_iff as]

theorem sameItems_iff : ∀ as bs : IndexedList Value, sameItems as bs = true ↔ as = bs
  | .nil, bs => by cases bs <;> simp [sameItems]
  | .cons _ a as, bs => by cases bs <;> simp [sameItems, same_iff a, sameItems_iff as, and_assoc]

theorem sameFields_iff : ∀ as bs : IndexedList (Named Value), sameFields as bs = true ↔ as = bs
  | .nil, bs => by cases bs <;> simp [sameFields]
  | .cons _ ⟨_, a⟩ as, .nil => by simp [sameFields]
  | .cons _ ⟨_, a⟩ as, .cons _ ⟨_, _⟩ _ => by
    simp [sameFields, same_iff a, sameFields_iff as, and_assoc]

end

instance : DecidableEq Value := fun a b => decidable_of_iff _ (same_iff a b)

end Value
end GraphQL
