import GraphQL.IndexedList
import GraphQL.Parser.Basic

/-! Recursive descent with a counter. The state holds how many levels are open: who opens one counts up, and counts down
again behind its end. Only fuel bounds the loops and the nested calls, and without it there is no result. That tokens
are fuel enough is left to proofs. -/
namespace GraphQL

namespace Descent

/-- What stops a descent. -/
inductive Stop where
  | failed (e : SyntaxError)
  /-- A level was to be left where none is open. -/
  | underflow
  /-- The fuel is used up before the end is reached. -/
  | exhausted

/-- Where a descent is: the stream, and the number of levels entered and not left. -/
structure Point where
  stream : TokenStream
  depth : Nat

/-- A point, and the points at which the descent looked at its next token before, the latest first. -/
structure State where
  point : Point
  past : List Point

/-- The state in which a descent into tokens begins. -/
def State.ofTokens (tokens : List Token) : State := ⟨⟨.ofTokens tokens, 0⟩, []⟩

end Descent

/-- A parser that counts. Where it stops it leaves the state as it is. -/
abbrev Descent (α : Type) := EStateM Descent.Stop Descent.State α

namespace Descent
open GraphQL.Parser (accept isAtEnd nestingExceeded maxNesting)
variable {α : Type}

/-- A parser that looks at no more than the next token, as one step. -/
def step (p : Parser α) : Descent α := fun σ =>
  let past := σ.point :: σ.past
  match p σ.point.stream with
  | .ok a s => .ok a ⟨⟨s, σ.point.depth⟩, past⟩
  | .error e s => .error (.failed e) ⟨⟨s, σ.point.depth⟩, past⟩

/-- Counts up, and fails behind the token that opens a level too many. -/
def enterNested : Descent Unit := do
  modify fun σ => { σ with point.depth := σ.point.depth + 1 }
  if maxNesting < (← get).point.depth then step nestingExceeded

/-- Counts down. -/
def exitNested : Descent Unit := do
  match (← get).point.depth with
  | 0 => throw .underflow
  | depth + 1 => modify fun σ => { σ with point.depth := depth }

/-- The same descent with a change to its errors. -/
def mapError (f : SyntaxError → SyntaxError) (p : Descent α) : Descent α := fun σ =>
  match p σ with
  | .error (.failed e) σ => .error (.failed (f e)) σ
  | outcome => outcome

/-- Elements up to the closing punctuator. -/
def manyThrough (close : Punctuator) (item : Descent α) : (fuel : Nat) → Descent (IndexedList α)
  | 0 => throw .exhausted
  | fuel + 1 => do
    if ← step (accept close) then return .nil
    let first ← item
    return (← manyThrough close item fuel).add first

/-- At least one element and the punctuator that closes them. -/
def someThrough (close : Punctuator) (item : Descent α) : (fuel : Nat) → Descent (IndexedList α)
  | 0 => throw .exhausted
  | fuel + 1 => do
    let first ← item
    if ← step (accept close) then return .add .nil first
    return (← someThrough close item fuel).add first

/-- Any number of elements that each stand behind the punctuator `lead`. -/
def manyAfter (lead : Punctuator) (item : Descent α) : (fuel : Nat) → Descent (IndexedList α)
  | 0 => throw .exhausted
  | fuel + 1 => do
    if ← step (accept lead) then
      let first ← item
      return (← manyAfter lead item fuel).add first
    return .nil

/-- Elements up to the end of input. -/
def manyToEnd (item : Descent α) : (fuel : Nat) → Descent (IndexedList α)
  | 0 => throw .exhausted
  | fuel + 1 => do
    if ← step isAtEnd then return .nil
    let first ← item
    return (← manyToEnd item fuel).add first

/-- At least one element, with a separator between each two and perhaps one in front. -/
def someSeparated (separator : Punctuator) (item : Descent α) (fuel : Nat) : Descent (IndexedList α) := do
  let _ ← step (accept separator)
  let first ← item
  return (← manyAfter separator item fuel).add first

/-- The elements between two punctuators, at least one; none without the opening one. -/
def optionalBlock (opening close : Punctuator) (item : Descent α) (fuel : Nat) : Descent (IndexedList α) := do
  if ← step (accept opening) then someThrough close item fuel else return .nil

end Descent
end GraphQL
