import GraphQL.IndexedList
import GraphQL.Parser.Basic

/-! Repeated grammar elements. Each element takes a token, so the unread tokens bound the number of
rounds; the functions that count rounds down behave at zero as if no further element followed. -/
namespace GraphQL.Parser
variable {α : Type}

/-- Elements up to the closing punctuator, in at most `rounds` rounds. -/
def manyThroughWithin (close : Punctuator) (item : Parser α) :
    (rounds : Nat) → Parser (IndexedList α)
  | 0 => do
    expect close
    return .nil
  | rounds + 1 => do
    if ← accept close then return .nil
    let first ← item
    return (← manyThroughWithin close item rounds).add first

/-- Any number of elements and the punctuator that closes them. -/
def manyThrough (close : Punctuator) (item : Parser α) : Parser (IndexedList α) := do
  manyThroughWithin close item ((← get).unread.length + 1)

/-- At least one element and the punctuator that closes them. -/
def someThrough (close : Punctuator) (item : Parser α) : Parser (IndexedList α) := do
  let first ← item
  return (← manyThrough close item).add first

/-- Elements that each stand behind a punctuator, in at most `rounds` rounds. -/
def manyAfterWithin (lead : Punctuator) (item : Parser α) :
    (rounds : Nat) → Parser (IndexedList α)
  | 0 => return .nil
  | rounds + 1 => do
    if ← accept lead then
      let first ← item
      return (← manyAfterWithin lead item rounds).add first
    return .nil

/-- Any number of elements that each stand behind the punctuator `lead`. -/
def manyAfter (lead : Punctuator) (item : Parser α) : Parser (IndexedList α) := do
  manyAfterWithin lead item ((← get).unread.length + 1)

/-- At least one element, with a separator between each two and perhaps one in front. -/
def someSeparated (separator : Punctuator) (item : Parser α) : Parser (IndexedList α) := do
  let _ ← accept separator
  let first ← item
  return (← manyAfter separator item).add first

/-- The elements between two punctuators, at least one; none without the opening one. -/
def optionalBlock (opening close : Punctuator) (item : Parser α) : Parser (IndexedList α) := do
  if ← accept opening then someThrough close item else return .nil

/-- Elements up to the end of input, in at most `rounds` rounds. -/
def manyToEndWithin (item : Parser α) : (rounds : Nat) → Parser (IndexedList α)
  | 0 => return .nil
  | rounds + 1 => do
    if ← isAtEnd then return .nil
    let first ← item
    return (← manyToEndWithin item rounds).add first

/-- Elements up to the end of input. -/
def manyToEnd (item : Parser α) : Parser (IndexedList α) := do
  manyToEndWithin item ((← get).unread.length + 1)

end GraphQL.Parser
