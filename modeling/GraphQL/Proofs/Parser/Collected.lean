import GraphQL.Parser.Descent.Basic
import GraphQL.Parser.Repetition
import GraphQL.Proofs.IndexedList.Sequences

/-! Repeated elements collected in a list. Each is added to the list of those before it, so the list is reversed when no
more follow. The repetitions of the parsers, which put each element in front of those behind it, come to the same. -/
namespace GraphQL

namespace IndexedList
variable {α β : Type}

/-- What one round of a loop comes upon. -/
inductive Round (α : Type) where
  | stop
  | last (a : α)
  | more (a : α)

namespace Round

/-- What a round comes to. -/
def elim (stop : β) (last more : α → β) : Round α → β
  | .stop => stop
  | .last a => last a
  | .more a => more a

end Round

variable {m : Type → Type} [Monad m]

/-- Adds the elements of one round after another to a list, and reverses the list at the end. Behind the last round only
`finish` is done. -/
def collect (round : m (Round α)) (finish : m Unit) (added : IndexedList α) : (rounds : Nat) → m (IndexedList α)
  | 0 => do
    finish
    return added.intoReversed
  | rounds + 1 => do
    (← round).elim (return added.intoReversed) (fun a => return (added.add a).intoReversed) fun a =>
      collect round finish (added.add a) rounds

/-- The loop puts the element of a round in front of what the other rounds give. -/
structure PutsInFront (round : m (Round α)) (finish : m Unit) (loop : Nat → m (IndexedList α)) : Prop where
  zero : loop 0 = finish >>= fun _ => pure .nil
  succ : ∀ rounds, loop (rounds + 1) = round >>= fun r => r.elim (pure .nil) (fun a => pure (.add .nil a)) fun a =>
    loop rounds >>= fun rest => pure (rest.add a)

namespace PutsInFront
variable [LawfulMonad m] {round : m (Round α)} {finish : m Unit} {loop : Nat → m (IndexedList α)}

/-- Nothing but values counts in what the loop gives. -/
theorem ofList_toList (h : PutsInFront round finish loop) (rounds : Nat) :
    (loop rounds >>= fun l => pure (ofList l.toList)) = loop rounds := by
  induction rounds with
  | zero => simp [h.zero, toList, ofList]
  | succ rounds ih =>
    rw [h.succ, bind_assoc]
    refine bind_congr fun r => ?_
    cases r with
    | stop => simp [Round.elim, toList, ofList]
    | last a => simp [Round.elim, toList, ofList]
    | more a =>
      have rest := congrArg (· >>= fun rest => pure (rest.add a)) ih
      simpa [Round.elim, ofList_cons] using rest

theorem collect_eq_bind (h : PutsInFront round finish loop) (added : IndexedList α) (rounds : Nat) :
    collect round finish added rounds =
      loop rounds >>= fun rest => pure (ofList (added.toList.reverse ++ rest.toList)) := by
  have reversed (l : IndexedList α) : l.intoReversed = ofList l.toList.reverse :=
    (numbered_intoReversed l).ext (numbered_ofList _) (by simp)
  induction rounds generalizing added with
  | zero => simp [collect, h.zero, reversed, toList]
  | succ rounds ih =>
    rw [collect, h.succ, bind_assoc]
    refine bind_congr fun r => ?_
    cases r with
    | stop => simp [Round.elim, reversed, toList]
    | last a => simp [Round.elim, reversed, toList]
    | more a => simp [Round.elim, ih]

/-- The list that is reversed at the end is that of the loop. -/
theorem collect_eq (h : PutsInFront round finish loop) (rounds : Nat) :
    collect round finish .nil rounds = loop rounds :=
  (h.collect_eq_bind .nil rounds).trans (h.ofList_toList rounds)

/-- Where there is a first element already, the loop goes on behind it. -/
theorem collect_add_eq (h : PutsInFront round finish loop) (first : α) (rounds : Nat) :
    collect round finish (.add .nil first) rounds = loop rounds >>= fun rest => pure (rest.add first) := by
  have rest := congrArg (· >>= fun rest => pure (rest.add first)) (h.ofList_toList rounds)
  rw [h.collect_eq_bind]
  simpa [toList, ofList_cons] using rest

end PutsInFront

/-- An element, unless the answer is that none follows. -/
def roundUnless (ended : m Bool) (item : m α) : m (Round α) := do
  if ← ended then return .stop
  return .more (← item)

/-- An element, and whether it is the last one. -/
def roundUntil (item : m α) (closed : m Bool) : m (Round α) := do
  let a ← item
  if ← closed then return .last a
  return .more a

variable [LawfulMonad m] {finish : m Unit} {loop : Nat → m (IndexedList α)}

theorem PutsInFront.unless {ended : m Bool} {item : m α} (zero : loop 0 = finish >>= fun _ => pure .nil)
    (succ : ∀ rounds, loop (rounds + 1) = ended >>= fun b =>
      if b then pure .nil else item >>= fun a => loop rounds >>= fun rest => pure (rest.add a)) :
    PutsInFront (roundUnless ended item) finish loop where
  zero := zero
  succ rounds := by
    rw [succ, roundUnless, bind_assoc]
    refine bind_congr fun b => ?_
    cases b <;> simp [Round.elim]

theorem PutsInFront.until {closed : m Bool} {item : m α} (zero : loop 0 = finish >>= fun _ => pure .nil)
    (succ : ∀ rounds, loop (rounds + 1) = item >>= fun a => closed >>= fun b =>
      if b then pure (.add .nil a) else loop rounds >>= fun rest => pure (rest.add a)) :
    PutsInFront (roundUntil item closed) finish loop where
  zero := zero
  succ rounds := by
    rw [succ, roundUntil, bind_assoc]
    refine bind_congr fun a => ?_
    rw [bind_assoc]
    refine bind_congr fun b => ?_
    cases b <;> simp [Round.elim]

end IndexedList

namespace Parser
open IndexedList
variable {α : Type} {item : Parser α}

private theorem putsInFront_manyThroughWithin (close : Punctuator) :
    PutsInFront (roundUnless (accept close) item) (expect close) (manyThroughWithin close item) :=
  .unless rfl fun _ => rfl

private theorem putsInFront_manyAfterWithin (lead : Punctuator) :
    PutsInFront (roundUnless (not <$> accept lead) item) (pure ()) (manyAfterWithin lead item) :=
  .unless rfl fun rounds => by
    rw [manyAfterWithin, bind_map_left]
    refine bind_congr fun more => ?_
    cases more <;> rfl

/-- Elements up to the closing punctuator are added to a list, which is reversed behind it. -/
theorem manyThrough_eq_collect (close : Punctuator) : manyThrough close item =
    get >>= fun s => collect (roundUnless (accept close) item) (expect close) .nil (s.unread.length + 1) :=
  bind_congr fun _ => ((putsInFront_manyThroughWithin close).collect_eq _).symm

theorem someThrough_eq_collect (close : Punctuator) : someThrough close item =
    item >>= fun first => get >>= fun s =>
      collect (roundUnless (accept close) item) (expect close) (.add .nil first) (s.unread.length + 1) := by
  refine bind_congr fun first => ?_
  rw [manyThrough, bind_assoc]
  exact bind_congr fun _ => ((putsInFront_manyThroughWithin close).collect_add_eq first _).symm

theorem manyAfter_eq_collect (lead : Punctuator) : manyAfter lead item =
    get >>= fun s => collect (roundUnless (not <$> accept lead) item) (pure ()) .nil (s.unread.length + 1) :=
  bind_congr fun _ => ((putsInFront_manyAfterWithin lead).collect_eq _).symm

theorem someSeparated_eq_collect (separator : Punctuator) : someSeparated separator item =
    accept separator >>= fun _ => item >>= fun first => get >>= fun s =>
      collect (roundUnless (not <$> accept separator) item) (pure ()) (.add .nil first) (s.unread.length + 1) := by
  refine bind_congr fun _ => bind_congr fun first => ?_
  rw [manyAfter, bind_assoc]
  exact bind_congr fun _ => ((putsInFront_manyAfterWithin separator).collect_add_eq first _).symm

private theorem putsInFront_manyToEndWithin :
    PutsInFront (roundUnless isAtEnd item) (pure ()) (manyToEndWithin item) :=
  .unless rfl fun _ => rfl

theorem manyToEnd_eq_collect : manyToEnd item =
    get >>= fun s => collect (roundUnless isAtEnd item) (pure ()) .nil (s.unread.length + 1) :=
  bind_congr fun _ => (putsInFront_manyToEndWithin.collect_eq _).symm

/-- The definitions of a document, of which the first one is read before the end is asked for. -/
theorem manyToEnd_add_eq_collect (first : α) : (manyToEnd item >>= fun rest => pure (rest.add first)) =
    get >>= fun s => collect (roundUnless isAtEnd item) (pure ()) (.add .nil first) (s.unread.length + 1) := by
  rw [manyToEnd, bind_assoc]
  exact bind_congr fun _ => (putsInFront_manyToEndWithin.collect_add_eq first _).symm

end Parser

namespace Descent
open GraphQL.Parser (accept isAtEnd)
open IndexedList
variable {α : Type} {item : Descent α}

theorem manyThrough_eq_collect (close : Punctuator) (fuel : Nat) : manyThrough close item fuel =
    collect (roundUnless (step (accept close)) item) (throw .exhausted) .nil fuel := by
  have loop : PutsInFront (roundUnless (step (accept close)) item) (throw .exhausted) (manyThrough close item) :=
    .unless rfl fun _ => rfl
  exact (loop.collect_eq fuel).symm

/-- Here the first element takes a round like all others. -/
theorem someThrough_eq_collect (close : Punctuator) (fuel : Nat) : someThrough close item fuel =
    collect (roundUntil item (step (accept close))) (throw .exhausted) .nil fuel := by
  have loop : PutsInFront (roundUntil item (step (accept close))) (throw .exhausted) (someThrough close item) :=
    .until rfl fun _ => rfl
  exact (loop.collect_eq fuel).symm

private theorem putsInFront_manyAfter (lead : Punctuator) :
    PutsInFront (roundUnless (not <$> step (accept lead)) item) (throw .exhausted) (manyAfter lead item) :=
  .unless rfl fun fuel => by
    rw [manyAfter, bind_map_left]
    refine bind_congr fun more => ?_
    cases more <;> rfl

theorem manyAfter_eq_collect (lead : Punctuator) (fuel : Nat) : manyAfter lead item fuel =
    collect (roundUnless (not <$> step (accept lead)) item) (throw .exhausted) .nil fuel :=
  ((putsInFront_manyAfter lead).collect_eq fuel).symm

theorem someSeparated_eq_collect (separator : Punctuator) (fuel : Nat) : someSeparated separator item fuel =
    step (accept separator) >>= fun _ => item >>= fun first =>
      collect (roundUnless (not <$> step (accept separator)) item) (throw .exhausted) (.add .nil first) fuel := by
  refine bind_congr fun _ => bind_congr fun first => ?_
  exact ((putsInFront_manyAfter separator).collect_add_eq first fuel).symm

theorem manyToEnd_eq_collect (fuel : Nat) : manyToEnd item fuel =
    collect (roundUnless (step isAtEnd) item) (throw .exhausted) .nil fuel := by
  have loop : PutsInFront (roundUnless (step isAtEnd) item) (throw .exhausted) (manyToEnd item) :=
    .unless rfl fun _ => rfl
  exact (loop.collect_eq fuel).symm

end Descent
end GraphQL
