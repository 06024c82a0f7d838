import GraphQL.Parser.Repetition
import GraphQL.Proofs.Parser.Conforms.Basic

/-! The repetitions as recursions without a count of rounds. An element that consumes a token leaves
fewer tokens than there are rounds left, so the count never runs out. -/
namespace GraphQL.Parser
variable {α β : Type}

/-- Every success consumes a token. -/
def Progress (p : Parser α) : Prop :=
  ∀ s a s', p s = .ok a s' → s'.unread.length < s.unread.length

/-- The parsers do the same where fewer than `n` tokens are unread. -/
private def AgreeBelow (n : Nat) (k k' : Parser β) : Prop :=
  ∀ s : TokenStream, s.unread.length < n → k s = k' s

/-- One round of a repetition goes on only behind a token that it consumes. -/
private def Local (round : Parser β → Parser β) : Prop :=
  ∀ k k' (s : TokenStream), AgreeBelow s.unread.length k k' → round k s = round k' s

private theorem rounds_agree {loop : Nat → Parser β} {round : Parser β → Parser β}
    (unfold : ∀ n, loop (n + 1) = round (loop n)) (hr : Local round) (n m : Nat) (s : TokenStream)
    (hn : s.unread.length < n) (hm : s.unread.length < m) : loop n s = loop m s := by
  induction n generalizing m s with
  | zero => omega
  | succ n ih =>
    rcases m with _ | m
    · omega
    rw [unfold, unfold]
    exact hr _ _ s fun s' h => ih m s' (by omega) (by omega)

/-- With one round more than there are unread tokens, their number says nothing. -/
private theorem rounds_eq (loop : Nat → Parser β) (round : Parser β → Parser β)
    (unfold : ∀ n, loop (n + 1) = round (loop n)) (hr : Local round) :
    (do loop ((← get).unread.length + 1)) = round (do loop ((← get).unread.length + 1)) := by
  funext s
  change loop (s.unread.length + 1) s = _
  rw [unfold]
  exact hr _ _ s fun s' h => rounds_agree unfold hr _ _ s' h (Nat.lt_succ_self _)

private theorem item_agree {item : Parser α} (h : Progress item) {k k' : Parser (IndexedList α)}
    {s : TokenStream} {n : Nat} (hk : AgreeBelow n k k') (hs : s.unread.length ≤ n) :
    (item >>= fun first => k >>= fun rest => pure (rest.add first)) s =
      (item >>= fun first => k' >>= fun rest => pure (rest.add first)) s := by
  cases hi : item s with
  | error e s' => rw [bind_error hi, bind_error hi]
  | ok a s' =>
    rw [bind_ok hi, bind_ok hi]
    have same : k s' = k' s' := hk s' (Nat.lt_of_lt_of_le (h s a s' hi) hs)
    cases hb : k' s' with
    | ok b s'' => rw [bind_ok (same.trans hb), bind_ok hb]
    | error e s'' => rw [bind_error (same.trans hb), bind_error hb]

theorem manyThrough_eq {close : Punctuator} {item : Parser α} (h : Progress item) :
    manyThrough close item = accept close >>= fun closed =>
      if closed then pure .nil else
        item >>= fun first => manyThrough close item >>= fun rest => pure (rest.add first) := by
  refine rounds_eq (manyThroughWithin close item)
    (fun k => accept close >>= fun closed =>
      if closed then pure .nil else item >>= fun first => k >>= fun rest => pure (rest.add first))
    (fun n => rfl) fun k k' s hk => ?_
  simp only [accept_run, reduceIte, Bool.false_eq_true]
  split
  · rfl
  · exact item_agree h hk (Nat.le_refl _)

theorem manyAfter_eq {lead : Punctuator} {item : Parser α} (h : Progress item) :
    manyAfter lead item = accept lead >>= fun more =>
      if more then
        item >>= fun first => manyAfter lead item >>= fun rest => pure (rest.add first)
      else pure .nil := by
  refine rounds_eq (manyAfterWithin lead item)
    (fun k => accept lead >>= fun more =>
      if more then item >>= fun first => k >>= fun rest => pure (rest.add first) else pure .nil)
    (fun n => rfl) fun k k' s hk => ?_
  simp only [accept_run, reduceIte, Bool.false_eq_true]
  split
  · exact item_agree h hk (by simp [TokenStream.advance])
  · rfl

theorem manyToEnd_eq {item : Parser α} (h : Progress item) :
    manyToEnd item = isAtEnd >>= fun atEnd =>
      if atEnd then pure .nil else
        item >>= fun first => manyToEnd item >>= fun rest => pure (rest.add first) := by
  refine rounds_eq (manyToEndWithin item)
    (fun k => isAtEnd >>= fun atEnd =>
      if atEnd then pure .nil else item >>= fun first => k >>= fun rest => pure (rest.add first))
    (fun n => rfl) fun k k' s hk => ?_
  simp only [isAtEnd_run]
  split
  · rfl
  · exact item_agree h hk (Nat.le_refl _)

theorem someThrough_eq {close : Punctuator} {item : Parser α} (progress : Progress item) :
    someThrough close item = item >>= fun first => accept close >>= fun closed =>
      if closed then pure (.add .nil first)
      else someThrough close item >>= fun rest => pure (rest.add first) := by
  refine bind_congr fun first => ?_
  refine (congrArg (· >>= fun rest => pure (rest.add first)) (manyThrough_eq progress)).trans ?_
  refine (bind_assoc ..).trans (bind_congr fun closed => ?_)
  cases closed <;> simp [someThrough]

theorem mapError_bind {g : SyntaxError → SyntaxError} {p : Parser α} {f : α → Parser β} :
    mapError g (p >>= f) = mapError g p >>= fun a => mapError g (f a) := by
  funext s
  cases hp : p s with
  | ok a s' =>
    have same : mapError g p s = .ok a s' := by simp [mapError, hp]
    rw [bind_ok same, mapError, bind_ok hp, mapError]
  | error e s' =>
    have same : mapError g p s = .error (g e) s' := by simp [mapError, hp]
    rw [bind_error same, mapError, bind_error hp]

theorem mapError_accept {g : SyntaxError → SyntaxError} {c : Punctuator} : mapError g (accept c) = accept c := by
  funext s
  by_cases hk : s.peek.kind = .punctuator c
  · simp [mapError, accept_of hk]
  · simp [mapError, accept_of_not hk]

/-- A block, asking first whether it is there. -/
theorem optionalBlock_eq {opening close : Punctuator} {item : Parser α} :
    optionalBlock opening close item = isAt opening >>= fun starts =>
      if starts then expect opening >>= fun _ => someThrough close item else pure .nil := by
  funext s
  have look : (isAt opening) s = .ok (decide (s.peek.kind = .punctuator opening)) s := rfl
  rw [bind_ok look]
  by_cases hk : s.peek.kind = .punctuator opening
  · rw [decide_eq_true hk, if_pos rfl, bind_ok (expect_of hk)]
    exact bind_ok (accept_of hk)
  · rw [decide_eq_false hk]
    exact bind_ok (accept_of_not hk)

/-- A change to the errors of all elements. -/
theorem mapError_someThrough {g : SyntaxError → SyntaxError} {close : Punctuator} {item : Parser α}
    (progress : Progress item) :
    mapError g (someThrough close item) = mapError g item >>= fun first => accept close >>= fun closed =>
      if closed then pure (.add .nil first)
      else mapError g (someThrough close item) >>= fun rest => pure (rest.add first) := by
  refine (congrArg (mapError g) (someThrough_eq progress)).trans (mapError_bind.trans ?_)
  refine bind_congr fun first => ?_
  rw [mapError_bind, mapError_accept]
  refine bind_congr fun closed => ?_
  cases closed with
  | true => rfl
  | false => exact mapError_bind

end GraphQL.Parser
