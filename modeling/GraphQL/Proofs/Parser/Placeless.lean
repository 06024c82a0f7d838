import GraphQL.Parser.Repetition

/-! Parsers that do not look at places. On tokens that differ in them only they come to the same result, or to the
same kind of error at the same token. -/
namespace GraphQL

/-- A token without its place. -/
def Token.content (t : Token) : TokenKind × String := (t.kind, t.literal)

/-- The unread tokens without their places. -/
def TokenStream.contents (s : TokenStream) : List (TokenKind × String) := s.unread.map Token.content

namespace TokenStream
variable {s u : TokenStream}

theorem content_peek (h : s.contents = u.contents) : s.peek.content = u.peek.content := by
  obtain ⟨ts, line, position⟩ := s
  obtain ⟨vs, line', position'⟩ := u
  cases ts with
  | nil =>
    obtain rfl : vs = [] := List.map_eq_nil_iff.mp h.symm
    rfl
  | cons t ts =>
    cases vs with
    | nil => cases h
    | cons v vs => exact (List.cons.inj h).1

theorem contents_advance (h : s.contents = u.contents) : s.advance.contents = u.advance.contents := by
  have tails := congrArg List.tail h
  rwa [contents, contents, ← List.map_tail, ← List.map_tail] at tails

theorem length_unread (h : s.contents = u.contents) : s.unread.length = u.unread.length := by
  simpa [contents] using congrArg List.length h

end TokenStream

namespace Token
variable {t u : Token}

theorem name?_of_content (h : t.content = u.content) : t.name? = u.name? := by
  obtain ⟨kind, literal⟩ := Prod.mk.inj h
  rw [name?, name?, kind, literal]

theorem found_of_content (h : t.content = u.content) : t.found = u.found := by
  obtain ⟨kind, literal⟩ := Prod.mk.inj h
  rw [found, found, kind, literal]

end Token

theorem SyntaxError.kind_unexpected {t u : Token} (h : t.content = u.content) (expected : List String) :
    (unexpected expected t).kind = (unexpected expected u).kind := by
  have found := Token.found_of_content h
  obtain ⟨kind, -⟩ := Prod.mk.inj h
  unfold unexpected
  rw [← kind, found]
  cases t.kind <;> rfl

namespace Parser
variable {α β : Type}

/-- What a run comes to, without regard to places: the result or the kind of the error, and what is left. -/
def outcome : EStateM.Result SyntaxError TokenStream α → Except SyntaxErrorKind α × List (TokenKind × String)
  | .ok a s => (.ok a, s.contents)
  | .error e s => (.error e.kind, s.contents)

/-- The parsers come to the same on streams that differ in places only. -/
def Alike (p q : Parser α) : Prop :=
  ∀ s u : TokenStream, s.contents = u.contents → outcome (p s) = outcome (q u)

/-- The parser does not look at places. -/
def Placeless (p : Parser α) : Prop := Alike p p

namespace Alike

theorem bind {p q : Parser α} {f g : α → Parser β} (h : Alike p q) (more : ∀ a, Alike (f a) (g a)) :
    Alike (p >>= f) (q >>= g) := by
  intro s u same
  have first := h s u same
  cases hp : p s with
  | error e s' =>
    cases hq : q u with
    | error e' u' => simpa [Bind.bind, EStateM.bind, hp, hq, outcome] using first
    | ok b u' => simp [hp, hq, outcome] at first
  | ok a s' =>
    cases hq : q u with
    | error e' u' => simp [hp, hq, outcome] at first
    | ok b u' =>
      simp only [hp, hq, outcome, Prod.mk.injEq, Except.ok.injEq] at first
      obtain ⟨rfl, left⟩ := first
      simpa [Bind.bind, EStateM.bind, hp, hq] using more a s' u' left

/-- What is done about the next token may depend on its place, if it comes to the same. -/
theorem peek {f g : Token → Parser α} (h : ∀ t u, t.content = u.content → Alike (f t) (g u)) :
    Alike (Parser.peek >>= f) (Parser.peek >>= g) :=
  fun s u same => h _ _ (TokenStream.content_peek same) s u same

theorem throw {e e' : SyntaxError} (h : e.kind = e'.kind) :
    Alike (MonadExcept.throw e : Parser α) (MonadExcept.throw e') :=
  fun _ _ same => Prod.ext (congrArg Except.error h) same

theorem mapError {g g' : SyntaxError → SyntaxError} {p q : Parser α} (h : Alike p q)
    (hg : ∀ e, (g e).kind = e.kind) (hg' : ∀ e, (g' e).kind = e.kind) :
    Alike (Parser.mapError g p) (Parser.mapError g' q) := by
  have kept {g : SyntaxError → SyntaxError} (hg : ∀ e, (g e).kind = e.kind) (p : Parser α) (s : TokenStream) :
      outcome (Parser.mapError g p s) = outcome (p s) := by
    unfold Parser.mapError
    cases p s with
    | ok a s' => rfl
    | error e s' => simp [outcome, hg]
  intro s u same
  rw [kept hg, kept hg', h s u same]

end Alike

namespace Placeless
variable {p : Parser α} {f : α → Parser β}

theorem pure (a : α) : Placeless (Pure.pure a : Parser α) := fun _ _ same => Prod.ext rfl same

theorem bind (h : Placeless p) (more : ∀ a, Placeless (f a)) : Placeless (p >>= f) := Alike.bind h more

/-- What is made of the result. -/
theorem map (h : Placeless p) (g : α → β) : Placeless (p >>= fun a => Pure.pure (g a)) := h.bind fun _ => pure _

theorem ite {c : Prop} [Decidable c] {q : Parser α} (hp : Placeless p) (hq : Placeless q) :
    Placeless (if c then p else q) := by
  split
  · exact hp
  · exact hq

/-- The next token is looked at without its place. -/
theorem peek {f : Token → Parser α} (blind : ∀ kind literal line position line' position',
    f ⟨kind, literal, line, position⟩ = f ⟨kind, literal, line', position'⟩)
    (each : ∀ t, Placeless (f t)) : Placeless (Parser.peek >>= f) := by
  refine Alike.peek fun t u same => ?_
  obtain ⟨kind, literal, line, position⟩ := t
  obtain ⟨kind', literal', line', position'⟩ := u
  obtain ⟨rfl, rfl⟩ := Prod.mk.inj same
  rw [blind kind literal line' position' line position]
  exact each _

theorem advance : Placeless advance := fun _ _ same => Prod.ext rfl (TokenStream.contents_advance same)

theorem mapError {g : SyntaxError → SyntaxError} (h : Placeless p) (hg : ∀ e, (g e).kind = e.kind) :
    Placeless (mapError g p) := Alike.mapError h hg hg

theorem unexpected (expected : List String) : Placeless (unexpected expected : Parser α) :=
  Alike.peek fun _ _ same => .throw (SyntaxError.kind_unexpected same expected)

theorem nestingExceeded : Placeless (nestingExceeded : Parser α) := Alike.peek fun _ _ _ => .throw rfl

theorem enter {inner : Option (Parser α)} (h : ∀ p ∈ inner, Placeless p) {f : Parser α → Parser β}
    (more : ∀ p, Placeless p → Placeless (f p)) : Placeless (enter inner >>= f) := by
  cases inner with
  | none => exact fun _ _ same => Prod.ext rfl same -- an error, behind which nothing is run
  | some p => exact more p (h p rfl)

theorem isAt (p : Punctuator) : Placeless (isAt p) := .peek (fun _ _ _ _ _ _ => rfl) fun _ => pure _

theorem isAtKeyword (keyword : String) : Placeless (isAtKeyword keyword) :=
  .peek (fun _ _ _ _ _ _ => rfl) fun _ => pure _

theorem isAtEnd : Placeless isAtEnd := by
  have same : Parser.isAtEnd = Parser.peek >>= fun t => Pure.pure (decide (t.kind = .eof)) := rfl
  exact same ▸ .peek (fun _ _ _ _ _ _ => rfl) fun _ => pure _

theorem accept (p : Punctuator) : Placeless (accept p) :=
  .bind (isAt p) fun _ => .ite (.bind advance fun _ => pure _) (pure _)

theorem acceptKeyword (keyword : String) : Placeless (acceptKeyword keyword) :=
  .bind (isAtKeyword keyword) fun _ => .ite (.bind advance fun _ => pure _) (pure _)

theorem expect (p : Punctuator) : Placeless (expect p) :=
  .bind (accept p) fun _ => .ite (pure _) (unexpected _)

theorem expectKeyword (keyword : String) : Placeless (expectKeyword keyword) :=
  .bind (acceptKeyword keyword) fun _ => .ite (pure _) (unexpected _)

theorem expectName : Placeless expectName := by
  refine .peek (fun _ _ _ _ _ _ => rfl) fun t => ?_
  split
  · exact .bind advance fun _ => pure _
  · exact unexpected _

section
variable {item : Parser α}

/-- As many rounds as there are tokens left, of which the places say nothing. -/
theorem rounds {loop : Nat → Parser α} (h : ∀ n, Placeless (loop n)) :
    Placeless (do loop ((← get).unread.length + 1)) := by
  intro s u same
  have counts : s.unread.length = u.unread.length := TokenStream.length_unread same
  change outcome (loop (s.unread.length + 1) s) = outcome (loop (u.unread.length + 1) u)
  rw [counts]
  exact h _ s u same

theorem manyThrough (close : Punctuator) (h : Placeless item) : Placeless (manyThrough close item) := by
  refine rounds fun n => ?_
  induction n with
  | zero => exact .bind (expect close) fun _ => pure _
  | succ n ih =>
    exact .bind (accept close) fun _ => .ite (pure _) (.bind h fun first => .map ih (·.add first))

theorem someThrough (close : Punctuator) (h : Placeless item) : Placeless (someThrough close item) :=
  .bind h fun first => .map (manyThrough close h) (·.add first)

theorem manyAfter (lead : Punctuator) (h : Placeless item) : Placeless (manyAfter lead item) := by
  refine rounds fun n => ?_
  induction n with
  | zero => exact pure _
  | succ n ih =>
    exact .bind (accept lead) fun _ => .ite (.bind h fun first => .map ih (·.add first)) (pure _)

theorem someSeparated (separator : Punctuator) (h : Placeless item) : Placeless (someSeparated separator item) :=
  .bind (accept separator) fun _ => .bind h fun first => .map (manyAfter separator h) (·.add first)

theorem optionalBlock (opening close : Punctuator) (h : Placeless item) :
    Placeless (optionalBlock opening close item) :=
  .bind (accept opening) fun _ => .ite (someThrough close h) (pure _)

theorem manyToEnd (h : Placeless item) : Placeless (manyToEnd item) := by
  refine rounds fun n => ?_
  induction n with
  | zero => exact pure _
  | succ n ih => exact .bind isAtEnd fun _ => .ite (pure _) (.bind h fun first => .map ih (·.add first))

end

end Placeless
end Parser
end GraphQL
