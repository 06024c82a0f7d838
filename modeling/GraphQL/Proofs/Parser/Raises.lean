import GraphQL.Parser.TypeSystem

/-! What holds of every error at the token where the parser stops, if it holds of the errors that parsers throw and
is kept by the notes that they add. -/
namespace GraphQL

/-- A law for errors and the tokens that cause them: it holds of each error that is thrown, and notes on it change
nothing. -/
structure SyntaxError.IsLaw (Q : SyntaxError → Token → Prop) : Prop where
  unexpected : ∀ expected t, Q (.unexpected expected t) t
  nestingExceeded : ∀ message t, Q (.new message .nestingExceeded t.line t.position) t
  reserved : ∀ message expected t name, t.name? = some name →
    Q ((new message (.unexpectedToken expected t.found) t.line t.position).withWidth name.length) t
  unclosed : ∀ e t opening, Q e t → Q (Parser.noteUnclosed opening e) t
  helped : ∀ e t message, Q e t → Q (e.addHelp message) t
  undescribed : ∀ e t, Q e t → Q (e.addNote "only type system definitions may have descriptions") t

namespace Parser
variable {α β : Type} {Q : SyntaxError → Token → Prop}

/-- Every error and the token where the parser then stops satisfy `Q`. -/
def Raises (Q : SyntaxError → Token → Prop) (p : Parser α) : Prop :=
  ∀ s e s', p s = .error e s' → Q e s'.peek

namespace Raises
variable {p : Parser α} {f : α → Parser β}

theorem pure (a : α) : Raises Q (Pure.pure a : Parser α) := nofun

theorem bind (h : Raises Q p) (more : ∀ a, Raises Q (f a)) : Raises Q (p >>= f) := by
  intro s e s'' run
  cases hp : p s with
  | error e' s' =>
    simp only [Bind.bind, EStateM.bind, hp] at run
    cases run
    exact h s _ _ hp
  | ok a s' =>
    simp only [Bind.bind, EStateM.bind, hp] at run
    exact more a s' e s'' run

/-- What is made of the result. -/
theorem map (h : Raises Q p) (g : α → β) : Raises Q (p >>= fun a => Pure.pure (g a)) := h.bind fun _ => pure _

theorem ite {c : Prop} [Decidable c] {q : Parser α} (hp : Raises Q p) (hq : Raises Q q) :
    Raises Q (if c then p else q) := by
  split
  · exact hp
  · exact hq

theorem peek {f : Token → Parser α} (each : ∀ t, Raises Q (f t)) : Raises Q (Parser.peek >>= f) :=
  fun s e s' run => each s.peek s e s' run

theorem advance : Raises Q advance := nofun

/-- An error that is made of the next token. -/
theorem throw {g : Token → SyntaxError} (h : ∀ t, Q (g t) t) :
    Raises Q (Parser.peek >>= fun t => (MonadExcept.throw (g t) : Parser α)) := by
  rintro s _ _ ⟨⟩
  exact h s.peek

theorem mapError {g : SyntaxError → SyntaxError} (h : Raises Q p) (hg : ∀ e t, Q e t → Q (g e) t) :
    Raises Q (mapError g p) := by
  intro s e s' run
  unfold Parser.mapError at run
  split at run
  · cases run
  · next hp =>
    cases run
    exact hg _ _ (h s _ _ hp)

theorem isAt (p : Punctuator) : Raises Q (isAt p) := nofun

theorem isAtKeyword (keyword : String) : Raises Q (isAtKeyword keyword) := nofun

theorem isAtEnd : Raises Q isAtEnd := nofun

theorem accept (p : Punctuator) : Raises Q (accept p) :=
  .bind (isAt p) fun _ => .ite (.bind advance fun _ => pure _) (pure _)

theorem acceptKeyword (keyword : String) : Raises Q (acceptKeyword keyword) :=
  .bind (isAtKeyword keyword) fun _ => .ite (.bind advance fun _ => pure _) (pure _)

section
variable (law : SyntaxError.IsLaw Q)
include law

theorem unexpected (expected : List String) : Raises Q (unexpected expected : Parser α) :=
  .throw (law.unexpected expected)

theorem nestingExceeded : Raises Q (nestingExceeded : Parser α) := .throw fun t => law.nestingExceeded _ t

theorem enter {inner : Option (Parser α)} (h : ∀ p ∈ inner, Raises Q p) {f : Parser α → Parser β}
    (more : ∀ p, Raises Q p → Raises Q (f p)) : Raises Q (enter inner >>= f) := by
  cases inner with
  | none => exact .throw fun t => law.nestingExceeded _ t -- nothing is run behind it
  | some p => exact more p (h p rfl)

theorem expect (p : Punctuator) : Raises Q (expect p) :=
  .bind (accept p) fun _ => .ite (pure _) (unexpected law _)

theorem expectKeyword (keyword : String) : Raises Q (expectKeyword keyword) :=
  .bind (acceptKeyword keyword) fun _ => .ite (pure _) (unexpected law _)

theorem expectName : Raises Q expectName := by
  refine .peek fun t => ?_
  split
  · exact .bind advance fun _ => pure _
  · exact unexpected law _

end

section
variable {item : Parser α}

/-- As many rounds as there are tokens left. -/
theorem rounds {loop : Nat → Parser α} (h : ∀ n, Raises Q (loop n)) :
    Raises Q (do loop ((← get).unread.length + 1)) :=
  fun s => h _ s

theorem manyThrough (law : SyntaxError.IsLaw Q) (close : Punctuator) (h : Raises Q item) :
    Raises Q (manyThrough close item) := by
  refine rounds fun n => ?_
  induction n with
  | zero => exact .bind (expect law close) fun _ => pure _
  | succ n ih =>
    exact .bind (accept close) fun _ => .ite (pure _) (.bind h fun first => .map ih (·.add first))

theorem someThrough (law : SyntaxError.IsLaw Q) (close : Punctuator) (h : Raises Q item) :
    Raises Q (someThrough close item) :=
  .bind h fun first => .map (manyThrough law close h) (·.add first)

theorem manyAfter (lead : Punctuator) (h : Raises Q item) : Raises Q (manyAfter lead item) := by
  refine rounds fun n => ?_
  induction n with
  | zero => exact pure _
  | succ n ih =>
    exact .bind (accept lead) fun _ => .ite (.bind h fun first => .map ih (·.add first)) (pure _)

theorem someSeparated (separator : Punctuator) (h : Raises Q item) : Raises Q (someSeparated separator item) :=
  .bind (accept separator) fun _ => .bind h fun first => .map (manyAfter separator h) (·.add first)

theorem optionalBlock (law : SyntaxError.IsLaw Q) (opening close : Punctuator) (h : Raises Q item) :
    Raises Q (optionalBlock opening close item) :=
  .bind (accept opening) fun _ => .ite (someThrough law close h) (pure _)

theorem manyToEnd (h : Raises Q item) : Raises Q (manyToEnd item) := by
  refine rounds fun n => ?_
  induction n with
  | zero => exact pure _
  | succ n ih => exact .bind isAtEnd fun _ => .ite (pure _) (.bind h fun first => .map ih (·.add first))

end

end Raises
end Parser
end GraphQL
