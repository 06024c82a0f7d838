import GraphQL.Proofs.Parser.Recovers

/-! The parsers of single tokens at a spelling. -/
namespace GraphQL
open GraphQL.Symbol

theorem Token.bare_kind (t : Token) : t.bare.kind = t.kind := by
  unfold bare
  split
  · next h => exact h.symm
  · rfl

theorem Token.literal_of_bare {t : Token} {x : Symbol} (h : t.bare = x)
    (hx : ∀ p, x.kind ≠ .punctuator p) : t.literal = x.literal := by
  subst h
  unfold bare at hx ⊢
  split at hx
  · next p _ => exact absurd rfl (hx p)
  · rfl

theorem Token.name_of_bare {t : Token} {name : String} (h : t.bare = word name) :
    t.name? = some name := by
  unfold bare at h
  split at h
  · injection h with h
    injection h
  · injection h with hk hl
    simp [name?, hk, hl]

namespace Parser.Recovers
variable {α : Type} {a : α} {w v : List Symbol} {ps : List Punctuator} {F : Symbol → Prop} {D : Prop}

private theorem head_eq {x y : Symbol} (h : y ∈ (x :: v).head? ∨ x :: v = [] ∧ F y) : y = x := by
  rcases h with h | ⟨h, -⟩
  · exact (Option.some.inj h).symm
  · cases h

/-- Where the first symbol is known, so is the next token, but for the literal of a punctuator. -/
theorem peek_next {x : Symbol} {f : Token → Parser α} (hx : Among ps x)
    (h : ∀ t : Token, t.bare = x → Recovers (f t) a (x :: v) ps F D) :
    Recovers (peek >>= f) a (x :: v) ps F D :=
  stay (by simpa using hx) fun t ht => h t (head_eq ht)

/-- A question about the next token, to which every symbol that may be next gives one answer. -/
private theorem ask {c : Token → Bool} {answer : Bool} {f : Bool → Parser α}
    (h : Recovers (f answer) a w ps F D)
    (hc : ∀ t : Token, t.bare ∈ w.head? ∨ w = [] ∧ F t.bare → c t = answer) :
    Recovers (peek >>= fun t => f (c t)) a w ps F D :=
  stay h.starts fun t ht => by rwa [hc t ht]

theorem isAt_next {q : Punctuator} {f : Bool → Parser α} (h : Recovers (f true) a (mark q :: v) ps F D) :
    Recovers (isAt q >>= f) a (mark q :: v) ps F D :=
  ask (c := fun t => t.kind = .punctuator q) h fun t ht => by
    simpa using Token.kind_of_bare (head_eq ht)

theorem isAt_other {q : Punctuator} {f : Bool → Parser α} (h : Recovers (f false) a w ps F D)
    (hq : q ∉ ps) (hF : w = [] → ∀ x, F x → x ≠ mark q) : Recovers (isAt q >>= f) a w ps F D := by
  refine ask (c := fun t => t.kind = .punctuator q) h fun t ht => ?_
  have hk : t.kind ≠ .punctuator q := by
    intro hk
    rcases ht with ht | ⟨hw, ht⟩
    · exact hq (h.starts _ ht q (Token.bare_of_punctuator hk))
    · exact hF hw _ ht (Token.bare_of_punctuator hk)
  simpa using hk

theorem accept_next {q : Punctuator} {f : Bool → Parser α} (h : Recovers (f true) a v ps F D) :
    Recovers (accept q >>= f) a (mark q :: v) [q] F D :=
  step (among_mark (by simp)) h fun s hs => by rw [accept_run, if_pos (Token.kind_of_bare hs)]

theorem accept_other {q : Punctuator} {f : Bool → Parser α} (h : Recovers (f false) a w ps F D)
    (hq : q ∉ ps) (hF : w = [] → ∀ x, F x → x ≠ mark q) : Recovers (accept q >>= f) a w ps F D := by
  have same : (accept q >>= f) =
      isAt q >>= fun b => if b then advance >>= fun _ => f true else f false := by
    funext s
    rw [accept_run]
    by_cases hk : s.peek.kind = .punctuator q <;> simp [isAt, peek_run, advance_run, hk]
  rw [same]
  exact isAt_other (by simpa using h) hq hF

theorem expect_next {q : Punctuator} {f : Unit → Parser α} (h : Recovers (f ()) a v ps F D) :
    Recovers (expect q >>= f) a (mark q :: v) [q] F D := by
  unfold expect
  rw [bind_assoc]
  exact accept_next h

theorem acceptKeyword_next {k : String} {f : Bool → Parser α} (h : Recovers (f true) a v ps F D) :
    Recovers (acceptKeyword k >>= f) a (word k :: v) [] F D :=
  step among_word h fun s hs => by
    rw [acceptKeyword_run, if_pos (Token.isKeyword_iff.mpr (Token.name_of_bare hs))]

theorem isAtKeyword_other {k : String} {f : Bool → Parser α} (h : Recovers (f false) a w ps F D)
    (hk : ∀ x ∈ w.head?, x ≠ word k) (hF : w = [] → ∀ x, F x → x ≠ word k) :
    Recovers (isAtKeyword k >>= f) a w ps F D := by
  refine ask (c := (Token.isKeyword · k)) h fun t ht => Bool.eq_false_iff.mpr fun hn => ?_
  have hn := Token.bare_of_name (Token.isKeyword_iff.mp hn)
  rcases ht with ht | ⟨hw, ht⟩
  · exact hk _ ht hn
  · exact hF hw _ ht hn

theorem acceptKeyword_other {k : String} {f : Bool → Parser α} (h : Recovers (f false) a w ps F D)
    (hk : ∀ x ∈ w.head?, x ≠ word k) (hF : w = [] → ∀ x, F x → x ≠ word k) :
    Recovers (acceptKeyword k >>= f) a w ps F D := by
  have same : (acceptKeyword k >>= f) =
      isAtKeyword k >>= fun b => if b then advance >>= fun _ => f true else f false := by
    funext s
    rw [acceptKeyword_run]
    by_cases hk : s.peek.isKeyword k <;> simp [isAtKeyword, peek_run, advance_run, hk]
  rw [same]
  exact isAtKeyword_other (by simpa using h) hk hF

theorem expectKeyword_next {k : String} {f : Unit → Parser α} (h : Recovers (f ()) a v ps F D) :
    Recovers (expectKeyword k >>= f) a (word k :: v) [] F D := by
  unfold expectKeyword
  rw [bind_assoc]
  exact acceptKeyword_next h

theorem advance_next {x : Symbol} {f : Unit → Parser α} {qs : List Punctuator} (hx : Among qs x)
    (h : Recovers (f ()) a v ps F D) : Recovers (advance >>= f) a (x :: v) qs F D :=
  step hx h fun _ _ => rfl

theorem expectName_next {name : String} {f : String → Parser α} (h : Recovers (f name) a v ps F D) :
    Recovers (expectName >>= f) a (word name :: v) [] F D := by
  unfold expectName
  rw [bind_assoc]
  refine peek_next among_word fun t ht => ?_
  simp only [Token.name_of_bare ht, bind_assoc, pure_bind]
  exact advance_next among_word h

/-- A spelling that is not empty does not begin with the end of input. -/
theorem isAtEnd_other {f : Bool → Parser α} (h : Recovers (f false) a w ps F D) (hw : w ≠ []) :
    Recovers (isAtEnd >>= f) a w ps F D := by
  refine ⟨h.starts, fun s ts s' hr hs hF => ?_⟩
  have hk : s.isAtEnd = false := by
    cases hr with
    | done => exact absurd hs.symm hw
    | step hk => simpa [TokenStream.isAtEnd] using hk
  rw [isAtEnd_run, hk]
  exact h.run s ts s' hr hs hF

theorem isAtEnd_next {f : Bool → Parser α} (h : Recovers (f true) a [] ps F D)
    (hF : ∀ x, F x → x.kind = .eof) : Recovers (isAtEnd >>= f) a [] ps F D := by
  refine ⟨h.starts, fun s ts s' hr hs hF' => ?_⟩
  have hk : s.isAtEnd = true := by
    rw [List.map_eq_nil_iff.mp hs, TokenStream.Reads.nil_iff] at hr
    simpa [TokenStream.isAtEnd, Token.bare_kind, hr] using hF _ hF'
  rw [isAtEnd_run, hk]
  exact h.run s ts s' hr hs hF'

/-- Nothing fits where there is no room. -/
theorem nestingExceeded (w : List Symbol) (hD : ¬ D) :
    ∃ ps, Recovers Parser.nestingExceeded a w ps F D := by
  obtain ⟨ps, hs⟩ := exists_among w
  exact ⟨ps, hs, fun s ts s' _ _ _ => ⟨fun h => absurd h hD, fun _ => ⟨_, _, rfl, rfl⟩⟩⟩

/-- A result that is spelled by one symbol, no punctuator. -/
theorem leaf {x : Symbol} {f : Token → Parser α} (hx : ∀ p, x.kind ≠ .punctuator p)
    (hf : ∀ t : Token, t.kind = x.kind → t.literal = x.literal →
      f t = advance >>= fun _ => Pure.pure a) :
    Recovers (peek >>= f) a [x] ps F True := by
  have among : Among ps x := fun p h => absurd (congrArg Symbol.kind h) (hx p)
  refine peek_next among fun t ht => ?_
  rw [hf t (by rw [← Token.bare_kind, ht]) (Token.literal_of_bare ht hx)]
  exact advance_next among (pure a)

end Parser.Recovers
end GraphQL
