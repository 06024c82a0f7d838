import GraphQL.Proofs.Parser.Conforms

/-! The parsers of single tokens. -/
namespace GraphQL
open GraphQL.Symbol

namespace Token

theorem bare_of_punctuator {t : Token} {p : Punctuator} (h : t.kind = .punctuator p) :
    t.bare = mark p := by
  simp [bare, h, mark]

theorem bare_of_name {t : Token} {name : String} (h : t.name? = some name) : t.bare = word name := by
  unfold name? at h
  split at h
  · next hk =>
    injection h with h
    simp [bare, hk, word, h]
  · cases h

theorem kind_of_bare {t : Token} {p : Punctuator} (h : t.bare = mark p) : t.kind = .punctuator p := by
  unfold bare at h
  split at h
  · next hk =>
    injection h with h
    rw [hk, h]
  · injection h

theorem kind_of_name {t : Token} {name : String} (h : t.name? = some name) : t.kind = .name := by
  unfold name? at h
  split at h
  · assumption
  · cases h

theorem isKeyword_iff {t : Token} {keyword : String} :
    t.isKeyword keyword = true ↔ t.name? = some keyword := by
  unfold isKeyword name?
  split <;> simp_all

end Token

theorem SyntaxError.unexpected_blames (expected : List String) (t : Token) :
    (SyntaxError.unexpected expected t).Blames t := by
  cases hk : t.kind <;> constructor <;> simp [unexpected, ofIllegal, new, withWidth, hk]

namespace Parser
variable {α : Type}

theorem accept_run (p : Punctuator) (f : Bool → Parser α) (s : TokenStream) :
    (accept p >>= f) s = if s.peek.kind = .punctuator p then f true s.advance else f false s := by
  change ((if decide (s.peek.kind = .punctuator p) then
    advance >>= fun _ => Pure.pure true else Pure.pure false) >>= f) s = _
  by_cases h : s.peek.kind = .punctuator p
  · rw [if_pos h, if_pos (decide_eq_true h)]
    rfl
  · rw [if_neg h, if_neg (by simpa using h)]
    rfl

theorem acceptKeyword_run (keyword : String) (f : Bool → Parser α) (s : TokenStream) :
    (acceptKeyword keyword >>= f) s =
      if s.peek.isKeyword keyword then f true s.advance else f false s := by
  change ((if s.peek.isKeyword keyword then
    advance >>= fun _ => Pure.pure true else Pure.pure false) >>= f) s = _
  split <;> rfl

theorem peek_run (f : Token → Parser α) (s : TokenStream) : (peek >>= f) s = f s.peek s := rfl

theorem isAtEnd_run (f : Bool → Parser α) (s : TokenStream) :
    (isAtEnd >>= f) s = f s.isAtEnd s := rfl

theorem advance_run (f : Unit → Parser α) (s : TokenStream) :
    (advance >>= f) s = f () s.advance := rfl

section
variable {s : TokenStream} {p : Punctuator}

theorem accept_of (h : s.peek.kind = .punctuator p) : accept p s = .ok true s.advance := by
  rw [← bind_pure (accept p), accept_run, if_pos h]
  rfl

theorem accept_of_not (h : s.peek.kind ≠ .punctuator p) : accept p s = .ok false s := by
  rw [← bind_pure (accept p), accept_run, if_neg h]
  rfl

theorem expect_of (h : s.peek.kind = .punctuator p) : expect p s = .ok () s.advance := bind_ok (accept_of h)

theorem expect_of_not (h : s.peek.kind ≠ .punctuator p) : ∃ e, expect p s = .error e s :=
  ⟨_, bind_ok (accept_of_not h)⟩

end

namespace Conforms
variable {G H : Grammar α} {s : TokenStream}

theorem unexpected {expected : List String} (inhabited : ∃ a w, G a w) :
    Conforms G (Parser.unexpected expected) s :=
  throw_peek inhabited (SyntaxError.unexpected_blames expected s.peek)

theorem nestingExceeded (inhabited : ∃ a w, G a w) : Conforms G Parser.nestingExceeded s :=
  throw_peek inhabited ⟨rfl, rfl, fun h => absurd rfl h⟩

/-- A result that is spelled by the next token. -/
theorem advance_pure {a : α} (h : s.peek.kind ≠ .eof) (ha : G a [s.peek.bare]) :
    Conforms G (advance >>= fun _ => Pure.pure a) s := by
  refine (advance_bind h (pure a)).mono ?_
  rintro _ _ ⟨_, rfl, rfl, rfl⟩
  exact ha

theorem accept_bind {p : Punctuator} {f : Bool → Parser α}
    (ht : s.peek.kind = .punctuator p → Conforms G (f true) s.advance)
    (hf : s.peek.kind ≠ .punctuator p → Conforms H (f false) s) :
    Conforms (.ifNext (mark p) G H) (Parser.accept p >>= f) s := by
  have same : (Parser.accept p >>= f) =
      peek >>= fun t => if t.kind = .punctuator p then advance >>= fun _ => f true else f false := by
    funext s
    rw [accept_run, peek_run]
    split <;> rfl
  rw [same]
  exact advance_if (fun h => ⟨Token.bare_of_punctuator h, by simp [h]⟩) ht hf

theorem acceptKeyword_bind {k : String} {f : Bool → Parser α} (ht : Conforms G (f true) s.advance)
    (hf : s.peek.name? ≠ some k → Conforms H (f false) s) :
    Conforms (.ifNext (word k) G H) (Parser.acceptKeyword k >>= f) s := by
  have same : (Parser.acceptKeyword k >>= f) =
      peek >>= fun t => if t.isKeyword k then advance >>= fun _ => f true else f false := by
    funext s
    rw [acceptKeyword_run, peek_run]
    split <;> rfl
  rw [same]
  refine advance_if (fun h => ?_) (fun _ => ht) fun h => hf (by simpa [Token.isKeyword_iff] using h)
  have hn := Token.isKeyword_iff.mp h
  exact ⟨Token.bare_of_name hn, by simp [Token.kind_of_name hn]⟩

/-- Asking whether the punctuator is next consumes nothing. -/
theorem isAt_bind {p : Punctuator} {f : Bool → Parser α} (ht : Conforms G (f true) s)
    (hf : Conforms H (f false) s) :
    Conforms (fun a w => G a w ∨ H a w) (isAt p >>= f) s := by
  have same : (isAt p >>= f) = peek >>= fun t => f (t.kind = .punctuator p) := rfl
  rw [same]
  apply peek_bind
  cases decide (s.peek.kind = .punctuator p) with
  | true => exact ht.mono fun _ _ => .inl
  | false => exact hf.mono fun _ _ => .inr

theorem isAtKeyword_bind {k : String} {f : Bool → Parser α}
    (ht : s.peek.name? = some k → Conforms G (f true) s)
    (hf : s.peek.name? ≠ some k → Conforms G (f false) s) :
    Conforms G (isAtKeyword k >>= f) s := by
  have same : (isAtKeyword k >>= f) = peek >>= fun t => f (t.isKeyword k) := rfl
  rw [same]
  apply peek_bind
  cases h : s.peek.isKeyword k with
  | true => exact ht (Token.isKeyword_iff.mp h)
  | false => exact hf fun hn => by simp [Token.isKeyword_iff.mpr hn] at h

theorem isAtEnd_bind {f : Bool → Parser α} (ht : Conforms G (f true) s)
    (hf : Conforms G (f false) s) : Conforms G (isAtEnd >>= f) s := by
  have same : (isAtEnd >>= f) = peek >>= fun t => f (t.kind = .eof) := rfl
  rw [same]
  apply peek_bind
  cases decide (s.peek.kind = .eof) with
  | true => exact ht
  | false => exact hf

/-- Nothing follows a failure. -/
theorem unexpected_bind {β : Type} {expected : List String} {g : SyntaxError → SyntaxError}
    {f : β → Parser α} (inhabited : ∃ a w, G a w) (hk : ∀ e, (g e).kind = e.kind)
    (hl : ∀ e, (g e).line = e.line) (hp : ∀ e, (g e).position = e.position) :
    Conforms G (Parser.mapError g (Parser.unexpected expected) >>= f) s :=
  mapError (p := Parser.unexpected expected) (unexpected inhabited) hk hl hp

theorem accept {p : Punctuator} :
    Conforms (.ifNext (mark p) (.unit true) (.unit false)) (Parser.accept p) s := by
  have h := accept_bind (p := p) (f := Pure.pure) (fun _ => pure true (s := s.advance))
    fun _ => pure false
  rwa [bind_pure] at h

theorem acceptKeyword {keyword : String} :
    Conforms (.ifNext (word keyword) (.unit true) (.unit false)) (Parser.acceptKeyword keyword) s := by
  have h := acceptKeyword_bind (k := keyword) (f := Pure.pure) (pure true (s := s.advance))
    fun _ => pure false
  rwa [bind_pure] at h

theorem expect {p : Punctuator} : Conforms (.symbol (mark p)) (Parser.expect p) s := by
  refine (accept_bind (H := .symbol (mark p)) (fun _ => pure ()) fun _ => ?_).mono ?_
  · exact unexpected ⟨(), _, trivial, rfl⟩
  · rintro _ _ (⟨v, rfl, -, rfl⟩ | h)
    · exact ⟨trivial, rfl⟩
    · exact h

theorem expectKeyword {keyword : String} :
    Conforms (.symbol (word keyword)) (Parser.expectKeyword keyword) s := by
  refine (acceptKeyword_bind (H := .symbol (word keyword)) (pure ()) fun _ => ?_).mono ?_
  · exact unexpected ⟨(), _, trivial, rfl⟩
  · rintro _ _ (⟨v, rfl, -, rfl⟩ | h)
    · exact ⟨trivial, rfl⟩
    · exact h

/-- A name of which `P` is known beforehand. -/
theorem expectName_of {P : String → Prop} (hP : ∀ name, s.peek.name? = some name → P name)
    (inhabited : ∃ name, P name) :
    Conforms (.only P fun name => [word name]) Parser.expectName s := by
  apply peek_bind
  cases hn : s.peek.name? with
  | none =>
    obtain ⟨name, h⟩ := inhabited
    exact unexpected ⟨name, _, h, rfl⟩
  | some name =>
    exact advance_pure (by simp [Token.kind_of_name hn]) ⟨hP _ hn, by rw [Token.bare_of_name hn]⟩

theorem expectName : Conforms (.only (fun _ => True) fun name => [word name]) Parser.expectName s :=
  expectName_of (fun _ _ => trivial) ⟨"", trivial⟩

end Conforms
end Parser
end GraphQL
