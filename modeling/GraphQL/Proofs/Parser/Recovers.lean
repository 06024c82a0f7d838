import GraphQL.Proofs.Parser.Rounds

/-! What a parser does where a spelling is next. It takes back what was spelled, if that fits into the
room there is, whenever the symbol behind the spelling is one that may stand there. -/
namespace GraphQL
open GraphQL.Symbol

namespace Symbol

theorem mark_injective {p q : Punctuator} (h : mark p = mark q) : p = q := by
  injection h with h
  injection h

@[simp] theorem mark_inj {p q : Punctuator} : mark p = mark q ↔ p = q :=
  ⟨mark_injective, congrArg mark⟩

@[simp] theorem word_inj {a b : String} : word a = word b ↔ a = b := by simp [word]

@[simp] theorem word_ne_mark (name : String) (p : Punctuator) : word name ≠ mark p := by
  simp [word, mark]

@[simp] theorem mark_ne_word (p : Punctuator) (name : String) : mark p ≠ word name :=
  (word_ne_mark name p).symm

/-- The symbol is none of these punctuators. -/
def Avoids (ps : List Punctuator) (x : Symbol) : Prop := ∀ p ∈ ps, x ≠ mark p

/-- The symbol is one of these punctuators, or no punctuator at all. -/
def Among (ps : List Punctuator) (x : Symbol) : Prop := ∀ p, x = mark p → p ∈ ps

theorem Avoids.mono {ps qs : List Punctuator} {x : Symbol} (h : Avoids ps x) (hs : ∀ q ∈ qs, q ∈ ps) :
    Avoids qs x :=
  fun q hq => h q (hs q hq)

theorem Among.avoids {ps qs : List Punctuator} {x : Symbol} (h : Among ps x)
    (hs : ∀ q ∈ qs, q ∉ ps) : Avoids qs x :=
  fun q hq hx => hs q hq (h q hx)

theorem among_mark {p : Punctuator} {ps : List Punctuator} (h : p ∈ ps) : Among ps (mark p) :=
  fun _ hq => mark_injective hq ▸ h

theorem among_word {name : String} {ps : List Punctuator} : Among ps (word name) :=
  fun p h => absurd h (word_ne_mark name p)

theorem exists_among (w : List Symbol) : ∃ ps, ∀ x ∈ w.head?, Among ps x := by
  cases w with
  | nil => exact ⟨[], by simp⟩
  | cons x w =>
    by_cases h : ∃ p, x = mark p
    · obtain ⟨p, rfl⟩ := h
      exact ⟨[p], by simpa using among_mark (.head _)⟩
    · exact ⟨[], fun y hy p hp => absurd ⟨p, (Option.some.inj hy).trans hp⟩ h⟩

end Symbol

namespace Parser
variable {α β : Type}

/-- Where `w`, which begins with no punctuator but these, is next and behind it a symbol that satisfies
`F`, the parser yields `a`. It does so only if `D` holds, and fails because of nesting otherwise. -/
structure Recovers (p : Parser α) (a : α) (w : List Symbol) (ps : List Punctuator) (F : Symbol → Prop)
    (D : Prop) : Prop where
  starts : ∀ x ∈ w.head?, Among ps x
  run : ∀ s ts s', s.Reads ts s' → ts.map Token.bare = w → F s'.peek.bare →
    (D → p s = .ok a s') ∧ (¬ D → ∃ e s'', p s = .error e s'' ∧ e.kind = .nestingExceeded)

namespace Recovers
variable {p : Parser α} {f : α → Parser β} {a : α} {b : β} {u v w : List Symbol}
variable {ps qs ns ms : List Punctuator} {F F' : Symbol → Prop} {D E : Prop}

theorem congr (h : Recovers p a w ps F D) (hw : v = w) (hD : E ↔ D) : Recovers p a v ps F E := by
  obtain rfl := propext hD
  exact hw ▸ h

theorem mono (h : Recovers p a w ps F D) (hs : ∀ p ∈ ps, p ∈ qs) (hF : ∀ x, F' x → F x) :
    Recovers p a w qs F' D :=
  ⟨fun x hx p hp => hs p (h.starts x hx p hp),
    fun s ts s' hr hw hF' => h.run s ts s' hr hw (hF _ hF')⟩

/-- A spelling that begins with no punctuator. -/
theorem fromWord (h : Recovers p a w [] F D) : Recovers p a w ps F D := h.mono (by simp) fun _ => id

theorem pure (a : α) : Recovers (Pure.pure a) a [] [] F True := by
  refine ⟨by simp, fun s ts s' hs hw _ => ⟨fun _ => ?_, fun h => absurd trivial h⟩⟩
  obtain rfl := List.map_eq_nil_iff.mp hw
  rw [TokenStream.Reads.nil_iff.mp hs]
  rfl

private theorem bind_run (hp : Recovers p a u ps F D) (hf : Recovers (f a) b v qs F' E)
    (hv : ∀ x ∈ v.head?, F x) (hF : v = [] → ∀ x, F' x → F x) {s s' : TokenStream} {ts : List Token}
    (hr : s.Reads ts s') (hw : ts.map Token.bare = u ++ v) (hF' : F' s'.peek.bare) :
    (D ∧ E → (p >>= f) s = .ok b s') ∧
      (¬ (D ∧ E) → ∃ e s'', (p >>= f) s = .error e s'' ∧ e.kind = .nestingExceeded) := by
  obtain ⟨ts, vs, rfl, hu, hvs⟩ := List.map_eq_append_iff.mp hw
  obtain ⟨s₁, hr, hr'⟩ := hr.split
  have next : F s₁.peek.bare := by
    rw [hr'.peek_eq]
    cases vs with
    | nil => exact hF hvs.symm _ hF'
    | cons t vs => exact hv _ (by simp [← hvs])
  obtain ⟨hok, herr⟩ := hp.run s ts s₁ hr hu next
  obtain ⟨hok', herr'⟩ := hf.run s₁ vs s' hr' hvs hF'
  refine ⟨fun ⟨hD, hE⟩ => (bind_ok (hok hD)).trans (hok' hE), fun hDE => ?_⟩
  by_cases hD : D
  · obtain ⟨e, s'', he, hk⟩ := herr' fun hE => hDE ⟨hD, hE⟩
    exact ⟨e, s'', (bind_ok (hok hD)).trans he, hk⟩
  · obtain ⟨e, s'', he, hk⟩ := herr hD
    exact ⟨e, s'', bind_error he, hk⟩

/-- What begins the second spelling may stand behind the first, and so may what stands behind the second,
unless that is never empty. -/
theorem bind_of (hp : Recovers p a u ps F D) (hf : Recovers (f a) b v qs F' E)
    (hv : ∀ x ∈ v.head?, F x) (hF : v = [] → ∀ x, F' x → F x) :
    Recovers (p >>= f) b (u ++ v) (ps ++ qs) F' (D ∧ E) := by
  refine ⟨fun x hx p h => ?_, fun s ts s' hr hw hF' => bind_run hp hf hv hF hr hw hF'⟩
  cases u with
  | nil => exact List.mem_append_right _ (hf.starts x hx p h)
  | cons y u => exact List.mem_append_left _ (hp.starts x hx p h)

/-- The same where the first spelling is not empty. -/
theorem bind_some (hp : Recovers p a u ps F D) (hf : Recovers (f a) b v qs F' E) (hu : u ≠ [])
    (hv : ∀ x ∈ v.head?, F x) (hF : v = [] → ∀ x, F' x → F x) :
    Recovers (p >>= f) b (u ++ v) ps F' (D ∧ E) := by
  refine ⟨fun x hx => ?_, fun s ts s' hr hw hF' => bind_run hp hf hv hF hr hw hF'⟩
  cases u with
  | nil => exact absurd rfl hu
  | cons y u => exact hp.starts x hx

theorem bind (hp : Recovers p a u ps (Avoids ns) D) (hf : Recovers (f a) b v qs (Avoids ms) E)
    (hv : ∀ q ∈ ns, q ∉ qs) (hF : v = [] → ∀ q ∈ ns, q ∈ ms) :
    Recovers (p >>= f) b (u ++ v) (ps ++ qs) (Avoids ms) (D ∧ E) :=
  hp.bind_of hf (fun x hx => (hf.starts x hx).avoids hv) fun h _ hx => hx.mono (hF h)

/-- What follows a second spelling that is never empty is of no account to the first. -/
theorem bind_before (hp : Recovers p a u ps (Avoids ns) D) (hf : Recovers (f a) b v qs F E)
    (hv : ∀ q ∈ ns, q ∉ qs) (hne : v ≠ []) : Recovers (p >>= f) b (u ++ v) (ps ++ qs) F (D ∧ E) :=
  hp.bind_of hf (fun x hx => (hf.starts x hx).avoids hv) fun h => absurd h hne

/-- Fewer symbols may follow. -/
theorem next (h : Recovers p a w ps (Avoids ns) D) (hF : ∀ q ∈ ns, q ∈ ms) :
    Recovers p a w ps (Avoids ms) D :=
  h.mono (fun _ => id) fun _ hx => hx.mono hF

/-- A parser that goes on to consume nothing. -/
theorem into (h : Recovers p a w ps F D) (hf : f a = Pure.pure b) : Recovers (p >>= f) b w ps F D := by
  have rest : Recovers (f a) b [] [] F True := by
    rw [hf]
    exact pure b
  have both := (h.bind_of rest (by simp) fun _ _ => id).congr (List.append_nil w).symm
    (and_iff_left trivial).symm
  exact both.mono (by simp) fun _ => id

/-- What is made of the result. -/
theorem map {g : α → β} (h : Recovers p a w ps F D) :
    Recovers (p >>= fun a => Pure.pure (g a)) (g a) w ps F D :=
  h.into rfl

theorem mapError {g : SyntaxError → SyntaxError} (h : Recovers p a w ps F D)
    (hg : ∀ e, (g e).kind = e.kind) : Recovers (Parser.mapError g p) a w ps F D := by
  refine ⟨h.starts, fun s ts s' hr hw hF => ?_⟩
  obtain ⟨hok, herr⟩ := h.run s ts s' hr hw hF
  refine ⟨fun hD => by simp [Parser.mapError, hok hD], fun hD => ?_⟩
  obtain ⟨e, s'', he, hk⟩ := herr hD
  exact ⟨g e, s'', by simp [Parser.mapError, he], (hg e).trans hk⟩

/-- A parser that consumes the first symbol and goes on as another. -/
theorem step {q : Parser α} {x : Symbol} (hx : Among qs x) (hq : Recovers q a v ps F D)
    (h : ∀ s : TokenStream, s.peek.bare = x → p s = q s.advance) : Recovers p a (x :: v) qs F D := by
  refine ⟨by simpa using hx, fun s ts s' hr hw hF => ?_⟩
  cases hr with
  | done => cases hw
  | step hk hr =>
    obtain ⟨hb, hw⟩ := List.cons.inj hw
    rw [h s hb]
    exact hq.run _ _ s' hr hw hF

/-- A parser that looks at the next symbol and goes on. -/
theorem stay {f : Token → Parser α} (hs : ∀ x ∈ w.head?, Among ps x)
    (h : ∀ t : Token, t.bare ∈ w.head? ∨ w = [] ∧ F t.bare → Recovers (f t) a w ps F D) :
    Recovers (peek >>= f) a w ps F D := by
  refine ⟨hs, fun s ts s' hr hw hF => (h s.peek ?_).run s ts s' hr hw hF⟩
  cases hr with
  | done => exact .inr ⟨hw.symm, hF⟩
  | step => exact .inl (by simp [← hw])

/-- A parser that does the same as another where the first symbol is next. -/
theorem look {q : Parser α} {x : Symbol} (hq : Recovers q a (x :: v) ps F D)
    (h : ∀ s : TokenStream, s.peek.bare = x → p s = q s) : Recovers p a (x :: v) ps F D := by
  refine ⟨hq.starts, fun s ts s' hr hw hF => ?_⟩
  cases hr with
  | done => cases hw
  | step hk hr =>
    rw [h s (List.cons.inj hw).1]
    exact hq.run s _ s' (.step hk hr) hw hF

end Recovers
end Parser
end GraphQL
