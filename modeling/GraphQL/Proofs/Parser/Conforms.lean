import GraphQL.Parser.Basic
import GraphQL.Proofs.Parser.Reads

/-! What a parser does at a stream, told by a grammar. It either yields a result that the consumed tokens
spell, or stops at a token that no result could have there. Either way it looks at no token but those
consumed and the one behind. -/
namespace GraphQL

/-- Which results may be spelled in which way. -/
abbrev Grammar (α : Type) := α → List Symbol → Prop

namespace Grammar
variable {α β : Type}

/-- The results that satisfy `P`, each spelled in one way. -/
def only (P : α → Prop) (f : α → List Symbol) : Grammar α := fun a w => P a ∧ w = f a

/-- No result, spelled by one symbol. -/
def symbol (x : Symbol) : Grammar Unit := only (fun _ => True) fun _ => [x]

/-- One result, spelled by nothing. -/
def unit (a : α) : Grammar α := fun b w => b = a ∧ w = []

/-- A spelling of some result and behind it one of what is made of that result. -/
def seq (G : Grammar α) (H : α → Grammar β) : Grammar β := fun b w =>
  ∃ a u v, w = u ++ v ∧ G a u ∧ H a b v

/-- A spelling in one grammar behind a symbol, or one in another grammar. -/
def ifNext (x : Symbol) (G H : Grammar α) : Grammar α := fun a w =>
  (∃ v, w = x :: v ∧ G a v) ∨ H a w

end Grammar

/-- The error lies at the token and tells whether it is illegal, the end of input or any other, except
that it may be about nesting instead. -/
structure SyntaxError.Blames (e : SyntaxError) (t : Token) : Prop where
  line : e.line = t.line
  position : e.position = t.position
  kind : e.kind ≠ .nestingExceeded → match t.kind with
    | .illegal => e.kind = .lexical
    | .eof => ∃ expected, e.kind = .unexpectedEof expected
    | _ => ∃ expected found, e.kind = .unexpectedToken expected found

namespace Parser
variable {α β : Type}

theorem bind_ok {p : Parser α} {f : α → Parser β} {s s' : TokenStream} {a : α}
    (h : p s = .ok a s') : (p >>= f) s = f a s' := by
  simp [bind, EStateM.bind, h]

theorem bind_error {p : Parser α} {f : α → Parser β} {s s' : TokenStream} {e : SyntaxError}
    (h : p s = .error e s') : (p >>= f) s = .error e s' := by
  simp [bind, EStateM.bind, h]

/-- How a parser ends at a stream. On every other stream with the same tokens up to the one where it
stops it ends in the same way. -/
inductive Ends (G : Grammar α) (p : Parser α) (s : TokenStream) : Prop where
  | ok (a : α) (ts : List Token) (s' : TokenStream) (run : p s = .ok a s') (reads : s.Reads ts s')
      (same : ∀ u u', u.Reads ts u' → u'.peek = s'.peek → p u = .ok a u')
      (spelled : G a (ts.map Token.bare))
  | error (e : SyntaxError) (ts : List Token) (s' : TokenStream) (run : p s = .error e s')
      (reads : s.Reads ts s')
      (same : ∀ u u', u.Reads ts u' → u'.peek = s'.peek → p u = .error e u')
      (blames : e.Blames s'.peek)
      (viable : e.kind ≠ .nestingExceeded → ∃ a w, G a (ts.map Token.bare ++ w))

/-- The parser follows the grammar, which describes something, at the stream. -/
structure Conforms (G : Grammar α) (p : Parser α) (s : TokenStream) : Prop where
  inhabited : ∃ a w, G a w
  ends : Ends G p s

namespace Conforms
variable {G G' : Grammar α} {H : α → Grammar β} {p : Parser α} {f : α → Parser β} {s : TokenStream}

theorem mono (h : Conforms G p s) (hG : ∀ a w, G a w → G' a w) : Conforms G' p s := by
  obtain ⟨⟨a, w, ha⟩, h⟩ := h
  refine ⟨⟨a, w, hG a w ha⟩, ?_⟩
  cases h with
  | ok a ts s' run reads same spelled => exact .ok a ts s' run reads same (hG _ _ spelled)
  | error e ts s' run reads same blames viable =>
    refine .error e ts s' run reads same blames fun he => ?_
    obtain ⟨a, w, ha⟩ := viable he
    exact ⟨a, w, hG _ _ ha⟩

/-- The continuation has to follow its grammar where the first parser ends, and to have one for every
result that the grammar of the first parser allows. -/
theorem bind_of (hp : Conforms G p s) (hf : ∀ a s', p s = .ok a s' → Conforms (H a) (f a) s')
    (next : ∀ a w, G a w → ∃ b v, H a b v) : Conforms (G.seq H) (p >>= f) s := by
  obtain ⟨⟨a₀, w₀, h₀⟩, hp⟩ := hp
  obtain ⟨b₀, v₀, k₀⟩ := next a₀ w₀ h₀
  refine ⟨⟨b₀, w₀ ++ v₀, a₀, w₀, v₀, rfl, h₀, k₀⟩, ?_⟩
  cases hp with
  | error e ts s' run reads same blames viable =>
    refine .error e ts s' (bind_error run) reads
      (fun u u' hu hpeek => bind_error (same u u' hu hpeek)) blames fun he => ?_
    obtain ⟨a, w, ha⟩ := viable he
    obtain ⟨b, v, hb⟩ := next a _ ha
    exact ⟨b, w ++ v, a, ts.map Token.bare ++ w, v, (List.append_assoc ..).symm, ha, hb⟩
  | ok a ts s' run reads same spelled =>
    -- the first parser stops at the token where the second starts
    have both : ∀ vs s'' u u'', s'.Reads vs s'' → u.Reads (ts ++ vs) u'' → u''.peek = s''.peek →
        ∃ u', p u = .ok a u' ∧ u'.Reads vs u'' := by
      intro vs s'' u u'' hs hu hpeek
      obtain ⟨u', hu, hv⟩ := hu.split
      exact ⟨u', same u u' hu (hs.peek_congr hv hpeek), hv⟩
    cases (hf a s' run).ends with
    | ok b vs s'' run' reads' same' spelled' =>
      refine .ok b (ts ++ vs) s'' ((bind_ok run).trans run') (reads.append reads')
        (fun u u'' hu hpeek => ?_) ⟨a, _, _, List.map_append, spelled, spelled'⟩
      obtain ⟨u', hr, hv⟩ := both vs s'' u u'' reads' hu hpeek
      exact (bind_ok hr).trans (same' u' u'' hv hpeek)
    | error e vs s'' run' reads' same' blames viable =>
      refine .error e (ts ++ vs) s'' ((bind_ok run).trans run') (reads.append reads')
        (fun u u'' hu hpeek => ?_) blames fun he => ?_
      · obtain ⟨u', hr, hv⟩ := both vs s'' u u'' reads' hu hpeek
        exact (bind_ok hr).trans (same' u' u'' hv hpeek)
      · obtain ⟨b, w, hb⟩ := viable he
        exact ⟨b, w, a, ts.map Token.bare, vs.map Token.bare ++ w, by simp, spelled, hb⟩

theorem bind (hp : Conforms G p s) (hf : ∀ a s', Conforms (H a) (f a) s') :
    Conforms (G.seq H) (p >>= f) s :=
  hp.bind_of (fun a s' _ => hf a s') fun a _ _ => (hf a s).inhabited

theorem pure (a : α) : Conforms (.unit a) (Pure.pure a : Parser α) s := by
  refine ⟨⟨a, [], rfl, rfl⟩, .ok a [] s rfl .done (fun u u' hu _ => ?_) ⟨rfl, rfl⟩⟩
  rw [TokenStream.Reads.nil_iff.mp hu]
  rfl

/-- Looking at the next token consumes nothing. -/
theorem peek_bind {f : Token → Parser α} (h : Conforms G (f s.peek) s) :
    Conforms G (peek >>= f) s := by
  obtain ⟨inhabited, h⟩ := h
  refine ⟨inhabited, ?_⟩
  cases h with
  | ok a ts s' run reads same spelled =>
    refine .ok a ts s' run reads (fun u u' hu hpeek => ?_) spelled
    have hs : u.peek = s.peek := reads.peek_congr hu hpeek
    exact (congrFun (congrArg f hs) u).trans (same u u' hu hpeek)
  | error e ts s' run reads same blames viable =>
    refine .error e ts s' run reads (fun u u' hu hpeek => ?_) blames viable
    have hs : u.peek = s.peek := reads.peek_congr hu hpeek
    exact (congrFun (congrArg f hs) u).trans (same u u' hu hpeek)

/-- Consuming a token that is not the end of input. -/
theorem advance_bind {f : Unit → Parser α} (h : s.peek.kind ≠ .eof)
    (hf : Conforms G (f ()) s.advance) :
    Conforms (fun a w => ∃ v, w = s.peek.bare :: v ∧ G a v) (advance >>= f) s := by
  obtain ⟨⟨a, w, ha⟩, hf⟩ := hf
  have step : ∀ {ts} {u u' : TokenStream}, u.Reads (s.peek :: ts) u' → u.advance.Reads ts u' := by
    intro ts u u' hu
    generalize s.peek = t at hu
    cases hu with
    | step _ rest => exact rest
  refine ⟨⟨a, _, w, rfl, ha⟩, ?_⟩
  cases hf with
  | ok a ts s' run reads same spelled =>
    exact .ok a (s.peek :: ts) s' run (.step h reads)
      (fun u u' hu hpeek => same _ u' (step hu) hpeek) ⟨_, rfl, spelled⟩
  | error e ts s' run reads same blames viable =>
    refine .error e (s.peek :: ts) s' run (.step h reads)
      (fun u u' hu hpeek => same _ u' (step hu) hpeek) blames fun he => ?_
    obtain ⟨a, w, ha⟩ := viable he
    exact ⟨a, w, _, rfl, ha⟩

/-- A failure that blames the next token. -/
theorem fail {e : SyntaxError} (inhabited : ∃ a w, G a w) (blames : e.Blames s.peek) :
    Conforms G (throw e : Parser α) s := by
  refine ⟨inhabited, .error e [] s rfl .done (fun u u' hu _ => ?_) blames fun _ => inhabited⟩
  rw [TokenStream.Reads.nil_iff.mp hu]
  rfl

/-- A parser that fails at the next token, which it blames. -/
theorem throw_peek {e : Token → SyntaxError} (inhabited : ∃ a w, G a w)
    (blames : (e s.peek).Blames s.peek) :
    Conforms G (peek >>= fun t => (throw (e t) : Parser α)) s :=
  peek_bind (fail inhabited blames)

theorem mapError {g : SyntaxError → SyntaxError} (h : Conforms G p s)
    (hk : ∀ e, (g e).kind = e.kind) (hl : ∀ e, (g e).line = e.line)
    (hp : ∀ e, (g e).position = e.position) : Conforms G (Parser.mapError g p) s := by
  obtain ⟨inhabited, h⟩ := h
  refine ⟨inhabited, ?_⟩
  cases h with
  | ok a ts s' run reads same spelled =>
    exact .ok a ts s' (by simp [Parser.mapError, run]) reads
      (fun u u' hu hpeek => by simp [Parser.mapError, same u u' hu hpeek]) spelled
  | error e ts s' run reads same blames viable =>
    refine .error (g e) ts s' (by simp [Parser.mapError, run]) reads
      (fun u u' hu hpeek => by simp [Parser.mapError, same u u' hu hpeek]) ?_ (by rwa [hk])
    exact ⟨(hl e).trans blames.line, (hp e).trans blames.position, by rw [hk]; exact blames.kind⟩

/-- Consuming the next token if it satisfies `c`. -/
theorem advance_if {G H : Grammar α} {q r : Parser α} {c : Token → Prop} [DecidablePred c] {x : Symbol}
    (hx : c s.peek → s.peek.bare = x ∧ s.peek.kind ≠ .eof)
    (hq : c s.peek → Conforms G q s.advance) (hr : ¬ c s.peek → Conforms H r s) :
    Conforms (.ifNext x G H) (peek >>= fun t => if c t then advance >>= fun _ => q else r) s := by
  apply peek_bind
  split
  · next h =>
    obtain ⟨hx, hk⟩ := hx h
    exact (advance_bind hk (hq h)).mono fun a w ⟨v, hw, ha⟩ => .inl ⟨v, hx ▸ hw, ha⟩
  · next h => exact (hr h).mono fun a w h => .inr h

end Conforms
end Parser
end GraphQL
