import GraphQL.Parser.TypeSystem
import GraphQL.Proofs.Parser.Descent

/-! Descents by single tokens, between brackets and in loops. -/
namespace GraphQL

/-- How a parser ends that looks at no more than the next token and takes no bracket. -/
inductive Parser.Glances {α : Type} (p : Parser α) (s : TokenStream) : Prop where
  | look (a : α) (run : p s = .ok a s)
  | take (a : α) (run : p s = .ok a s.advance) (inside : s.peek.kind ≠ .eof)
      (plain : ∀ c, s.peek.kind = .punctuator c → c.isBracket = false)
  | fail (e : SyntaxError) (run : p s = .error e s)

namespace Parser.Glances
variable {α : Type} {s : TokenStream} {p : Punctuator} {keyword name : String}

/-- Taking a name. -/
theorem ofName {q : Parser α} {a : α} (hn : s.peek.name? = some name) (run : q s = .ok a s.advance) : q.Glances s :=
  have kind : s.peek.kind = .name := Token.kind_of_name hn
  .take a run (by simp [kind]) (by simp [kind])

theorem peek_bind {f : Token → Parser α} (h : (f s.peek).Glances s) : (peek >>= f).Glances s := by
  cases h with
  | look a run => exact .look a run
  | take a run inside plain => exact .take a run inside plain
  | fail e run => exact .fail e run

theorem unexpected {expected : List String} : (Parser.unexpected expected : Parser α).Glances s := .fail _ rfl

theorem accept (plain : p.isBracket = false) : (accept p).Glances s := by
  by_cases h : s.peek.kind = .punctuator p
  · exact .take true (accept_of h) (by simp [h]) (by simpa [h] using plain)
  · exact .look false (accept_of_not h)

theorem expect (plain : p.isBracket = false) : (expect p).Glances s := by
  by_cases h : s.peek.kind = .punctuator p
  · exact .take () (expect_of h) (by simp [h]) (by simpa [h] using plain)
  · obtain ⟨e, run⟩ := expect_of_not h
    exact .fail e run

theorem acceptKeyword : (acceptKeyword keyword).Glances s := by
  have run := acceptKeyword_run keyword Pure.pure s
  rw [bind_pure] at run
  split at run
  · next h => exact .ofName (Token.isKeyword_iff.mp h) run
  · exact .look false run

theorem expectKeyword : (expectKeyword keyword).Glances s := by
  have run := acceptKeyword_run keyword
    (fun c => if c then Pure.pure () else Parser.unexpected ["`" ++ keyword ++ "`"]) s
  split at run
  · next h => exact .ofName (Token.isKeyword_iff.mp h) run
  · exact .fail _ run

theorem expectName : Parser.expectName.Glances s := by
  apply peek_bind
  cases hn : s.peek.name? with
  | none => exact unexpected
  | some name => exact .ofName hn rfl

/-- Taking a name that stands for something. -/
theorem meaning {make : String → Option α} {a : α} (h : s.peek.name?.bind make = some a) :
    (Parser.advance >>= fun _ => Pure.pure a).Glances s := by
  obtain ⟨name, hn, -⟩ := Option.bind_eq_some_iff.mp h
  exact ofName hn rfl

theorem operationType : Parser.operationType.Glances s := by
  apply peek_bind
  split
  · next h => exact meaning h
  · exact unexpected

theorem directiveLocation : Parser.directiveLocation.Glances s := by
  apply peek_bind
  split
  · next h => exact meaning h
  · exact .fail _ rfl

theorem optionalDescription : Parser.optionalDescription.Glances s := by
  apply peek_bind
  split
  · next h => exact .take _ rfl (by simp [h]) (by simp [h])
  · next h => exact .take _ rfl (by simp [h]) (by simp [h])
  · exact .look none rfl

theorem refuseReservedEnumValue : Parser.refuseReservedEnumValue.Glances s := by
  apply peek_bind
  split
  · split
    · exact .fail _ rfl
    · exact .look () rfl
  · exact .look () rfl

end Parser.Glances

namespace Descent
open GraphQL.Parser (Glances accept_of accept_of_not expect_of expect_of_not nestingExceeded maxNesting)
variable {α β γ : Type}

theorem step_ok {q : Parser α} {s s' : TokenStream} {d : Nat} {a : α} (h : q s = .ok a s') (past : List Point) :
    step q ⟨⟨s, d⟩, past⟩ = .ok a ⟨⟨s', d⟩, ⟨s, d⟩ :: past⟩ := by simp [step, h]

theorem step_error {q : Parser α} {s s' : TokenStream} {d : Nat} {e : SyntaxError} (h : q s = .error e s')
    (past : List Point) : step q ⟨⟨s, d⟩, past⟩ = .error (.failed e) ⟨⟨s', d⟩, ⟨s, d⟩ :: past⟩ := by simp [step, h]

theorem enterNested_run (s : TokenStream) (d : Nat) (past : List Point) :
    enterNested ⟨⟨s, d⟩, past⟩ =
      (if maxNesting < d + 1 then step nestingExceeded else pure ()) ⟨⟨s, d + 1⟩, past⟩ := rfl

theorem exitNested_run (s : TokenStream) (d : Nat) (past : List Point) :
    exitNested ⟨⟨s, d + 1⟩, past⟩ = .ok () ⟨⟨s, d⟩, past⟩ := rfl

/-- What is passed inside a bracket, whether it is a level or not. -/
theorem Passes.inside {inBlock : Bool} {s : TokenStream} {d d' : Nat} {b : Punctuator} {x : Point}
    (hk : s.peek.kind = .punctuator b) (hb : b.closing?.isSome)
    (levels : ∀ opened, d' + openLevels false opened = d + openLevels inBlock (opened ++ [s.peek]))
    (bound : max d' maxNesting ≤ max d maxNesting) (h : Passes false [s.peek] ⟨s.advance, d'⟩ x) :
    Passes inBlock [] ⟨s, d⟩ x := by
  cases h with
  | reached ts opened reads left depth bounded =>
    refine .reached (s.peek :: ts) (opened ++ [s.peek]) (.step (by simp [hk]) reads) (fun outer => ?_)
      (depth.trans (levels opened)) (Nat.le_trans bounded (Nat.succ_le_succ bound))
    rw [List.foldl_cons, List.nil_append, openBehind_of_opening hk hb]
    exact (left outer).trans (by simp)

namespace Tracks
variable {fuel d : Nat} {inBlock : Bool} {under : List Token} {p : Descent α} {q : Parser α} {f : α → Descent β}
  {g : α → Parser β} {s : TokenStream} {a : α} {b : Punctuator} {o : Token}

theorem step (h : q.Glances s) : Tracks fuel inBlock [] (Descent.step q) q ⟨s, d⟩ := by
  intro _
  cases h with
  | look a run =>
    exact .ok a [] s [⟨s, d⟩] (step_ok run) run .done (fun _ => rfl)
      (by simpa [Passes.here] using ⟨[], .done⟩)
  | take a run inside plain =>
    exact .ok a [s.peek] s.advance [⟨s, d⟩] (step_ok run) run (.one inside)
      (fun _ => openBehind_of_plain plain) (by simpa [Passes.here] using ⟨_, .one inside⟩)
  | fail e run =>
    exact .failed e ⟨s, d⟩ [⟨s, d⟩] (step_error run) run (.here _) (by simp [Passes.here])

/-- A step that fails, whatever brackets are open. -/
theorem fail {e : SyntaxError} (run : q s = .error e s) : Tracks fuel inBlock under (Descent.step q) q ⟨s, d⟩ :=
  fun _ => .failed e ⟨s, d⟩ [⟨s, d⟩] (step_error run) run (.here _) (by simp [Passes.here])

theorem unexpected {expected : List String} : Tracks fuel inBlock under
    (Descent.step (Parser.unexpected expected) : Descent α) (Parser.unexpected expected) ⟨s, d⟩ := fail rfl

/-- Nothing follows an error. -/
theorem fail_bind {r : Parser γ} {k : γ → Descent α} {l : γ → Parser α} {e : SyntaxError} (run : r s = .error e s) :
    Tracks fuel inBlock under (Descent.step r >>= k) (r >>= l) ⟨s, d⟩ :=
  fun _ => .failed e ⟨s, d⟩ [⟨s, d⟩] (fun past => bind_error (step_error run past)) (Parser.bind_error run)
    (.here _) (by simp [Passes.here])

/-- Consuming the bracket that closes. -/
theorem closing (run : q s = .ok a s.advance) (hk : s.peek.kind = .punctuator b) (ho : o.IsClosedBy b) :
    Tracks fuel inBlock [o] (Descent.step q) q ⟨s, d⟩ :=
  fun _ => .ok a [s.peek] s.advance [⟨s, d⟩] (step_ok run) run (.one (by simp [hk]))
    (fun _ => openBehind_of_closing hk ho) (by simpa [Passes.here] using ⟨_, .one (by simp [hk])⟩)

/-- Only what follows the result of the step counts. -/
theorem congr_bind {r : Parser γ} {k k' : γ → Descent α} {l l' : γ → Parser α} {c : γ} {s' : TokenStream}
    (h : Tracks fuel inBlock under (Descent.step r >>= k') (r >>= l') ⟨s, d⟩) (run : r s = .ok c s')
    (hk : k c = k' c) (hl : l c = l' c) : Tracks fuel inBlock under (Descent.step r >>= k) (r >>= l) ⟨s, d⟩ := by
  refine h.congr (fun past => ?_) ?_
  · rw [bind_ok (step_ok run past), bind_ok (step_ok run past), hk]
  · rw [Parser.bind_ok run, Parser.bind_ok run, hl]

/-- Less fuel is enough where fewer tokens are left. -/
theorem weaken {less : Nat} (h : Tracks fuel inBlock under p q ⟨s, d⟩) (le : less ≤ fuel) :
    Tracks less inBlock under p q ⟨s, d⟩ := fun hs => h (Nat.lt_of_lt_of_le hs le)

/-- Consuming a bracket, and behind it what closes it. In between the counter may be another. -/
private theorem bracket {d' : Nat} {enter : Descent α} {leave : Descent Unit} {body : Descent β} {inner : Parser β}
    (enters : ∀ past, enter ⟨⟨s, d⟩, past⟩ = .ok a ⟨⟨s.advance, d'⟩, ⟨s, d⟩ :: past⟩)
    (leaves : ∀ s' past, leave ⟨⟨s', d'⟩, past⟩ = .ok () ⟨⟨s', d⟩, past⟩) (run : q s = .ok a s.advance)
    (hk : s.peek.kind = .punctuator b) (hb : b.closing?.isSome)
    (levels : ∀ opened, d' + openLevels false opened = d + openLevels inBlock (opened ++ [s.peek]))
    (bound : max d' maxNesting ≤ max d maxNesting) (h : Tracks fuel false [s.peek] body inner ⟨s.advance, d'⟩) :
    Tracks (fuel + 1) inBlock [] (enter >>= fun _ => body >>= fun c => leave >>= fun _ => Pure.pure c)
      (q >>= fun _ => inner) ⟨s, d⟩ := by
  intro hs
  have inside {x : Point} (h : Passes false [s.peek] ⟨s.advance, d'⟩ x) : Passes inBlock [] ⟨s, d⟩ x :=
    h.inside hk hb levels bound
  have taken : s.peek.kind ≠ .eof := by simp [hk]
  have fewer : s.advance.unread.length < fuel := by
    change s.unread.length < fuel + 1 at hs
    rw [TokenStream.unread_of_peek taken] at hs
    exact Nat.lt_of_succ_lt_succ hs
  cases h fewer with
  | ok c ts s' looks run' same rest closed passed =>
    refine .ok c (s.peek :: ts) s' (looks ++ [⟨s, d⟩]) (fun past => ?_) ((Parser.bind_ok run).trans same)
      (.step taken rest) (fun outer => ?_) fun x hx => ?_
    · rw [bind_ok (enters past), bind_ok (run' _), bind_ok (leaves _ _), List.append_assoc, List.singleton_append]
      rfl
    · rw [List.foldl_cons, List.nil_append, openBehind_of_opening hk hb]
      exact closed outer
    · rcases List.mem_append.mp hx with hx | hx
      · exact ⟨inside (passed x hx).1, (passed x hx).2⟩
      · obtain rfl := List.mem_singleton.mp hx
        exact ⟨.here _, _, .step taken rest⟩
  | failed e stop looks run' same stopped passed =>
    refine .failed e stop (looks ++ [⟨s, d⟩]) (fun past => ?_) ((Parser.bind_ok run).trans same) (inside stopped)
      (by simpa [or_imp, forall_and] using ⟨fun x hx => inside (passed x hx), .here _⟩)
    rw [bind_ok (enters past), bind_error (run' _), List.append_assoc, List.singleton_append]

/-- Inside a bracket that is no level. -/
theorem opening_bind (run : q s = .ok a s.advance) (hk : s.peek.kind = .punctuator b) (hb : b.closing?.isSome)
    (around : ∀ opened, openLevels inBlock (opened ++ [s.peek]) = openLevels false opened)
    (h : Tracks fuel false [s.peek] (f a) (g a) ⟨s.advance, d⟩) :
    Tracks fuel inBlock [] (Descent.step q >>= f) (q >>= g) ⟨s, d⟩ := by
  have inside : Tracks (fuel + 1) inBlock [] (Descent.step q >>= fun _ => f a >>= fun c => Pure.pure () >>= fun _ =>
      Pure.pure c) (q >>= fun _ => g a) ⟨s, d⟩ :=
    bracket (step_ok run) (fun _ _ => rfl) run hk hb (fun opened => by rw [around]) (Nat.le_refl _) h
  exact (inside.weaken (Nat.le_succ fuel)).congr_bind run (by simp) rfl

section
variable {r : Parser γ} {c : γ}

/-- A level too many. -/
private theorem full_bind {k : Unit → Descent α} {l : β → Parser α} (run : r s = .ok c s.advance)
    (hk : s.peek.kind = .punctuator b) (hb : b.closing?.isSome) (level : b ≠ .parenOpen) (full : maxNesting ≤ d) :
    Tracks fuel false [] (Descent.step r >>= fun _ => enterNested >>= k) (r >>= fun _ => nestingExceeded >>= l)
      ⟨s, d⟩ := by
  intro _
  have fails (past : List Point) : enterNested ⟨⟨s.advance, d⟩, past⟩ =
      .error (.failed _) ⟨⟨s.advance, d + 1⟩, ⟨s.advance, d + 1⟩ :: past⟩ :=
    (enterNested_run ..).trans (by rw [if_pos (by omega)]; rfl)
  have counted : d + 1 = d + openLevels false ([] ++ [s.peek]) := by
    rw [openLevels_level (by simpa [hk] using level), openLevels_nil]
  have inside : Passes false [] ⟨s, d⟩ ⟨s.advance, d + 1⟩ :=
    .reached [s.peek] [s.peek] (.one (by simp [hk])) (fun _ => openBehind_of_opening hk hb) counted
      (Nat.succ_le_succ (Nat.le_max_left ..))
  refine .failed _ ⟨s.advance, d + 1⟩ [⟨s.advance, d + 1⟩, ⟨s, d⟩] (fun past => ?_) (Parser.bind_ok run)
    inside (by simp [inside, Passes.here])
  rw [bind_ok (step_ok run past), bind_error (fails _)]
  rfl

/-- Inside a level for which there is room. -/
private theorem room_bind {body : Descent α} {inner : Parser α} (run : r s = .ok c s.advance)
    (hk : s.peek.kind = .punctuator b) (hb : b.closing?.isSome) (level : b ≠ .parenOpen) (room : d < maxNesting)
    (inside : Tracks fuel false [s.peek] body inner ⟨s.advance, d + 1⟩) :
    Tracks (fuel + 1) false []
      (Descent.step r >>= fun _ => enterNested >>= fun _ => body >>= fun a => exitNested >>= fun _ => Pure.pure a)
      (r >>= fun _ => inner) ⟨s, d⟩ := by
  have levels (opened : List Token) :
      d + 1 + openLevels false opened = d + openLevels false (opened ++ [s.peek]) := by
    rw [openLevels_level (by simpa [hk] using level)]
    omega
  have enters (past : List Point) : (Descent.step r >>= fun c => enterNested >>= fun _ => Pure.pure c)
      ⟨⟨s, d⟩, past⟩ = .ok c ⟨⟨s.advance, d + 1⟩, ⟨s, d⟩ :: past⟩ := by
    rw [bind_ok (step_ok run past)]
    exact bind_ok ((enterNested_run ..).trans (by rw [if_neg (by omega)]; rfl))
  refine (bracket enters (exitNested_run · d) run hk hb levels (by omega) inside).congr (fun past => ?_) rfl
  simp [bind_assoc]

/-- Inside a level, if there is room for it, and behind it. -/
theorem level_bind {body : Descent α} {inner : Option (Parser β)} {k : Parser β → Parser α}
    (run : r s = .ok c s.advance) (hk : s.peek.kind = .punctuator b) (hb : b.closing?.isSome) (level : b ≠ .parenOpen)
    (room : inner = none ↔ maxNesting ≤ d)
    (inside : ∀ q ∈ inner, Tracks fuel false [s.peek] body (k q) ⟨s.advance, d + 1⟩)
    (more : ∀ a s', Tracks (fuel + 1) false [] (f a) (g a) ⟨s', d⟩) :
    Tracks (fuel + 1) false []
      (Descent.step r >>= fun _ => enterNested >>= fun _ => body >>= fun a => exitNested >>= fun _ => f a)
      (r >>= fun _ => Parser.enter inner >>= fun q => k q >>= g) ⟨s, d⟩ := by
  cases inner with
  | none => exact full_bind run hk hb level (room.mp rfl)
  | some q =>
    have whole := room_bind run hk hb level (by simpa using room) (inside q rfl)
    refine (whole.bind fun a s' _ => more a s').congr (fun past => ?_) ?_
    · simp [bind_assoc]
    · rw [bind_assoc]
      rfl

end

/-- A step that leaves the token where it is. -/
theorem look_bind (run : q s = .ok a s) (h : Tracks fuel inBlock under (f a) (g a) ⟨s, d⟩) :
    Tracks fuel inBlock under (Descent.step q >>= f) (q >>= g) ⟨s, d⟩ :=
  (step (.look a run)).bind fun a' s' run' => by
    cases run.symm.trans run'
    exact h

theorem peek_bind {f : Token → Descent α} {g : Token → Parser α}
    (h : Tracks fuel inBlock under (f s.peek) (g s.peek) ⟨s, d⟩) :
    Tracks fuel inBlock under (Descent.step Parser.peek >>= f) (Parser.peek >>= g) ⟨s, d⟩ := look_bind rfl h

theorem isAt_bind {f : Bool → Descent α} {g : Bool → Parser α}
    (ht : s.peek.kind = .punctuator b → Tracks fuel inBlock under (f true) (g true) ⟨s, d⟩)
    (hf : s.peek.kind ≠ .punctuator b → Tracks fuel inBlock under (f false) (g false) ⟨s, d⟩) :
    Tracks fuel inBlock under (Descent.step (Parser.isAt b) >>= f) (Parser.isAt b >>= g) ⟨s, d⟩ := by
  by_cases hk : s.peek.kind = .punctuator b
  · exact look_bind (congrArg (EStateM.Result.ok · s) (decide_eq_true hk)) (ht hk)
  · exact look_bind (congrArg (EStateM.Result.ok · s) (decide_eq_false hk)) (hf hk)

theorem accept_bind {f : Bool → Descent α} {g : Bool → Parser α}
    (ht : s.peek.kind = .punctuator b →
      Tracks fuel inBlock under (Descent.step (Parser.accept b) >>= f) (Parser.accept b >>= g) ⟨s, d⟩)
    (hf : Tracks fuel inBlock under (f false) (g false) ⟨s, d⟩) :
    Tracks fuel inBlock under (Descent.step (Parser.accept b) >>= f) (Parser.accept b >>= g) ⟨s, d⟩ := by
  by_cases hk : s.peek.kind = .punctuator b
  · exact ht hk
  · exact look_bind (accept_of_not hk) hf

theorem expect_bind {f : Unit → Descent α} {g : Unit → Parser α}
    (h : s.peek.kind = .punctuator b →
      Tracks fuel inBlock under (Descent.step (Parser.expect b) >>= f) (Parser.expect b >>= g) ⟨s, d⟩) :
    Tracks fuel inBlock under (Descent.step (Parser.expect b) >>= f) (Parser.expect b >>= g) ⟨s, d⟩ := by
  by_cases hk : s.peek.kind = .punctuator b
  · exact h hk
  · obtain ⟨e, run⟩ := expect_of_not hk
    exact fail_bind run

/-- The bracket that closes, with a result. -/
theorem closing_bind {r : Parser γ} {k : γ → Descent α} {l : γ → Parser α} {c : γ} (run : r s = .ok c s.advance)
    (hk : s.peek.kind = .punctuator b) (ho : o.IsClosedBy b) (hd : k c = Pure.pure a) (hp : l c = Pure.pure a) :
    Tracks fuel inBlock [o] (Descent.step r >>= k) (r >>= l) ⟨s, d⟩ :=
  ((closing run hk ho).map fun _ => a).congr_bind run hd hp

/-- Less fuel is enough behind what consumes a token. -/
theorem progress_bind (progress : Parser.Progress q) (h : Tracks (fuel + 1) inBlock [] p q ⟨s, d⟩)
    (more : ∀ a s', Tracks fuel inBlock under (f a) (g a) ⟨s', d⟩) :
    Tracks (fuel + 1) inBlock under (p >>= f) (q >>= g) ⟨s, d⟩ := by
  intro hs
  refine h.bind (fun a s' run _ => more a s' ?_) hs
  exact Nat.lt_of_lt_of_le (progress s a s' run) (Nat.le_of_lt_succ hs)

section
variable (progress : Parser.Progress q)
include progress

/-- Elements inside the bracket that `close` closes. -/
theorem manyThrough {close : Punctuator} (h : ∀ s, Tracks fuel inBlock [] p q ⟨s, d⟩) (ho : o.IsClosedBy close) :
    Tracks fuel inBlock [o] (Descent.manyThrough close p fuel) (Parser.manyThrough close q) ⟨s, d⟩ := by
  suffices rounds : ∀ n ≤ fuel, ∀ s,
      Tracks n inBlock [o] (Descent.manyThrough close p n) (Parser.manyThrough close q) ⟨s, d⟩
    from rounds fuel (Nat.le_refl _) s
  intro n
  induction n with
  | zero => exact fun _ s hs => absurd hs (Nat.not_lt_zero _)
  | succ n ih =>
    intro le s
    rw [Parser.manyThrough_eq progress]
    refine accept_bind (fun hk => closing_bind (accept_of hk) hk ho rfl rfl) ?_
    exact progress_bind progress ((h s).weaken le) fun first s' => (ih (Nat.le_of_succ_le le) s').map _

/-- Such elements, at least one, read by a parser that has the loop's equation. -/
theorem someThrough {close : Punctuator} {loop : Parser (IndexedList α)}
    (unfolds : loop = q >>= fun first => Parser.accept close >>= fun closed =>
      if closed then Pure.pure (.add .nil first) else loop >>= fun rest => Pure.pure (rest.add first))
    (h : ∀ s, Tracks fuel inBlock [] p q ⟨s, d⟩) (ho : o.IsClosedBy close) :
    Tracks fuel inBlock [o] (Descent.someThrough close p fuel) loop ⟨s, d⟩ := by
  suffices rounds : ∀ n ≤ fuel, ∀ s, Tracks n inBlock [o] (Descent.someThrough close p n) loop ⟨s, d⟩
    from rounds fuel (Nat.le_refl _) s
  intro n
  induction n with
  | zero => exact fun _ s hs => absurd hs (Nat.not_lt_zero _)
  | succ n ih =>
    intro le s
    rw [unfolds]
    refine progress_bind progress ((h s).weaken le) fun first s' => ?_
    refine accept_bind (fun hk => closing_bind (accept_of hk) hk ho rfl rfl) ?_
    exact (ih (Nat.le_of_succ_le le) s').map _

theorem manyAfter {lead : Punctuator} (plain : lead.isBracket = false) (h : ∀ s, Tracks fuel inBlock [] p q ⟨s, d⟩) :
    Tracks fuel inBlock [] (Descent.manyAfter lead p fuel) (Parser.manyAfter lead q) ⟨s, d⟩ := by
  suffices rounds : ∀ n ≤ fuel, ∀ s,
      Tracks n inBlock [] (Descent.manyAfter lead p n) (Parser.manyAfter lead q) ⟨s, d⟩
    from rounds fuel (Nat.le_refl _) s
  intro n
  induction n with
  | zero => exact fun _ s hs => absurd hs (Nat.not_lt_zero _)
  | succ n ih =>
    intro le s
    rw [Parser.manyAfter_eq progress]
    refine (step (.accept plain)).bind fun more s' _ => ?_
    cases more with
    | true => exact progress_bind progress ((h s').weaken le) fun first s'' => (ih (Nat.le_of_succ_le le) s'').map _
    | false => exact pure _

theorem someSeparated {separator : Punctuator} (plain : separator.isBracket = false)
    (h : ∀ s, Tracks fuel inBlock [] p q ⟨s, d⟩) :
    Tracks fuel inBlock [] (Descent.someSeparated separator p fuel) (Parser.someSeparated separator q) ⟨s, d⟩ :=
  (step (.accept plain)).bind fun _ s' _ => (h s').bind fun _ _ _ => (manyAfter progress plain h).map _

/-- Elements in brackets that are no level. -/
theorem optionalBlock {opening close : Punctuator} (ho : opening.closing? = some close)
    (around : ∀ opened o, o.kind = .punctuator opening → openLevels inBlock (opened ++ [o]) = openLevels false opened)
    (h : ∀ s, Tracks fuel false [] p q ⟨s, d⟩) :
    Tracks fuel inBlock [] (Descent.optionalBlock opening close p fuel) (Parser.optionalBlock opening close q)
      ⟨s, d⟩ := by
  refine accept_bind (fun hk => ?_) (pure _)
  exact opening_bind (accept_of hk) hk (by simp [ho]) (around · _ hk)
    (someThrough progress (Parser.someThrough_eq progress) h ⟨opening, hk, ho⟩)

end

end Tracks
end Descent
end GraphQL
