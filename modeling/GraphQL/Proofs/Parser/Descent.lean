import GraphQL.Parser.Descent.Basic
import GraphQL.Proofs.Parser.Brackets
import GraphQL.Proofs.Parser.Rounds

/-! Descents that track a parser. With fuel for the tokens they come to what the parser comes to in the room that the
counter leaves. The counter is the number of open brackets that are levels, wherever the next token is looked at, and
behind a success it is what it was before. -/
namespace GraphQL

/-- How many of the open brackets, innermost first, are those of a selection set, a list or object value or a list type.
Parentheses are not. In a definition of the type system the outermost bracket is not either: it opens arguments or the
block of the definition. -/
def openLevels (inBlock : Bool) (opened : List Token) : Nat :=
  (if inBlock then opened.dropLast else opened).countP (·.kind ≠ .punctuator .parenOpen)

section
variable {inBlock : Bool} {opened : List Token} {o : Token}

@[simp] theorem openLevels_nil : openLevels inBlock [] = 0 := by cases inBlock <;> rfl

theorem openLevels_paren (h : o.kind = .punctuator .parenOpen) :
    openLevels inBlock (opened ++ [o]) = openLevels false opened := by
  cases inBlock <;> simp [openLevels, h]

/-- The block of a definition of the type system. -/
theorem openLevels_block : openLevels true (opened ++ [o]) = openLevels false opened := by simp [openLevels]

theorem openLevels_level (h : o.kind ≠ .punctuator .parenOpen) :
    openLevels false (opened ++ [o]) = openLevels false opened + 1 := by
  simp [openLevels, h]

end

namespace Descent
variable {α β : Type}

/-- A descent passes the point. Of the brackets that are open there those in `under` have been open at the start, and
the counter has grown by the levels among the others. -/
inductive Passes (inBlock : Bool) (under : List Token) (start x : Point) : Prop where
  | reached (ts opened : List Token) (reads : start.stream.Reads ts x.stream)
      (left : ∀ outer, ts.foldl openBehind (under ++ outer) = opened ++ (under ++ outer))
      (depth : x.depth = start.depth + openLevels inBlock opened)
      (bounded : x.depth ≤ max start.depth Parser.maxNesting + 1)

/-- How a descent runs from a point where the brackets in `under` are open: it comes to what the parser comes to. On
success it has closed them and all that it opened, and the counter is as before; nothing it has looked at lies ahead. -/
inductive Runs (inBlock : Bool) (under : List Token) (p : Descent α) (q : Parser α) (start : Point) : Prop where
  | ok (a : α) (ts : List Token) (s : TokenStream) (looks : List Point)
      (run : ∀ past, p ⟨start, past⟩ = .ok a ⟨⟨s, start.depth⟩, looks ++ past⟩)
      (same : q start.stream = .ok a s) (reads : start.stream.Reads ts s)
      (closed : ∀ outer, ts.foldl openBehind (under ++ outer) = outer)
      (passed : ∀ x ∈ looks, Passes inBlock under start x ∧ ∃ vs, x.stream.Reads vs s)
  | failed (e : SyntaxError) (stop : Point) (looks : List Point)
      (run : ∀ past, p ⟨start, past⟩ = .error (.failed e) ⟨stop, looks ++ past⟩)
      (same : q start.stream = .error e stop.stream) (stopped : Passes inBlock under start stop)
      (passed : ∀ x ∈ looks, Passes inBlock under start x)

/-- With more fuel than tokens the descent runs like the parser. -/
def Tracks (fuel : Nat) (inBlock : Bool) (under : List Token) (p : Descent α) (q : Parser α) (start : Point) : Prop :=
  start.stream.unread.length < fuel → Runs inBlock under p q start

section
variable {p : Descent α} {f : α → Descent β} {σ σ' : State}

theorem bind_ok {a : α} (h : p σ = .ok a σ') : (p >>= f) σ = f a σ' := by simp [bind, EStateM.bind, h]

theorem bind_error {e : Stop} (h : p σ = .error e σ') : (p >>= f) σ = .error e σ' := by
  simp [bind, EStateM.bind, h]

end

theorem Passes.here {inBlock : Bool} {under : List Token} (start : Point) : Passes inBlock under start start :=
  .reached [] [] .done (fun _ => rfl) (by simp) (by omega)

/-- Brackets around those that are open. -/
theorem Passes.around {inBlock : Bool} {under : List Token} {start x : Point} (h : Passes inBlock [] start x) :
    Passes inBlock under start x := by
  cases h with
  | reached ts opened reads left depth bounded =>
    exact .reached ts opened reads (fun outer => left (under ++ outer)) depth bounded

/-- What is passed behind a success. -/
theorem Passes.behind {inBlock : Bool} {under ts : List Token} {s s' : TokenStream} {d : Nat} {x : Point}
    (reads : s.Reads ts s') (closed : ∀ outer, ts.foldl openBehind outer = outer)
    (h : Passes inBlock under ⟨s', d⟩ x) : Passes inBlock under ⟨s, d⟩ x := by
  cases h with
  | reached vs opened reads' left depth bounded =>
    refine .reached (ts ++ vs) opened (reads.append reads') (fun outer => ?_) depth bounded
    rw [List.foldl_append, closed]
    exact left outer

namespace Tracks
variable {fuel d : Nat} {inBlock inner : Bool} {under : List Token} {p : Descent α} {q : Parser α} {f : α → Descent β}
  {g : α → Parser β} {s : TokenStream}

theorem pure (a : α) : Tracks fuel inBlock [] (Pure.pure a : Descent α) (Pure.pure a) ⟨s, d⟩ :=
  fun _ => .ok a [] s [] (fun _ => rfl) rfl .done (fun _ => rfl) (by simp)

/-- Parsers and descents that run alike. -/
theorem congr {p' : Descent α} {q' : Parser α} (hp : ∀ past, p ⟨⟨s, d⟩, past⟩ = p' ⟨⟨s, d⟩, past⟩) (hq : q s = q' s)
    (h : Tracks fuel inBlock under p' q' ⟨s, d⟩) : Tracks fuel inBlock under p q ⟨s, d⟩ := by
  intro hs
  cases h hs with
  | ok a ts s' looks run same reads closed passed =>
    exact .ok a ts s' looks (fun past => (hp past).trans (run past)) (hq.trans same) reads closed passed
  | failed e stop looks run same stopped passed =>
    exact .failed e stop looks (fun past => (hp past).trans (run past)) (hq.trans same) stopped passed

theorem bind (h : Tracks fuel inBlock [] p q ⟨s, d⟩)
    (more : ∀ a s', q s = .ok a s' → Tracks fuel inBlock under (f a) (g a) ⟨s', d⟩) :
    Tracks fuel inBlock under (p >>= f) (q >>= g) ⟨s, d⟩ := by
  intro hs
  cases h hs with
  | failed e stop looks run same stopped passed =>
    exact .failed e stop looks (fun past => bind_error (run past)) (Parser.bind_error same) stopped.around
      fun x hx => (passed x hx).around
  | ok a ts s' looks run same reads closed passed =>
    have fewer : s'.unread.length < fuel :=
      Nat.lt_of_le_of_lt (Nat.le.intro ((Nat.add_comm ..).trans reads.length_le)) hs
    have before : ∀ x ∈ looks, Passes inBlock under ⟨s, d⟩ x := fun x hx => (passed x hx).1.around
    have closes (vs outer : List Token) :
        (ts ++ vs).foldl openBehind (under ++ outer) = vs.foldl openBehind (under ++ outer) := by
      rw [List.foldl_append]
      exact congrArg (vs.foldl openBehind) (closed (under ++ outer))
    cases more a s' same fewer with
    | ok b vs s'' looks' run' same' reads' closed' passed' =>
      refine .ok b (ts ++ vs) s'' (looks' ++ looks) (fun past => ?_) ((Parser.bind_ok same).trans same')
        (reads.append reads') (fun outer => (closes vs outer).trans (closed' outer)) ?_
      · rw [bind_ok (run past), run', List.append_assoc]
      · intro x hx
        rcases List.mem_append.mp hx with hx | hx
        · exact ⟨(passed' x hx).1.behind reads closed, (passed' x hx).2⟩
        · obtain ⟨ws, ahead⟩ := (passed x hx).2
          exact ⟨before x hx, ws ++ vs, ahead.append reads'⟩
    | failed e stop looks' run' same' stopped passed' =>
      refine .failed e stop (looks' ++ looks) (fun past => ?_) ((Parser.bind_ok same).trans same')
        (stopped.behind reads closed) ?_
      · rw [bind_ok (run past), run', List.append_assoc]
      · intro x hx
        rcases List.mem_append.mp hx with hx | hx
        · exact (passed' x hx).behind reads closed
        · exact before x hx

/-- What is made of the result. -/
theorem map (h : Tracks fuel inBlock under p q ⟨s, d⟩) (g : α → β) :
    Tracks fuel inBlock under (p >>= fun a => Pure.pure (g a)) (q >>= fun a => Pure.pure (g a)) ⟨s, d⟩ := by
  intro hs
  cases h hs with
  | ok a ts s' looks run same reads closed passed =>
    exact .ok (g a) ts s' looks (fun past => bind_ok (run past)) (Parser.bind_ok same) reads closed passed
  | failed e stop looks run same stopped passed =>
    exact .failed e stop looks (fun past => bind_error (run past)) (Parser.bind_error same) stopped passed

theorem mapError (f : SyntaxError → SyntaxError) (h : Tracks fuel inBlock under p q ⟨s, d⟩) :
    Tracks fuel inBlock under (Descent.mapError f p) (Parser.mapError f q) ⟨s, d⟩ := by
  intro hs
  cases h hs with
  | ok a ts s' looks run same reads closed passed =>
    exact .ok a ts s' looks (fun past => by simp [Descent.mapError, run past]) (by simp [Parser.mapError, same])
      reads closed passed
  | failed e stop looks run same stopped passed =>
    exact .failed (f e) stop looks (fun past => by simp [Descent.mapError, run past])
      (by simp [Parser.mapError, same]) stopped passed

end Tracks
end Descent
end GraphQL
