import GraphQL.Proofs.Parser.Conforms.Repetition
import GraphQL.Proofs.Parser.Recovers.Basic

/-! The repeated grammar elements at the spelling of a row. An element may be followed by the next one
and by what ends the row. -/
namespace GraphQL.Parser
open GraphQL.Symbol IndexedList
variable {α : Type} {P fits : α → Prop} {f : α → List Symbol} {item : Parser α} {ps ns : List Punctuator}

/-- What is told of the elements of a row. -/
structure RecoversEach (item : Parser α) (P : α → Prop) (f : α → List Symbol) (ps ns : List Punctuator)
    (fits : α → Prop) : Prop where
  conforms : ∀ s, Conforms (.only P f) item s
  ne_nil : ∀ a, f a ≠ []
  recovers : ∀ a, P a → Recovers item a (f a) ps (Avoids ns) (fits a)

theorem RecoversEach.progress (h : RecoversEach item P f ps ns fits) : Progress item :=
  progress_of_only h.conforms h.ne_nil

theorem avoids_nil (x : Symbol) : Avoids [] x := by simp [Avoids]

namespace Recovers
variable {F : Symbol → Prop} {l : IndexedList α}

private theorem item_row {row : Parser (IndexedList α)} {a : α} {v : List Symbol}
    {qs : List Punctuator} (h : RecoversEach item P f ps ns fits) (ha : P a)
    (hr : Recovers row l v qs F (∀ b ∈ l.toList, fits b)) (hv : ∀ q ∈ ns, q ∉ qs)
    (hF : v = [] → ∀ x, F x → Avoids ns x) :
    Recovers (item >>= fun first => row >>= fun rest => Pure.pure (rest.add first)) (l.add a)
      (f a ++ v) ps F (∀ b ∈ (l.add a).toList, fits b) :=
  ((h.recovers a ha).bind_some hr.map (h.ne_nil a) (fun x hx => (hr.starts x hx).avoids hv)
    hF).congr rfl (by simp)

theorem manyThrough {close : Punctuator} (h : RecoversEach item P f ps ns fits)
    (hs : ∀ q ∈ ns, q ∉ close :: ps) (hc : close ∉ ps) (hl : l.Each P) :
    Recovers (manyThrough close item) l (l.spelling f ++ [mark close]) (close :: ps) F
      (∀ a ∈ l.toList, fits a) := by
  induction l, hl using Each.induction with
  | nil =>
    rw [manyThrough_eq h.progress]
    exact ((accept_next (pure nil)).congr rfl (by simp [toList])).mono (by simp) fun _ => id
  | add rest a hr ha ih =>
    rw [manyThrough_eq h.progress, spelling_add, List.append_assoc]
    exact (accept_other (item_row h ha ih hs (by simp)) hc (by simp)).mono (fun _ => .tail _) fun _ => id

theorem someThrough {close : Punctuator} (h : RecoversEach item P f ps ns fits)
    (hs : ∀ q ∈ ns, q ∉ close :: ps) (hc : close ∉ ps) (hl : l.Each P) (hne : l ≠ .nil) :
    Recovers (someThrough close item) l (l.spelling f ++ [mark close]) ps F (∀ a ∈ l.toList, fits a) := by
  induction l, hl using Each.induction with
  | nil => exact absurd rfl hne
  | add rest a hr ha =>
    rw [spelling_add, List.append_assoc]
    exact item_row h ha (manyThrough h hs hc hr) hs (by simp)

theorem manyAfter {lead : Punctuator} (h : RecoversEach item P f ps ns fits) (hs : lead ∉ ns)
    (hF : ∀ x, F x → Avoids (lead :: ns) x) (hl : l.Each P) :
    Recovers (manyAfter lead item) l (l.spelling (mark lead :: f ·)) [lead] F (∀ a ∈ l.toList, fits a) := by
  induction l, hl using Each.induction with
  | nil =>
    rw [manyAfter_eq h.progress]
    have none : Recovers (Pure.pure nil) (nil : IndexedList α) [] [] F (∀ a ∈ nil.toList, fits a) :=
      (pure nil).congr rfl (by simp [toList])
    exact (accept_other none (by simp) fun _ x hx => hF x hx lead (.head _)).fromWord
  | add rest a hr ha ih =>
    rw [manyAfter_eq h.progress]
    refine accept_next (item_row h ha ih ?_ fun _ x hx => (hF x hx).mono fun _ => .tail _)
    exact fun q hq hq' => hs (List.mem_singleton.mp hq' ▸ hq)

theorem someSeparated {separator : Punctuator} (h : RecoversEach item P f ps ns fits)
    (hs : separator ∉ ns) (hp : separator ∉ ps) (hF : ∀ x, F x → Avoids (separator :: ns) x)
    (lead : Bool) (hl : l.Each P) (hne : l ≠ .nil) :
    Recovers (someSeparated separator item) l (l.separatedSpelling separator lead f) (separator :: ps) F
      (∀ a ∈ l.toList, fits a) := by
  induction l, hl using Each.induction with
  | nil => exact absurd rfl hne
  | add rest a hr ha =>
    have row := item_row h ha (manyAfter h hs hF hr)
      (fun q hq hq' => hs (List.mem_singleton.mp hq' ▸ hq)) fun _ x hx => (hF x hx).mono fun _ => .tail _
    cases lead with
    | true => exact (accept_next row).mono (by simp) fun _ => id
    | false =>
      have some (hw : f a ++ rest.spelling (mark separator :: f ·) = []) : False :=
        h.ne_nil a (List.append_eq_nil_iff.mp hw).1
      exact (accept_other row hp fun hw => (some hw).elim).mono (fun _ => .tail _) fun _ => id

theorem optionalBlock {opening close : Punctuator} (h : RecoversEach item P f ps ns fits)
    (hs : ∀ q ∈ ns, q ∉ close :: ps) (hc : close ∉ ps) (hF : l.isEmpty → ∀ x, F x → x ≠ mark opening)
    (hl : l.Each P) :
    Recovers (optionalBlock opening close item) l (l.optionalSpelling opening close f) [opening] F
      (∀ a ∈ l.toList, fits a) := by
  cases l with
  | nil =>
    have none : Recovers (Pure.pure nil) (nil : IndexedList α) [] [] F (∀ a ∈ nil.toList, fits a) :=
      (pure nil).congr rfl (by simp [toList])
    exact (accept_other none (by simp) fun _ => hF rfl).fromWord
  | cons p a rest => exact accept_next (someThrough h hs hc hl (by simp))

end Recovers
end GraphQL.Parser
