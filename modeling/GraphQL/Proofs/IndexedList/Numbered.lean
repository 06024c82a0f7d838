import GraphQL.IndexedList

/-! Lists whose stored positions count down to zero. Such a list is known by its values, and adding,
joining and reversing lead to such lists only. -/
namespace GraphQL.IndexedList
variable {α : Type}

/-- The positions run from one below the length at the head down to zero at the end. -/
def Numbered : IndexedList α → Prop
  | nil => True
  | cons p _ rest => p = rest.len ∧ rest.Numbered

/-- A numbered list all of whose values satisfy `P`. -/
def Each (P : α → Prop) (l : IndexedList α) : Prop :=
  l.Numbered ∧ ∀ a ∈ l.toList, P a

theorem len_eq_length (l : IndexedList α) : l.len = l.toList.length := by
  induction l with
  | nil => rfl
  | cons p a rest ih => simp [len, toList, ih]

theorem isEmpty_iff_eq_nil (l : IndexedList α) : l.isEmpty = true ↔ l = nil := by
  cases l <;> simp [isEmpty]

@[simp] theorem toList_eq_nil_iff (l : IndexedList α) : l.toList = [] ↔ l = nil := by
  cases l <;> simp [toList]

@[simp] theorem toList_add (l : IndexedList α) (a : α) : (l.add a).toList = a :: l.toList := rfl

@[simp] theorem isEmpty_nil : (nil : IndexedList α).isEmpty = true := rfl

@[simp] theorem isEmpty_add (l : IndexedList α) (a : α) : (l.add a).isEmpty = false := rfl

@[simp] theorem toList_ofList (as : List α) : (ofList as).toList = as := by
  induction as with
  | nil => rfl
  | cons a as ih => exact congrArg (a :: ·) ih

@[simp] theorem ofList_eq_nil_iff (as : List α) : ofList as = nil ↔ as = [] := by
  rw [← toList_eq_nil_iff, toList_ofList]

theorem ofList_cons (a : α) (as : List α) : ofList (a :: as) = (ofList as).add a := rfl

namespace Numbered

theorem nextPosition {l : IndexedList α} (h : l.Numbered) : l.nextPosition = l.len := by
  cases l with
  | nil => rfl
  | cons p a rest => exact congrArg (· + 1) h.1

theorem add {l : IndexedList α} (h : l.Numbered) (a : α) : (l.add a).Numbered :=
  ⟨h.nextPosition, h⟩

/-- The values determine the list. -/
theorem ofList_toList {l : IndexedList α} (h : l.Numbered) : ofList l.toList = l := by
  induction l with
  | nil => rfl
  | cons p a rest ih =>
    rw [toList, ofList_cons, ih h.2, IndexedList.add, h.2.nextPosition, h.1]

theorem shiftOnto {l tail : IndexedList α} (hl : l.Numbered) (ht : tail.Numbered) :
    (IndexedList.shiftOnto tail.len tail l).Numbered ∧
      (IndexedList.shiftOnto tail.len tail l).len = l.len + tail.len := by
  induction l with
  | nil => exact ⟨ht, by simp [IndexedList.shiftOnto, len]⟩
  | cons p a rest ih =>
    obtain ⟨hn, hlen⟩ := ih hl.2
    refine ⟨⟨?_, hn⟩, ?_⟩
    · rw [hlen, hl.1]
    · simp only [IndexedList.shiftOnto, len, hlen]
      omega

theorem join {l other : IndexedList α} (hl : l.Numbered) (ho : other.Numbered) :
    (l.join other).Numbered :=
  (hl.shiftOnto ho).1

theorem relink {p : Nat} (l : IndexedList α) {done : IndexedList α} (h : done.Numbered)
    (hp : p = done.len) : (IndexedList.relink p done l).Numbered := by
  induction l generalizing p done with
  | nil => exact h
  | cons q a rest ih => exact ih ⟨hp, h⟩ (by rw [hp]; rfl)

end Numbered

theorem numbered_ofList (as : List α) : (ofList as).Numbered := by
  induction as with
  | nil => exact trivial
  | cons a as ih => exact ih.add a

/-- Relinking numbers any chain anew. -/
theorem numbered_intoReversed (l : IndexedList α) : l.intoReversed.Numbered :=
  Numbered.relink l trivial rfl

theorem toList_shiftOnto (n : Nat) (tail l : IndexedList α) :
    (shiftOnto n tail l).toList = l.toList ++ tail.toList := by
  induction l with
  | nil => rfl
  | cons p a rest ih => exact congrArg (a :: ·) ih

@[simp] theorem toList_join (l other : IndexedList α) :
    (l.join other).toList = l.toList ++ other.toList :=
  toList_shiftOnto _ _ _

theorem toList_relink (p : Nat) (done l : IndexedList α) :
    (relink p done l).toList = l.toList.reverse ++ done.toList := by
  induction l generalizing p done with
  | nil => rfl
  | cons q a rest ih => simp [relink, toList, ih]

@[simp] theorem toList_intoReversed (l : IndexedList α) :
    l.intoReversed.toList = l.toList.reverse := by
  simp [intoReversed, toList_relink, toList]

namespace Each
variable {P Q : α → Prop}

theorem nil : (nil : IndexedList α).Each P := ⟨trivial, by simp [toList]⟩

theorem add {l : IndexedList α} (h : l.Each P) {a : α} (ha : P a) : (l.add a).Each P :=
  ⟨h.1.add a, by simpa [ha] using h.2⟩

theorem join {l other : IndexedList α} (h : l.Each P) (ho : other.Each P) : (l.join other).Each P := by
  refine ⟨h.1.join ho.1, ?_⟩
  rw [toList_join]
  exact List.forall_mem_append.mpr ⟨h.2, ho.2⟩

/-- Such a list is made by adding elements to the empty one. -/
@[elab_as_elim]
theorem induction {motive : (l : IndexedList α) → l.Each P → Prop} (nil : motive .nil .nil)
    (add : ∀ (l : IndexedList α) (a : α) (h : l.Each P) (ha : P a), motive l h →
      motive (l.add a) (h.add ha))
    (l : IndexedList α) (h : l.Each P) : motive l h := by
  induction l with
  | nil => exact nil
  | cons p a rest ih =>
    obtain ⟨⟨hp, hn⟩, hP⟩ := h
    have hr : rest.Each P := ⟨hn, fun b hb => hP b (.tail a hb)⟩
    have same : cons p a rest = rest.add a := by rw [IndexedList.add, hn.nextPosition, hp]
    simp only [same]
    exact add rest a hr (hP a (.head _)) (ih hr)

end Each

end GraphQL.IndexedList
