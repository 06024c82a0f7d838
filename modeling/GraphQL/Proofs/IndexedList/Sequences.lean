import GraphQL.IndexedList.Family
import GraphQL.Proofs.IndexedList.Numbered

/-! Indexed lists stand for plain sequences. However lists are made from each other, each shows the
sequence that the same changes make of plain sequences, and its positions say no more than that. -/
namespace GraphQL.IndexedList
variable {α : Type}

namespace Numbered

theorem positions {l : IndexedList α} (h : l.Numbered) :
    l.positioned.map (·.1) = (List.range l.toList.length).reverse := by
  induction l with
  | nil => rfl
  | cons p a rest ih =>
    obtain ⟨rfl, hr⟩ := h
    rw [positioned, List.map_cons, ih hr, toList, List.length_cons, List.range_succ, List.reverse_append,
      len_eq_length]
    rfl

/-- Positions cannot tell lists apart that hold the same values. -/
theorem ext {l m : IndexedList α} (hl : l.Numbered) (hm : m.Numbered) (h : l.toList = m.toList) : l = m := by
  rw [← hl.ofList_toList, h, hm.ofList_toList]

theorem foldl_add {l : IndexedList α} (h : l.Numbered) (as : List α) : (as.foldl IndexedList.add l).Numbered := by
  induction as generalizing l with
  | nil => exact h
  | cons a as ih => exact ih (h.add a)

end Numbered

theorem toList_foldl_add (as : List α) (l : IndexedList α) :
    (as.foldl add l).toList = as.reverse ++ l.toList := by
  induction as generalizing l with
  | nil => rfl
  | cons a as ih => simp [ih]

theorem numbered_reverse (l : IndexedList α) : l.reverse.Numbered :=
  Numbered.foldl_add (l := nil) trivial l.toList

@[simp] theorem toList_reverse (l : IndexedList α) : l.reverse.toList = l.toList.reverse := by
  simp [reverse, toList_foldl_add, toList]

/-- Copying and relinking come to the same. -/
theorem reverse_eq_intoReversed (l : IndexedList α) : l.reverse = l.intoReversed := by
  apply (numbered_reverse l).ext (numbered_intoReversed l)
  simp

/-- A list is collected by adding its values one after another and reversing. -/
theorem ofList_eq_intoReversed (as : List α) : ofList as = (as.foldl add nil).intoReversed := by
  apply (numbered_ofList as).ext (numbered_intoReversed _)
  simp [toList_foldl_add, toList]

theorem enumerate_eq (l : IndexedList α) : l.enumerate = l.toList.zipIdx := rfl

theorem first_eq (l : IndexedList α) : l.first = l.toList.head? := by cases l <;> rfl

/-- The list holds the values of the sequence, and its positions count down to zero. -/
structure Represents (l : IndexedList α) (as : List α) : Prop where
  numbered : l.Numbered
  values : l.toList = as

/-- A plain sequence for every name. -/
abbrev Sequences (α : Type) := String → List α

namespace Sequences

def empty : Sequences α := fun _ => []

/-- The family with another sequence under one name. -/
def put (s : Sequences α) (name : String) (as : List α) : Sequences α :=
  fun n => if n = name then as else s n

end Sequences

/-- What a change to lists is for plain sequences. -/
def Change.onSequences (s : Sequences α) : Change α → Sequences α
  | add l a => s.put l (a :: s l)
  | join l m => if l = m then s else (s.put l (s l ++ s m)).put m []
  | joinClone l m => s.put l (s l ++ s m)
  | reverse l m => s.put m (s l).reverse
  | clone l m => s.put m (s l)
  | intoReversed l => s.put l (s l).reverse
  | ofList l as => s.put l as

namespace Family

/-- Under every name the list represents the sequence. -/
def Represents (f : Family α) (s : Sequences α) : Prop :=
  ∀ name, (f name).Represents (s name)

namespace Represents
variable {f : Family α} {s : Sequences α}

theorem empty : Family.Represents (α := α) .empty .empty :=
  fun _ => ⟨trivial, rfl⟩

theorem put (h : f.Represents s) (name : String) {l : IndexedList α} {as : List α}
    (hl : l.Represents as) : Family.Represents (f.put name l) (s.put name as) := by
  intro n
  unfold Family.put Sequences.put
  split
  · exact hl
  · exact h n

/-- One change, whatever the lists were before. -/
theorem apply (h : f.Represents s) (c : Change α) : Family.Represents (c.apply f) (c.onSequences s) := by
  cases c with
  | add l a => exact h.put l ⟨(h l).numbered.add a, by rw [toList_add, (h l).values]⟩
  | join l m =>
    have joined : ((f l).join (f m)).Represents (s l ++ s m) :=
      ⟨(h l).numbered.join (h m).numbered, by rw [toList_join, (h l).values, (h m).values]⟩
    simp only [Change.apply, Change.onSequences]
    split
    · exact h
    · exact (h.put l joined).put m (empty m)
  | joinClone l m =>
    rw [Change.apply, clone_eq_self]
    exact h.put l ⟨(h l).numbered.join (h m).numbered, by rw [toList_join, (h l).values, (h m).values]⟩
  | reverse l m => exact h.put m ⟨numbered_reverse _, by rw [toList_reverse, (h l).values]⟩
  | clone l m =>
    rw [Change.apply, clone_eq_self]
    exact h.put m (h l)
  | intoReversed l => exact h.put l ⟨numbered_intoReversed _, by rw [toList_intoReversed, (h l).values]⟩
  | ofList l as => exact h.put l ⟨numbered_ofList as, toList_ofList as⟩

theorem foldl (h : f.Represents s) (changes : List (Change α)) :
    Family.Represents (changes.foldl Change.apply f) (changes.foldl Change.onSequences s) := by
  induction changes generalizing f s with
  | nil => exact h
  | cons c changes ih => exact ih (h.apply c)

end Represents

end Family

/-- What lists show of themselves is what the sequences are that the same changes make. Lists are equal exactly
if their sequences are, so a copy is the list itself, both ways to reverse agree and undo themselves, and joining is
associative. -/
theorem represents_sequences [DecidableEq α] (changes : List (Change α)) :
    let f : Family α := changes.foldl Change.apply .empty
    let s : Sequences α := changes.foldl Change.onSequences .empty
    (∀ l, (f l).toList = s l ∧ (f l).positioned.map (·.1) = (List.range (s l).length).reverse ∧
      (f l).len = (s l).length ∧ (f l).isEmpty = (s l).isEmpty ∧ (f l).first = (s l).head? ∧
      (f l).enumerate = (s l).zipIdx) ∧
    (∀ l m, (f l == f m) = (s l == s m)) ∧
    (∀ l, (f l).clone = f l ∧ (f l).reverse.reverse = f l ∧ (f l).reverse = (f l).intoReversed) ∧
    (∀ l m n, ((f l).join (f m)).join (f n) = (f l).join ((f m).join (f n))) ∧
    ∀ as : List α, ofList as = (as.foldl add nil).intoReversed := by
  intro f s
  have h : f.Represents s := Family.Represents.empty.foldl changes
  refine ⟨?_, ?_, ?_, ?_, ofList_eq_intoReversed⟩
  · intro l
    obtain ⟨numbered, values⟩ := h l
    rw [numbered.positions, len_eq_length, enumerate_eq, first_eq, values]
    refine ⟨rfl, rfl, rfl, ?_, rfl, rfl⟩
    rw [Bool.eq_iff_iff, isEmpty_iff_eq_nil, ← toList_eq_nil_iff, values, List.isEmpty_iff]
  · intro l m
    rw [Bool.eq_iff_iff, beq_iff_eq, beq_iff_eq, ← (h l).values, ← (h m).values]
    exact ⟨congrArg toList, (h l).numbered.ext (h m).numbered⟩
  · intro l
    refine ⟨clone_eq_self _, (numbered_reverse _).ext (h l).numbered ?_, reverse_eq_intoReversed _⟩
    simp
  · intro l m n
    have numbered := (h l).numbered.join (h m).numbered
    apply (numbered.join (h n).numbered).ext ((h l).numbered.join ((h m).numbered.join (h n).numbered))
    simp

/-- A list joined with its own copy. -/
example : (([.ofList "l" [1, 2], .joinClone "l" "l"] : List (Change Nat)).foldl Change.apply .empty "l").positioned =
    [(3, 1), (2, 2), (1, 1), (0, 2)] := rfl

end GraphQL.IndexedList
