import Mathlib.Data.List.TakeDrop
import Mathlib.Data.List.TakeWhile
import GraphQL.Lexeme

/-! Where a run of characters ends, and what may stand right behind a token. -/
namespace GraphQL

/-- The text does not begin with such a character. -/
def HeadNot (p : Char → Bool) (text : List Char) : Prop := ∀ c ∈ text.head?, p c = false

namespace HeadNot
variable {p q : Char → Bool}

@[simp] theorem nil : HeadNot p [] := by simp [HeadNot]

@[simp] theorem cons_iff {c : Char} {text : List Char} : HeadNot p (c :: text) ↔ p c = false := by
  simp [HeadNot]

theorem mono {text : List Char} (h : HeadNot q text) (hp : ∀ c, p c → q c) : HeadNot p text :=
  fun c hc => Bool.eq_false_iff.mpr fun hpc => Bool.false_ne_true ((h c hc).symm.trans (hp c hpc))

end HeadNot

/-- A run is as long as it can be. -/
theorem span_eq_iff {p : Char → Bool} {text run rest : List Char} :
    text.span p = (run, rest) ↔ text = run ++ rest ∧ (∀ c ∈ run, p c) ∧ HeadNot p rest := by
  rw [List.span_eq_takeWhile_dropWhile, Prod.mk.injEq]
  constructor
  · rintro ⟨rfl, rfl⟩
    refine ⟨List.takeWhile_append_dropWhile.symm, fun c => List.mem_takeWhile_imp, fun c hc => ?_⟩
    have hd := List.head?_dropWhile_not p text
    rwa [hc] at hd
  · rintro ⟨rfl, hrun, hrest⟩
    rw [List.takeWhile_append_of_pos hrun, List.dropWhile_append_of_pos hrun]
    cases rest with
    | nil => simp
    | cons c rest => simp [HeadNot.cons_iff.mp hrest]

/-- Whether the character right behind a name, a number or a string could be taken for a part of it. -/
def attaches (c : Char) : Bool := isNameChar c || c = '.' || c = '"'

end GraphQL
