import Mathlib.Data.List.Chain
import GraphQL.Proofs.Lexer.Symbols

/-! Layouts in which no two symbols run into each other. Their text is read piece by piece. -/
namespace GraphQL

namespace Piece

/-- Whether more characters could become a part of the piece. -/
def isOpen : Piece → Bool
  | symbol x => x.isOpen
  | gap _ => false

/-- Whether an open piece ends where this one begins. -/
def isGuard : Piece → Bool
  | symbol x => match x.kind with
    | .punctuator p => p ≠ .ellipsis
    | _ => false
  | gap _ => true

end Piece

namespace Layout

@[simp] theorem write_gap (t : String) (l : Layout) : write (.gap t :: l) = t.toList ++ write l := rfl

@[simp] theorem write_symbol (x : Symbol) (l : Layout) : write (.symbol x :: l) = x.write ++ write l := rfl

@[simp] theorem symbols_gap (t : String) (l : Layout) : symbols (.gap t :: l) = symbols l := rfl

@[simp] theorem symbols_symbol (x : Symbol) (l : Layout) : symbols (.symbol x :: l) = x :: symbols l := rfl

/-- Gaps are blank, and one or a punctuator stands behind every symbol that is open. -/
structure IsSpaced (l : Layout) : Prop where
  gaps : ∀ t, .gap t ∈ l → t.toList ≠ [] ∧ t.toList.all isBlank
  apart : l.IsChain fun p q => p.isOpen → q.isGuard

namespace IsSpaced
variable {l : Layout}

private theorem tail {p : Piece} (h : IsSpaced (p :: l)) : l.IsSpaced :=
  ⟨fun t ht => h.gaps t (.tail p ht), h.apart.tail⟩

private theorem attaches_of_isBlank {c : Char} (h : isBlank c) : attaches c = false := by
  simp only [isBlank, isLineBreak, Bool.or_eq_true, decide_eq_true_eq] at h
  rcases h with (((rfl | rfl) | rfl | rfl) | rfl) | rfl <;> rfl

private theorem headNot_write (h : l.IsSpaced) (hg : ∀ p ∈ l.head?, p.isGuard) :
    HeadNot attaches l.write := by
  cases l with
  | nil => exact .nil
  | cons p l =>
    cases p with
    | gap t =>
      obtain ⟨hne, ht⟩ := h.gaps t (.head _)
      obtain ⟨c, cs, hc⟩ := List.exists_cons_of_ne_nil hne
      rw [write_gap, hc]
      exact HeadNot.cons_iff.mpr (attaches_of_isBlank (List.all_eq_true.mp ht c (by simp [hc])))
    | symbol x =>
      have guard : Piece.isGuard (.symbol x) := hg _ rfl
      unfold Piece.isGuard at guard
      dsimp only at guard
      split at guard
      · next p hp =>
        simp only [write_symbol, Symbol.write, hp]
        cases p <;> first | exact HeadNot.cons_iff.mpr rfl | simp at guard
      · contradiction

/-- The text of the layout is read as its symbols, if they can be read. -/
theorem lexes (h : l.IsSpaced) (hl : ∀ x ∈ l.symbols, x.IsReadable) : Lexes l.write l.symbols := by
  induction l with
  | nil => exact .done rfl
  | cons p l ih =>
    cases p with
    | gap t => exact .blank (List.all_eq_true.mp (h.gaps t (.head _)).2) (ih h.tail hl)
    | symbol x =>
      obtain ⟨hx, hl⟩ := List.forall_mem_cons.mp hl
      refine .symbol hx (fun ho => ?_) (ih h.tail hl)
      exact headNot_write h.tail fun q hq => h.apart.rel_head? hq ho

/-- Every symbol takes a character. -/
theorem length_symbols_le (hl : ∀ x ∈ l.symbols, x.IsReadable) : l.symbols.length ≤ l.write.length := by
  induction l with
  | nil => exact Nat.le_refl 0
  | cons p l ih =>
    cases p with
    | gap t =>
      rw [symbols_gap, write_gap, List.length_append]
      exact Nat.le_add_left_of_le (ih hl)
    | symbol x =>
      obtain ⟨hx, hl⟩ := List.forall_mem_cons.mp hl
      obtain ⟨c, text, hw, -⟩ := hx.read [] fun _ => .nil
      rw [List.append_nil] at hw
      have more := ih hl
      rw [symbols_symbol, write_symbol, hw, List.length_append, List.length_cons, List.length_cons]
      omega

end IsSpaced

end Layout

end GraphQL
