import Mathlib.Data.List.Forall2
import GraphQL.Proofs.Layout.Spaced

/-! What a layout writes, put together from what its parts write. A part that begins with a gap or a
punctuator can stand behind every other. -/
namespace GraphQL

/-- The symbol as it is written. A block string may have to be written as a string. -/
def Symbol.printed (x : Symbol) : Symbol :=
  if x.kind = .blockString && !isBlockPrintable x.literal.toList then ⟨.string, x.literal⟩ else x

theorem Symbol.IsReadable.printed {x : Symbol} (h : x.IsReadable) : x.printed = x := by
  unfold Symbol.printed
  split
  · next hx =>
    obtain ⟨hk, hb⟩ : x.kind = .blockString ∧ isBlockPrintable x.literal.toList = false := by
      simpa using hx
    simp [h.block hk] at hb
  · rfl

namespace Layout

/-- The layout writes the symbols and keeps them apart. -/
structure Writes (l : Layout) (w : List Symbol) : Prop extends IsSpaced l where
  symbols : l.symbols = w.map Symbol.printed

/-- The layout writes the symbols and may stand behind any other. -/
structure Trails (l : Layout) (w : List Symbol) : Prop extends Writes l w where
  guard : ∀ p ∈ l.head?, p.isGuard

variable {l m : Layout} {u w : List Symbol}

namespace Writes

theorem nil : Writes [] [] := ⟨⟨by simp, .nil⟩, rfl⟩

theorem append (hl : Writes l u) (hm : Trails m w) : Writes (l ++ m) (u ++ w) where
  gaps t ht := (List.mem_append.mp ht).elim (hl.gaps t) (hm.gaps t)
  apart := hl.apart.append hm.apart fun _ _ q hq _ => hm.guard q hq
  symbols := by
    have both : (l ++ m).symbols = l.symbols ++ m.symbols := List.filterMap_append
    rw [both, hl.symbols, hm.symbols, List.map_append]

/-- A symbol, and behind it what may stand behind any. -/
theorem symbol (x : Symbol) (hl : Trails l w) : Writes (.symbol x.printed :: l) (x :: w) where
  gaps t ht := hl.gaps t (by simpa using ht)
  apart := hl.apart.cons fun q hq _ => hl.guard q hq
  symbols := by rw [symbols_symbol, hl.symbols, List.map_cons]

theorem word (name : String) (hl : Trails l w) : Writes (word name :: l) (Symbol.word name :: w) :=
  symbol (Symbol.word name) hl

/-- A punctuator, and behind it anything. -/
theorem mark (p : Punctuator) (hl : Writes l w) : Writes (punctuator p :: l) (Symbol.mark p :: w) where
  gaps t ht := hl.gaps t (by simpa [punctuator] using ht)
  apart := hl.apart.cons fun _ _ ho => absurd ho (by simp [punctuator, Piece.isOpen, Symbol.isOpen])
  symbols := by
    rw [punctuator, symbols_symbol, hl.symbols, List.map_cons]
    rfl

end Writes

namespace Trails

theorem nil : Trails [] [] := ⟨.nil, by simp⟩

theorem append (hl : Trails l u) (hm : Trails m w) : Trails (l ++ m) (u ++ w) where
  toWrites := hl.toWrites.append hm
  guard p hp := by
    cases l with
    | nil => exact hm.guard p hp
    | cons q l => exact hl.guard p hp

theorem mark {p : Punctuator} (hl : Writes l w) (hp : p ≠ .ellipsis := by decide) :
    Trails (punctuator p :: l) (Symbol.mark p :: w) where
  toWrites := .mark p hl
  guard := by simpa [punctuator, Piece.isGuard] using hp

theorem gap {t : String} (ht : t.toList ≠ [] ∧ t.toList.all isBlank) (hl : Writes l w) :
    Trails (.gap t :: l) w where
  gaps s hs := by
    rcases List.mem_cons.mp hs with h | hs
    · rw [Piece.gap.inj h]
      exact ht
    · exact hl.gaps s hs
  apart := hl.apart.cons fun _ _ ho => absurd ho (by simp [Piece.isOpen])
  symbols := hl.symbols
  guard := by simp [Piece.isGuard]

theorem space (hl : Writes l w) : Trails (space :: l) w := gap (by decide) hl

theorem newline (depth : Nat) (hl : Writes l w) : Trails (newline depth :: l) w := by
  refine gap ⟨by simp, List.all_eq_true.mpr fun c hc => ?_⟩ hl
  rw [String.toList_ofList] at hc
  rcases List.mem_cons.mp hc with rfl | hc
  · rfl
  · rw [(List.mem_replicate.mp hc).2]
    rfl

end Trails

theorem Writes.space (hl : Writes l w) : Writes (Layout.space :: l) w := (Trails.space hl).toWrites

/-- Each of the layouts writes one of the spellings. -/
abbrev WritesAll (parts : List Layout) (ws : List (List Symbol)) : Prop := List.Forall₂ Writes parts ws

theorem WritesAll.map {α : Type} {f : α → Layout} {g : α → List Symbol} {as : List α}
    (h : ∀ a ∈ as, Writes (f a) (g a)) : WritesAll (as.map f) (as.map g) :=
  List.forall₂_map_left_iff.mpr (List.forall₂_map_right_iff.mpr (List.forall₂_same.mpr h))

variable {parts : List Layout} {ws : List (List Symbol)}

theorem Writes.joined {separator : Layout} {s : List Symbol}
    (hs : ∀ {l w}, Writes l w → Trails (separator ++ l) (s ++ w)) (h : WritesAll parts ws) :
    Writes (joined separator parts) (ws.intersperse s).flatten := by
  induction h with
  | nil => exact .nil
  | @cons l w parts ws hl h ih =>
    cases h with
    | nil => simpa [Layout.joined] using hl
    | cons hm h => simpa [Layout.joined] using hl.append (hs ih)

/-- Layouts that a gap separates. -/
theorem Writes.gapped {t : String} (ht : t.toList ≠ [] ∧ t.toList.all isBlank)
    (h : WritesAll parts ws) : Writes (Layout.joined [.gap t] parts) ws.flatten := by
  have gap {l w} (hl : Writes l w) : Trails ([.gap t] ++ l) ([] ++ w) := .gap ht hl
  have written := Writes.joined gap h
  suffices same : (ws.intersperse []).flatten = ws.flatten from same ▸ written
  clear h written
  induction ws with
  | nil => rfl
  | cons w ws ih =>
    cases ws with
    | nil => rfl
    | cons v ws => simpa using ih

theorem Writes.commaJoined (h : WritesAll parts ws) : Writes (commaJoined parts) ws.flatten :=
  .gapped (by decide) h

theorem Writes.punctuated (p : Punctuator) (h : WritesAll parts ws) :
    Writes (punctuated p parts) (ws.intersperse [Symbol.mark p]).flatten :=
  .joined (fun hl => .space (.mark p hl.space)) h

private theorem lines (depth : Nat) (h : WritesAll parts ws) (hm : Trails m w) :
    Trails (parts.flatMap (newline depth :: ·) ++ m) (ws.flatten ++ w) := by
  induction h with
  | nil => exact hm
  | cons hl _ ih => simpa using Trails.newline depth (hl.append ih)

theorem Trails.block (depth : Nat) (h : WritesAll parts ws) :
    Trails (block depth parts) (Symbol.mark .braceOpen :: ws.flatten ++ [Symbol.mark .braceClose]) := by
  have closing := Trails.newline depth (Writes.mark .braceClose .nil)
  simpa [Layout.block] using Trails.mark (lines (depth + 1) h closing).toWrites

end Layout

namespace Layout.Trails
variable {α : Type} {f : α → Layout} {g : α → List Symbol} {l : IndexedList α}

theorem blockSpelling (depth : Nat) (h : ∀ a ∈ l.toList, Writes (f a) (g a)) :
    Trails (Layout.block depth (l.toList.map f)) (l.blockSpelling .braceOpen .braceClose g) := by
  rw [IndexedList.blockSpelling, IndexedList.spelling, List.flatMap_def]
  exact .block depth (.map h)

theorem optionalBlock (depth : Nat) (h : ∀ a ∈ l.toList, Writes (f a) (g a)) :
    Trails (Layout.optionalBlock depth (l.toList.map f)) (l.optionalSpelling .braceOpen .braceClose g) := by
  cases l with
  | nil => exact .nil
  | cons p a rest => exact .space (blockSpelling depth h).toWrites

theorem optionalParens (h : ∀ a ∈ l.toList, Writes (f a) (g a)) :
    Trails (Layout.optionalParens (l.toList.map f)) (l.optionalSpelling .parenOpen .parenClose g) := by
  cases l with
  | nil => exact .nil
  | cons p a rest =>
    have closing : Trails [punctuator .parenClose] [Symbol.mark .parenClose] := .mark .nil
    have inner := (Writes.commaJoined (.map h)).append closing
    rw [← List.flatMap_def] at inner
    exact .mark inner

end Layout.Trails

theorem Layout.Writes.separatedSpelling {α : Type} {f : α → Layout} {g : α → List Symbol}
    {l : IndexedList α} (p : Punctuator) (h : ∀ a ∈ l.toList, Writes (f a) (g a)) :
    Writes (Layout.punctuated p (l.toList.map f)) (l.separatedSpelling p false g) := by
  have same : ((l.toList.map g).intersperse [Symbol.mark p]).flatten = l.separatedSpelling p false g := by
    simp only [IndexedList.separatedSpelling, IndexedList.spelling]
    clear h
    induction l.toList with
    | nil => rfl
    | cons a as ih =>
      cases as with
      | nil => simp
      | cons b as => simpa using ih
  rw [← same]
  exact .punctuated p (.map h)

end GraphQL
