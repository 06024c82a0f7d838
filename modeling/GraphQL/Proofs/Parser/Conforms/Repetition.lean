import GraphQL.Proofs.IndexedList.Numbered
import GraphQL.Proofs.Parser.Rounds

/-! The repeated grammar elements follow the grammar of a row when each element follows its own. -/
namespace GraphQL
open GraphQL.Symbol IndexedList

namespace Grammar
variable {α β : Type}

theorem seq_only_iff {P : α → Prop} {f : α → List Symbol} {H : α → Grammar β} {b : β}
    {w : List Symbol} : (only P f).seq H b w ↔ ∃ a v, P a ∧ w = f a ++ v ∧ H a b v := by
  constructor
  · rintro ⟨a, _, v, rfl, ⟨ha, rfl⟩, hb⟩
    exact ⟨a, v, ha, rfl, hb⟩
  · rintro ⟨a, v, ha, rfl, hb⟩
    exact ⟨a, _, v, rfl, ⟨ha, rfl⟩, hb⟩

theorem seq_symbol_iff {x : Symbol} {H : Unit → Grammar β} {b : β} {w : List Symbol} :
    (symbol x).seq H b w ↔ ∃ v, w = x :: v ∧ H () b v := by
  refine seq_only_iff.trans ⟨?_, ?_⟩
  · rintro ⟨⟨⟩, v, -, rfl, h⟩
    exact ⟨v, rfl, h⟩
  · rintro ⟨v, rfl, h⟩
    exact ⟨(), v, trivial, rfl, h⟩

end Grammar

namespace IndexedList
variable {α : Type} (f : α → List Symbol)

@[simp] theorem spelling_nil : (nil : IndexedList α).spelling f = [] := rfl

@[simp] theorem spelling_add (l : IndexedList α) (a : α) :
    (l.add a).spelling f = f a ++ l.spelling f := rfl

end IndexedList

namespace Parser
variable {α : Type} {P : α → Prop} {f : α → List Symbol} {item : Parser α}

theorem progress_of_conforms {G : Grammar α} (h : ∀ s, Conforms G item s) (hG : ∀ a, ¬ G a []) :
    Progress item := by
  intro s a s' run
  cases (h s).ends with
  | error e ts s'' run' => cases run.symm.trans run'
  | ok b ts s'' run' reads _ spelled =>
    cases run.symm.trans run'
    have hne : ts ≠ [] := by
      rintro rfl
      exact hG a spelled
    have := List.length_pos_iff.mpr hne
    have := reads.length_le
    omega

theorem progress_of_only (h : ∀ s, Conforms (.only P f) item s) (hf : ∀ a, f a ≠ []) :
    Progress item :=
  progress_of_conforms h fun a ha => hf a ha.2.symm

namespace Conforms
variable {s : TokenStream}

/-- An element and behind it a row, which is known to follow its grammar further on. -/
private theorem item_row {row : Parser (IndexedList α)} {g k : IndexedList α → List Symbol}
    (h : Conforms (.only P f) item s)
    (ih : ∀ a s', item s = .ok a s' → Conforms (.only (Each P) g) row s')
    (hg : ∀ l a, f a ++ g l = k (l.add a)) :
    Conforms (.only (fun l => l ≠ nil ∧ l.Each P) k)
      (item >>= fun first => row >>= fun rest => Pure.pure (rest.add first)) s := by
  refine (bind_of (H := fun a => (Grammar.only (Each P) g).seq fun l => .unit (l.add a)) h
    (fun a s' run => (ih a s' run).bind fun l s'' => pure _) fun a w _ => ?_).mono ?_
  · exact ⟨_, _, nil, _, _, rfl, ⟨.nil, rfl⟩, rfl, rfl⟩
  · intro l w hl
    simp only [Grammar.seq_only_iff, Grammar.unit] at hl
    obtain ⟨a, _, ha, rfl, rest, _, hrest, rfl, rfl, rfl⟩ := hl
    exact ⟨⟨by simp [IndexedList.add], hrest.add ha⟩, by simpa using hg rest a⟩

theorem manyThrough {close : Punctuator} (h : ∀ s, Conforms (.only P f) item s)
    (hf : ∀ a, f a ≠ []) :
    Conforms (.only (Each P) fun l => l.spelling f ++ [mark close]) (manyThrough close item) s := by
  have progress := progress_of_only h hf
  -- on the number of unread tokens, which every element lowers
  induction hn : s.unread.length using Nat.strongRecOn generalizing s with
  | ind n ih =>
    rw [manyThrough_eq progress]
    have round := item_row (k := fun l => l.spelling f ++ [mark close]) (h s)
      (fun a s' run => ih _ (hn ▸ progress s a s' run) rfl) fun l a => (List.append_assoc ..).symm
    refine (accept_bind (G := .unit nil) (fun _ => pure nil) fun _ => round).mono ?_
    rintro l w (⟨v, rfl, rfl, rfl⟩ | ⟨hl, rfl⟩)
    · exact ⟨.nil, rfl⟩
    · exact ⟨hl.2, rfl⟩

theorem someThrough {close : Punctuator} (h : ∀ s, Conforms (.only P f) item s)
    (hf : ∀ a, f a ≠ []) :
    Conforms (.only (fun l => l ≠ nil ∧ l.Each P) fun l => l.spelling f ++ [mark close])
      (someThrough close item) s :=
  item_row (h s) (fun _ _ _ => manyThrough h hf) fun l a => by simp

theorem manyAfter {lead : Punctuator} (h : ∀ s, Conforms (.only P f) item s)
    (hf : ∀ a, f a ≠ []) :
    Conforms (.only (Each P) (·.spelling (mark lead :: f ·))) (manyAfter lead item) s := by
  have progress := progress_of_only h hf
  induction hn : s.unread.length using Nat.strongRecOn generalizing s with
  | ind n ih =>
    rw [manyAfter_eq progress]
    have hs : s.advance.unread.length ≤ n := by simp [TokenStream.advance, ← hn]
    have round := item_row (k := fun l => (l.spelling (mark lead :: f ·)).tail) (h s.advance)
      (fun a s' run => ih _ (Nat.lt_of_lt_of_le (progress _ a s' run) hs) rfl) fun l a => rfl
    refine (accept_bind (H := .unit nil) (fun _ => round) fun _ => pure nil).mono ?_
    rintro l w (⟨v, rfl, ⟨hne, hl⟩, rfl⟩ | ⟨rfl, rfl⟩)
    · exact ⟨hl, by cases l with
        | nil => exact absurd rfl hne
        | cons => rfl⟩
    · exact ⟨.nil, rfl⟩

theorem someSeparated {separator : Punctuator} (h : ∀ s, Conforms (.only P f) item s)
    (hf : ∀ a, f a ≠ []) :
    Conforms (fun l w => (l ≠ nil ∧ l.Each P) ∧ ∃ lead, w = l.separatedSpelling separator lead f)
      (someSeparated separator item) s := by
  have row (s : TokenStream) := item_row (h s) (k := fun l => (l.spelling (mark separator :: f ·)).tail)
    (fun _ _ _ => manyAfter h hf) fun l a => rfl
  refine (accept_bind (fun _ => row _) fun _ => row s).mono ?_
  rintro l w (⟨v, rfl, hl, rfl⟩ | ⟨hl, rfl⟩)
  · refine ⟨hl, true, ?_⟩
    cases l with
    | nil => exact absurd rfl hl.1
    | cons => rfl
  · exact ⟨hl, false, rfl⟩

theorem optionalBlock {opening close : Punctuator} (h : ∀ s, Conforms (.only P f) item s)
    (hf : ∀ a, f a ≠ []) :
    Conforms (.only (Each P) (·.optionalSpelling opening close f))
      (optionalBlock opening close item) s := by
  refine (accept_bind (fun _ => someThrough h hf) fun _ => pure nil).mono ?_
  rintro l w (⟨v, rfl, ⟨hne, hl⟩, rfl⟩ | ⟨rfl, rfl⟩)
  · refine ⟨hl, ?_⟩
    simp [optionalSpelling, blockSpelling, isEmpty_iff_eq_nil, hne]
  · exact ⟨.nil, rfl⟩

end Conforms
end Parser
end GraphQL
