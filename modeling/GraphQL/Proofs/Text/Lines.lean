import Mathlib.Data.List.Basic
import Mathlib.Data.List.Induction
import GraphQL.Lexeme.Ignored
import GraphQL.Proofs.Lexeme.Boundary
import GraphQL.Text.Location

/-! Lines of a text, and where a cursor stands among them: on the last line of what it has passed. -/
namespace GraphQL

/-- Together the end of one text and the beginning of the next are no single line break. -/
def Apart (a b : List Char) : Prop := ¬ (a.getLast? = some '\r' ∧ b.head? = some '\n')

namespace Apart

theorem tail {c : Char} {a b : List Char} (h : Apart (c :: a) b) : Apart a b := by
  rintro ⟨ha, hb⟩
  exact h ⟨by simp [List.getLast?_cons, ha], hb⟩

theorem of_head {a b : List Char} (h : b.head? ≠ some '\n') : Apart a b := fun hab => h hab.2

end Apart

theorem textLines_ne_nil (text : List Char) : textLines text ≠ [] := by
  fun_induction textLines text <;> simp

theorem textLines_char {c : Char} (hc : isLineBreak c = false) {text line : List Char}
    {lines : List (List Char)} (h : textLines text = line :: lines) :
    textLines (c :: text) = (c :: line) :: lines := by
  have hr : c ≠ '\r' := by rintro rfl; cases hc
  have hn : c ≠ '\n' := by rintro rfl; cases hc
  rw [textLines.eq_5 c text (fun _ h _ => hr h) hr hn, h]

theorem textLines_break {c : Char} (hc : isLineBreak c) {text : List Char} (h : Apart [c] text) :
    textLines (c :: text) = [] :: textLines text := by
  have breaks : c = '\n' ∨ c = '\r' := by simpa [isLineBreak] using hc
  rcases breaks with rfl | rfl
  · rfl
  · cases text with
    | nil => rfl
    | cons d text =>
      have hd : d ≠ '\n' := by simpa [Apart] using h
      simp [textLines, hd]

theorem textLines_returnFeed (text : List Char) :
    textLines ('\r' :: '\n' :: text) = [] :: textLines text := rfl

/-- Lines that begin with an empty one, of which the last is in `rest`. -/
private theorem behind_break {rest last : List Char} {lines : List (List Char)}
    (h : [] :: textLines rest = lines ++ [last]) :
    ∃ lines', lines = [] :: lines' ∧ textLines rest = lines' ++ [last] := by
  cases lines with
  | nil => exact absurd (List.cons.inj h).2 (textLines_ne_nil rest)
  | cons line lines' =>
    obtain ⟨rfl, same⟩ := List.cons.inj h
    exact ⟨lines', rfl, same⟩

/-- Where two texts meet, the last line of the one and the first of the other are one line. -/
theorem textLines_append {a b : List Char} (h : Apart a b) {lines more : List (List Char)}
    {last first : List Char} (ha : textLines a = lines ++ [last]) (hb : textLines b = first :: more) :
    textLines (a ++ b) = lines ++ (last ++ first) :: more := by
  induction a using textLines.induct generalizing lines last with
  | case1 =>
    obtain ⟨rfl, rfl⟩ : lines = [] ∧ last = [] := by cases lines <;> simp_all [textLines]
    exact hb
  | case2 rest ih =>
    obtain ⟨lines, rfl, hr⟩ := behind_break ha
    exact congrArg ([] :: ·) (ih h.tail.tail hr)
  | case3 rest hn ih =>
    have apart {more : List Char} (hm : Apart ['\r'] more) :
        textLines ('\r' :: more) = [] :: textLines more := textLines_break rfl hm
    have single : Apart ['\r'] rest := by
      rintro ⟨-, hd⟩
      obtain ⟨more, rfl⟩ := List.head?_eq_some_iff.mp hd
      exact hn more rfl
    have joined : Apart ['\r'] (rest ++ b) := by
      cases rest with
      | nil => exact h
      | cons c rest => exact single
    rw [apart single] at ha
    obtain ⟨lines, rfl, hr⟩ := behind_break ha
    rw [List.cons_append, apart joined, ih h.tail hr]
    rfl
  | case4 rest ih =>
    obtain ⟨lines, rfl, hr⟩ := behind_break ha
    exact congrArg ([] :: ·) (ih h.tail hr)
  | case5 c rest _ _ _ hr => exact absurd hr (textLines_ne_nil rest)
  | case6 c rest _ hr hn line lines' hl ih =>
    have hc : isLineBreak c = false := by simpa [isLineBreak] using ⟨hn, hr⟩
    rw [textLines_char hc hl] at ha
    cases lines with
    | nil =>
      obtain ⟨rfl, rfl⟩ : c :: line = last ∧ lines' = [] := by simpa using ha
      have behind : textLines (rest ++ b) = [] ++ (line ++ first) :: more := ih h.tail hl
      rw [List.cons_append, textLines_char hc behind]
      rfl
    | cons first' lines =>
      obtain ⟨rfl, rfl⟩ : c :: line = first' ∧ lines' = lines ++ [last] := by simpa using ha
      have behind : textLines (rest ++ b) = (line :: lines) ++ (last ++ first) :: more := ih h.tail hl
      rw [List.cons_append, textLines_char hc behind]
      rfl

theorem textLines_return_append_feed (text : List Char) :
    textLines (text ++ ['\r'] ++ ['\n']) = textLines (text ++ ['\r']) := by
  have split := (List.dropLast_append_getLast (textLines_ne_nil text)).symm
  have both : textLines ['\r', '\n'] = [[], []] ∧ textLines ['\r'] = [[], []] := ⟨rfl, rfl⟩
  rw [List.append_assoc, textLines_append (.of_head (by simp)) split both.2]
  exact textLines_append (.of_head (by simp)) split both.1

namespace Cursor

theorem advance_append (here : Cursor) (a b : List Char) :
    here.advance (a ++ b) = (here.advance a).advance b :=
  List.foldl_append

theorem advance_cons (here : Cursor) (c : Char) (text : List Char) :
    here.advance (c :: text) = (here.step c).advance text := rfl

theorem step_of_not_break {c : Char} (hc : isLineBreak c = false) (here : Cursor) :
    here.step c = here.forward 1 := by
  have hn : c ≠ '\n' := by rintro rfl; cases hc
  have hr : c ≠ '\r' := by rintro rfl; cases hc
  simp [step, forward, hn, hr]

/-- Characters of a line are passed at once as they are passed one by one, when one has been passed. -/
theorem advance_forward {text : List Char} (h : ∀ c ∈ text, isLineBreak c = false) (here : Cursor) (n : Nat) :
    (here.forward n).advance text = here.forward (n + text.length) := by
  induction text generalizing n with
  | nil => rfl
  | cons c text ih =>
    obtain ⟨hc, h⟩ := List.forall_mem_cons.mp h
    have step : (here.forward n).step c = here.forward (n + 1) := step_of_not_break hc _
    rw [advance_cons, step, ih h, List.length_cons, Nat.add_assoc, Nat.add_comm 1]

theorem advance_of_not_break {text : List Char} (hne : text ≠ []) (h : ∀ c ∈ text, isLineBreak c = false)
    (here : Cursor) : here.advance text = here.forward text.length := by
  obtain ⟨c, text, rfl⟩ := List.exists_cons_of_ne_nil hne
  obtain ⟨hc, h⟩ := List.forall_mem_cons.mp h
  rw [advance_cons, step_of_not_break hc, advance_forward h, List.length_cons, Nat.add_comm]

end Cursor

theorem positionFrom_eq (here : Cursor) (text : List Char) :
    positionFrom here.line here.column here.afterReturn text =
      ((here.advance text).line, (here.advance text).position) := by
  induction text generalizing here with
  | nil => rfl
  | cons c text ih =>
    rw [Cursor.advance_cons, ← ih, positionFrom, Cursor.step]
    by_cases hn : c = '\n'
    · cases hr : here.afterReturn <;> simp [hn]
    · by_cases hr : c = '\r' <;> simp [hn, hr]

/-- Behind the whole text both ways of counting lead to the same place. -/
theorem positionAfter_eq (text : List Char) :
    positionAfter text = ((Cursor.start.advance text).line, (Cursor.start.advance text).position) :=
  positionFrom_eq .start text

/-- A text up to its last line, that line, and the lines in front of it. A cursor that has passed the
text stands behind all of its last line. -/
structure LastLine (text before last : List Char) (lines : List (List Char)) : Prop where
  split : text = before ++ last
  unbroken : ∀ c ∈ last, isLineBreak c = false
  opens : ∀ c ∈ before.getLast?, isLineBreak c
  linesBefore : textLines before = lines ++ [[]]
  linesAll : textLines text = lines ++ [last]
  cursor : Cursor.start.advance text =
    ⟨lines.length + 1, last.length, decide (text.getLast? = some '\r')⟩

namespace LastLine

theorem nil : LastLine [] [] [] [] := ⟨rfl, by simp, by simp, rfl, rfl, rfl⟩

variable {text before last : List Char} {lines : List (List Char)} {c : Char}

theorem char (h : LastLine text before last lines) (hc : isLineBreak c = false) :
    LastLine (text ++ [c]) before (last ++ [c]) lines where
  split := by rw [h.split, List.append_assoc]
  unbroken := by simpa [or_imp, forall_and, hc] using h.unbroken
  opens := h.opens
  linesBefore := h.linesBefore
  linesAll := by
    have hn : c ≠ '\n' := by rintro rfl; cases hc
    exact textLines_append (.of_head (by simpa using hn)) h.linesAll (textLines_char hc rfl)
  cursor := by
    have hn : c ≠ '\n' := by rintro rfl; cases hc
    have hr : c ≠ '\r' := by rintro rfl; cases hc
    rw [Cursor.advance_append, h.cursor]
    simp [Cursor.advance, Cursor.step, hn, hr]

/-- A line break that is one of its own ends the last line. -/
theorem lineBreak (h : LastLine text before last lines) (hc : isLineBreak c) (ha : Apart text [c]) :
    LastLine (text ++ [c]) (text ++ [c]) [] (lines ++ [last]) := by
  have all : textLines (text ++ [c]) = lines ++ [last] ++ [[]] := by
    have single : textLines [c] = [[], []] := textLines_break hc (.of_head (by simp))
    simpa using textLines_append ha h.linesAll single
  refine ⟨by simp, by simp, by simpa using hc, all, all, ?_⟩
  have breaks : c = '\n' ∨ c = '\r' := by simpa [isLineBreak] using hc
  rw [Cursor.advance_append, h.cursor]
  rcases breaks with rfl | rfl
  · have hr : text.getLast? ≠ some '\r' := fun hr => ha ⟨hr, rfl⟩
    simp [Cursor.advance, Cursor.step, hr]
  · simp [Cursor.advance, Cursor.step]

/-- A line feed behind a carriage return belongs to the line break that is there. -/
theorem feed (h : LastLine text before last lines) (hr : text.getLast? = some '\r') :
    LastLine (text ++ ['\n']) (text ++ ['\n']) [] lines := by
  obtain ⟨text, rfl⟩ := List.getLast?_eq_some_iff.mp hr
  obtain rfl : last = [] := by
    rcases last.eq_nil_or_concat' with hl | ⟨front, d, rfl⟩
    · exact hl
    · obtain ⟨-, hd⟩ := List.append_inj' (h.split.trans (List.append_assoc ..).symm) rfl
      have unbroken := h.unbroken d (by simp)
      rw [← List.singleton_inj.mp hd] at unbroken
      cases unbroken
  have all := (textLines_return_append_feed text).trans h.linesAll
  refine ⟨by simp, by simp, by simp [isLineBreak], all, all, ?_⟩
  rw [Cursor.advance_append, h.cursor]
  simp [Cursor.advance, Cursor.step]

end LastLine

theorem exists_lastLine (text : List Char) : ∃ before last lines, LastLine text before last lines := by
  induction text using List.reverseRecOn with
  | nil => exact ⟨_, _, _, .nil⟩
  | append_singleton text c ih =>
    obtain ⟨before, last, lines, h⟩ := ih
    cases hc : isLineBreak c with
    | false => exact ⟨_, _, _, h.char hc⟩
    | true =>
      by_cases ha : Apart text [c]
      · exact ⟨_, _, _, h.lineBreak hc ha⟩
      · obtain ⟨hr, hn⟩ := Decidable.not_not.mp ha
        obtain rfl : c = '\n' := by simpa using hn
        exact ⟨_, _, _, h.feed hr⟩

theorem exists_firstLine (text : List Char) :
    ∃ first after more, text = first ++ after ∧ (∀ c ∈ first, isLineBreak c = false) ∧
      (∀ c ∈ after.head?, isLineBreak c) ∧ textLines text = first :: more := by
  induction text with
  | nil => exact ⟨[], [], [], rfl, by simp, by simp, rfl⟩
  | cons c text ih =>
    cases hc : isLineBreak c with
    | false =>
      obtain ⟨first, after, more, rfl, unbroken, closes, lines⟩ := ih
      exact ⟨c :: first, after, more, rfl, List.forall_mem_cons.mpr ⟨hc, unbroken⟩, closes,
        textLines_char hc lines⟩
    | true =>
      have begins : ∃ more, textLines (c :: text) = [] :: more := by
        by_cases ha : Apart [c] text
        · exact ⟨_, textLines_break hc ha⟩
        · obtain ⟨hr, hn⟩ := Decidable.not_not.mp ha
          obtain ⟨text, rfl⟩ := List.head?_eq_some_iff.mp hn
          obtain rfl : c = '\r' := by simpa using hr
          exact ⟨_, textLines_returnFeed text⟩
      obtain ⟨more, hm⟩ := begins
      exact ⟨[], c :: text, more, rfl, by simp, by simpa using hc, hm⟩

/-- A line of a text, between all that stands before it and all that stands behind it. -/
structure IsLine (text before line after : List Char) : Prop where
  split : text = before ++ line ++ after
  unbroken : ∀ c ∈ line, isLineBreak c = false
  opens : ∀ c ∈ before.getLast?, isLineBreak c
  closes : ∀ c ∈ after.head?, isLineBreak c
  apart : Apart before (line ++ after)

/-- The line with this number holds the offset, and behind the characters of the line that precede the
position stands what the text has from the offset to the end of the line. -/
def StandsAt (text : List Char) (offset line position : Nat) : Prop :=
  ∃ before content after, IsLine text before content after ∧
    (textLines before).length = line ∧ (textLines text)[line - 1]? = some content ∧
    1 ≤ position ∧ position - 1 ≤ content.length ∧ before.length + (position - 1) = offset ∧
    content.drop (position - 1) ++ after = text.drop offset

/-- A cursor tells where it stands, unless that is inside a line break. -/
theorem Cursor.standsAt {a b : List Char} (h : Apart a b) :
    StandsAt (a ++ b) a.length (Cursor.start.advance a).line (Cursor.start.advance a).position := by
  obtain ⟨before, last, lines, ha⟩ := exists_lastLine a
  obtain ⟨first, after, more, hb, unbroken, closes, linesb⟩ := exists_firstLine b
  have entry : (textLines (a ++ b))[lines.length]? = some (last ++ first) := by
    rw [textLines_append h ha.linesAll linesb]
    simp
  have apart : Apart before (last ++ first ++ after) := by
    rw [List.append_assoc, ← hb]
    cases last with
    | nil => simpa [ha.split] using h
    | cons c last =>
      refine .of_head fun hn => ?_
      obtain rfl : c = '\n' := by simpa using hn
      cases ha.unbroken '\n' (.head _)
  rw [ha.cursor]
  refine ⟨before, last ++ first, after, ⟨?_, ?_, ha.opens, closes, apart⟩, ?_, entry, ?_⟩
  · simp [ha.split, hb]
  · simpa [or_imp, forall_and] using ⟨ha.unbroken, unbroken⟩
  · simp [ha.linesBefore]
  · simp [Cursor.position, hb, ha.split]

end GraphQL
