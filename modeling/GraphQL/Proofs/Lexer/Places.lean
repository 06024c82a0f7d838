import GraphQL.Parser.Document
import GraphQL.Proofs.Lexeme.Extent
import GraphQL.Proofs.Lexer.Symbols
import GraphQL.Proofs.Text.Lines

/-! Places of tokens. The steps of a lexer pass over the whole text, the place of a token is that of the
text in front of it, and places increase. -/
namespace GraphQL

/-- The text that a step passes: what it skips, and its token. -/
def Scan.text (s : Scan) : List Char := s.gap ++ s.extent

/-- How many characters stand before the token of a step that follows others. -/
def Scan.offset (s : Scan) (before : List Scan) : Nat := (before.flatMap Scan.text ++ s.gap).length

namespace Cursor

/-- Whether a place is in front of another, or the same. -/
def NotBehind (here there : Cursor) : Prop :=
  here.line < there.line ∨ here.line = there.line ∧ here.column ≤ there.column

namespace NotBehind

theorem refl (here : Cursor) : here.NotBehind here := .inr ⟨rfl, Nat.le_refl _⟩

theorem trans {a b c : Cursor} (h : a.NotBehind b) (h' : b.NotBehind c) : a.NotBehind c := by
  unfold NotBehind at *
  omega

theorem step (here : Cursor) (c : Char) : here.NotBehind (here.step c) := by
  unfold NotBehind Cursor.step
  split
  · split <;> simp
  · split <;> simp

theorem advance (here : Cursor) (text : List Char) : here.NotBehind (here.advance text) := by
  induction text generalizing here with
  | nil => exact refl here
  | cons c text ih => exact (step here c).trans (ih _)

end NotBehind

end Cursor

/-- The token of the one starts before that of the other. -/
def Token.Precedes (t u : Token) : Prop :=
  t.line < u.line ∨ t.line = u.line ∧ t.position < u.position

/-- The token starts at the place or further on. -/
def Token.StartsFrom (t : Token) (here : Cursor) : Prop :=
  here.line < t.line ∨ here.line = t.line ∧ here.column < t.position

theorem splitIgnored_eq {inComment : Bool} {text gap rest : List Char}
    (h : splitIgnored inComment text = (gap, rest)) :
    gap ++ rest = text ∧ ∀ c ∈ rest.head?, ignores false c = none := by
  induction text generalizing inComment gap with
  | nil =>
    cases h
    simp
  | cons c text ih =>
    unfold splitIgnored at h
    split at h
    · next hc =>
      cases h
      cases inComment with
      | true => simp [ignores] at hc
      | false => simpa using hc
    · next goesOn _ =>
      cases hs : splitIgnored goesOn text with
      | mk gap' rest' =>
        simp only [hs, Prod.mk.injEq] at h
        obtain ⟨rfl, rfl⟩ := h
        obtain ⟨rfl, head⟩ := ih hs
        exact ⟨rfl, head⟩

theorem isLineBreak_of_ignores {c : Char} (h : ignores false c = none) : isLineBreak c = false := by
  cases hb : isLineBreak c with
  | false => rfl
  | true => simp [ignores, isBlank, hb] at h

/-- Comments are passed at once, which leads to the same place. -/
theorem Cursor.passIgnored_eq (text : List Char) :
    (∀ here : Cursor, here.passIgnored none text = here.advance text) ∧
      ∀ (here : Cursor) (n : Nat), here.passIgnored (some n) text = (here.forward n).advance text := by
  induction text with
  | nil => exact ⟨fun _ => rfl, fun _ _ => rfl⟩
  | cons c text ih =>
    constructor
    · intro here
      rw [passIgnored]
      split
      · next hash =>
        rw [ih.2, advance_cons, step_of_not_break (by rw [hash]; rfl)]
      · exact ih.1 _
    · intro here n
      rw [passIgnored, advance_cons]
      split
      · exact ih.1 _
      · next unbroken =>
        have step : (here.forward n).step c = here.forward (n + 1) :=
          step_of_not_break (Bool.eq_false_iff.mpr unbroken) _
        rw [ih.2, step]

namespace Lexeme

theorem isLineBreak_of_isNameChar {c : Char} (h : isNameChar c) : isLineBreak c = false := by
  refine Bool.eq_false_iff.mpr fun hb => ?_
  have breaks : c = '\n' ∨ c = '\r' := by simpa [isLineBreak] using hb
  rcases breaks with rfl | rfl <;> cases h

/-- Whether the characters of such a token are passed at once. -/
def IsPassedAtOnce (x : Lexeme) : Prop := x.kind = .name ∨ x.kind = .punctuator .ellipsis

private theorem not_isPassedAtOnce_number (text : List Char) : ¬ (Number.lexeme text).IsPassedAtOnce := by
  unfold IsPassedAtOnce
  by_cases illegal : (Number.lexeme text).kind = .illegal
  · simp [illegal]
  · obtain ⟨integer, more, rest, rfl, number, stops⟩ := Number.isNumber_of_lexeme illegal
    rw [Number.lexeme_of_isNumber number stops]
    dsimp only
    split <;> simp

/-- What is passed at once has no line break. -/
theorem unbroken_read (c : Char) (text : List Char) (h : (read c text).IsPassedAtOnce) :
    ∀ d ∈ (read c text).extent, isLineBreak d = false := by
  generalize hx : read c text = x at h ⊢
  unfold read at hx
  split at hx
  · subst hx
    unfold dots at h ⊢
    split
    · simp [isLineBreak]
    · simp_all [IsPassedAtOnce, illegal]
  split at hx
  · subst hx
    rcases StringLiteral.kind_lexeme (c :: text) with kind | kind | kind <;>
      simp [IsPassedAtOnce, kind] at h
  split at hx
  · subst hx
    exact absurd h (not_isPassedAtOnce_number _)
  split at hx
  · subst hx
    intro d hd
    have run : d ∈ (c :: text).takeWhile isNameChar := by
      simpa [name, List.span_eq_takeWhile_dropWhile] using hd
    exact isLineBreak_of_isNameChar (List.mem_takeWhile_imp run)
  split at hx
  · next p hp =>
    subst hx
    obtain rfl : p = .ellipsis := by simpa [IsPassedAtOnce] using h
    unfold Punctuator.ofChar? at hp
    split at hp <;> cases hp
  · subst hx
    simp [IsPassedAtOnce, illegal] at h

/-- Names and dots are passed at once, which leads to the same place. -/
theorem pass_read (c : Char) (text : List Char) (here : Cursor) :
    (read c text).pass here = here.advance (read c text).extent := by
  have nonempty : (read c text).extent ≠ [] := by
    obtain ⟨more, extent, -⟩ := extent_read c text
    simp [extent]
  unfold pass
  split
  · next h => exact (Cursor.advance_of_not_break nonempty (unbroken_read c text (.inl h)) here).symm
  · next h => exact (Cursor.advance_of_not_break nonempty (unbroken_read c text (.inr h)) here).symm
  · rfl

end Lexeme

namespace Lexer

/-- What a step does: it skips text, takes the token behind it, and moves the cursor over both. Only the end
of input takes no character, and it leaves none. -/
structure IsStep (l : Lexer) (s : Scan) : Prop where
  split : l.rest = s.gap ++ (s.extent ++ s.next.rest)
  line : s.token.line = (l.cursor.advance s.gap).line
  position : s.token.position = (l.cursor.advance s.gap).position
  cursor : s.next.cursor = l.cursor.advance s.text
  head : ∀ c ∈ (s.extent ++ s.next.rest).head?, ignores false c = none
  eof_iff : s.token.kind = .eof ↔ s.extent = []
  atEnd : s.extent = [] → s.next.rest = []

theorem isStep_scan (l : Lexer) : l.IsStep l.scan := by
  unfold scan
  split
  next gap text hs =>
  obtain ⟨same, head⟩ := splitIgnored_eq hs
  rw [(Cursor.passIgnored_eq gap).1]
  cases text with
  | nil => exact ⟨same.symm, rfl, rfl, by simp [Scan.text], by simp, by simp, by simp⟩
  | cons c text =>
    obtain ⟨more, extent, behind⟩ := Lexeme.extent_read c text
    refine ⟨?_, rfl, rfl, ?_, ?_, ?_, ?_⟩
    · simp [← same, extent, behind]
    · simp [Scan.text, Cursor.advance_append, Lexeme.pass_read]
    · simpa [extent] using head
    · simp [extent, Lexeme.kind_read_ne_eof]
    · simp [extent]

theorem IsStep.shorter {l : Lexer} {s : Scan} (h : l.IsStep s) (legal : s.token.kind ≠ .eof) :
    s.next.rest.length < l.rest.length := by
  have taken := List.length_pos_iff.mpr (mt h.eof_iff.mpr legal)
  rw [h.split, List.length_append, List.length_append]
  omega

/-- The steps of a lexer from here to the end of input. -/
inductive Runs : Lexer → List Scan → Prop where
  | last {l : Lexer} {s : Scan} (step : l.IsStep s) (eof : s.token.kind = .eof) : Runs l [s]
  | more {l : Lexer} {s : Scan} {ss : List Scan} (step : l.IsStep s) (legal : s.token.kind ≠ .eof)
      (tail : Runs s.next ss) : Runs l (s :: ss)

theorem runs_scans (l : Lexer) : l.Runs l.scans := by
  have enough (fuel : Nat) (l : Lexer) (h : l.rest.length < fuel) : l.Runs (l.scansUpTo fuel) := by
    induction fuel generalizing l with
    | zero => exact absurd h (Nat.not_lt_zero _)
    | succ fuel ih =>
      have step := l.isStep_scan
      unfold scansUpTo
      dsimp only
      split
      · next he => exact .last step he
      · next he =>
        have shorter := step.shorter he
        exact .more step he (ih _ (by omega))
  exact enough _ l (Nat.lt_succ_self _)

namespace Runs
variable {l : Lexer} {ss : List Scan}

/-- The steps pass over the whole text. -/
theorem text (h : l.Runs ss) : ss.flatMap Scan.text = l.rest := by
  induction h with
  | last step eof =>
    have empty := step.eof_iff.mp eof
    simp [step.split, Scan.text, empty, step.atEnd empty]
  | more step _ _ ih => simp [ih, step.split, Scan.text]

theorem step {s : Scan} (h : l.Runs (s :: ss)) : l.IsStep s := by
  cases h with
  | last step => exact step
  | more step => exact step

theorem tail {s : Scan} (h : l.Runs (s :: ss)) (hne : ss ≠ []) : s.next.Runs ss := by
  cases h with
  | last => exact absurd rfl hne
  | more _ _ tail => exact tail

/-- The steps that are left behind some of them, and where the lexer then stands. -/
theorem drop {before after : List Scan} {s : Scan} (h : l.Runs (before ++ s :: after)) :
    ∃ l' : Lexer, l'.Runs (s :: after) ∧ l.rest = before.flatMap Scan.text ++ l'.rest ∧
      l'.cursor = l.cursor.advance (before.flatMap Scan.text) := by
  induction before generalizing l with
  | nil => exact ⟨l, h, rfl, rfl⟩
  | cons r before ih =>
    obtain ⟨l', run, rest, cursor⟩ := ih (h.tail (by simp))
    refine ⟨l', run, ?_, ?_⟩
    · simp [h.step.split, rest, Scan.text]
    · simp [cursor, h.step.cursor, Cursor.advance_append]

/-- The last step finds the end of input, behind the whole text. -/
theorem eof (h : l.Runs ss) : ∃ front s, ss = front ++ [s] ∧ s.token.kind = .eof ∧
    s.token.line = (l.cursor.advance l.rest).line ∧
    s.token.position = (l.cursor.advance l.rest).position := by
  induction h with
  | @last l s step eof =>
    have empty := step.eof_iff.mp eof
    have gap : l.rest = s.gap := by simp [step.split, empty, step.atEnd empty]
    exact ⟨[], s, rfl, eof, by rw [gap, step.line], by rw [gap, step.position]⟩
  | @more l s ss step _ _ ih =>
    obtain ⟨front, last, rfl, eof, line, position⟩ := ih
    have whole : l.cursor.advance l.rest = s.next.cursor.advance s.next.rest := by
      rw [step.cursor, ← Cursor.advance_append, step.split, Scan.text, List.append_assoc]
    exact ⟨s :: front, last, rfl, eof, by rw [whole, line], by rw [whole, position]⟩

end Runs

/-- A step leads behind the place of its token, if it takes a character. -/
theorem IsStep.precedes {l : Lexer} {s : Scan} (h : l.IsStep s) (legal : s.token.kind ≠ .eof) {u : Token}
    (hu : u.StartsFrom s.next.cursor) : s.token.Precedes u := by
  obtain ⟨c, more, extent⟩ := List.exists_cons_of_ne_nil (mt h.eof_iff.mpr legal)
  have unbroken := isLineBreak_of_ignores (h.head c (by simp [extent]))
  have behind := Cursor.NotBehind.advance ((l.cursor.advance s.gap).forward 1) more
  have cursor : s.next.cursor = ((l.cursor.advance s.gap).forward 1).advance more := by
    rw [h.cursor, Scan.text, extent, Cursor.advance_append, Cursor.advance_cons,
      Cursor.step_of_not_break unbroken]
  rw [← cursor] at behind
  simp only [Cursor.forward, Cursor.NotBehind] at behind
  simp only [Token.StartsFrom, Token.Precedes, h.line, h.position, Cursor.position] at hu ⊢
  omega

namespace Runs
variable {l : Lexer} {ss : List Scan}

theorem startsFrom (h : l.Runs ss) : ∀ s ∈ ss, s.token.StartsFrom l.cursor := by
  have here {l : Lexer} {s : Scan} (h : l.IsStep s) : s.token.StartsFrom l.cursor := by
    have behind := Cursor.NotBehind.advance l.cursor s.gap
    simp only [Token.StartsFrom, h.line, h.position, Cursor.position, Cursor.NotBehind] at behind ⊢
    omega
  induction h with
  | last step _ => simpa using here step
  | @more l s ss step _ _ ih =>
    refine List.forall_mem_cons.mpr ⟨here step, fun u hu => ?_⟩
    have further := ih u hu
    have behind := Cursor.NotBehind.advance l.cursor s.text
    rw [← step.cursor] at behind
    simp only [Token.StartsFrom, Cursor.NotBehind] at further behind ⊢
    omega

theorem pairwise (h : l.Runs ss) : (ss.map (·.token)).Pairwise Token.Precedes := by
  induction h with
  | last => simp
  | more step legal tail ih =>
    refine List.pairwise_cons.mpr ⟨fun u hu => ?_, ih⟩
    obtain ⟨s, hs, rfl⟩ := List.mem_map.mp hu
    exact step.precedes legal (tail.startsFrom s hs)

end Runs

end Lexer

/-- The token of every step stands where its line and its position say, counted in the lines of the text.
Places increase from token to token. The end of input is placed behind the last line, and so is the error of
bytes of which the text is the longest part that is well encoded. -/
theorem places_agree (source : List Char) :
    (∀ before s after, (Lexer.ofSource source).scans = before ++ s :: after →
      (∃ rest, source.drop (s.offset before) = s.extent ++ rest) ∧
        StandsAt source (s.offset before) s.token.line s.token.position) ∧
    (tokenize source).Pairwise Token.Precedes ∧
    ∃ front eof, tokenize source = front ++ [eof] ∧ eof.kind = .eof ∧
      (eof.line, eof.position) = positionAfter source ∧
      eof.line = (textLines source).length ∧
      (textLines source).getLast?.map (·.length + 1) = some eof.position ∧
      ∀ bytes invalid rest, Text.decodeUtf8 bytes = (source, invalid :: rest) →
        ∃ e, parseBytes bytes = .error e ∧ e.kind = .invalidUtf8 ∧
          e.line = eof.line ∧ e.position = eof.position := by
  have run := (Lexer.ofSource source).runs_scans
  refine ⟨fun before s after split => ?_, run.pairwise, ?_⟩
  · rw [split] at run
    obtain ⟨l, rest, text, cursor⟩ := run.drop
    have step := rest.step
    have same : source = (before.flatMap Scan.text ++ s.gap) ++ (s.extent ++ s.next.rest) := by
      have all : source = before.flatMap Scan.text ++ l.rest := text
      rw [all, step.split, List.append_assoc]
    have apart : Apart (before.flatMap Scan.text ++ s.gap) (s.extent ++ s.next.rest) := by
      refine .of_head fun hn => ?_
      cases step.head '\n' hn
    have stands := Cursor.standsAt apart
    rw [← same, Cursor.advance_append] at stands
    have here : l.cursor = Cursor.start.advance (before.flatMap Scan.text) := cursor
    rw [← here, ← step.line, ← step.position] at stands
    refine ⟨⟨s.next.rest, ?_⟩, stands⟩
    rw [same, Scan.offset, List.drop_left]
  · obtain ⟨front, s, scans, eof, line, position⟩ := run.eof
    obtain ⟨before, last, lines, h⟩ := exists_lastLine source
    have after : (s.token.line, s.token.position) = positionAfter source := by
      rw [line, position, positionAfter_eq]
      rfl
    refine ⟨front.map (·.token), s.token, by simp [tokenize, scans], eof, after, ?_, ?_, ?_⟩
    · rw [line]
      simp [Lexer.ofSource, h.cursor, h.linesAll]
    · rw [position]
      simp [Lexer.ofSource, h.cursor, h.linesAll, Cursor.position]
    · intro bytes invalid rest decoded
      rw [parseBytes, decoded]
      dsimp only
      rw [← after]
      exact ⟨_, rfl, rfl, rfl, rfl⟩

/-- A name behind a line break of two characters, and a byte that continues nothing behind the same text. -/
theorem places_agree_returnFeed :
    (∃ a b eof, (Lexer.ofSource "a\r\nb".toList).scans = [a, b, eof] ∧ b.token = ⟨.name, "b", 2, 1⟩ ∧
      b.offset [a] = 3 ∧ StandsAt "a\r\nb".toList (b.offset [a]) b.token.line b.token.position ∧
      a.token.Precedes b.token) ∧
    ∃ e, parseBytes [0x61, 0x0d, 0x0a, 0x62, 0x80] = .error e ∧ e.kind = .invalidUtf8 ∧
      e.line = 2 ∧ e.position = 2 := by
  obtain ⟨tokens, ordered, front, eof, -, -, after, -, -, bytes⟩ := places_agree "a\r\nb".toList
  have scans : (Lexer.ofSource "a\r\nb".toList).scans =
      [⟨[], ['a'], ⟨.name, "a", 1, 1⟩, _⟩, ⟨['\r', '\n'], ['b'], ⟨.name, "b", 2, 1⟩, _⟩, _] := rfl
  have decoded : Text.decodeUtf8 [0x61, 0x0d, 0x0a, 0x62, 0x80] = ("a\r\nb".toList, 0x80 :: []) := rfl
  obtain ⟨-, stands⟩ := tokens [_] _ [_] scans
  rw [tokenize, scans] at ordered
  have first := (List.pairwise_cons.mp ordered).1 _ (List.mem_cons_self ..)
  obtain ⟨e, run, kind, sameLine, samePosition⟩ := bytes _ _ _ decoded
  obtain ⟨line, position⟩ := Prod.mk.inj after
  exact ⟨⟨_, _, _, scans, rfl, rfl, stands, first⟩, e, run, kind, sameLine.trans line, samePosition.trans position⟩

end GraphQL
