import GraphQL.Proofs.Lexeme.Written
import GraphQL.Proofs.Lexer.Places

/-! The tokens of a text and the gaps between them, side by side, are the whole text. An iteration hands out
exactly these tokens, with the end of input once and last. -/
namespace GraphQL

/-- What may stand in front of a token or of the end: blanks, and comments that run to just before a line break
or the end. -/
inductive IsGap (rest : List Char) : List Char → Prop where
  | nil : IsGap rest []
  | blank {c : Char} {gap : List Char} (hc : c ∈ [' ', '\t', '\n', '\r', ',', '\ufeff']) (tail : IsGap rest gap) :
      IsGap rest (c :: gap)
  | comment {text gap : List Char} (unbroken : ∀ c ∈ text, c ≠ '\n' ∧ c ≠ '\r')
      (ends : ∀ c ∈ (gap ++ rest).head?, c = '\n' ∨ c = '\r') (tail : IsGap rest gap) :
      IsGap rest ('#' :: (text ++ gap))

theorem isBlank_iff {c : Char} : isBlank c ↔ c ∈ [' ', '\t', '\n', '\r', ',', '\ufeff'] := by
  simp [isBlank, isLineBreak, or_assoc]

theorem not_blank_of_ignores {c : Char} (h : ignores false c = none) : ¬ isBlank c ∧ c ≠ '#' := by
  constructor
  · intro blank
    simp [ignores, blank] at h
  · rintro rfl
    cases h

theorem blank_or_hash_of_ignores {c : Char} {inComment : Bool} (h : ignores false c = some inComment) :
    inComment = false ∧ isBlank c ∨ inComment = true ∧ c = '#' := by
  unfold ignores at h
  by_cases blank : isBlank c
  · simp_all
  · simp_all

/-- What is skipped is a gap. Where a comment has begun, what there was of it belongs to the gap. -/
theorem isGap_splitIgnored (text : List Char) :
    (∀ gap rest, splitIgnored false text = (gap, rest) → IsGap rest gap) ∧
    ∀ gap rest, splitIgnored true text = (gap, rest) → ∀ begun : List Char, (∀ c ∈ begun, c ≠ '\n' ∧ c ≠ '\r') →
      IsGap rest ('#' :: (begun ++ gap)) := by
  induction text with
  | nil =>
    constructor
    · rintro _ _ ⟨⟩
      exact .nil
    · rintro _ _ ⟨⟩ begun unbroken
      exact .comment unbroken (by simp) .nil
  | cons c text ih =>
    obtain ⟨outside, inside⟩ := ih
    constructor
    · intro gap rest h
      unfold splitIgnored at h
      split at h
      · cases h
        exact .nil
      · next inComment hc =>
        obtain ⟨rfl, rfl⟩ := Prod.mk.inj h
        rcases blank_or_hash_of_ignores hc with ⟨rfl, blank⟩ | ⟨rfl, rfl⟩
        · exact .blank (isBlank_iff.mp blank) (outside _ _ rfl)
        · exact inside _ _ rfl [] (by simp)
    · intro gap rest h begun unbroken
      unfold splitIgnored ignores at h
      obtain ⟨rfl, rfl⟩ := Prod.mk.inj h
      cases breaks : isLineBreak c with
      | true =>
        have line : c = '\n' ∨ c = '\r' := by simpa [isLineBreak] using breaks
        have blank : isBlank c := by simp [isBlank, breaks]
        exact .comment unbroken (by simpa using line) (.blank (isBlank_iff.mp blank) (outside _ _ rfl))
      | false =>
        have plain : c ≠ '\n' ∧ c ≠ '\r' := by simpa [isLineBreak] using breaks
        have longer := inside _ _ rfl (begun ++ [c]) <| by
          intro d hd
          rcases List.mem_append.mp hd with hd | hd
          · exact unbroken d hd
          · exact List.mem_singleton.mp hd ▸ plain
        rwa [List.append_assoc] at longer

namespace Lexer

/-- The lexer after so many calls for the next token. -/
def after (l : Lexer) : Nat → Lexer
  | 0 => l
  | n + 1 => l.next.2.after n

/-- The byte of the source text at which the lexer stands. -/
def byteOffset (source : List Char) (l : Lexer) : String.Pos.Raw :=
  ⟨(String.ofList source).utf8ByteSize - (String.ofList l.rest).utf8ByteSize⟩

/-- The bound on the steps is never reached. -/
theorem scansUpTo_of_lt {fuel : Nat} {l : Lexer} (h : l.rest.length < fuel) : l.scansUpTo fuel = l.scans := by
  suffices same : ∀ more, l.rest.length < more → l.scansUpTo fuel = l.scansUpTo more from
    same _ (Nat.lt_succ_self _)
  induction fuel generalizing l with
  | zero => exact absurd h (Nat.not_lt_zero _)
  | succ fuel ih =>
    intro more hm
    obtain ⟨more, rfl⟩ := Nat.exists_eq_succ_of_ne_zero (Nat.ne_zero_of_lt hm)
    unfold scansUpTo
    dsimp only
    split
    · rfl
    · next legal =>
      have shorter := l.isStep_scan.shorter legal
      rw [ih (by omega) more (by omega)]

theorem scans_of_eof {l : Lexer} (h : l.scan.token.kind = .eof) : l.scans = [l.scan] := by
  simp [scans, scansUpTo, h]

theorem scans_of_legal {l : Lexer} (h : l.scan.token.kind ≠ .eof) : l.scans = l.scan :: l.scan.next.scans := by
  have shorter := l.isStep_scan.shorter h
  rw [scans, scansUpTo, if_neg h, scansUpTo_of_lt shorter]

/-- Every step is the step of some lexer. -/
theorem exists_scan_of_mem {l : Lexer} {s : Scan} (h : s ∈ l.scans) : ∃ l' : Lexer, s = l'.scan := by
  unfold scans at h
  generalize l.rest.length + 1 = fuel at h
  induction fuel generalizing l with
  | zero => cases h
  | succ fuel ih =>
    unfold scansUpTo at h
    dsimp only at h
    split at h
    · exact ⟨l, List.mem_singleton.mp h⟩
    · rcases List.mem_cons.mp h with h | h
      · exact ⟨l, h⟩
      · exact ih h

theorem isGap_scan (l : Lexer) : IsGap (l.scan.extent ++ l.scan.next.rest) l.scan.gap := by
  unfold scan
  split
  next gap text hs =>
  have skipped := (isGap_splitIgnored l.rest).1 _ _ hs
  cases text with
  | nil => exact skipped
  | cons c text =>
    obtain ⟨more, extent, behind⟩ := Lexeme.extent_read c text
    simpa [extent, behind] using skipped

theorem covers_scan (l : Lexer) : l.scan.token.kind.Covers l.scan.token.literal l.scan.extent := by
  unfold scan
  split
  next gap text hs =>
  cases text with
  | nil => exact ⟨by simp, by simp, by simp⟩
  | cons c text => exact Lexeme.covers_read c text

@[simp] theorem finished_scan (l : Lexer) : l.scan.next.finished = l.finished := by
  unfold scan
  split
  next gap text hs =>
  cases text <;> rfl

theorem next_of_finished {l : Lexer} (h : l.finished) : l.next = (none, l) := by
  simp [next, h]

theorem next_of_eof {l : Lexer} (h : l.finished = false) (eof : l.scan.token.kind = .eof) :
    l.next = (some l.scan.token, { l.scan.next with finished := true }) := by
  simp [next, h, eof]

theorem next_of_legal {l : Lexer} (h : l.finished = false) (legal : l.scan.token.kind ≠ .eof) :
    l.next = (some l.scan.token, l.scan.next) := by
  have still : { l.scan.next with finished := false } = l.scan.next := by rw [← h, ← finished_scan]
  simp [next, h, legal, still]

theorem after_of_finished {l : Lexer} (h : l.finished) (n : Nat) : l.after n = l := by
  induction n with
  | zero => rfl
  | succ n ih => rw [after, next_of_finished h, ih]

/-- The iteration hands out the tokens of the steps one by one, and the lexer then stands behind these steps. -/
theorem iterates {l : Lexer} (h : l.finished = false) (n : Nat) :
    (l.after n).next.1 = l.scans[n]?.map (·.token) ∧
      l.rest = (l.scans.take n).flatMap Scan.text ++ (l.after n).rest := by
  induction n generalizing l with
  | zero =>
    refine ⟨?_, rfl⟩
    by_cases eof : l.scan.token.kind = .eof
    · simp [after, next_of_eof h eof, scans_of_eof eof]
    · simp [after, next_of_legal h eof, scans_of_legal eof]
  | succ n ih =>
    have step := l.isStep_scan
    by_cases eof : l.scan.token.kind = .eof
    · have stays : l.after (n + 1) = { l.scan.next with finished := true } := by
        rw [after, next_of_eof h eof, after_of_finished rfl]
      rw [stays, scans_of_eof eof, next_of_finished rfl]
      refine ⟨by simp, ?_⟩
      simp [step.split, Scan.text]
    · obtain ⟨token, rest⟩ := ih (l.finished_scan.trans h)
      rw [after, next_of_legal h eof, scans_of_legal eof]
      refine ⟨token, ?_⟩
      rw [step.split, rest]
      simp [Scan.text]

/-- What stands behind a part of the source text begins where a character does. -/
theorem isValid_byteOffset {source before : List Char} {l : Lexer} (h : source = before ++ l.rest) :
    (l.byteOffset source).IsValid (String.ofList source) := by
  rw [String.Pos.Raw.isValid_iff_exists_append]
  refine ⟨String.ofList before, String.ofList l.rest, by rw [h, String.ofList_append], ?_⟩
  rw [byteOffset, h, String.ofList_append, String.utf8ByteSize_append, Nat.add_sub_cancel]
  rfl

namespace Runs
variable {l : Lexer} {ss : List Scan}

theorem length_le (h : l.Runs ss) : ss.length ≤ l.rest.length + 1 := by
  induction h with
  | last => simp
  | more step legal _ ih =>
    have shorter := step.shorter legal
    rw [List.length_cons]
    omega

theorem legal_of_mem_dropLast (h : l.Runs ss) : ∀ s ∈ ss.dropLast, s.token.kind ≠ .eof := by
  induction h with
  | last => simp
  | more step legal tail ih =>
    rw [List.dropLast_cons_of_ne_nil]
    · exact List.forall_mem_cons.mpr ⟨legal, ih⟩
    · cases tail <;> simp

end Runs

end Lexer

/-- Gaps and the characters of tokens, in order, are the whole text. A gap has blanks and comments only, with none of
which a token begins, and the characters of a token are what its kind says. The iteration hands out the tokens and
ends, with the end of input once, last and behind the text, and stands between two characters all the time. -/
theorem tokens_tile (source : List Char) :
    (Lexer.ofSource source).scans.flatMap (fun s => s.gap ++ s.extent) = source ∧
    (∀ before s after, (Lexer.ofSource source).scans = before ++ s :: after →
      IsGap (s.extent ++ after.flatMap fun s => s.gap ++ s.extent) s.gap ∧
      (s.token.kind ≠ .eof → ∃ c more, s.extent = c :: more ∧
        c ∉ [' ', '\t', '\n', '\r', ',', '\ufeff'] ∧ c ≠ '#') ∧
      s.token.kind.Covers s.token.literal s.extent) ∧
    (∃ front eof, (Lexer.ofSource source).scans = front ++ [eof] ∧ (∀ s ∈ front, s.token.kind ≠ .eof) ∧
      eof.token.kind = .eof ∧ eof.extent = [] ∧ eof.offset front = source.length) ∧
    (Lexer.ofSource source).scans.length ≤ source.length + 1 ∧
    ∀ n, ((Lexer.ofSource source).after n).next.1 = (Lexer.ofSource source).scans[n]?.map (·.token) ∧
      source = ((Lexer.ofSource source).scans.take n).flatMap (fun s => s.gap ++ s.extent) ++
        ((Lexer.ofSource source).after n).rest ∧
      (((Lexer.ofSource source).after n).byteOffset source).IsValid (String.ofList source) := by
  have run := (Lexer.ofSource source).runs_scans
  refine ⟨run.text, ?_, ?_, run.length_le, ?_⟩
  · intro before s after split
    obtain ⟨l, rfl⟩ : ∃ l : Lexer, s = l.scan := Lexer.exists_scan_of_mem (l := .ofSource source) (by simp [split])
    rw [split] at run
    obtain ⟨l', run, -, -⟩ := run.drop
    have behind : after.flatMap Scan.text = l.scan.next.rest := by
      have whole := run.text
      rw [run.step.split, List.flatMap_cons, Scan.text, List.append_assoc] at whole
      simpa using whole
    refine ⟨?_, ?_, l.covers_scan⟩
    · exact behind ▸ l.isGap_scan
    · intro legal
      obtain ⟨c, more, extent⟩ := List.exists_cons_of_ne_nil (mt run.step.eof_iff.mpr legal)
      have starts := not_blank_of_ignores (run.step.head c (by simp [extent]))
      exact ⟨c, more, extent, mt isBlank_iff.mpr starts.1, starts.2⟩
  · obtain ⟨front, eof, split, kind, -, -⟩ := run.eof
    have legal := run.legal_of_mem_dropLast
    have whole := run.text
    rw [split] at run legal whole
    obtain ⟨l, run, -, -⟩ := run.drop
    have empty := run.step.eof_iff.mp kind
    refine ⟨front, eof, split, by simpa using legal, kind, empty, ?_⟩
    have here : source = front.flatMap Scan.text ++ eof.gap := by
      simpa [Scan.text, empty, Lexer.ofSource] using whole.symm
    rw [Scan.offset, ← here]
  · intro n
    obtain ⟨token, rest⟩ := Lexer.iterates (l := .ofSource source) rfl n
    exact ⟨token, rest, Lexer.isValid_byteOffset rest⟩

/-- A string behind a comment, a line break and a comma, and the end behind a blank. -/
theorem tokens_tile_comment : ∃ s eof, (Lexer.ofSource "#a\n,\"b\" ".toList).scans = [s, eof] ∧
    s.gap = "#a\n,".toList ∧ s.extent = "\"b\"".toList ∧ s.token = ⟨.string, "b", 2, 2⟩ ∧
    eof.gap = [' '] ∧ eof.extent = [] ∧ eof.token = ⟨.eof, "", 2, 6⟩ ∧ eof.offset [s] = 8 ∧
    IsGap (s.extent ++ eof.gap ++ eof.extent) s.gap ∧ s.token.kind.Covers s.token.literal s.extent := by
  obtain ⟨-, tokens, -⟩ := tokens_tile "#a\n,\"b\" ".toList
  have scans : (Lexer.ofSource "#a\n,\"b\" ".toList).scans =
      [⟨"#a\n,".toList, "\"b\"".toList, ⟨.string, "b", 2, 2⟩, _⟩, ⟨[' '], [], ⟨.eof, "", 2, 6⟩, _⟩] := rfl
  obtain ⟨gap, -, covers⟩ := tokens [] _ [_] scans
  exact ⟨_, _, scans, rfl, rfl, rfl, rfl, rfl, rfl, rfl, gap, covers⟩

end GraphQL
