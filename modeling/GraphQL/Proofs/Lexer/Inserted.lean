import GraphQL.Proofs.Lexer.Joined
import GraphQL.Proofs.Lexer.Tiling
import GraphQL.Proofs.Parser.Placeless.Document

/-! Ignored text in front of a token. It changes the places of the tokens behind it and nothing else, so what is parsed
remains the same. -/
namespace GraphQL

/-- Blanks, and comments that each end at a line break. -/
inductive IsIgnored : List Char → Prop where
  | nil : IsIgnored []
  | blank {c : Char} {g : List Char} (hc : c ∈ [' ', '\t', '\n', '\r', ',', '\ufeff']) (tail : IsIgnored g) :
      IsIgnored (c :: g)
  | comment {text g : List Char} {c : Char} (unbroken : ∀ d ∈ text, d ≠ '\n' ∧ d ≠ '\r') (ends : c = '\n' ∨ c = '\r')
      (tail : IsIgnored g) : IsIgnored ('#' :: (text ++ c :: g))

/-- A comment is skipped to the line break. -/
theorem splitIgnored_comment {text : List Char} (unbroken : ∀ d ∈ text, d ≠ '\n' ∧ d ≠ '\r') {c : Char}
    (ends : c = '\n' ∨ c = '\r') (more : List Char) :
    (splitIgnored true (text ++ c :: more)).2 = (splitIgnored false more).2 := by
  induction text with
  | nil =>
    have breaks : isLineBreak c := by simpa [isLineBreak] using ends
    simp [splitIgnored, ignores, breaks]
  | cons d text ih =>
    obtain ⟨plain, unbroken⟩ := List.forall_mem_cons.mp unbroken
    have goesOn : isLineBreak d = false := by simpa [isLineBreak] using plain
    simpa [splitIgnored, ignores, goesOn] using ih unbroken

namespace IsIgnored
variable {g : List Char}

/-- Ignored text is skipped in front of any text. -/
theorem skipped (h : IsIgnored g) (more : List Char) :
    (splitIgnored false (g ++ more)).2 = (splitIgnored false more).2 := by
  induction h with
  | nil => rfl
  | blank hc _ ih =>
    have blank := isBlank_iff.mpr hc
    simpa [splitIgnored, ignores, blank] using ih
  | comment unbroken ends _ ih =>
    have comment := splitIgnored_comment unbroken ends
    simpa [splitIgnored, ignores, isBlank, isLineBreak, comment] using ih

/-- Nothing is left of ignored text, and a comment that goes on takes its part of it. -/
theorem skipped_end (h : IsIgnored g) (inComment : Bool) : (splitIgnored inComment g).2 = [] := by
  cases inComment with
  | false => simpa [splitIgnored] using h.skipped []
  | true =>
    induction h with
    | nil => rfl
    | @blank c g _ tail ih =>
      cases breaks : isLineBreak c with
      | true => simpa [splitIgnored, ignores, breaks] using tail.skipped []
      | false => simpa [splitIgnored, ignores, breaks] using ih
    | comment unbroken ends tail _ =>
      have comment := splitIgnored_comment unbroken ends
      simpa [splitIgnored, ignores, isLineBreak, comment] using tail.skipped []

/-- Ignored text begins with nothing that could be a part of the token in front of it. -/
theorem takesPlaceOf (h : IsIgnored g) (front behind : List Char) :
    TakesPlaceOf (front ++ (g ++ behind)) (front ++ behind) := by
  cases front with
  | cons c front => exact .inl rfl
  | nil =>
    cases h with
    | nil => exact .inl rfl
    | blank hc _ =>
      have none : ∀ c ∈ [' ', '\t', '\n', '\r', ',', '\ufeff'], attaches c = false := by
        simp [attaches, isNameChar, isNameStart, isDigit]
      exact .inr (HeadNot.cons_iff.mpr (none _ hc))
    | comment => exact .inr (HeadNot.cons_iff.mpr rfl)

/-- Between a gap and what stands behind it. -/
theorem inserted (h : IsIgnored g) {text gap behind : List Char} (skip : splitIgnored false text = (gap, behind)) :
    (splitIgnored false (gap ++ (g ++ behind))).2 = behind := by
  obtain ⟨goesOn, apart, same⟩ := splitIgnored_behind skip
  rw [same]
  cases behind with
  | nil => simpa using h.skipped_end goesOn
  | cons c rest =>
    obtain rfl := apart (by simp)
    rw [h.skipped, ← same, (splitIgnored_eq skip).1, skip]

end IsIgnored

namespace Lexer

/-- What a step skips, and what is left behind that. -/
theorem splitIgnored_scan (l : Lexer) :
    splitIgnored false l.rest = (l.scan.gap, l.scan.extent ++ l.scan.next.rest) := by
  unfold scan
  split
  next gap text skip =>
  cases text with
  | nil => exact skip
  | cons c text =>
    obtain ⟨more, extent, behind⟩ := Lexeme.extent_read c text
    simp [skip, extent, behind]

theorem scan_of_cons {l : Lexer} {gap : List Char} {c : Char} {rest : List Char}
    (skip : splitIgnored false l.rest = (gap, c :: rest)) :
    l.scan.gap = gap ∧ l.scan.extent = (Lexeme.read c rest).extent ∧
      l.scan.token.kind = (Lexeme.read c rest).kind ∧ l.scan.next.rest = (Lexeme.read c rest).rest := by
  simp [scan, skip]

/-- The first of all steps, and those behind it if there are any. -/
theorem scans_eq_cons {l : Lexer} {s : Scan} {ss : List Scan} (h : l.scans = s :: ss) :
    l.scan = s ∧ (ss ≠ [] → s.token.kind ≠ .eof ∧ s.next.scans = ss) := by
  by_cases eof : l.scan.token.kind = .eof
  · rw [scans_of_eof eof] at h
    obtain ⟨rfl, rfl⟩ := List.cons.inj h
    exact ⟨rfl, absurd rfl⟩
  · rw [scans_of_legal eof] at h
    obtain ⟨rfl, rfl⟩ := List.cons.inj h
    exact ⟨rfl, fun _ => ⟨eof, rfl⟩⟩

/-- The steps in front of one have passed over the text in front of it. -/
theorem rest_of_scans {l : Lexer} {before after : List Scan} {s : Scan} (split : l.scans = before ++ s :: after) :
    l.rest = before.flatMap Scan.text ++ s.gap ++ (s.extent ++ s.next.rest) := by
  have run := l.runs_scans
  rw [split] at run
  obtain ⟨l', run, rest, -⟩ := run.drop
  rw [rest, run.step.split, List.append_assoc]

end Lexer

namespace Lexes

/-- The tokens of a text are its symbols, with the end of input behind them. -/
private theorem contents_scansUpTo {text : List Char} {xs : List Symbol} (h : Lexes text xs) {fuel : Nat}
    (hf : xs.length < fuel) (here : Cursor) (finished : Bool) :
    ((Lexer.mk text here finished).scansUpTo fuel).map (·.token.content) =
      xs.map (fun x => (x.kind, x.literal)) ++ [(.eof, "")] := by
  induction h generalizing fuel here with
  | done skip =>
    obtain ⟨fuel, rfl⟩ := Nat.exists_eq_succ_of_ne_zero (Nat.ne_zero_of_lt hf)
    simp [Lexer.scansUpTo, Lexer.scan, skip, Token.content]
  | @step text gap c rest xs skip tail ih =>
    obtain ⟨fuel, rfl⟩ := Nat.exists_eq_succ_of_ne_zero (Nat.ne_zero_of_lt hf)
    have more := ih (Nat.lt_of_succ_lt_succ hf) ((Lexeme.read c rest).pass (here.passIgnored none gap))
    simpa [Lexer.scansUpTo, Lexer.scan, skip, Lexeme.kind_read_ne_eof, Token.content, Lexeme.symbol] using more

theorem contents_tokenize {text : List Char} {xs : List Symbol} (h : Lexes text xs) (hl : xs.length ≤ text.length) :
    (tokenize text).map Token.content = xs.map (fun x => (x.kind, x.literal)) ++ [(.eof, "")] := by
  rw [tokenize, List.map_map]
  exact h.contents_scansUpTo (Nat.lt_succ_of_le hl) .start false

/-- Ignored text in front of a token takes nothing from the symbols, if the tokens before are well-formed. -/
theorem insert {l : Lexer} {xs : List Symbol} (h : Lexes l.rest xs) {g : List Char} (ignored : IsIgnored g)
    {before after : List Scan} {s : Scan} (split : l.scans = before ++ s :: after)
    (legal : ∀ r ∈ before, r.token.kind ≠ .illegal) :
    Lexes (before.flatMap Scan.text ++ s.gap ++ (g ++ (s.extent ++ s.next.rest))) xs := by
  -- on the steps in front of the place; the text behind each token changes, so each is read again
  induction before generalizing l xs with
  | nil =>
    obtain ⟨rfl, -⟩ := Lexer.scans_eq_cons split
    have skip := l.splitIgnored_scan
    apply h.of_splitIgnored_eq
    rw [skip]
    exact ignored.inserted skip
  | cons r before ih =>
    obtain ⟨rfl, more⟩ := Lexer.scans_eq_cons split
    obtain ⟨unended, scans⟩ := more (by simp)
    obtain ⟨here, legal⟩ := List.forall_mem_cons.mp legal
    have behind := Lexer.rest_of_scans scans
    cases h with
    | done skip =>
      have nothing := l.splitIgnored_scan.symm.trans skip
      have empty : l.scan.extent = [] := (List.append_eq_nil_iff.mp (congrArg Prod.snd nothing)).1
      exact absurd (l.isStep_scan.eof_iff.mpr empty) unended
    | @step _ gap c rest xs skip tail =>
      obtain ⟨gap_eq, extent, kind, rest_eq⟩ := Lexer.scan_of_cons skip
      rw [kind] at here
      have free := ignored.takesPlaceOf (before.flatMap Scan.text ++ s.gap) (s.extent ++ s.next.rest)
      rw [← behind, rest_eq] at free
      have whole := step_local skip here free (ih (rest_eq ▸ tail) scans legal)
      rw [List.flatMap_cons, Scan.text, gap_eq, extent]
      simpa only [List.append_assoc] using whole

end Lexes

/-- A text in which another one stands in front of the character at an offset. -/
def insertAt (offset : Nat) (g text : List Char) : List Char := text.take offset ++ (g ++ text.drop offset)

/-- Layout is irrelevant. Ignored text in front of a token, or of the end of input, leaves the kinds and the literals
of all tokens as they are, unless one of them is malformed. The same document is parsed, or the same kind of error
found. -/
theorem tokens_insertAt {source g : List Char} (legal : ∀ t ∈ tokenize source, t.kind ≠ .illegal)
    (ignored : IsIgnored g) {before after : List Scan} {s : Scan}
    (split : (Lexer.ofSource source).scans = before ++ s :: after) :
    (tokenize (insertAt (s.offset before) g source)).map (fun t => (t.kind, t.literal)) =
        (tokenize source).map (fun t => (t.kind, t.literal)) ∧
      (parse (insertAt (s.offset before) g source)).mapError SyntaxError.kind =
        (parse source).mapError SyntaxError.kind := by
  have whole : source = before.flatMap Scan.text ++ s.gap ++ (s.extent ++ s.next.rest) :=
    Lexer.rest_of_scans split
  have changed : insertAt (s.offset before) g source =
      before.flatMap Scan.text ++ s.gap ++ (g ++ (s.extent ++ s.next.rest)) := by
    rw [insertAt, whole, Scan.offset, List.take_left, List.drop_left]
  have wellFormed : ∀ r ∈ before, r.token.kind ≠ .illegal := by
    intro r hr
    exact legal _ (List.mem_map.mpr ⟨r, by simp [split, hr], rfl⟩)
  obtain ⟨xs, lexes, short⟩ := Lexes.exists_of_text source
  have again : Lexes (insertAt (s.offset before) g source) xs := changed ▸ lexes.insert ignored split wellFormed
  have longer : source.length ≤ (insertAt (s.offset before) g source).length := by
    have lengths := congrArg List.length whole
    rw [changed]
    simp only [List.length_append] at lengths ⊢
    omega
  have same : (tokenize (insertAt (s.offset before) g source)).map Token.content =
      (tokenize source).map Token.content := by
    rw [lexes.contents_tokenize short, again.contents_tokenize (short.trans longer)]
  exact ⟨same, parseTokens_of_contents same⟩

/-- Behind a comment that only the end of input ends, where the first comment of what is inserted becomes a part of
it. -/
theorem tokens_insertAt_comment :
    (tokenize "\x7ba #b#c\r,".toList).map (fun t => (t.kind, t.literal)) =
        [(.punctuator .braceOpen, "\x7b"), (.name, "a"), (.eof, "")] ∧
      (parse "\x7ba #b#c\r,".toList).mapError SyntaxError.kind = .error (.unexpectedEof ["a name"]) := by
  have ignored : IsIgnored ('#' :: (['c'] ++ '\r' :: [','])) :=
    .comment (by simp) (.inr rfl) (.blank (by decide) .nil)
  have scans : (Lexer.ofSource "\x7ba #b".toList).scans =
      [_, _] ++ ⟨" #b".toList, [], ⟨.eof, "", 1, 6⟩, ⟨[], ⟨1, 5, false⟩, false⟩⟩ :: [] := rfl
  exact tokens_insertAt (by decide) ignored scans

end GraphQL
