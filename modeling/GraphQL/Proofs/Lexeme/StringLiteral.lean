import GraphQL.Layout
import GraphQL.Lexeme.StringLiteral

/-! String literals are read back from what is written for them, whatever their text. What is read as a
block string can be written as one. -/
namespace GraphQL.StringLiteral

private theorem behind_behind {α : Type} (b : Body α) (content more : List α) (cs ds : List Char) :
    (b.behind more ds).behind content cs = b.behind (content ++ more) (cs ++ ds) := by
  cases b <;> simp [Body.behind]

private theorem decodeUnits_unit {n : Nat} (h : isHighSurrogate n = false) (us : List Unit16) :
    decodeUnits (.unit n :: us) = charOfUnit n :: decodeUnits us := by
  cases us with
  | nil => rfl
  | cons u us => cases u <;> simp [decodeUnits, h]

private theorem body_plain {c : Char} (hq : c ≠ '"') (hb : c ≠ '\\') (hc : ¬ c < ' ') (text : List Char) :
    body (c :: text) = (body text).behind [.char c] [c] := by
  rw [body]
  · simp [hc]
  · exact hq
  · exact fun h => absurd h hb
  · exact fun _ h => absurd h hb
  · exact fun _ _ h => absurd h hb

/-- The four digits of a control character write its number. -/
private theorem hex4_control (n : Fin 32) :
    ∃ a b c d, Text.hex4 n = [a, b, c, d] ∧ hexQuad? a b c d = some n.val := by
  have digits : ∀ n : Fin 32, (Text.hex4 n).length = 4 ∧
      hexQuad? ((Text.hex4 n).getD 0 ' ') ((Text.hex4 n).getD 1 ' ') ((Text.hex4 n).getD 2 ' ')
        ((Text.hex4 n).getD 3 ' ') = some n.val := by decide
  obtain ⟨hl, hq⟩ := digits n
  match h : Text.hex4 n with
  | [a, b, c, d] => exact ⟨a, b, c, d, rfl, by simpa [h] using hq⟩
  | [] | [_] | [_, _] | [_, _, _] | _ :: _ :: _ :: _ :: _ :: _ => simp [h] at hl

/-- An escaped character is read as something that decodes to it. -/
private theorem body_escapeChar (c : Char) (text : List Char) :
    ∃ u, body (escapeChar c ++ text) = (body text).behind [u] (escapeChar c) ∧
      ∀ us, decodeUnits (u :: us) = c :: decodeUnits us := by
  unfold escapeChar
  split
  all_goals try exact ⟨.char _, rfl, fun _ => rfl⟩
  next hq hb _ _ _ _ _ =>
  split
  · next hc =>
    obtain ⟨a, b, d, e, hd, hv⟩ := hex4_control ⟨c.toNat, hc⟩
    dsimp only at hd hv
    refine ⟨.unit c.toNat, by simp [hd, body, hv], fun us => ?_⟩
    have hn : c.toNat < 32 := hc
    have low : isHighSurrogate c.toNat = false ∧ isLowSurrogate c.toNat = false := by
      simp only [isHighSurrogate, isLowSurrogate]
      constructor <;> simp <;> omega
    simp [decodeUnits_unit low.1, charOfUnit, low]
  · next hc => exact ⟨.char c, body_plain hq hb hc text, fun _ => rfl⟩

private theorem body_escaped (text rest : List Char) :
    ∃ us, body (text.flatMap escapeChar ++ '"' :: rest) =
      .closed us (text.flatMap escapeChar ++ ['"']) rest ∧ decodeUnits us = text := by
  induction text with
  | nil => exact ⟨[], rfl, rfl⟩
  | cons c text ih =>
    obtain ⟨us, hb, hus⟩ := ih
    obtain ⟨u, hc, hu⟩ := body_escapeChar c (text.flatMap escapeChar ++ '"' :: rest)
    refine ⟨u :: us, ?_, by rw [hu, hus]⟩
    rw [List.flatMap_cons, List.append_assoc, hc, hb, Body.behind, List.singleton_append,
      List.append_assoc]

/-- No escaped character begins with a quote. -/
private theorem head_escapeChar (c : Char) : ∃ d ds, escapeChar c = d :: ds ∧ d ≠ '"' := by
  unfold escapeChar
  split
  all_goals try exact ⟨_, _, rfl, by decide⟩
  next hq _ _ _ _ _ _ =>
  split
  · exact ⟨_, _, rfl, by decide⟩
  · exact ⟨_, _, rfl, hq⟩

/-- A string is read back, whatever follows apart from another quote. -/
theorem lexeme_writeString (text : List Char) {rest : List Char} (h : rest.head? ≠ some '"') :
    lexeme (writeString text ++ rest) =
      ⟨.string, String.ofList text, writeString text, rest⟩ := by
  obtain ⟨us, hb, hus⟩ := body_escaped text rest
  have single : lexeme (writeString text ++ rest) =
      (body (text.flatMap escapeChar ++ '"' :: rest)).lexeme .string ['"'] decodeUnits := by
    cases text with
    | nil =>
      cases rest with
      | nil => rfl
      | cons c rest =>
        have hc : c ≠ '"' := by simpa using h
        simp [writeString, lexeme, hc]
    | cons c text =>
      obtain ⟨d, ds, hd, hne⟩ := head_escapeChar c
      simp [writeString, lexeme, hd, hne]
  rw [single, hb, Body.lexeme, hus]
  rfl

/-- A quote that begins an escaped text begins the text. -/
private theorem quote_of_escapeBlock {text tail u : List Char} (ht : tail.head? ≠ some '"')
    (h : escapeBlock text ++ tail = '"' :: u) :
    ∃ more, text = '"' :: more ∧ escapeBlock more ++ tail = u := by
  unfold escapeBlock at h
  split at h
  · rw [List.nil_append] at h
    simp [h] at ht
  · simp at h
  · simp only [List.cons_append, List.cons.injEq] at h
    exact ⟨_, by rw [h.1], h.2⟩

/-- Three quotes begin no escaped text. -/
private theorem escapeBlock_ne (text : List Char) {tail : List Char} (ht : tail.head? ≠ some '"')
    (u : List Char) :
    escapeBlock text ++ tail ≠ '"' :: '"' :: '"' :: u := by
  intro h
  obtain ⟨text, rfl, h₁⟩ := quote_of_escapeBlock ht h
  obtain ⟨text, rfl, h₂⟩ := quote_of_escapeBlock ht h₁
  obtain ⟨text, rfl, -⟩ := quote_of_escapeBlock ht h₂
  simp [escapeBlock] at h

private theorem isBlockControl_eq (c : Char) :
    isBlockControl c = !(' ' ≤ c || c = '\t' || c = '\n' || c = '\r') := by
  have order : decide (c < ' ') = !decide (' ' ≤ c) := by
    rw [← decide_not]
    exact decide_eq_decide.mpr Char.not_le.symm
  simp [isBlockControl, order, Bool.and_assoc, bne, Bool.beq_eq_decide_eq]

private theorem isBlockPrintable_iff {text : List Char} :
    isBlockPrintable text ↔ ∀ c ∈ text, isBlockControl c = false := by
  simp only [isBlockPrintable, List.all_eq_true, isBlockControl_eq, Bool.not_eq_false']

private theorem blockBody_plain {c : Char} {rest : List Char} (hc : isBlockControl c = false)
    (hq : ∀ u, c :: rest ≠ '"' :: '"' :: '"' :: u) (he : ∀ u, rest ≠ '"' :: '"' :: '"' :: u) :
    blockBody (c :: rest) = (blockBody rest).behind [c] [c] := by
  rw [blockBody]
  · simp [hc]
  · exact fun u h h' => hq u (by rw [h, h'])
  · exact fun u _ h => he u h

private theorem blockBody_escaped {text tail : List Char} (h : isBlockPrintable text)
    (ht : tail.head? ≠ some '"') :
    blockBody (escapeBlock text ++ tail) = (blockBody tail).behind text (escapeBlock text) := by
  have control := isBlockPrintable_iff.mp h
  induction text using escapeBlock.induct with
  | case1 => cases hb : blockBody tail <;> simp [escapeBlock, hb, Body.behind]
  | case2 text ih =>
    have inner := ih (isBlockPrintable_iff.mpr fun c hc => control c (by simp [hc])) fun c hc =>
      control c (by simp [hc])
    simp only [escapeBlock, List.cons_append, blockBody, inner, behind_behind, List.nil_append]
  | case3 c text hne ih =>
    have inner := ih (isBlockPrintable_iff.mpr fun c hc => control c (by simp [hc])) fun c hc =>
      control c (by simp [hc])
    have same : escapeBlock (c :: text) = c :: escapeBlock text := escapeBlock.eq_3 c text hne
    have hq := escapeBlock_ne (c :: text) ht
    rw [same, List.cons_append] at hq ⊢
    rw [blockBody_plain (control c (.head _)) hq (escapeBlock_ne text ht), inner, behind_behind]
    rfl

private theorem trimBlock_line (text : List Char) :
    trimBlock ('\n' :: text ++ if text.getLast? = some '\r' then ['\r', '\n'] else ['\n']) = text := by
  split
  · next h => simp [trimBlock, dropFirst, dropLast, List.getLast?_append]
  · next h => simp [trimBlock, dropFirst, dropLast, List.getLast?_append, h]

/-- A block string is read back, whatever follows. -/
theorem lexeme_writeBlockString {text : List Char} (h : isBlockPrintable text) (rest : List Char) :
    lexeme (writeBlockString text ++ rest) =
      ⟨.blockString, String.ofList text, writeBlockString text, rest⟩ := by
  generalize hl : (if text.getLast? = some '\r' then ['\r', '\n'] else ['\n']) = lineBreak
  have written : writeBlockString text =
      ['"', '"', '"'] ++ '\n' :: escapeBlock text ++ lineBreak ++ ['"', '"', '"'] := by rw [← hl]; rfl
  have closing : blockBody (lineBreak ++ '"' :: '"' :: '"' :: rest) =
      .closed lineBreak (lineBreak ++ ['"', '"', '"']) rest := by
    rw [← hl]
    split <;> rfl
  have notQuote : (lineBreak ++ '"' :: '"' :: '"' :: rest).head? ≠ some '"' := by
    rw [← hl]
    split <;> simp
  have opened : blockBody ('\n' :: (escapeBlock text ++ (lineBreak ++ '"' :: '"' :: '"' :: rest))) =
      (blockBody (escapeBlock text ++ (lineBreak ++ '"' :: '"' :: '"' :: rest))).behind ['\n'] ['\n'] :=
    rfl
  rw [blockBody_escaped h notQuote, closing] at opened
  have block : lexeme (writeBlockString text ++ rest) =
      (blockBody ('\n' :: (escapeBlock text ++ (lineBreak ++ '"' :: '"' :: '"' :: rest)))).lexeme
        .blockString ['"', '"', '"'] trimBlock := by
    simp [written, lexeme]
  have trimmed : trimBlock ('\n' :: (text ++ lineBreak)) = text := by
    rw [← hl]
    exact trimBlock_line text
  rw [block, opened, written]
  simp [Body.behind, Body.lexeme, trimmed]

theorem closed_of_behind {α : Type} {b : Body α} {more content : List α} {cs extent rest : List Char}
    (h : b.behind more cs = .closed content extent rest) :
    ∃ content' extent', b = .closed content' extent' rest ∧ content = more ++ content' ∧
      extent = cs ++ extent' := by
  cases b with
  | malformed => simp [Body.behind] at h
  | closed content' extent' rest' =>
    simp only [Body.behind, Body.closed.injEq] at h
    obtain ⟨rfl, rfl, rfl⟩ := h
    exact ⟨content', extent', rfl, rfl, rfl⟩

/-- No control character is read in a block string. -/
private theorem isBlockControl_of_blockBody {text content extent rest : List Char}
    (h : blockBody text = .closed content extent rest) : ∀ c ∈ content, isBlockControl c = false := by
  induction text using blockBody.induct generalizing content extent with
  | case1 => simp [blockBody] at h
  | case2 text =>
    simp only [blockBody, Body.closed.injEq] at h
    simp [← h.1]
  | case3 text ih =>
    obtain ⟨content, extent, hb, rfl, -⟩ := closed_of_behind h
    simpa [isBlockControl] using ih hb
  | case4 c text hq he hc =>
    rw [blockBody.eq_4 c text hq he, if_pos hc] at h
    cases h
  | case5 c text hq he hc ih =>
    rw [blockBody.eq_4 c text hq he, if_neg hc] at h
    obtain ⟨content, extent, hb, rfl, -⟩ := closed_of_behind h
    simpa [hc] using ih hb

private theorem trimBlock_sublist (content : List Char) : (trimBlock content).Sublist content := by
  have first (c : Char) (text : List Char) : (dropFirst c text).Sublist text := by
    unfold dropFirst
    split
    · exact .refl _
    · split
      · exact .cons _ (.refl _)
      · exact .refl _
  have last (c : Char) (text : List Char) : (dropLast c text).Sublist text := by
    unfold dropLast
    split
    · exact List.dropLast_sublist text
    · exact .refl _
  exact (last _ _).trans ((last _ _).trans ((first _ _).trans (first _ _)))

/-- What is read in a block string can be written in one. -/
theorem isBlockPrintable_lexeme {text : List Char} (h : (lexeme text).kind = .blockString) :
    isBlockPrintable (lexeme text).literal.toList := by
  have kind_body (b : Body Unit16) : (b.lexeme .string ['"'] decodeUnits).kind ≠ .blockString := by
    cases b <;> simp [Body.lexeme, Lexeme.illegal]
  unfold lexeme at h ⊢
  split
  · next rest =>
    cases hb : blockBody rest with
    | malformed => simp [hb, Body.lexeme, Lexeme.illegal] at h
    | closed content extent rest =>
      rw [Body.lexeme, String.toList_ofList]
      exact isBlockPrintable_iff.mpr fun c hc =>
        isBlockControl_of_blockBody hb c ((trimBlock_sublist content).subset hc)
  · split at h
    · simp_all
    · exact absurd h (kind_body _)

theorem kind_lexeme (text : List Char) :
    (lexeme text).kind = .illegal ∨ (lexeme text).kind = .string ∨ (lexeme text).kind = .blockString := by
  unfold lexeme
  split
  · next rest => cases hb : blockBody rest <;> simp [Body.lexeme, Lexeme.illegal]
  · next => cases hb : body text.tail <;> simp [Body.lexeme, Lexeme.illegal]

end GraphQL.StringLiteral
