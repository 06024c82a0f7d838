import GraphQL.Proofs.Lexeme.Extent
import GraphQL.Proofs.Lexeme.Readable

/-! How tokens are written in a source text. The extent of a well-formed token shows its kind, and it is read
in the same way with other text behind it, of which the first character alone matters. -/
namespace GraphQL

namespace StringLiteral
variable {α : Type}

/-- If the body is closed then its extent ends in the quotes, and the reader finds the same there whatever text
is behind. -/
def Body.IsSelfContained (read : List Char → Body α) (quotes : List Char) (b : Body α) : Prop :=
  ∀ content extent rest, b = .closed content extent rest →
    (∃ w, extent = w ++ quotes) ∧ ∀ more, read (extent ++ more) = .closed content extent more

namespace Body.IsSelfContained
variable {read : List Char → Body α} {quotes : List Char}

theorem malformed (diagnosis : String) (extent rest : List Char) :
    IsSelfContained read quotes (.malformed diagnosis extent rest) := nofun

/-- Characters in front are read in one way if this depends on the characters up to the quotes only. -/
theorem behind {b : Body α} (h : IsSelfContained read quotes b) {content : List α} {cs : List Char}
    (step : ∀ w rest more, b.text = w ++ quotes ++ rest →
      read (cs ++ (w ++ quotes ++ more)) = (read (w ++ quotes ++ more)).behind content cs) :
    IsSelfContained read quotes (b.behind content cs) := by
  intro _ _ rest h'
  obtain ⟨content', extent', hb, rfl, rfl⟩ := closed_of_behind h'
  obtain ⟨⟨w, rfl⟩, same⟩ := h _ _ _ hb
  refine ⟨⟨cs ++ w, by simp⟩, fun more => ?_⟩
  rw [List.append_assoc, step w rest more (by rw [hb]; rfl), same more]
  rfl

end Body.IsSelfContained
open Body

theorem isSelfContained_body (text : List Char) : (body text).IsSelfContained body ['"'] := by
  fun_induction body text with
  | case1 => exact .malformed _ _ _
  | case2 rest =>
    rintro _ _ _ ⟨⟩
    exact ⟨⟨[], rfl⟩, fun _ => rfl⟩
  | case3 => exact .malformed _ _ _
  | case4 a b c d rest n hn ih =>
    refine ih.behind fun w rest more _ => ?_
    simp [body, hn]
  | case5 | case6 =>
    unfold badQuad
    split
    · exact .malformed _ _ _
    · split <;> exact .malformed _ _ _
  | case7 c rest hu e he ih =>
    refine ih.behind fun w rest more _ => ?_
    simp [body, he]
  | case8 => exact .malformed _ _ _
  | case9 => exact .malformed _ _ _
  | case10 c rest hq hend hu hescape hc ih =>
    have notEscape : c ≠ '\\' := by
      intro escape
      cases rest with
      | nil => exact hend escape rfl
      | cons d rest => exact hescape d rest escape rfl
    refine ih.behind fun w rest more _ => ?_
    rw [List.singleton_append, body]
    · exact if_neg hc
    · exact hq
    · exact fun escape => absurd escape notEscape
    · exact fun _ escape => absurd escape notEscape
    · exact fun _ _ escape => absurd escape notEscape

/-- Whether a text begins with something short cannot depend on what stands far behind. -/
theorem begins_of_begins {start w : List Char} (h : start.length ≤ w.length) {more : List Char}
    (hw : ∃ u, w ++ more = start ++ u) (rest : List Char) : ∃ u, w ++ rest = start ++ u := by
  obtain ⟨u, hu⟩ := hw
  obtain ⟨v, rfl⟩ : start <+: w :=
    List.prefix_of_prefix_length_le ⟨u, hu.symm⟩ (List.prefix_append w more) h
  exact ⟨v ++ rest, List.append_assoc ..⟩

theorem isSelfContained_blockBody (text : List Char) :
    (blockBody text).IsSelfContained blockBody ['"', '"', '"'] := by
  fun_induction blockBody text with
  | case1 => exact .malformed _ _ _
  | case2 rest =>
    rintro _ _ _ ⟨⟩
    exact ⟨⟨[], rfl⟩, fun _ => rfl⟩
  | case3 rest ih => exact ih.behind fun w rest more _ => by simp [blockBody]
  | case4 => exact .malformed _ _ _
  | case5 c text hquotes hescape hc ih =>
    refine ih.behind fun w rest more same => ?_
    rw [text_blockBody] at same
    -- what a quote or a backslash could begin is no longer than the closing quotes
    have two : ['"', '"'].length ≤ (w ++ ['"', '"', '"']).length := by simp
    have three : ['"', '"', '"'].length ≤ (w ++ ['"', '"', '"']).length := by simp
    rw [List.singleton_append, blockBody]
    · exact if_neg hc
    · intro u quote begins
      obtain ⟨v, hv⟩ := begins_of_begins two ⟨u, begins⟩ rest
      exact hquotes v quote (same.trans hv)
    · intro u backslash begins
      obtain ⟨v, hv⟩ := begins_of_begins three ⟨u, begins⟩ rest
      exact hescape v backslash (same.trans hv)

end StringLiteral

/-- What the characters that a token covers have to do with its kind. A literal that is not decoded is spelled
out, and strings stand between quotes. -/
structure TokenKind.Covers (kind : TokenKind) (literal : String) (extent : List Char) : Prop where
  verbatim : kind = .name ∨ (∃ p, kind = .punctuator p) ∨ kind = .int ∨ kind = .float → literal.toList = extent
  string : kind = .string → ∃ w, extent = ['"'] ++ w ++ ['"']
  blockString : kind = .blockString → ∃ w, extent = ['"', '"', '"'] ++ w ++ ['"', '"', '"']

/-- Only strings are not spelled out. -/
theorem TokenKind.Covers.of_toList {kind : TokenKind} {literal : String} {extent : List Char}
    (h : literal.toList = extent) (noString : kind ≠ .string) (noBlock : kind ≠ .blockString) :
    kind.Covers literal extent :=
  ⟨fun _ => h, fun string => absurd string noString, fun block => absurd block noBlock⟩

/-- Whether a text may stand behind a token in the place of another one. It begins in the same way, or with
nothing that could be a part of a token. -/
def TakesPlaceOf (more rest : List Char) : Prop := more.head? = rest.head? ∨ HeadNot attaches more

theorem TakesPlaceOf.headNot {more rest : List Char} (h : TakesPlaceOf more rest) {p : Char → Bool}
    (hr : HeadNot p rest) (hp : ∀ c, p c → attaches c) : HeadNot p more := by
  rcases h with same | free
  · unfold HeadNot
    rwa [same]
  · exact free.mono hp

namespace Lexeme

/-- The token is the same with another text behind it, unless it is malformed. -/
def IsLocal (read : List Char → Lexeme) (text : List Char) : Prop :=
  (read text).kind ≠ .illegal → ∀ more, TakesPlaceOf more (read text).rest →
    read ((read text).extent ++ more) = { read text with rest := more }

/-- Nothing is said of malformed tokens. -/
private theorem covers_of_legal {x : Lexeme} (h : x.kind ≠ .illegal → x.kind.Covers x.literal x.extent) :
    x.kind.Covers x.literal x.extent := by
  by_cases illegal : x.kind = .illegal
  · rw [illegal]
    exact ⟨by simp, by simp, by simp⟩
  · exact h illegal

private theorem dots_of_legal {text : List Char} (h : (dots text).kind ≠ .illegal) :
    ∃ rest, text = '.' :: '.' :: '.' :: rest := by
  unfold dots at h
  split at h
  · exact ⟨_, rfl⟩
  · exact absurd rfl h

theorem isLocal_dots (text : List Char) : IsLocal dots text := by
  intro legal more _
  obtain ⟨rest, rfl⟩ := dots_of_legal legal
  rfl

theorem covers_dots (text : List Char) : (dots text).kind.Covers (dots text).literal (dots text).extent := by
  apply covers_of_legal
  intro legal
  obtain ⟨rest, rfl⟩ := dots_of_legal legal
  exact .of_toList (by simp [dots]) (by simp [dots]) (by simp [dots])

theorem isLocal_name (text : List Char) : IsLocal name text := by
  intro _ more h
  cases hs : text.span isNameChar with
  | mk run rest =>
    obtain ⟨-, all, stops⟩ := span_eq_iff.mp hs
    unfold name at h ⊢
    rw [hs] at h ⊢
    have ends : HeadNot isNameChar more := h.headNot stops fun c hc => by simp [attaches, hc]
    simp only [span_eq_iff.mpr ⟨rfl, all, ends⟩]

theorem covers_name (text : List Char) : (name text).kind.Covers (name text).literal (name text).extent :=
  .of_toList String.toList_ofList (by simp [name]) (by simp [name])

theorem isLocal_number (text : List Char) : IsLocal Number.lexeme text := by
  intro legal more h
  obtain ⟨integer, fraction, rest, rfl, number, stops⟩ := Number.isNumber_of_lexeme legal
  rw [Number.lexeme_of_isNumber number stops] at h ⊢
  apply Number.lexeme_of_isNumber number
  refine h.headNot stops fun c hc => ?_
  simp_all [attaches, Number.goesOn]

theorem covers_number (text : List Char) :
    (Number.lexeme text).kind.Covers (Number.lexeme text).literal (Number.lexeme text).extent := by
  apply covers_of_legal
  intro legal
  obtain ⟨integer, fraction, rest, rfl, number, stops⟩ := Number.isNumber_of_lexeme legal
  rw [Number.lexeme_of_isNumber number stops]
  apply TokenKind.Covers.of_toList String.toList_ofList
  · split <;> simp
  · split <;> simp

private theorem closed_of_legal {α : Type} {b : StringLiteral.Body α} {kind : TokenKind} {quotes : List Char}
    {decode : List α → List Char} (h : (b.lexeme kind quotes decode).kind ≠ .illegal) :
    ∃ content extent rest, b = .closed content extent rest := by
  cases b with
  | closed content extent rest => exact ⟨content, extent, rest, rfl⟩
  | malformed => exact absurd rfl h

private theorem string_or_block (text : List Char) :
    (∃ rest, text = '"' :: '"' :: rest ∧ StringLiteral.lexeme ('"' :: text) =
      (StringLiteral.blockBody rest).lexeme .blockString ['"', '"', '"'] StringLiteral.trimBlock) ∨
    (∀ rest, text ≠ '"' :: '"' :: rest) ∧ StringLiteral.lexeme ('"' :: text) =
      (StringLiteral.body text).lexeme .string ['"'] StringLiteral.decodeUnits := by
  unfold StringLiteral.lexeme
  split
  · next rest h =>
    obtain ⟨-, rfl⟩ := List.cons.inj h
    exact .inl ⟨rest, rfl, rfl⟩
  · next single =>
    exact .inr ⟨fun rest h => single rest (by rw [h]), rfl⟩

theorem covers_string (text : List Char) :
    (StringLiteral.lexeme ('"' :: text)).kind.Covers (StringLiteral.lexeme ('"' :: text)).literal
      (StringLiteral.lexeme ('"' :: text)).extent := by
  apply covers_of_legal
  intro legal
  rcases string_or_block text with ⟨rest, rfl, block⟩ | ⟨-, single⟩
  · rw [block] at legal ⊢
    obtain ⟨content, extent, rest', closed⟩ := closed_of_legal legal
    obtain ⟨⟨w, rfl⟩, -⟩ := StringLiteral.isSelfContained_blockBody rest _ _ _ closed
    rw [closed]
    exact ⟨by simp [StringLiteral.Body.lexeme], by simp [StringLiteral.Body.lexeme], fun _ => ⟨w, rfl⟩⟩
  · rw [single] at legal ⊢
    obtain ⟨content, extent, rest', closed⟩ := closed_of_legal legal
    obtain ⟨⟨w, rfl⟩, -⟩ := StringLiteral.isSelfContained_body text _ _ _ closed
    rw [closed]
    exact ⟨by simp [StringLiteral.Body.lexeme], fun _ => ⟨w, rfl⟩, by simp [StringLiteral.Body.lexeme]⟩

/-- Only behind the empty string could a quote make a difference. -/
private theorem not_block_of_takesPlaceOf {w rest more : List Char} (single : ∀ u, w ++ ['"'] ++ rest ≠ '"' :: '"' :: u)
    (h : TakesPlaceOf more rest) (u : List Char) : w ++ ['"'] ++ more ≠ '"' :: '"' :: u := by
  intro begins
  cases w with
  | nil =>
    obtain ⟨-, rfl⟩ := List.cons.inj begins
    have stops : HeadNot (· = '"') rest := by
      intro c hc
      cases rest with
      | nil => cases hc
      | cons d rest =>
        cases hc
        exact decide_eq_false fun quote => single rest (by rw [quote]; rfl)
    have stops := h.headNot stops fun c hc => by simp_all [attaches]
    cases HeadNot.cons_iff.mp stops
  | cons c w =>
    have long : ['"', '"'].length ≤ (c :: w ++ ['"']).length := by simp
    obtain ⟨v, hv⟩ := StringLiteral.begins_of_begins long ⟨u, begins⟩ rest
    exact single v hv

theorem isLocal_string (text : List Char) : IsLocal StringLiteral.lexeme ('"' :: text) := by
  intro legal more h
  rcases string_or_block text with ⟨rest, rfl, block⟩ | ⟨single, string⟩
  · rw [block] at legal ⊢
    obtain ⟨content, extent, rest', closed⟩ := closed_of_legal legal
    have again := (StringLiteral.isSelfContained_blockBody rest _ _ _ closed).2 more
    rw [closed]
    simp [StringLiteral.Body.lexeme, StringLiteral.lexeme, again]
  · rw [string] at legal h ⊢
    obtain ⟨content, extent, rest, closed⟩ := closed_of_legal legal
    obtain ⟨⟨w, rfl⟩, again⟩ := StringLiteral.isSelfContained_body text _ _ _ closed
    have covered : text = w ++ ['"'] ++ rest := by
      rw [← StringLiteral.text_body text, closed]
      rfl
    rw [closed] at h ⊢
    have notBlock := not_block_of_takesPlaceOf (covered ▸ single) h
    rcases string_or_block (w ++ ['"'] ++ more) with ⟨u, block, -⟩ | ⟨-, string⟩
    · exact absurd block (notBlock u)
    · refine string.trans ?_
      rw [again]
      rfl

/-- A single character, which nothing behind it can change. -/
private theorem isLocal_single (kind : TokenKind) (literal : String) (c : Char) (text : List Char) :
    IsLocal (fun t => ⟨kind, literal, [c], t.tail⟩) (c :: text) :=
  fun _ _ _ => rfl

private theorem text_of_ofChar? {c : Char} {p : Punctuator} (h : Punctuator.ofChar? c = some p) :
    p.text.toList = [c] := by
  unfold Punctuator.ofChar? at h
  split at h <;> cases h <;> rfl

/-- Each character begins tokens of one sort, and all of them are local and covered by what their kind says. -/
private theorem exists_reader (c : Char) : ∃ reader : List Char → Lexeme, ∀ text, read c text = reader (c :: text) ∧
    IsLocal reader (c :: text) ∧
    (read c text).kind.Covers (read c text).literal (read c text).extent := by
  by_cases dot : c = '.'
  · have reads (text : List Char) : read c text = dots (c :: text) := by simp [read, dot]
    exact ⟨dots, fun text => ⟨reads text, isLocal_dots _, reads text ▸ covers_dots _⟩⟩
  by_cases quote : c = '"'
  · have reads (text : List Char) : read c text = StringLiteral.lexeme (c :: text) := by simp [read, quote]
    refine ⟨StringLiteral.lexeme, fun text => ⟨reads text, ?_, ?_⟩⟩
    · exact quote ▸ isLocal_string text
    · rw [reads, quote]
      exact covers_string text
  by_cases number : c = '-' || isDigit c
  · have reads (text : List Char) : read c text = Number.lexeme (c :: text) := by simp [read, dot, quote, number]
    exact ⟨Number.lexeme, fun text => ⟨reads text, isLocal_number _, reads text ▸ covers_number _⟩⟩
  by_cases start : isNameStart c
  · have reads (text : List Char) : read c text = name (c :: text) := by simp [read, dot, quote, number, start]
    exact ⟨name, fun text => ⟨reads text, isLocal_name _, reads text ▸ covers_name _⟩⟩
  cases mark : Punctuator.ofChar? c with
  | some p =>
    have reads (text : List Char) : read c text = ⟨.punctuator p, p.text, [c], text⟩ := by
      simp [read, dot, quote, number, start, mark]
    refine ⟨_, fun text => ⟨reads text, isLocal_single (.punctuator p) p.text c text, ?_⟩⟩
    rw [reads]
    exact .of_toList (text_of_ofChar? mark) (by simp) (by simp)
  | none =>
    have reads (text : List Char) : read c text = ⟨.illegal, c.toString, [c], text⟩ := by
      simp [read, dot, quote, number, start, mark, illegal]
    refine ⟨_, fun text => ⟨reads text, isLocal_single .illegal c.toString c text, ?_⟩⟩
    rw [reads]
    exact covers_of_legal (absurd rfl)

theorem covers_read (c : Char) (text : List Char) :
    (read c text).kind.Covers (read c text).literal (read c text).extent := by
  obtain ⟨_, reads⟩ := exists_reader c
  exact (reads text).2.2

/-- The same token is read with another text behind it. -/
theorem read_local {c : Char} {text : List Char} (legal : (read c text).kind ≠ .illegal) :
    ∃ w, (read c text).extent = c :: w ∧ w ++ (read c text).rest = text ∧
      ∀ more, TakesPlaceOf more (read c text).rest → read c (w ++ more) = { read c text with rest := more } := by
  obtain ⟨w, extent, behind⟩ := extent_read c text
  obtain ⟨reader, reads⟩ := exists_reader c
  refine ⟨w, extent, behind, fun more h => ?_⟩
  obtain ⟨same, isLocal, -⟩ := reads text
  have again := isLocal (same ▸ legal) more (same ▸ h)
  rw [← same, extent] at again
  exact (reads (w ++ more)).1.trans again

end Lexeme
end GraphQL
