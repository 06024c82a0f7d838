import GraphQL.Lexer
import GraphQL.Proofs.Grammar.Spelling
import GraphQL.Proofs.Lexeme.Number
import GraphQL.Proofs.Lexeme.StringLiteral

/-! Symbols that are read back from what is written for them. All that is ever read in a text is such
a symbol, unless it is malformed. -/
namespace GraphQL

/-- Whether more characters could become a part of the symbol. -/
def Symbol.isOpen (x : Symbol) : Bool :=
  match x.kind with
  | .punctuator _ => false
  | _ => true

def Lexeme.symbol (x : Lexeme) : Symbol := ⟨x.kind, x.literal⟩

/-- The symbol is read back, whatever follows that does not attach itself. -/
structure Symbol.IsReadable (x : Symbol) : Prop where
  legal : x.kind ≠ .illegal ∧ x.kind ≠ .eof
  text : ∀ p, x.kind = .punctuator p → x.literal = p.text
  block : x.kind = .blockString → isBlockPrintable x.literal.toList
  read : ∀ rest, (x.isOpen → HeadNot attaches rest) → ∃ c text, x.write ++ rest = c :: text ∧
    Lexeme.read c text = ⟨x.kind, x.literal, x.write, rest⟩

namespace Lexeme

private theorem read_mark (p : Punctuator) (rest : List Char) :
    ∃ c text, p.text.toList ++ rest = c :: text ∧
      read c text = ⟨.punctuator p, p.text, p.text.toList, rest⟩ := by
  cases p <;> exact ⟨_, _, rfl, rfl⟩

private theorem isDigit_of_isNameStart {c : Char} (hc : isNameStart c) : isDigit c = false := by
  refine Bool.eq_false_iff.mpr fun hd => ?_
  have hle : c ≤ '9' := by simp_all [isDigit]
  obtain (rfl | hc) | hc : (c = '_' ∨ 'a' ≤ c ∧ c ≤ 'z') ∨ 'A' ≤ c ∧ c ≤ 'Z' := by
    simpa [isNameStart] using hc
  · cases hd
  · exact absurd (Char.le_trans hc.1 hle) (by decide)
  · exact absurd (Char.le_trans hc.1 hle) (by decide)

private theorem read_name {c : Char} (hc : isNameStart c) (rest : List Char) :
    read c rest = name (c :: rest) := by
  have ne {d : Char} (hd : isNameStart d = false) : c ≠ d := by
    rintro rfl
    exact Bool.false_ne_true (hd.symm.trans hc)
  simp [read, ne (d := '.') rfl, ne (d := '"') rfl, ne (d := '-') rfl, isDigit_of_isNameStart hc, hc]

private theorem read_number {c : Char} (hc : c = '-' ∨ isDigit c) (rest : List Char) :
    read c rest = Number.lexeme (c :: rest) := by
  have ne {d : Char} (hd : d ≠ '-' ∧ isDigit d = false) : c ≠ d := by
    rintro rfl
    exact hc.elim hd.1 fun h => Bool.false_ne_true (hd.2.symm.trans h)
  simp [read, ne (d := '.') (by decide), ne (d := '"') (by decide), hc]

end Lexeme

namespace Symbol.IsReadable

theorem mark (p : Punctuator) : (Symbol.mark p).IsReadable where
  legal := by simp [Symbol.mark]
  text := by simp [Symbol.mark]
  block := by simp [Symbol.mark]
  read rest _ := Lexeme.read_mark p rest

theorem name {c : Char} {cs : List Char} (hc : isNameStart c) (hcs : ∀ d ∈ cs, isNameChar d) :
    IsReadable ⟨.name, String.ofList (c :: cs)⟩ where
  legal := by simp
  text := by simp
  block := by simp
  read rest h := by
    have all : ∀ d ∈ c :: cs, isNameChar d := List.forall_mem_cons.mpr ⟨by simp [isNameChar, hc], hcs⟩
    have split : (c :: (cs ++ rest)).span isNameChar = (c :: cs, rest) :=
      span_eq_iff.mpr ⟨rfl, all, (h rfl).mono fun d hd => by simp [attaches, hd]⟩
    refine ⟨c, cs ++ rest, by simp [write], ?_⟩
    rw [Lexeme.read_name hc, Lexeme.name, split]
    simp [write]

theorem number {integer more : List Char} (h : Number.IsNumber integer more) :
    IsReadable ⟨if more = [] then .int else .float, String.ofList (integer ++ more)⟩ where
  legal := by split <;> simp
  text := by split <;> simp
  block := by split <;> simp
  read rest hr := by
    have write : Symbol.write ⟨if more = [] then .int else .float, String.ofList (integer ++ more)⟩ =
        integer ++ more := by
      split <;> simp [Symbol.write]
    have stops : HeadNot Number.goesOn rest := by
      refine (hr ?_).mono fun c hc => ?_
      · split <;> rfl
      · simp_all [attaches, Number.goesOn]
    have run := Number.lexeme_of_isNumber h stops
    obtain ⟨c, w, rfl, hc⟩ := h.head
    exact ⟨c, w ++ more ++ rest, by rw [write]; rfl, by rw [Lexeme.read_number hc, write]; exact run⟩

theorem string (text : String) : IsReadable ⟨.string, text⟩ where
  legal := by simp
  text := by simp
  block := by simp
  read rest h := by
    have stops : rest.head? ≠ some '"' := fun hq => by simpa [attaches] using h rfl '"' hq
    have run := StringLiteral.lexeme_writeString text.toList stops
    rw [String.ofList_toList] at run
    exact ⟨_, _, rfl, run⟩

theorem blockString {text : String} (h : isBlockPrintable text.toList) :
    IsReadable ⟨.blockString, text⟩ where
  legal := by simp
  text := by simp
  block _ := h
  read rest _ := by
    have run := StringLiteral.lexeme_writeBlockString h rest
    rw [String.ofList_toList] at run
    exact ⟨_, _, rfl, run⟩

end Symbol.IsReadable

namespace Lexeme

private theorem isReadable_string (text : List Char) :
    (StringLiteral.lexeme text).kind = .illegal ∨ (StringLiteral.lexeme text).symbol.IsReadable := by
  rcases StringLiteral.kind_lexeme text with h | h | h
  · exact .inl h
  · rw [symbol, h]
    exact .inr (.string _)
  · rw [symbol, h]
    exact .inr (.blockString (StringLiteral.isBlockPrintable_lexeme h))

private theorem isReadable_number (text : List Char) :
    (Number.lexeme text).kind = .illegal ∨ (Number.lexeme text).symbol.IsReadable := by
  refine Decidable.or_iff_not_imp_left.mpr fun h => ?_
  obtain ⟨integer, more, rest, rfl, hn, hr⟩ := Number.isNumber_of_lexeme h
  rw [Number.lexeme_of_isNumber hn hr]
  exact .number hn

private theorem isReadable_name {c : Char} (hc : isNameStart c) (rest : List Char) :
    (name (c :: rest)).symbol.IsReadable := by
  cases hs : (c :: rest).span isNameChar with
  | mk run behind =>
    obtain ⟨same, all, stops⟩ := span_eq_iff.mp hs
    cases run with
    | nil =>
      obtain rfl : c :: rest = behind := same
      simp [isNameChar, hc] at stops
    | cons d run =>
      obtain ⟨rfl, rfl⟩ : c = d ∧ rest = run ++ behind := by simpa using same
      rw [name, hs]
      exact .name hc fun d hd => all d (.tail c hd)

/-- What is read can be read back, unless it is malformed. -/
theorem isReadable_read (c : Char) (rest : List Char) :
    (read c rest).kind = .illegal ∨ (read c rest).symbol.IsReadable := by
  unfold read
  split
  · unfold dots
    split
    · exact .inr (.mark .ellipsis)
    · exact .inl rfl
  split
  · exact isReadable_string (c :: rest)
  split
  · exact isReadable_number (c :: rest)
  split
  · next hc => exact .inr (isReadable_name hc rest)
  split
  · next p h => exact .inr (.mark p)
  · exact .inl rfl

/-- No token begins with an ignored character. -/
theorem ignores_of_legal {c : Char} {rest : List Char} (h : (read c rest).kind ≠ .illegal) :
    ignores false c = none := by
  simp only [ignores]
  split
  · contradiction
  · split
    · next hb =>
      simp only [isBlank, isLineBreak, Bool.or_eq_true, decide_eq_true_eq] at hb
      rcases hb with (((rfl | rfl) | rfl | rfl) | rfl) | rfl <;> exact absurd rfl h
    · split
      · next hc =>
        rw [hc] at h
        exact absurd rfl h
      · rfl

end Lexeme

end GraphQL
