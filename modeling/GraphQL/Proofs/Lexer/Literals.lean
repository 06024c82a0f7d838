import GraphQL.Layout.Document
import GraphQL.Proofs.Lexeme.CodeUnits
import GraphQL.Proofs.Lexeme.NumberPattern
import GraphQL.Proofs.Lexer.Tiling

/-! Literals in a text. A string is read back from what is printed for it, escaped code units are decoded, and a number
is as long as it can be. -/
namespace GraphQL

namespace Lexer

/-- The next step skips nothing. It yields the token, and the lexer then stands right behind the characters of it. -/
def Yields (l : Lexer) (kind : TokenKind) (literal : String) (extent rest : List Char) : Prop :=
  l.scan = ⟨[], extent, ⟨kind, literal, l.cursor.line, l.cursor.position⟩, ⟨rest, l.cursor.advance extent, l.finished⟩⟩

/-- Where a token begins it is read at once. -/
theorem yields_read {l : Lexer} {c : Char} {text : List Char} (h : l.rest = c :: text) (begins : ignores false c = none) :
    l.Yields (Lexeme.read c text).kind (Lexeme.read c text).literal (Lexeme.read c text).extent
      (Lexeme.read c text).rest := by
  have skip : splitIgnored false l.rest = ([], c :: text) := by simp [h, splitIgnored, begins]
  have passed := Lexeme.pass_read c text l.cursor
  rw [Yields, scan, skip]
  dsimp only
  rw [Cursor.passIgnored, passed]

theorem yields_string {l : Lexer} {text : List Char} (h : l.rest = '"' :: text) {x : Lexeme}
    (read : StringLiteral.lexeme ('"' :: text) = x) : l.Yields x.kind x.literal x.extent x.rest :=
  read ▸ yields_read h rfl

theorem yields_number {l : Lexer} {c : Char} {text : List Char} (h : l.rest = c :: text) (hc : c = '-' ∨ isDigit c)
    {x : Lexeme} (read : Number.lexeme (c :: text) = x) : l.Yields x.kind x.literal x.extent x.rest := by
  have begins : c ≠ '.' ∧ c ≠ '"' ∧ ignores false c = none := by
    rcases hc with rfl | digit
    · decide
    · have all : ∀ d ∈ "0123456789".toList, d ≠ '.' ∧ d ≠ '"' ∧ ignores false d = none := by
        simp [ignores, isBlank, isLineBreak]
      exact all c (Pattern.isDigit_iff.mp digit)
  have same : Lexeme.read c text = x := by simp [Lexeme.read, begins, hc, read]
  exact same ▸ yields_read h begins.2.2

end Lexer

/-- Whether a string is written as a block string: it is one, and of the control characters it holds tabs and line
breaks only. -/
def StringValue.StaysBlock (s : StringValue) : Prop :=
  s.isBlock ∧ ∀ c ∈ s.text.toList, c < ' ' → c ∈ ['\t', '\n', '\r']

theorem StringValue.staysBlock_iff {s : StringValue} : s.StaysBlock ↔ s.isBlock ∧ isBlockPrintable s.text.toList := by
  simp only [StaysBlock, isBlockPrintable, List.all_eq_true, Bool.or_eq_true, decide_eq_true_eq, or_assoc, ← Char.not_lt]
  simp only [← imp_iff_not_or, List.mem_cons, List.not_mem_nil, or_false]

instance (s : StringValue) : Decidable s.StaysBlock := decidable_of_iff _ StringValue.staysBlock_iff.symm

/-- A printed string is read back, whatever its content, with any text behind it that begins with no quote. It is read
as a block string if it is one and holds no control characters but tabs and line breaks. -/
theorem yields_print {s : StringValue} {l : Lexer} {rest : List Char} (text : l.rest = (Value.string s).print ++ rest)
    (free : rest.head? ≠ some '"') :
    l.Yields (if s.StaysBlock then .blockString else .string) s.text (Value.string s).print rest := by
  have printed : (Value.string s).print = s.symbol.write := List.append_nil _
  rw [printed] at text ⊢
  by_cases block : s.isBlock ∧ isBlockPrintable s.text.toList
  · have written : s.symbol.write = writeBlockString s.text.toList := by simp [StringValue.symbol, block, Symbol.write]
    rw [written] at text ⊢
    have yields := Lexer.yields_string text (StringLiteral.lexeme_writeBlockString block.2 rest)
    rw [String.ofList_toList] at yields
    rwa [if_pos (StringValue.staysBlock_iff.mpr block)]
  · have written : s.symbol.write = writeString s.text.toList := by simp [StringValue.symbol, block, Symbol.write]
    rw [written] at text ⊢
    have yields := Lexer.yields_string text (StringLiteral.lexeme_writeString s.text.toList free)
    rw [String.ofList_toList] at yields
    rwa [if_neg (mt StringValue.staysBlock_iff.mp block)]

/-- A block string with quotes, a backslash and a carriage return at its end. -/
theorem yields_print_return :
    (Lexer.ofSource "\"\"\"\n\\\"\"\"\\\r\r\n\"\"\"\x7d".toList).Yields .blockString "\"\"\"\\\r"
      "\"\"\"\n\\\"\"\"\\\r\r\n\"\"\"".toList "\x7d".toList := by
  have print : (Value.string ⟨"\"\"\"\\\r", true⟩).print = "\"\"\"\n\\\"\"\"\\\r\r\n\"\"\"".toList := rfl
  have text : (Lexer.ofSource "\"\"\"\n\\\"\"\"\\\r\r\n\"\"\"\x7d".toList).rest =
      (Value.string ⟨"\"\"\"\\\r", true⟩).print ++ "\x7d".toList := rfl
  have yields := yields_print text (by decide)
  rwa [if_pos (by decide), print] at yields

/-- Code units that are all written as escapes between quotes are one string, which is what they decode to. -/
theorem yields_escapes {l : Lexer} {escapes : List (List Char)} {units : List UInt16} {rest : List Char}
    (written : List.Forall₂ Utf16.IsEscape escapes units) (text : l.rest = '"' :: escapes.flatten ++ '"' :: rest)
    (free : rest.head? ≠ some '"') :
    ∃ content, (∀ decoded, Utf16.Decodes units decoded ↔ decoded = content) ∧
      l.Yields .string (String.ofList content) ('"' :: escapes.flatten ++ ['"']) rest := by
  refine ⟨StringLiteral.decodeUnits (StringLiteral.escaped units), fun decoded => ⟨?_, ?_⟩, ?_⟩
  · exact StringLiteral.eq_of_decodes
  · rintro rfl
    exact StringLiteral.decodes_escaped units
  · exact Lexer.yields_string text (StringLiteral.lexeme_escapes written free)

/-- Two high surrogates of which the second has a low one behind it, one more low one, and a letter. -/
theorem yields_escapes_surrogates :
    (Lexer.ofSource "\"\\ud83d\\uD83D\\uDe00\\ude00\\u006A\"".toList).Yields .string "\ufffd😀\ufffdj"
      "\"\\ud83d\\uD83D\\uDe00\\ude00\\u006A\"".toList [] := by
  have written : List.Forall₂ Utf16.IsEscape [['\\', 'u', 'd', '8', '3', 'd'], ['\\', 'u', 'D', '8', '3', 'D'],
      ['\\', 'u', 'D', 'e', '0', '0'], ['\\', 'u', 'd', 'e', '0', '0'], ['\\', 'u', '0', '0', '6', 'A']]
      [0xd83d, 0xd83d, 0xde00, 0xde00, 0x6a] := by
    refine .cons ?_ (.cons ?_ (.cons ?_ (.cons ?_ (.cons ?_ .nil))))
    all_goals exact ⟨_, _, _, _, rfl, by decide⟩
  have decoded : Utf16.Decodes [0xd83d, 0xd83d, 0xde00, 0xde00, 0x6a] "\ufffd😀\ufffdj".toList :=
    .lone (.inl (by decide)) (by simp [Utf16.IsLow]) <| .pair (by decide) (by decide) (by decide) <|
      .lone (.inr (by decide)) (by simp [Utf16.IsLow]) <| .scalar (by decide) (by decide) .nil
  have free : ([] : List Char).head? ≠ some '"' := by decide
  obtain ⟨content, decodes, yields⟩ := yields_escapes (l := .ofSource _) written rfl free
  rwa [← (decodes _).mp decoded] at yields

/-- Numbers are exact. Where a text begins like a number it begins with a number that nothing continues, which is the
token, or the token is illegal. It is a float if it has a fraction or an exponent. -/
theorem yields_number_iff {l : Lexer} {c : Char} {text : List Char} (h : l.rest = c :: text) (hc : c = '-' ∨ c.isDigit) :
    (∀ w, (l.scan.token.kind = .int ∨ l.scan.token.kind = .float) ∧ l.scan.token.literal = String.ofList w ↔
      ∃ rest, Number.Begins l.rest w rest) ∧
    (∀ w rest, Number.Begins l.rest w rest →
      l.Yields (if Pattern.Matches Pattern.float w then .float else .int) (String.ofList w) w rest) ∧
    ((∀ w rest, ¬ Number.Begins l.rest w rest) → l.scan.token.kind = .illegal) := by
  have yields (w rest : List Char) (begins : Number.Begins l.rest w rest) :=
    Lexer.yields_number h hc (h ▸ begins).lexeme
  have begins (legal : l.scan.token.kind ≠ .illegal) : ∃ w rest, Number.Begins l.rest w rest := by
    rw [Lexer.yields_number h hc rfl] at legal
    exact h ▸ Number.exists_begins legal
  refine ⟨fun w => ⟨?_, ?_⟩, yields, fun none => ?_⟩
  · rintro ⟨kind, literal⟩
    have legal : l.scan.token.kind ≠ .illegal := by rcases kind with kind | kind <;> simp [kind]
    obtain ⟨v, rest, begins⟩ := begins legal
    rw [yields v rest begins] at literal
    obtain rfl : v = w := String.ofList_injective literal
    exact ⟨rest, begins⟩
  · rintro ⟨rest, begins⟩
    rw [yields w rest begins]
    refine ⟨?_, rfl⟩
    dsimp only
    split <;> simp
  · apply Decidable.byContradiction
    intro legal
    obtain ⟨w, rest, begins⟩ := begins legal
    exact none w rest begins

/-- A fraction and an exponent in front of a bracket, and an exponent without digits. -/
theorem yields_number_iff_exponent :
    (Lexer.ofSource "-0.5E3]".toList).Yields .float "-0.5E3" "-0.5E3".toList [']'] ∧
      (Lexer.ofSource "1e+]".toList).scan.token.kind = .illegal ∧ ∀ w rest, ¬ Number.Begins "1e+]".toList w rest := by
  have begins : Number.Begins "-0.5E3]".toList "-0.5E3".toList [']'] := ⟨rfl, by decide, by rintro _ ⟨⟩; decide⟩
  have float := (yields_number_iff (l := .ofSource "-0.5E3]".toList) rfl (.inl rfl)).2.1 _ _ begins
  have whole := (yields_number_iff (l := .ofSource "1e+]".toList) rfl (.inr rfl)).1
  have illegal : (Lexer.ofSource "1e+]".toList).scan.token.kind = .illegal := rfl
  rw [if_pos (by decide)] at float
  refine ⟨float, illegal, fun w rest begins => ?_⟩
  obtain ⟨kind, -⟩ := (whole w).mpr ⟨rest, begins⟩
  rcases kind with kind | kind
  · cases illegal.symm.trans kind
  · cases illegal.symm.trans kind

end GraphQL
