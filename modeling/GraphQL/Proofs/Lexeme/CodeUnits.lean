import Mathlib.Data.List.Forall2
import GraphQL.Lexeme.StringLiteral

/-! Code units of UTF-16 and what they decode to. A surrogate that is not one of a pair is replaced. -/
namespace GraphQL.Utf16

def IsHigh (u : UInt16) : Prop := 0xd800 ≤ u.toNat ∧ u.toNat ≤ 0xdbff

def IsLow (u : UInt16) : Prop := 0xdc00 ≤ u.toNat ∧ u.toNat ≤ 0xdfff

instance (u : UInt16) : Decidable (IsHigh u) := inferInstanceAs (Decidable (_ ∧ _))

instance (u : UInt16) : Decidable (IsLow u) := inferInstanceAs (Decidable (_ ∧ _))

/-- The text that code units decode to. A high surrogate and a low one right behind it are one character, any
other surrogate is replaced, and every other unit is the character with its number. -/
inductive Decodes : List UInt16 → List Char → Prop where
  | nil : Decodes [] []
  | pair {high low : UInt16} {units : List UInt16} {c : Char} {text : List Char} (hh : IsHigh high) (hl : IsLow low)
      (hc : c.toNat = 0x10000 + (high.toNat - 0xd800) * 0x400 + (low.toNat - 0xdc00)) (tail : Decodes units text) :
      Decodes (high :: low :: units) (c :: text)
  | lone {u : UInt16} {units : List UInt16} {text : List Char} (surrogate : IsHigh u ∨ IsLow u)
      (alone : IsHigh u → ∀ v ∈ units.head?, ¬ IsLow v) (tail : Decodes units text) :
      Decodes (u :: units) ('\ufffd' :: text)
  | scalar {u : UInt16} {units : List UInt16} {c : Char} {text : List Char} (plain : ¬ IsHigh u ∧ ¬ IsLow u)
      (hc : c.toNat = u.toNat) (tail : Decodes units text) : Decodes (u :: units) (c :: text)

/-- The character is the digit of this value in base 16, in either case. -/
def IsHexDigit (c : Char) (n : Nat) : Prop :=
  "0123456789abcdef".toList[n]? = some c ∨ "0123456789ABCDEF".toList[n]? = some c

instance (c : Char) (n : Nat) : Decidable (IsHexDigit c n) := inferInstanceAs (Decidable (_ ∨ _))

/-- A backslash, the letter `u` and the four digits of the code unit. -/
def IsEscape (w : List Char) (u : UInt16) : Prop :=
  ∃ a b c d, w = ['\\', 'u', a, b, c, d] ∧ IsHexDigit a (u.toNat / 0x1000) ∧ IsHexDigit b (u.toNat / 0x100 % 0x10) ∧
    IsHexDigit c (u.toNat / 0x10 % 0x10) ∧ IsHexDigit d (u.toNat % 0x10)

end GraphQL.Utf16

namespace GraphQL.StringLiteral
open Utf16

theorem isHighSurrogate_iff {u : UInt16} : isHighSurrogate u.toNat ↔ IsHigh u := by
  simp [isHighSurrogate, IsHigh]

theorem isLowSurrogate_iff {u : UInt16} : isLowSurrogate u.toNat ↔ IsLow u := by
  simp [isLowSurrogate, IsLow]

theorem charOfUnit_surrogate {u : UInt16} (h : IsHigh u ∨ IsLow u) : charOfUnit u.toNat = '\ufffd' :=
  if_pos (by simpa [isHighSurrogate_iff, isLowSurrogate_iff] using h)

theorem charOfUnit_plain {u : UInt16} (h : ¬ IsHigh u ∧ ¬ IsLow u) : (charOfUnit u.toNat).toNat = u.toNat := by
  have scalar : charOfUnit u.toNat = Char.ofNat u.toNat :=
    if_neg (by simpa [isHighSurrogate_iff, isLowSurrogate_iff] using h)
  have bound := u.toNat_lt
  have valid : u.toNat.isValidChar := by
    unfold IsHigh IsLow at h
    unfold Nat.isValidChar
    omega
  rw [scalar, Char.ofNat, dif_pos valid]
  rfl

/-- The character of a pair is in range. -/
theorem charOfPair_toNat {high low : UInt16} (hh : IsHigh high) (hl : IsLow low) :
    (charOfPair high.toNat low.toNat).toNat = 0x10000 + (high.toNat - 0xd800) * 0x400 + (low.toNat - 0xdc00) := by
  have valid : (0x10000 + (high.toNat - 0xd800) * 0x400 + (low.toNat - 0xdc00)).isValidChar := by
    unfold IsHigh at hh
    unfold IsLow at hl
    unfold Nat.isValidChar
    omega
  rw [charOfPair, Char.ofNat, dif_pos valid]
  rfl

/-- The units as a string holds them. -/
abbrev escaped (units : List UInt16) : List Unit16 := units.map fun u => .unit u.toNat

theorem decodeUnits_pair {high low : UInt16} (hh : IsHigh high) (hl : IsLow low) (units : List UInt16) :
    decodeUnits (escaped (high :: low :: units)) =
      charOfPair high.toNat low.toNat :: decodeUnits (escaped units) := by
  simp [escaped, decodeUnits, isHighSurrogate_iff.mpr hh, isLowSurrogate_iff.mpr hl]

theorem decodeUnits_single {u : UInt16} {units : List UInt16} (h : IsHigh u → ∀ v ∈ units.head?, ¬ IsLow v) :
    decodeUnits (escaped (u :: units)) = charOfUnit u.toNat :: decodeUnits (escaped units) := by
  cases units with
  | nil => rfl
  | cons v units =>
    have apart : ¬ (isHighSurrogate u.toNat && isLowSurrogate v.toNat) := by
      simpa [isHighSurrogate_iff, isLowSurrogate_iff] using h
    exact if_neg apart

private theorem decodes_single {u : UInt16} {units : List UInt16} (alone : IsHigh u → ∀ v ∈ units.head?, ¬ IsLow v)
    (tail : Decodes units (decodeUnits (escaped units))) :
    Decodes (u :: units) (decodeUnits (escaped (u :: units))) := by
  rw [decodeUnits_single alone]
  by_cases surrogate : IsHigh u ∨ IsLow u
  · rw [charOfUnit_surrogate surrogate]
    exact .lone surrogate alone tail
  · have plain := not_or.mp surrogate
    exact .scalar plain (charOfUnit_plain plain) tail

/-- What a string makes of code units is what they decode to. -/
theorem decodes_escaped : (units : List UInt16) → Decodes units (decodeUnits (escaped units))
  | [] => .nil
  | [_] => decodes_single (by simp) .nil
  | u :: v :: units => by
    by_cases paired : IsHigh u ∧ IsLow v
    · rw [decodeUnits_pair paired.1 paired.2]
      exact .pair paired.1 paired.2 (charOfPair_toNat paired.1 paired.2) (decodes_escaped units)
    · exact decodes_single (by simpa using paired) (decodes_escaped (v :: units))

/-- Nothing else is. -/
theorem eq_of_decodes {units : List UInt16} {text : List Char} (h : Decodes units text) :
    text = decodeUnits (escaped units) := by
  induction h with
  | nil => rfl
  | pair hh hl hc _ ih => rw [decodeUnits_pair hh hl, ← ih, Char.toNat_inj.mp (hc.trans (charOfPair_toNat hh hl).symm)]
  | lone surrogate alone _ ih => rw [decodeUnits_single alone, charOfUnit_surrogate surrogate, ← ih]
  | scalar plain hc _ ih =>
    rw [decodeUnits_single fun high => absurd high plain.1, ← ih, Char.toNat_inj.mp (hc.trans (charOfUnit_plain plain).symm)]

theorem hexDigit?_eq_some {c : Char} {n : Nat} (h : IsHexDigit c n) : hexDigit? c = some n := by
  have digits : ∀ n : Fin 16, hexDigit? ("0123456789abcdef".toList[n]) = some n.val ∧
      hexDigit? ("0123456789ABCDEF".toList[n]) = some n.val := by decide
  rcases h with h | h
  · obtain ⟨bound, rfl⟩ := List.getElem?_eq_some_iff.mp h
    exact (digits ⟨n, bound⟩).1
  · obtain ⟨bound, rfl⟩ := List.getElem?_eq_some_iff.mp h
    exact (digits ⟨n, bound⟩).2

/-- An escape is read as its code unit. -/
theorem body_escape {w : List Char} {u : UInt16} (h : IsEscape w u) (text : List Char) :
    body (w ++ text) = (body text).behind [.unit u.toNat] w := by
  obtain ⟨a, b, c, d, rfl, ha, hb, hc, hd⟩ := h
  have bound := u.toNat_lt
  have quad : hexQuad? a b c d = some u.toNat := by
    simp only [hexQuad?, hexDigit?_eq_some ha, hexDigit?_eq_some hb, hexDigit?_eq_some hc, hexDigit?_eq_some hd]
    refine congrArg some ?_
    omega
  simp [body, quad]

/-- Escapes up to the closing quote. -/
theorem body_escapes {escapes : List (List Char)} {units : List UInt16} (h : List.Forall₂ IsEscape escapes units)
    (rest : List Char) :
    body (escapes.flatten ++ '"' :: rest) = .closed (escaped units) (escapes.flatten ++ ['"']) rest := by
  induction h with
  | nil => rfl
  | cons head _ ih =>
    rw [List.flatten_cons, List.append_assoc, body_escape head, ih, Body.behind, List.append_assoc]
    rfl

/-- Escapes between quotes. Without any, another quote would begin a block string. -/
theorem lexeme_escapes {escapes : List (List Char)} {units : List UInt16} (h : List.Forall₂ IsEscape escapes units)
    {rest : List Char} (free : rest.head? ≠ some '"') :
    lexeme ('"' :: (escapes.flatten ++ '"' :: rest)) =
      ⟨.string, String.ofList (decodeUnits (escaped units)), '"' :: escapes.flatten ++ ['"'], rest⟩ := by
  have single : lexeme ('"' :: (escapes.flatten ++ '"' :: rest)) =
      (body (escapes.flatten ++ '"' :: rest)).lexeme .string ['"'] decodeUnits := by
    cases h with
    | nil =>
      cases rest with
      | nil => rfl
      | cons c rest =>
        have other : c ≠ '"' := by simpa using free
        simp [lexeme, other]
    | cons head _ =>
      obtain ⟨_, _, _, _, rfl, -⟩ := head
      rfl
  rw [single, body_escapes h]
  rfl

end GraphQL.StringLiteral
