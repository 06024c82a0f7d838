import Mathlib.Computability.RegularExpressions
import GraphQL.Proofs.Lexeme.Number

/-! Numbers as a regular expression: `-?(0|[1-9][0-9]*)(\.[0-9]+)?([eE][+-]?[0-9]+)?`. The texts that match it are
those that the grammar of numbers allows. -/
namespace GraphQL.Pattern
open RegularExpression

/-- The whole text matches the expression. -/
def Matches (p : RegularExpression Char) (w : List Char) : Prop := w ∈ p.matches'

instance (p : RegularExpression Char) (w : List Char) : Decidable (Matches p w) :=
  decidable_of_iff _ (rmatch_iff_matches' p w)

/-- One of the characters. -/
def oneOf (cs : List Char) : RegularExpression Char := cs.foldr (fun c p => char c + p) 0

def optional (p : RegularExpression Char) : RegularExpression Char := 1 + p

def digit : RegularExpression Char := oneOf "0123456789".toList

def digits : RegularExpression Char := digit * digit.star

def unsigned : RegularExpression Char := char '0' + oneOf "123456789".toList * digit.star

def integer : RegularExpression Char := optional (char '-') * unsigned

def fraction : RegularExpression Char := char '.' * digits

def exponent : RegularExpression Char := oneOf ['e', 'E'] * (optional (oneOf ['+', '-']) * digits)

def number : RegularExpression Char := integer * (optional fraction * optional exponent)

/-- A number that has a fraction or an exponent. -/
def float : RegularExpression Char := integer * (fraction * optional exponent + exponent)

section
variable {p q : RegularExpression Char} {w : List Char} {c : Char}

@[simp] theorem matches_char : Matches (char c) w ↔ w = [c] := Iff.rfl

@[simp] theorem matches_add : Matches (p + q) w ↔ Matches p w ∨ Matches q w := Iff.rfl

@[simp] theorem matches_optional : Matches (optional p) w ↔ w = [] ∨ Matches p w := Iff.rfl

theorem matches_mul : Matches (p * q) w ↔ ∃ u v, w = u ++ v ∧ Matches p u ∧ Matches q v := by
  rw [Matches, matches'_mul, Language.mem_mul]
  constructor
  · rintro ⟨u, hu, v, hv, rfl⟩
    exact ⟨u, v, rfl, hu, hv⟩
  · rintro ⟨u, v, rfl, hu, hv⟩
    exact ⟨u, hu, v, hv, rfl⟩

@[simp] theorem matches_oneOf {cs : List Char} : Matches (oneOf cs) w ↔ ∃ c ∈ cs, w = [c] := by
  induction cs with
  | nil => exact iff_of_false (Language.notMem_zero w) (by simp)
  | cons c cs ih =>
    rw [oneOf, List.foldr_cons, matches_add, matches_char, ← oneOf, ih]
    simp

end

theorem isDigit_iff {c : Char} : isDigit c ↔ c ∈ "0123456789".toList := by
  constructor
  · intro h
    have bounds : '0' ≤ c ∧ c ≤ '9' := by simpa [isDigit] using h
    have lower : 48 ≤ c.toNat := bounds.1
    have upper : c.toNat ≤ 57 := bounds.2
    have digit : ∀ n : Fin 10, Char.ofNat (48 + n) ∈ "0123456789".toList := by decide
    have mem := digit ⟨c.toNat - 48, by omega⟩
    rwa [Nat.add_sub_cancel' lower, Char.ofNat_toNat] at mem
  · intro h
    have digits : ∀ d ∈ "0123456789".toList, isDigit d := List.all_eq_true.mp (by decide)
    exact digits c h

private theorem matches_star_digit {w : List Char} : Matches digit.star w ↔ ∀ c ∈ w, isDigit c := by
  rw [Matches, matches'_star, Language.mem_kstar]
  constructor
  · rintro ⟨parts, rfl, each⟩ c hc
    obtain ⟨part, hp, hc⟩ := List.mem_flatten.mp hc
    obtain ⟨d, hd, rfl⟩ := matches_oneOf.mp (each part hp)
    rw [List.mem_singleton.mp hc]
    exact isDigit_iff.mpr hd
  · intro all
    refine ⟨w.map ([·]), by rw [← List.flatMap_def, List.flatMap_singleton'], fun part hp => ?_⟩
    obtain ⟨c, hc, rfl⟩ := List.mem_map.mp hp
    exact matches_oneOf.mpr ⟨c, isDigit_iff.mp (all c hc), rfl⟩

/-- A digit of some sort and any number of digits. -/
private theorem matches_oneOf_star {cs w : List Char} (hcs : ∀ c ∈ cs, isDigit c) :
    Matches (oneOf cs * digit.star) w ↔ Number.IsDigits w ∧ ∃ c ∈ cs, w.head? = some c := by
  rw [matches_mul]
  constructor
  · rintro ⟨_, v, rfl, hu, hv⟩
    obtain ⟨c, hc, rfl⟩ := matches_oneOf.mp hu
    exact ⟨⟨by simp, List.forall_mem_cons.mpr ⟨hcs c hc, matches_star_digit.mp hv⟩⟩, c, hc, rfl⟩
  · rintro ⟨⟨-, all⟩, c, hc, head⟩
    obtain ⟨v, rfl⟩ := List.head?_eq_some_iff.mp head
    exact ⟨[c], v, rfl, matches_oneOf.mpr ⟨c, hc, rfl⟩, matches_star_digit.mpr (List.forall_mem_cons.mp all).2⟩

theorem matches_digits {w : List Char} : Matches digits w ↔ Number.IsDigits w := by
  apply (matches_oneOf_star fun c => isDigit_iff.mpr).trans
  constructor
  · exact And.left
  · intro h
    obtain ⟨c, v, rfl⟩ := List.exists_cons_of_ne_nil h.ne_nil
    exact ⟨h, c, isDigit_iff.mp (h.all c (.head _)), rfl⟩

theorem matches_unsigned {w : List Char} : Matches unsigned w ↔ Number.IsInteger w := by
  have positive : ∀ c ∈ "123456789".toList, isDigit c ∧ c ≠ '0' := by simp [isDigit]
  rw [unsigned, matches_add, matches_char, matches_oneOf_star fun c hc => (positive c hc).1, Number.IsInteger]
  apply or_congr_right
  apply and_congr_right
  intro h
  obtain ⟨c, v, rfl⟩ := List.exists_cons_of_ne_nil h.ne_nil
  have digit : c = '0' ∨ c ∈ "123456789".toList := List.mem_cons.mp (isDigit_iff.mp (h.all c (.head _)))
  simp only [List.head?_cons, Option.some.injEq, ne_eq, exists_eq_right']
  exact ⟨fun hc => (positive c hc).2, digit.resolve_left⟩

theorem matches_fraction {w : List Char} : Matches (optional fraction) w ↔ Number.IsFraction w := by
  simp [fraction, matches_mul, matches_digits, Number.IsFraction]

theorem matches_exponent {w : List Char} : Matches (optional exponent) w ↔ Number.IsExponent w := by
  rw [matches_optional, exponent, matches_mul, Number.IsExponent]
  apply or_congr_right
  simp only [matches_mul, matches_oneOf, matches_optional, matches_digits]
  constructor
  · rintro ⟨_, _, rfl, ⟨e, he, rfl⟩, sign, ds, rfl, hs, hd⟩
    exact ⟨e, sign, ds, rfl, by simpa using he, by simpa using hs, hd⟩
  · rintro ⟨e, sign, ds, rfl, he, hs, hd⟩
    exact ⟨[e], sign ++ ds, by simp, ⟨e, by simpa using he, rfl⟩, sign, ds, rfl, by simpa using hs, hd⟩

private theorem matches_integer {w : List Char} :
    Matches integer w ↔ ∃ s i, w = s ++ i ∧ Number.IsSign s ∧ Number.IsInteger i := by
  rw [integer, matches_mul]
  simp only [matches_optional, matches_char, matches_unsigned, Number.IsSign]

/-- The texts that match are the numbers, with their parts behind the integer part as they may be. -/
theorem matches_number {w : List Char} :
    Matches number w ↔ ∃ integer more, w = integer ++ more ∧ Number.IsNumber integer more := by
  rw [number, matches_mul]
  simp only [matches_mul, matches_integer, matches_fraction, matches_exponent]
  constructor
  · rintro ⟨_, more, rfl, ⟨s, i, rfl, hs, hi⟩, hm⟩
    exact ⟨s ++ i, more, rfl, s, i, rfl, hs, hi, hm⟩
  · rintro ⟨_, more, rfl, s, i, rfl, hs, hi, hm⟩
    exact ⟨s ++ i, more, rfl, ⟨s, i, rfl, hs, hi⟩, hm⟩

/-- A fraction and an exponent, of which one may be missing. -/
private theorem matches_more {w : List Char} :
    Matches (fraction * optional exponent + exponent) w ↔ Number.IsMore w ∧ w ≠ [] := by
  have point : ¬ Matches fraction [] := by simp [fraction, matches_mul]
  have letter : ¬ Matches exponent [] := by simp [exponent, matches_mul]
  rw [matches_add, matches_mul, Number.IsMore]
  simp only [← matches_fraction, ← matches_exponent]
  constructor
  · rintro (⟨f, e, rfl, hf, he⟩ | he)
    · refine ⟨⟨f, e, rfl, .inr hf, he⟩, fun empty => point ?_⟩
      rwa [(List.append_eq_nil_iff.mp empty).1] at hf
    · exact ⟨⟨[], w, rfl, .inl rfl, .inr he⟩, fun empty => letter (empty ▸ he)⟩
  · rintro ⟨⟨f, e, rfl, rfl | hf, he⟩, hne⟩
    · exact .inr (he.resolve_left hne)
    · exact .inl ⟨f, e, rfl, hf, he⟩

theorem matches_float {w : List Char} :
    Matches float w ↔ ∃ integer more, w = integer ++ more ∧ Number.IsNumber integer more ∧ more ≠ [] := by
  rw [float, matches_mul]
  simp only [matches_integer, matches_more]
  constructor
  · rintro ⟨_, more, rfl, ⟨s, i, rfl, hs, hi⟩, hm, hne⟩
    exact ⟨s ++ i, more, rfl, ⟨s, i, rfl, hs, hi, hm⟩, hne⟩
  · rintro ⟨_, more, rfl, ⟨s, i, rfl, hs, hi, hm⟩, hne⟩
    exact ⟨s ++ i, more, rfl, ⟨s, i, rfl, hs, hi⟩, hm, hne⟩

/-- The parts of a number. Something is behind the integer part if there is a fraction or an exponent. -/
private theorem exists_parts {w : List Char} (h : Matches number w) :
    ∃ integer more, w = integer ++ more ∧ Number.IsNumber integer more ∧
      (if more = [] then TokenKind.int else .float) = if Matches float w then .float else .int := by
  by_cases hf : Matches float w
  · obtain ⟨integer, more, same, isNumber, some⟩ := matches_float.mp hf
    exact ⟨integer, more, same, isNumber, by rw [if_neg some, if_pos hf]⟩
  · obtain ⟨integer, more, same, isNumber⟩ := matches_number.mp h
    have none : more = [] := by
      apply Decidable.byContradiction
      intro some
      exact hf (matches_float.mpr ⟨integer, more, same, isNumber, some⟩)
    exact ⟨integer, more, same, isNumber, by rw [if_pos none, if_neg hf]⟩

end GraphQL.Pattern

namespace GraphQL.Number

private theorem isNameStart_iff {c : Char} : isNameStart c ↔ c = '_' ∨ c.isAlpha := by
  have alpha : c.isAlpha = (decide ('A' ≤ c ∧ c ≤ 'Z') || (decide ('a' ≤ c) && decide (c ≤ 'z'))) := rfl
  simp only [isNameStart, alpha, Bool.or_eq_true, Bool.and_eq_true, decide_eq_true_eq]
  tauto

private theorem goesOn_iff {c : Char} : goesOn c ↔ c.isDigit ∨ c = '.' ∨ c = '_' ∨ c.isAlpha := by
  have digit : isDigit c = c.isDigit := rfl
  simp only [goesOn, isNameChar, digit, Bool.or_eq_true, decide_eq_true_eq, isNameStart_iff]
  tauto

/-- The text begins with the number `w`, and `rest` behind it does not go on with it. -/
structure Begins (text w rest : List Char) : Prop where
  split : text = w ++ rest
  number : Pattern.Matches Pattern.number w
  ends : ∀ c ∈ rest.head?, ¬ c.isDigit ∧ c ≠ '.' ∧ c ≠ '_' ∧ ¬ c.isAlpha

private theorem headNot_goesOn_iff {rest : List Char} :
    HeadNot goesOn rest ↔ ∀ c ∈ rest.head?, ¬ c.isDigit ∧ c ≠ '.' ∧ c ≠ '_' ∧ ¬ c.isAlpha := by
  simp only [HeadNot, ← Bool.not_eq_true, goesOn_iff, not_or, ne_eq]

theorem Begins.lexeme {text w rest : List Char} (h : Begins text w rest) :
    lexeme text = ⟨if Pattern.Matches Pattern.float w then .float else .int, String.ofList w, w, rest⟩ := by
  obtain ⟨integer, more, rfl, isNumber, kind⟩ := Pattern.exists_parts h.number
  rw [h.split, lexeme_of_isNumber isNumber (headNot_goesOn_iff.mpr h.ends), kind]

theorem exists_begins {text : List Char} (h : (lexeme text).kind ≠ .illegal) : ∃ w rest, Begins text w rest := by
  obtain ⟨integer, more, rest, same, number, stops⟩ := isNumber_of_lexeme h
  exact ⟨integer ++ more, rest, same, Pattern.matches_number.mpr ⟨integer, more, rfl, number⟩,
    headNot_goesOn_iff.mp stops⟩

end GraphQL.Number
