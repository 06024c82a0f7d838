import GraphQL.Lexeme.Number
import GraphQL.Proofs.Lexeme.Boundary

/-! Numbers are read by their grammar, up to the first character that could not go on with one. -/
namespace GraphQL.Number

structure IsDigits (w : List Char) : Prop where
  ne_nil : w ≠ []
  all : ∀ d ∈ w, isDigit d

theorem IsDigits.headNot {w : List Char} (h : IsDigits w) {p : Char → Bool}
    (hp : ∀ c, isDigit c → p c = false) {rest : List Char} : HeadNot p (w ++ rest) := by
  cases w with
  | nil => exact absurd rfl h.ne_nil
  | cons d w => exact HeadNot.cons_iff.mpr (hp d (h.all d (.head _)))

def IsSign (w : List Char) : Prop := w = [] ∨ w = ['-']

/-- A zero alone, or digits of which the first is not zero. -/
def IsInteger (w : List Char) : Prop := w = ['0'] ∨ IsDigits w ∧ w.head? ≠ some '0'

def IsFraction (w : List Char) : Prop := w = [] ∨ ∃ ds, w = '.' :: ds ∧ IsDigits ds

def IsExponent (w : List Char) : Prop :=
  w = [] ∨ ∃ e sign ds, w = e :: sign ++ ds ∧ (e = 'e' ∨ e = 'E') ∧
    (sign = [] ∨ sign = ['+'] ∨ sign = ['-']) ∧ IsDigits ds

theorem IsExponent.headNot {e rest : List Char} (he : IsExponent e) {p : Char → Bool}
    (hp : p 'e' = false ∧ p 'E' = false) (hr : e = [] → HeadNot p rest) : HeadNot p (e ++ rest) := by
  rcases he with rfl | ⟨e, s, ds, rfl, rfl | rfl, -⟩
  · exact hr rfl
  · exact HeadNot.cons_iff.mpr hp.1
  · exact HeadNot.cons_iff.mpr hp.2

/-- What a number may have behind its integer part. -/
def IsMore (w : List Char) : Prop := ∃ f e, w = f ++ e ∧ IsFraction f ∧ IsExponent e

/-- The integer part of a number with its sign, and what else the number has. -/
def IsNumber (integer more : List Char) : Prop :=
  ∃ s i, integer = s ++ i ∧ IsSign s ∧ IsInteger i ∧ IsMore more

theorem IsNumber.head {integer more : List Char} (h : IsNumber integer more) :
    ∃ c w, integer = c :: w ∧ (c = '-' ∨ isDigit c) := by
  obtain ⟨s, i, rfl, rfl | rfl, hi, -⟩ := h
  · rcases hi with rfl | ⟨hi, -⟩
    · exact ⟨'0', [], rfl, .inr rfl⟩
    · obtain ⟨d, w, rfl⟩ := List.exists_cons_of_ne_nil hi.ne_nil
      exact ⟨d, w, rfl, .inr (hi.all d (.head _))⟩
  · exact ⟨'-', i, rfl, .inl rfl⟩

/-- Whether the character may not stand right behind a number. -/
def goesOn (c : Char) : Bool := isNameChar c || c = '.'

private theorem bind_eq_ok {α β : Type} {x : Except Fault α} {f : α → Except Fault β} {b : β}
    (h : (x >>= f) = .ok b) : ∃ a, x = .ok a ∧ f a = .ok b := by
  cases x with
  | error e => cases h
  | ok a => exact ⟨a, rfl, h⟩

/-- The reader takes the texts `w` with `W w rest` where `rest` is behind them, and no others. -/
structure Takes (f : Progress → Except Fault Progress) (W : List Char → List Char → Prop) : Prop where
  sound : ∀ {t text q}, f ⟨t, text⟩ = .ok q → ∃ w rest, text = w ++ rest ∧ W w rest ∧ q = ⟨t ++ w, rest⟩
  complete : ∀ {t w rest}, W w rest → f ⟨t, w ++ rest⟩ = .ok ⟨t ++ w, rest⟩

namespace Takes
variable {f g : Progress → Except Fault Progress} {W V : List Char → List Char → Prop}

theorem congr (hf : Takes f W) (h : ∀ w rest, W w rest ↔ V w rest) : Takes f V where
  sound hq := by
    obtain ⟨w, rest, same, hw, rfl⟩ := hf.sound hq
    exact ⟨w, rest, same, (h w rest).mp hw, rfl⟩
  complete hw := hf.complete ((h _ _).mpr hw)

theorem bind (hf : Takes f W) (hg : Takes g V) :
    Takes (fun p => f p >>= g) fun w rest => ∃ u v, w = u ++ v ∧ W u (v ++ rest) ∧ V v rest where
  sound {t text q} h := by
    obtain ⟨p, hp, h⟩ := bind_eq_ok h
    obtain ⟨u, rest, rfl, hu, rfl⟩ := hf.sound hp
    obtain ⟨v, rest, rfl, hv, rfl⟩ := hg.sound h
    exact ⟨u ++ v, rest, by simp, ⟨u, v, rfl, hu, hv⟩, by simp⟩
  complete {t w rest} h := by
    obtain ⟨u, v, rfl, hu, hv⟩ := h
    rw [List.append_assoc, hf.complete hu, ← List.append_assoc]
    exact hg.complete hv

/-- What is taken behind a single character. -/
private theorem behind (hf : Takes f W) {t text : List Char} {c : Char} {q : Progress}
    (h : f ⟨t ++ [c], text⟩ = .ok q) :
    ∃ w rest, c :: text = w ++ rest ∧ (∃ v, w = c :: v ∧ W v rest) ∧ q = ⟨t ++ w, rest⟩ := by
  obtain ⟨v, rest, rfl, hv, rfl⟩ := hf.sound h
  exact ⟨c :: v, rest, rfl, ⟨v, rfl, hv⟩, by simp⟩

theorem digits : Takes digits fun w rest => IsDigits w ∧ HeadNot isDigit rest where
  sound {t text q} h := by
    unfold Number.digits at h
    split at h
    · cases h
    · next ds rest hne hs =>
      obtain ⟨same, all, hr⟩ := span_eq_iff.mp hs
      cases h
      exact ⟨ds, rest, same, ⟨⟨hne, all⟩, hr⟩, rfl⟩
  complete {t w rest} h := by
    obtain ⟨⟨hne, all⟩, hr⟩ := h
    have hs := span_eq_iff.mpr ⟨rfl, all, hr⟩
    unfold Number.digits
    split
    · next hs' =>
      cases hs.symm.trans hs'
      exact absurd rfl hne
    · next hs' =>
      cases hs.symm.trans hs'
      rfl

theorem integerPart : Takes integerPart fun w rest => IsInteger w ∧ HeadNot isDigit rest where
  sound {t text q} h := by
    unfold Number.integerPart at h
    split at h
    · next c rest hc =>
      split at h
      · cases h
      · next hd =>
        cases h
        exact ⟨['0'], c :: rest, hc, ⟨.inl rfl, by simpa using hd⟩, rfl⟩
    · next hc =>
      cases h
      exact ⟨['0'], [], hc, ⟨.inl rfl, .nil⟩, rfl⟩
    · next hmore hzero =>
      obtain ⟨w, rest, rfl, ⟨hw, hr⟩, rfl⟩ := digits.sound h
      refine ⟨w, rest, rfl, ⟨.inr ⟨hw, fun h0 => ?_⟩, hr⟩, rfl⟩
      obtain ⟨w, rfl⟩ := List.head?_eq_some_iff.mp h0
      cases hm : w ++ rest with
      | nil => exact hzero (congrArg ('0' :: ·) hm)
      | cons c more => exact hmore c more (congrArg ('0' :: ·) hm)
  complete {t w rest} h := by
    obtain ⟨rfl | ⟨hw, h0⟩, hr⟩ := h
    · cases rest with
      | nil => rfl
      | cons c rest => exact if_neg (by simpa using hr)
    · rw [← digits.complete ⟨hw, hr⟩]
      cases w with
      | nil => exact absurd rfl hw.ne_nil
      | cons d w =>
        have hd : d ≠ '0' := by simpa using h0
        unfold Number.integerPart
        split <;> simp_all

theorem fractionPart : Takes fractionPart fun w rest =>
    (w = [] ∧ HeadNot (· = '.') rest) ∨ ∃ ds, w = '.' :: ds ∧ IsDigits ds ∧ HeadNot isDigit rest where
  sound {t text q} h := by
    unfold Number.fractionPart at h
    split at h
    · next rest hc =>
      obtain ⟨w, rest', same, hw, rfl⟩ := digits.behind h
      exact ⟨w, rest', hc.trans same, .inr hw, rfl⟩
    · next hdot =>
      cases h
      refine ⟨[], text, rfl, .inl ⟨rfl, fun c hc => ?_⟩, by simp⟩
      cases text with
      | nil => simp at hc
      | cons d text => simp_all
  complete {t w rest} h := by
    rcases h with ⟨rfl, hr⟩ | ⟨ds, rfl, h⟩
    · unfold Number.fractionPart
      split
      · simp_all
      · simp
    · have run := digits.complete (t := t ++ ['.']) h
      rwa [List.append_assoc] at run

theorem exponentSign : Takes (fun p => .ok (exponentSign p)) fun w rest =>
    w = ['+'] ∨ w = ['-'] ∨ w = [] ∧ HeadNot (fun c => c = '+' || c = '-') rest where
  sound {t text q} h := by
    cases h
    cases text with
    | nil => exact ⟨[], [], rfl, .inr (.inr ⟨rfl, .nil⟩), by simp [Number.exponentSign]⟩
    | cons c rest =>
      by_cases hc : c = '+' ∨ c = '-'
      · refine ⟨[c], rest, rfl, ?_, by simp [Number.exponentSign, hc, Progress.take]⟩
        exact hc.imp (congrArg ([·])) fun h => .inl (congrArg ([·]) h)
      · exact ⟨[], c :: rest, rfl, .inr (.inr ⟨rfl, by simpa using hc⟩), by
          simp [Number.exponentSign, hc]⟩
  complete {t w rest} h := by
    rcases h with rfl | rfl | ⟨rfl, hr⟩
    · rfl
    · rfl
    · cases rest with
      | nil => simp [Number.exponentSign]
      | cons c rest =>
        have hc : ¬ (c = '+' ∨ c = '-') := by simpa using hr
        simp [Number.exponentSign, hc]

theorem exponentPart : Takes exponentPart fun w rest =>
    (w = [] ∧ HeadNot (fun c => c = 'e' || c = 'E') rest) ∨
      w ≠ [] ∧ IsExponent w ∧ HeadNot isDigit rest where
  sound {t text q} h := by
    unfold Number.exponentPart at h
    split at h
    · next c rest hc =>
      obtain rfl : text = c :: rest := hc
      split at h
      · next he =>
        obtain ⟨w, rest', same, ⟨v, rfl, s, ds, rfl, hs, hd, hr⟩, rfl⟩ :=
          (exponentSign.bind digits).behind h
        refine ⟨_, rest', same, .inr ⟨by simp, .inr ⟨c, s, ds, rfl, by simpa using he, ?_, hd⟩, hr⟩, rfl⟩
        rcases hs with rfl | rfl | ⟨rfl, -⟩ <;> simp
      · next he =>
        cases h
        exact ⟨[], _, rfl, .inl ⟨rfl, by simpa using he⟩, by simp⟩
    · next hc =>
      cases h
      exact ⟨[], text, rfl, .inl ⟨rfl, by rw [show text = [] from hc]; exact .nil⟩, by simp⟩
  complete {t w rest} h := by
    rcases h with ⟨rfl, hr⟩ | ⟨hne, rfl | ⟨e, s, ds, rfl, he, hs, hd⟩, hr⟩
    · cases rest with
      | nil => simp [Number.exponentPart]
      | cons c rest =>
        have hc : ¬ (c = 'e' ∨ c = 'E') := by simpa using hr
        simp [Number.exponentPart, hc]
    · exact absurd rfl hne
    · have signed : s = ['+'] ∨ s = ['-'] ∨
          s = [] ∧ HeadNot (fun c => c = '+' || c = '-') (ds ++ rest) := by
        rcases hs with rfl | rfl | rfl
        · refine .inr (.inr ⟨rfl, hd.headNot fun c hc => ?_⟩)
          exact Bool.or_eq_false_iff.mpr ⟨decide_eq_false (by rintro rfl; cases hc),
            decide_eq_false (by rintro rfl; cases hc)⟩
        · exact .inl rfl
        · exact .inr (.inl rfl)
      have run := (exponentSign.bind digits).complete (t := t ++ [e])
        ⟨s, ds, rfl, signed, hd, hr⟩
      rw [show t ++ (e :: s ++ ds) = t ++ [e] ++ (s ++ ds) by simp]
      exact (if_pos (by simpa using he)).trans run

theorem endPart : Takes endPart fun w rest =>
    w = [] ∧ HeadNot (fun c => c = '.' || isNameStart c) rest where
  sound {t text q} h := by
    unfold Number.endPart at h
    split at h
    · next c rest hc =>
      obtain rfl : text = c :: rest := hc
      split at h
      · cases h
      · next hn =>
        cases h
        exact ⟨[], _, rfl, ⟨rfl, by simpa using hn⟩, by simp⟩
    · next hc =>
      cases h
      exact ⟨[], text, rfl, ⟨rfl, by rw [show text = [] from hc]; exact .nil⟩, by simp⟩
  complete {t w rest} h := by
    obtain ⟨rfl, hr⟩ := h
    cases rest with
    | nil => simp [Number.endPart]
    | cons c rest =>
      have hc : ¬ (c = '.' ∨ isNameStart c) := by simpa using hr
      simp [Number.endPart, hc]

theorem more : Takes (fun p => Number.fractionPart p >>= fun p => Number.exponentPart p >>= Number.endPart)
    fun w rest => IsMore w ∧ HeadNot (fun c => c = '.' || isNameStart c) rest ∧
      (w ≠ [] → HeadNot isDigit rest) := by
  refine (fractionPart.bind (exponentPart.bind endPart)).congr fun w rest => ⟨?_, ?_⟩
  · rintro ⟨f, _, rfl, hf, e, _, rfl, he, rfl, hr⟩
    simp only [List.append_nil, List.nil_append] at hf he ⊢
    have exponent : IsExponent e := he.elim (fun h => .inl h.1) fun h => h.2.1
    refine ⟨⟨f, e, rfl, ?_, exponent⟩, hr, fun hne => ?_⟩
    · exact hf.elim (fun h => .inl h.1) fun ⟨ds, h, hd, _⟩ => .inr ⟨ds, h, hd⟩
    · rcases he with ⟨rfl, -⟩ | ⟨-, -, hd⟩
      · rcases hf with ⟨rfl, -⟩ | ⟨ds, rfl, -, hd⟩
        · exact absurd rfl hne
        · exact hd
      · exact hd
  · rintro ⟨⟨f, e, rfl, hf, he⟩, hr, hd⟩
    refine ⟨f, e, rfl, ?_, e, [], by simp, ?_, rfl, hr⟩
    · rcases hf with rfl | ⟨ds, rfl, hds⟩
      · exact .inl ⟨rfl, he.headNot (by decide) fun _ => hr.mono fun c hc => by simp_all⟩
      · exact .inr ⟨ds, rfl, hds, he.headNot (by decide) fun _ => hd (by simp)⟩
    · by_cases hne : e = []
      · refine .inl ⟨hne, hr.mono fun c hc => ?_⟩
        have letter : c = 'e' ∨ c = 'E' := by simpa using hc
        rcases letter with rfl | rfl <;> rfl
      · exact .inr ⟨hne, he, hd (by simp [hne])⟩

end Takes

private theorem sign_sound (text : List Char) :
    ∃ s rest, text = s ++ rest ∧ IsSign s ∧ sign text = ⟨s, rest⟩ := by
  unfold sign
  split
  · exact ⟨['-'], _, rfl, .inr rfl, rfl⟩
  · exact ⟨[], text, rfl, .inl rfl, rfl⟩

private theorem sign_complete {s i : List Char} (hs : IsSign s) (hi : IsInteger i) (rest : List Char) :
    sign (s ++ (i ++ rest)) = ⟨s, i ++ rest⟩ := by
  rcases hs with rfl | rfl
  · have head : HeadNot (· = '-') (i ++ rest) := by
      rcases hi with rfl | ⟨hi, -⟩
      · exact HeadNot.cons_iff.mpr rfl
      · exact hi.headNot fun c hc => decide_eq_false (by rintro rfl; cases hc)
    unfold sign
    split
    · next h => simp [show i ++ rest = _ from h] at head
    · rfl
  · rfl

theorem read_eq (text : List Char) : read text = (integerPart (sign text) >>= fun integer =>
    (fractionPart integer >>= fun p => exponentPart p >>= endPart) >>= fun number =>
      pure (integer, number)) := by
  simp only [read, bind_assoc]

theorem read_sound {text : List Char} {p q : Progress} (h : read text = .ok (p, q)) :
    ∃ integer more rest, text = integer ++ (more ++ rest) ∧ IsNumber integer more ∧
      HeadNot goesOn rest ∧ p = ⟨integer, more ++ rest⟩ ∧ q = ⟨integer ++ more, rest⟩ := by
  obtain ⟨s, unsigned, rfl, hs, hsign⟩ := sign_sound text
  rw [read_eq, hsign] at h
  obtain ⟨integer, hp, h⟩ := bind_eq_ok h
  obtain ⟨number, hq, h⟩ := bind_eq_ok h
  cases h
  obtain ⟨i, behind, rfl, ⟨hi, hd⟩, rfl⟩ := Takes.integerPart.sound hp
  obtain ⟨more, rest, rfl, ⟨hm, hr, hd'⟩, rfl⟩ := Takes.more.sound hq
  refine ⟨s ++ i, more, rest, by simp, ⟨s, i, rfl, hs, hi, hm⟩, fun c hc => ?_, rfl, rfl⟩
  have digit : isDigit c = false := by
    by_cases hne : more = []
    · subst hne
      exact hd c hc
    · exact hd' hne c hc
  have other := hr c hc
  simp_all [goesOn, isNameChar]

theorem read_complete {integer more rest : List Char} (h : IsNumber integer more)
    (hr : HeadNot goesOn rest) :
    read (integer ++ (more ++ rest)) = .ok (⟨integer, more ++ rest⟩, ⟨integer ++ more, rest⟩) := by
  obtain ⟨s, i, rfl, hs, hi, hm⟩ := h
  have digit : HeadNot isDigit rest := hr.mono fun c hc => by simp [goesOn, isNameChar, hc]
  have other : HeadNot (fun c => c = '.' || isNameStart c) rest := hr.mono fun c hc => by
    simp only [Bool.or_eq_true, decide_eq_true_eq] at hc
    rcases hc with rfl | hc <;> simp [goesOn, isNameChar, *]
  have behind : HeadNot isDigit (more ++ rest) := by
    obtain ⟨f, e, rfl, rfl | ⟨ds, rfl, -⟩, he⟩ := hm
    · exact he.headNot (by decide) fun _ => digit
    · exact HeadNot.cons_iff.mpr rfl
  have run := Takes.more.complete (t := s ++ i) (w := more) ⟨hm, other, fun _ => digit⟩
  rw [read_eq, List.append_assoc, sign_complete hs hi, Takes.integerPart.complete ⟨hi, behind⟩]
  exact congrArg (· >>= fun number => .ok ((⟨s ++ i, more ++ rest⟩ : Progress), number)) run

/-- A number at the head of a text, of which all is taken. -/
theorem lexeme_of_isNumber {integer more rest : List Char} (h : IsNumber integer more)
    (hr : HeadNot goesOn rest) :
    lexeme (integer ++ more ++ rest) =
      ⟨if more = [] then .int else .float, String.ofList (integer ++ more), integer ++ more, rest⟩ := by
  rw [lexeme, List.append_assoc, read_complete h hr]
  simp

/-- What is read is a number, unless it is malformed. -/
theorem isNumber_of_lexeme {text : List Char} (h : (lexeme text).kind ≠ .illegal) :
    ∃ integer more rest, text = integer ++ more ++ rest ∧ IsNumber integer more ∧ HeadNot goesOn rest := by
  cases hr : read text with
  | error fault => simp [lexeme, hr, Lexeme.illegal] at h
  | ok progress =>
    obtain ⟨integer, more, rest, rfl, hn, hb, -⟩ := read_sound hr
    exact ⟨integer, more, rest, by simp, hn, hb⟩

end GraphQL.Number
