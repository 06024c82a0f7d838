import GraphQL.Proofs.Grammar.Nesting
import GraphQL.Proofs.Parser.Conforms.Value
import GraphQL.Proofs.Parser.Recovers.Repetition

/-! Values, arguments, directives and type references are taken back from their spellings. They fit
where they nest no deeper than there is room. -/
namespace GraphQL.Parser
open GraphQL.Symbol IndexedList

theorem valueOfName_enum {name : String} (h : IsEnumName name) : valueOfName name = .enum name := by
  unfold valueOfName
  split
  · exact absurd rfl h.1
  · exact absurd rfl h.2.1
  · exact absurd rfl h.2.2
  · rfl

namespace Recovers
variable {α β : Type} {F : Symbol → Prop}

/-- The punctuators that may begin a value. -/
abbrev valueStarts : List Punctuator := [.dollar, .bracketOpen, .braceOpen]

/-- A parser of values with room for `n` levels. -/
abbrev Values (p : Parser Value) (n : Nat) : Prop :=
  RecoversEach p Value.WellFormed Value.spelling valueStarts [] (·.nesting ≤ n)

/-- Anything may follow a value. -/
theorem Values.any {p : Parser Value} {n : Nat} (h : Values p n) {v : Value} (hv : v.WellFormed) :
    Recovers p v v.spelling valueStarts F (v.nesting ≤ n) :=
  (h.recovers v hv).mono (fun _ => id) fun x _ => avoids_nil x

theorem argument {p : Parser Value} {n : Nat} (h : Values p n) :
    RecoversEach (named p) Argument.WellFormed Argument.spelling [] [] (Argument.nesting · ≤ n) where
  conforms := Conforms.argument h.conforms
  ne_nil := Argument.spelling_ne_nil
  recovers _ ha := expectName_next (expect_next (h.any ha).map)

private theorem enter_bind {inner : Option (Parser β)} {f : Parser β → Parser α} {a : α}
    {w : List Symbol} {D : Prop} (hnone : inner = none → ¬ D)
    (h : ∀ p ∈ inner, ∃ ps, Recovers (f p) a w ps F D) :
    ∃ ps, Recovers (enter inner >>= f) a w ps F D := by
  cases inner with
  | none => exact nestingExceeded w (hnone rfl)
  | some p => exact h p rfl

private theorem nameValue {inner : Option (Parser Value)} (name : String) :
    Recovers (Parser.valueWith inner) (valueOfName name) [word name] valueStarts F True :=
  leaf (by simp [word]) fun t hk hl => by simp only [hk, hl, word]

private theorem variableValue {inner : Option (Parser Value)} (name : String) :
    Recovers (Parser.valueWith inner) (.variable name) [mark .dollar, word name] valueStarts F True := by
  refine peek_next (among_mark (by decide)) fun t ht => ?_
  simp only [Token.kind_of_bare ht]
  exact advance_next (among_mark (by decide)) (expectName_next (pure _))

/-- What stands between brackets or braces, where there is room. -/
private theorem rowValue {inner : Option (Parser Value)} {item : Parser Value → Parser α}
    {make : IndexedList α → Value} {P : α → Prop} {f : α → List Symbol} {g : α → Nat}
    {ps : List Punctuator} {close : Punctuator} {l : IndexedList α} {n : Nat}
    (h : ∀ p ∈ inner, ∃ m, n = m + 1 ∧ RecoversEach (item p) P f ps [] (g · ≤ m))
    (hn : inner = none → n = 0) (hc : close ∉ ps) (hl : l.Each P) :
    ∃ ps, Recovers (enter inner >>= fun p => Parser.manyThrough close (item p) >>= fun l =>
      Pure.pure (make l)) (make l) (l.spelling f ++ [mark close]) ps F (l.deepest g + 1 ≤ n) := by
  refine enter_bind (by simp +contextual [hn]) fun p hp => ?_
  obtain ⟨m, rfl, hm⟩ := h p hp
  exact ⟨_, (manyThrough hm (by simp) hc hl).map.congr rfl (by
    rw [Nat.add_le_add_iff_right, deepest_le_iff])⟩

private theorem listValue {inner : Option (Parser Value)} {n : Nat} {items : IndexedList Value}
    (h : ∀ p ∈ inner, ∃ m, n = m + 1 ∧ Values p m) (hn : inner = none → n = 0)
    (hl : items.Each Value.WellFormed) :
    Recovers (Parser.valueWith inner) (.list items)
      (mark .bracketOpen :: (items.spelling Value.spelling ++ [mark .bracketClose])) valueStarts F
      (items.deepest Value.nesting + 1 ≤ n) := by
  refine peek_next (among_mark (by decide)) fun t ht => ?_
  simp only [Token.kind_of_bare ht]
  have close : Punctuator.bracketClose ∉ valueStarts := by decide
  obtain ⟨ps, row⟩ := rowValue h hn close hl
  exact advance_next (among_mark (by decide)) row

private theorem objectValue {inner : Option (Parser Value)} {n : Nat}
    {fields : IndexedList (Named Value)} (h : ∀ p ∈ inner, ∃ m, n = m + 1 ∧ Values p m)
    (hn : inner = none → n = 0) (hl : fields.Each Argument.WellFormed) :
    Recovers (Parser.valueWith inner) (.object fields)
      (mark .braceOpen :: (fields.spelling Argument.spelling ++ [mark .braceClose])) valueStarts F
      (fields.deepest Argument.nesting + 1 ≤ n) := by
  refine peek_next (among_mark (by decide)) fun t ht => ?_
  simp only [Token.kind_of_bare ht]
  have each : ∀ p ∈ inner, ∃ m, n = m + 1 ∧ RecoversEach (named p) Argument.WellFormed
      Argument.spelling [] [] (Argument.nesting · ≤ m) := by
    intro p hp
    obtain ⟨m, hm, hv⟩ := h p hp
    exact ⟨m, hm, argument hv⟩
  have close : Punctuator.braceClose ∉ [] := by simp
  obtain ⟨ps, row⟩ := rowValue each hn close hl
  exact advance_next (among_mark (by decide)) row

theorem valueWith {inner : Option (Parser Value)} {n : Nat}
    (h : ∀ p ∈ inner, ∃ m, n = m + 1 ∧ Values p m) (hn : inner = none → n = 0) :
    Values (valueWith inner) n where
  conforms s := .valueWith fun p hp => (h p hp).elim fun _ hm => hm.2.conforms
  ne_nil := Value.spelling_ne_nil
  recovers v hv := by
    cases v with
    | «variable» name => exact (variableValue name).congr rfl (by simp [Value.nesting])
    | int literal =>
      have leaf : Recovers (Parser.valueWith inner) (.int literal) [⟨.int, literal⟩] valueStarts
        (Avoids []) True := leaf (by simp) fun t hk hl => by simp only [hk, hl]
      exact leaf.congr rfl (by simp [Value.nesting])
    | float literal =>
      have leaf : Recovers (Parser.valueWith inner) (.float literal) [⟨.float, literal⟩] valueStarts
        (Avoids []) True := leaf (by simp) fun t hk hl => by simp only [hk, hl]
      exact leaf.congr rfl (by simp [Value.nesting])
    | string s =>
      have leaf : Recovers (Parser.valueWith inner) (.string s) s.spelling valueStarts
          (Avoids []) True := by
        obtain ⟨text, _ | _⟩ := s <;> exact leaf (by simp) fun t hk hl => by simp only [hk, hl]; rfl
      exact leaf.congr rfl (by simp [Value.nesting])
    | boolean b =>
      cases b with
      | true => exact (nameValue "true").congr rfl (by simp [Value.nesting])
      | false => exact (nameValue "false").congr rfl (by simp [Value.nesting])
    | null => exact (nameValue "null").congr rfl (by simp [Value.nesting])
    | enum name =>
      have named : Recovers (Parser.valueWith inner) (valueOfName name) [word name] valueStarts
        (Avoids []) True := nameValue name
      rw [valueOfName_enum hv] at named
      exact named.congr rfl (by simp [Value.nesting])
    | list items =>
      have hl : items.Each Value.WellFormed := ⟨hv.1, (Value.itemsWellFormed_iff items).mp hv.2⟩
      exact (listValue h hn hl).congr (by simp [Value.spelling, Value.itemsSpelling_eq])
        (by simp [Value.nesting, Value.itemsNesting_eq])
    | object fields =>
      have hl : fields.Each Argument.WellFormed :=
        ⟨hv.1, (Value.fieldsWellFormed_iff fields).mp hv.2⟩
      exact (objectValue h hn hl).congr (by simp [Value.spelling, Value.fieldsSpelling_eq])
        (by simp [Value.nesting, Value.fieldsNesting_eq]; rfl)

theorem value (room : Nat) : Values (value room) room := by
  induction room with
  | zero => exact valueWith (by simp) fun _ => rfl
  | succ room ih => exact valueWith (by simpa using ih) (by simp)

theorem optionalDefault {room : Nat} {v : Option Value} (hv : DefaultWellFormed v) :
    Recovers (optionalDefault room) v (defaultSpelling v) [.equals] (Avoids [.equals])
      (defaultNesting v ≤ room) := by
  cases v with
  | none =>
    have none : Recovers (Pure.pure none) (none : Option Value) [] [] (Avoids [.equals])
      (defaultNesting none ≤ room) := (pure none).congr rfl (by simp [defaultNesting])
    exact (accept_other none (by simp) fun _ x hx => hx .equals (.head _)).fromWord
  | some v => exact accept_next ((value room).any (hv v rfl)).map

theorem arguments {room : Nat} {l : IndexedList Argument} (hl : l.Each Argument.WellFormed) :
    Recovers (arguments room) l (argumentsSpelling l) [.parenOpen] (Avoids [.parenOpen])
      (l.deepest Argument.nesting ≤ room) :=
  (optionalBlock (argument (value room)) (by simp) (by simp) (fun _ x hx => hx .parenOpen (.head _))
    hl).congr rfl deepest_le_iff

theorem directives {room : Nat} {l : IndexedList Directive} (hl : l.Each Directive.WellFormed) :
    Recovers (directives room) l (directivesSpelling l) [.atSign] (Avoids [.atSign, .parenOpen])
      (l.deepest Directive.nesting ≤ room) := by
  have each : RecoversEach (do
      let name ← Parser.expectName
      return ⟨name, ← Parser.arguments room⟩) Directive.WellFormed
      (fun d => word d.name :: argumentsSpelling d.arguments) [] [.parenOpen]
      (Directive.nesting · ≤ room) :=
    ⟨Conforms.directiveName room, by simp, fun d hd => expectName_next (arguments hd).map⟩
  exact (manyAfter each (by decide) (fun _ => id) hl).congr rfl deepest_le_iff

/-- A mark that may stand behind a type, and what is made of the type. -/
private theorem bang (f : Bool → α) (nonNull : Bool) :
    Recovers (Parser.accept .bang >>= fun nonNull => Pure.pure (f nonNull)) (f nonNull)
      (TypeReference.bangSpelling nonNull) [.bang] (Avoids [.bang]) True := by
  cases nonNull with
  | true => exact accept_next (pure (f true))
  | false =>
    exact (accept_other (pure (f false)) (by simp) fun _ x hx => hx .bang (.head _)).mono (by simp)
      fun _ => id

/-- A parser of type references with room for `n` levels. -/
private abbrev Types (p : Parser TypeReference) (n : Nat) : Prop :=
  ∀ t : TypeReference, Recovers p t t.spelling [.bracketOpen] (Avoids [.bang]) (t.nesting ≤ n)

private theorem typeReferenceWith {inner : Option (Parser TypeReference)} {n : Nat}
    (h : ∀ p ∈ inner, ∃ m, n = m + 1 ∧ Types p m) (hn : inner = none → n = 0) :
    Types (typeReferenceWith inner) n := by
  intro t
  cases t with
  | named name nonNull =>
    have named : Recovers (Parser.expectName >>= fun name => Parser.accept .bang >>= fun nonNull =>
        Pure.pure (TypeReference.named name nonNull)) (.named name nonNull)
        (word name :: TypeReference.bangSpelling nonNull) [] (Avoids [.bang]) True :=
      expectName_next (bang (TypeReference.named name) nonNull)
    have some (h : (TypeReference.named name nonNull).spelling = []) : False := nomatch h
    exact ((accept_other named (by simp) fun h => (some h).elim).fromWord).congr rfl
      (by simp [TypeReference.nesting])
  | list element nonNull =>
    have row : ∃ ps, Recovers (enter inner >>= fun p => p >>= fun element =>
        Parser.expect .bracketClose >>= fun _ => Parser.accept .bang >>= fun nonNull =>
          Pure.pure (TypeReference.list element nonNull)) (.list element nonNull)
        (element.spelling ++ mark .bracketClose :: TypeReference.bangSpelling nonNull) ps
        (Avoids [.bang]) (element.nesting + 1 ≤ n) := by
      refine enter_bind (by simp +contextual [hn]) fun p hp => ?_
      obtain ⟨m, rfl, hm⟩ := h p hp
      exact ⟨_, ((hm element).bind (expect_next (bang (TypeReference.list element) nonNull))
        (by decide) (by simp)).congr rfl (by simp)⟩
    obtain ⟨ps, row⟩ := row
    exact (accept_next row).congr (by simp [TypeReference.spelling]) (by simp [TypeReference.nesting])

theorem typeReference (room : Nat) (t : TypeReference) :
    Recovers (typeReference room) t t.spelling [.bracketOpen] (Avoids [.bang]) (t.nesting ≤ room) := by
  have types : Types (Parser.typeReference room) room := by
    induction room with
    | zero => exact typeReferenceWith (by simp) fun _ => rfl
    | succ room ih => exact typeReferenceWith (by simpa using ih) (by simp)
  exact types t

end Recovers
end GraphQL.Parser
