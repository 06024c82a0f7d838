import GraphQL.Parser.Value
import GraphQL.Proofs.Grammar.WellFormed
import GraphQL.Proofs.Parser.Conforms.Repetition

/-! Values, arguments, directives and type references follow the grammar in every room. -/
namespace GraphQL.Parser
open GraphQL.Symbol IndexedList

/-- The value that a name stands for is spelled by the name. -/
theorem valueOfName_spelling (name : String) :
    (valueOfName name).WellFormed ∧ (valueOfName name).spelling = [word name] := by
  unfold valueOfName
  split
  · exact ⟨trivial, rfl⟩
  · exact ⟨trivial, rfl⟩
  · exact ⟨trivial, rfl⟩
  · next ht hf hn => exact ⟨⟨ht, hf, hn⟩, rfl⟩

namespace Conforms
variable {α β : Type} {s : TokenStream}

theorem enter_bind {G : Grammar α} {inner : Option (Parser β)} {f : Parser β → Parser α}
    (inhabited : ∃ a w, G a w) (h : ∀ p ∈ inner, Conforms G (f p) s) :
    Conforms G (enter inner >>= f) s := by
  cases inner with
  | none => exact nestingExceeded inhabited
  | some p => exact h p rfl

theorem argument {p : Parser Value}
    (h : ∀ s, Conforms (.only Value.WellFormed Value.spelling) p s) (s : TokenStream) :
    Conforms (.only Argument.WellFormed Argument.spelling) (named p) s := by
  refine (expectName.bind fun name _ => expect.bind fun _ s => (h s).bind fun v _ => pure _).mono ?_
  intro a w ha
  simp only [Grammar.seq_only_iff, Grammar.seq_symbol_iff, Grammar.unit] at ha
  obtain ⟨name, _, -, rfl, _, rfl, v, _, hv, rfl, rfl, rfl⟩ := ha
  exact ⟨hv, by simp [Argument.spelling]⟩

theorem valueWith {inner : Option (Parser Value)}
    (h : ∀ p ∈ inner, ∀ s, Conforms (.only Value.WellFormed Value.spelling) p s) :
    Conforms (.only Value.WellFormed Value.spelling) (valueWith inner) s := by
  apply peek_bind
  split
  · next hk =>
    refine (advance_bind (by simp [hk]) (expectName.bind fun name _ => pure _)).mono ?_
    intro v w hv
    simp only [Grammar.seq_only_iff, Grammar.unit] at hv
    obtain ⟨_, rfl, name, _, -, rfl, rfl, rfl⟩ := hv
    exact ⟨trivial, by rw [Token.bare_of_punctuator hk]; rfl⟩
  · next hk => exact advance_pure (by simp [hk]) ⟨trivial, by simp [Token.bare, hk, Value.spelling]⟩
  · next hk => exact advance_pure (by simp [hk]) ⟨trivial, by simp [Token.bare, hk, Value.spelling]⟩
  · next hk =>
    exact advance_pure (by simp [hk])
      ⟨trivial, by simp [Token.bare, hk, Value.spelling, StringValue.spelling]⟩
  · next hk =>
    exact advance_pure (by simp [hk])
      ⟨trivial, by simp [Token.bare, hk, Value.spelling, StringValue.spelling]⟩
  · next hk =>
    obtain ⟨hw, hs⟩ := valueOfName_spelling s.peek.literal
    exact advance_pure (by simp [hk]) ⟨hw, by simp [Token.bare, hk, hs, word]⟩
  · next hk =>
    refine (advance_bind (by simp [hk]) (enter_bind
      ⟨Value.list .nil, _, .nil, _, _, rfl, ⟨.nil, rfl⟩, rfl, rfl⟩ fun p hp =>
        (manyThrough (h p hp) Value.spelling_ne_nil).bind fun l _ => pure (Value.list l))).mono ?_
    intro v w hv
    simp only [Grammar.seq_only_iff, Grammar.unit] at hv
    obtain ⟨_, rfl, l, _, hl, rfl, rfl, rfl⟩ := hv
    refine ⟨⟨hl.1, (Value.itemsWellFormed_iff l).mpr hl.2⟩, ?_⟩
    simp [Value.spelling, Value.itemsSpelling_eq, Token.bare_of_punctuator hk]
  · next hk =>
    refine (advance_bind (by simp [hk]) (enter_bind
      ⟨Value.object .nil, _, .nil, _, _, rfl, ⟨.nil, rfl⟩, rfl, rfl⟩ fun p hp =>
        (manyThrough (argument (h p hp)) Argument.spelling_ne_nil).bind fun l _ => pure (Value.object l))).mono ?_
    intro v w hv
    simp only [Grammar.seq_only_iff, Grammar.unit] at hv
    obtain ⟨_, rfl, l, _, hl, rfl, rfl, rfl⟩ := hv
    refine ⟨⟨hl.1, (Value.fieldsWellFormed_iff l).mpr hl.2⟩, ?_⟩
    simp [Value.spelling, Value.fieldsSpelling_eq, Token.bare_of_punctuator hk]
  · exact unexpected ⟨.null, _, trivial, rfl⟩

theorem value (room : Nat) : ∀ s, Conforms (.only Value.WellFormed Value.spelling) (value room) s := by
  induction room with
  | zero => exact fun s => valueWith (by simp)
  | succ room ih => exact fun s => valueWith (by simpa using ih)

theorem optionalDefault (room : Nat) :
    Conforms (.only DefaultWellFormed defaultSpelling) (optionalDefault room) s := by
  refine (accept_bind (fun _ => (value room _).bind fun v _ => pure (some v)) fun _ => pure none).mono ?_
  rintro _ _ (⟨_, rfl, h⟩ | ⟨rfl, rfl⟩)
  · simp only [Grammar.seq_only_iff, Grammar.unit] at h
    obtain ⟨v, _, hv, rfl, rfl, rfl⟩ := h
    exact ⟨by simpa [DefaultWellFormed] using hv, by simp [defaultSpelling]⟩
  · exact ⟨by simp [DefaultWellFormed], rfl⟩

theorem arguments (room : Nat) :
    Conforms (.only (Each Argument.WellFormed) argumentsSpelling) (arguments room) s :=
  optionalBlock (argument (value room)) Argument.spelling_ne_nil

/-- A directive from its name on. -/
theorem directiveName (room : Nat) (s : TokenStream) :
    Conforms (.only Directive.WellFormed fun d => word d.name :: argumentsSpelling d.arguments)
      (do
        let name ← Parser.expectName
        return ⟨name, ← Parser.arguments room⟩) s := by
  refine .mono (.bind expectName fun name s => .bind (arguments room) fun args _ => pure _) ?_
  intro d w h
  simp only [Grammar.seq_only_iff, Grammar.unit] at h
  obtain ⟨name, _, -, rfl, args, _, hargs, rfl, rfl, rfl⟩ := h
  exact ⟨hargs, by simp⟩

theorem directives (room : Nat) :
    Conforms (.only (Each Directive.WellFormed) directivesSpelling) (directives room) s :=
  manyAfter (directiveName room) (by simp)

/-- A mark that may stand behind a type, and what is made of the type. -/
private theorem bang (f : Bool → α) :
    Conforms (fun a w => ∃ nonNull, a = f nonNull ∧ w = TypeReference.bangSpelling nonNull)
      (Parser.accept .bang >>= fun nonNull => Pure.pure (f nonNull)) s := by
  refine (accept_bind (fun _ => pure (f true)) fun _ => pure (f false)).mono ?_
  rintro _ _ (⟨_, rfl, rfl, rfl⟩ | ⟨rfl, rfl⟩)
  · exact ⟨true, rfl, rfl⟩
  · exact ⟨false, rfl, rfl⟩

theorem typeReferenceWith {inner : Option (Parser TypeReference)}
    (h : ∀ p ∈ inner, ∀ s, Conforms (.only (fun _ => True) TypeReference.spelling) p s) :
    Conforms (.only (fun _ => True) TypeReference.spelling) (typeReferenceWith inner) s := by
  refine (accept_bind (fun _ => enter_bind ?_ fun p hp => (h p hp _).bind fun element _ =>
    expect.bind fun _ _ => bang (TypeReference.list element)) fun _ => expectName.bind fun name _ =>
      bang (TypeReference.named name)).mono ?_
  · exact ⟨_, _, .named "" false, _, _, rfl, ⟨trivial, rfl⟩, (), _, _, rfl, ⟨trivial, rfl⟩, false, rfl, rfl⟩
  · intro t w ht
    simp only [Grammar.ifNext, Grammar.seq_only_iff, Grammar.seq_symbol_iff] at ht
    rcases ht with ⟨_, rfl, element, _, -, rfl, _, rfl, nonNull, rfl, rfl⟩ | ⟨name, _, -, rfl, nonNull, rfl, rfl⟩
    · exact ⟨trivial, by simp [TypeReference.spelling]⟩
    · exact ⟨trivial, by simp [TypeReference.spelling]⟩

theorem typeReference (room : Nat) :
    ∀ s, Conforms (.only (fun _ => True) TypeReference.spelling) (typeReference room) s := by
  induction room with
  | zero => exact fun s => typeReferenceWith (by simp)
  | succ room ih => exact fun s => typeReferenceWith (by simpa using ih)

theorem namedType : Conforms (.only TypeReference.IsPlain TypeReference.spelling) namedType s := by
  refine (expectName.bind fun name _ => pure _).mono ?_
  intro t w h
  simp only [Grammar.seq_only_iff, Grammar.unit] at h
  obtain ⟨name, _, -, rfl, rfl, rfl⟩ := h
  exact ⟨⟨name, rfl⟩, rfl⟩

end Conforms
end GraphQL.Parser
