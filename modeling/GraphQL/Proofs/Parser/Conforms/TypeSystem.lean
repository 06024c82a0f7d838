import GraphQL.Parser.TypeSystem
import GraphQL.Proofs.Parser.Conforms.Executable

/-! Schemas, types and directives follow the grammar in every room, each from its keyword on, which is
behind its description. -/
namespace GraphQL
open GraphQL.Symbol IndexedList

theorem DirectiveLocation.text_of_ofText? {text : String} {l : DirectiveLocation}
    (h : ofText? text = some l) : l.text = text := by
  unfold ofText? at h
  split at h <;> first | cases h; rfl | cases h

theorem Parser.isReservedEnumValue_iff {name : String} :
    isReservedEnumValue name = false ↔ IsEnumName name := by
  simp [isReservedEnumValue, IsEnumName, and_assoc]

namespace Parser.Conforms
variable {α : Type} {s : TokenStream} {room : Nat} {description : Option StringValue}

theorem optionalDescription :
    Conforms (.only (fun _ => True) descriptionSpelling) optionalDescription s := by
  apply peek_bind
  split
  · next hk =>
    exact advance_pure (by simp [hk])
      ⟨trivial, by simp [Token.bare, hk, descriptionSpelling, StringValue.spelling]⟩
  · next hk =>
    exact advance_pure (by simp [hk])
      ⟨trivial, by simp [Token.bare, hk, descriptionSpelling, StringValue.spelling]⟩
  · exact .mono (pure none) fun _ _ h => ⟨trivial, by simp [h.1, h.2, descriptionSpelling]⟩

theorem rootOperation (s : TokenStream) :
    Conforms (.only (fun _ => True) RootOperation.spelling) rootOperation s := by
  refine .mono (.bind operationType fun type _ => .bind expect fun _ _ => .bind expectName
    fun name _ => pure _) ?_
  intro r w h
  simp only [Grammar.seq_symbol_iff, Grammar.seq_only_iff, Grammar.unit] at h
  obtain ⟨type, _, -, rfl, _, rfl, name, _, -, rfl, rfl, rfl⟩ := h
  exact ⟨trivial, rfl⟩

theorem inputValueDefinition (s : TokenStream) :
    Conforms (.only InputValueDefinition.WellFormed InputValueDefinition.spelling)
      (inputValueDefinition room) s := by
  refine .mono (.bind optionalDescription fun d _ => .bind expectName fun name _ => .bind expect
    fun _ s => .bind (typeReference room s) fun type _ => .bind (optionalDefault room) fun v _ =>
      .bind (directives room) fun dirs _ => pure _) ?_
  intro i w h
  simp only [Grammar.seq_symbol_iff, Grammar.seq_only_iff, Grammar.unit] at h
  obtain ⟨d, _, -, rfl, name, _, -, rfl, _, rfl, type, _, -, rfl, v, _, hv, rfl, dirs, _, hd, rfl,
    rfl, rfl⟩ := h
  exact ⟨⟨hv, hd⟩, by simp [InputValueDefinition.spelling]⟩

theorem argumentDefinitions :
    Conforms (.only (Each InputValueDefinition.WellFormed) argumentDefinitionsSpelling)
      (argumentDefinitions room) s :=
  optionalBlock inputValueDefinition (by simp [InputValueDefinition.spelling])

theorem fieldDefinition (s : TokenStream) :
    Conforms (.only FieldDefinition.WellFormed FieldDefinition.spelling) (fieldDefinition room) s := by
  refine .mono (.bind optionalDescription fun d _ => .bind expectName fun name _ =>
    .bind argumentDefinitions fun args _ => .bind expect fun _ s => .bind (typeReference room s)
      fun type _ => .bind (directives room) fun dirs _ => pure _) ?_
  intro f w h
  simp only [Grammar.seq_symbol_iff, Grammar.seq_only_iff, Grammar.unit] at h
  obtain ⟨d, _, -, rfl, name, _, -, rfl, args, _, ha, rfl, _, rfl, type, _, -, rfl, dirs, _, hd, rfl,
    rfl, rfl⟩ := h
  exact ⟨⟨ha, hd⟩, by simp [FieldDefinition.spelling]⟩

/-- Behind the check for reserved names stands a name that is not one of them, if any. -/
private theorem refuseReserved_bind {G : Grammar α} {f : Unit → Parser α} (inhabited : ∃ a w, G a w)
    (hf : (∀ name, s.peek.name? = some name → IsEnumName name) → Conforms G (f ()) s) :
    Conforms G (refuseReservedEnumValue >>= f) s := by
  unfold refuseReservedEnumValue
  rw [bind_assoc]
  apply peek_bind
  cases hn : s.peek.name? with
  | none => exact hf (by simp [hn])
  | some name =>
    cases hr : isReservedEnumValue name with
    | true =>
      simp only [hr, if_true]
      refine fail inhabited ⟨rfl, rfl, fun _ => ?_⟩
      simp [Token.kind_of_name hn, SyntaxError.new, SyntaxError.withWidth]
    | false =>
      simp only [hr]
      exact hf fun name' h => by
        rw [hn] at h
        exact Option.some.inj h ▸ isReservedEnumValue_iff.mp hr

/-- An enum value from its name on. -/
private theorem enumValueRest :
    Conforms (fun v w => EnumValueDefinition.WellFormed v ∧ v.description = description ∧
        w = word v.name :: directivesSpelling v.directives)
      (do
        refuseReservedEnumValue
        let name ← Parser.expectName
        return ⟨description, name, ← Parser.directives room⟩) s := by
  refine refuseReserved_bind ⟨⟨description, "a", nil⟩, _, ⟨by simp [IsEnumName], .nil⟩, rfl, rfl⟩
    fun hn => ?_
  refine .mono (.bind (expectName_of (P := IsEnumName) hn ⟨"a", by simp [IsEnumName]⟩) fun name _ =>
    .bind (directives room) fun dirs _ => pure _) ?_
  intro v w h
  simp only [Grammar.seq_only_iff, Grammar.unit] at h
  obtain ⟨name, _, hn, rfl, dirs, _, hd, rfl, rfl, rfl⟩ := h
  exact ⟨⟨hn, hd⟩, rfl, by simp⟩

theorem enumValueDefinition (s : TokenStream) :
    Conforms (.only EnumValueDefinition.WellFormed EnumValueDefinition.spelling)
      (enumValueDefinition room) s := by
  refine .mono (.bind optionalDescription fun _ _ => enumValueRest) ?_
  intro v w h
  obtain ⟨d, _, -, rfl, hv, rfl, rfl⟩ := Grammar.seq_only_iff.mp h
  exact ⟨hv, rfl⟩

theorem interfaces :
    Conforms (fun l w => l.Each TypeReference.IsPlain ∧ ∃ lead, w = interfacesSpelling lead l)
      interfaces s := by
  refine .mono (.acceptKeyword_bind (.someSeparated (fun _ => namedType) ?_) fun _ => pure nil) ?_
  · exact TypeReference.spelling_ne_nil
  · rintro l w (⟨v, rfl, ⟨hne, hl⟩, lead, rfl⟩ | ⟨rfl, rfl⟩)
    · exact ⟨hl, lead, by simp [interfacesSpelling, isEmpty_iff_eq_nil, hne]⟩
    · exact ⟨.nil, false, rfl⟩

theorem unionMembers :
    Conforms (fun l w => l.Each TypeReference.IsPlain ∧ ∃ lead, w = membersSpelling lead l)
      unionMembers s := by
  refine .mono (.accept_bind (fun _ => .someSeparated (fun _ => namedType) ?_) fun _ => pure nil) ?_
  · exact TypeReference.spelling_ne_nil
  · rintro l w (⟨v, rfl, ⟨hne, hl⟩, lead, rfl⟩ | ⟨rfl, rfl⟩)
    · exact ⟨hl, lead, by simp [membersSpelling, isEmpty_iff_eq_nil, hne]⟩
    · exact ⟨.nil, false, rfl⟩

theorem schema (isExtension : Bool) :
    Conforms (fun d w => d.description = description ∧ SchemaDefinition.WellFormed isExtension d ∧
        d.spelling isExtension = descriptionSpelling description ++ w)
      (schema room description isExtension) s := by
  have root_ne_nil (r : RootOperation) : r.spelling ≠ [] := by simp [RootOperation.spelling]
  cases isExtension with
  | true =>
    refine .mono (.bind expectKeyword fun _ _ => .bind (directives room) fun dirs _ =>
      .bind (optionalBlock rootOperation root_ne_nil) fun roots _ => pure _) ?_
    intro d w h
    simp only [Grammar.seq_symbol_iff, Grammar.seq_only_iff, Grammar.unit] at h
    obtain ⟨_, rfl, dirs, _, hd, rfl, roots, _, hr, rfl, rfl, rfl⟩ := h
    exact ⟨rfl, ⟨hd, hr.1, by simp⟩, by simp [SchemaDefinition.spelling, optionalSpelling]⟩
  | false =>
    refine .mono (.bind expectKeyword fun _ _ => .bind (directives room) fun dirs _ =>
      .bind expect fun _ _ => .bind (someThrough rootOperation root_ne_nil) fun roots _ => pure _) ?_
    intro d w h
    simp only [Grammar.seq_symbol_iff, Grammar.seq_only_iff, Grammar.unit] at h
    obtain ⟨_, rfl, dirs, _, hd, rfl, _, rfl, roots, _, ⟨hne, hr⟩, rfl, rfl, rfl⟩ := h
    exact ⟨rfl, ⟨hd, hr.1, fun _ => hne⟩, by simp [SchemaDefinition.spelling, blockSpelling]⟩

private theorem field_ne_nil (f : FieldDefinition) : f.spelling ≠ [] := by
  simp [FieldDefinition.spelling]

/-- A type that may have interfaces and fields, from these on. -/
private theorem fieldsRest (body : IndexedList TypeReference → IndexedList FieldDefinition → TypeBody)
    (name : String) :
    Conforms (fun (t : TypeDefinition) w => ∃ names dirs fields lead,
        t = ⟨description, name, dirs, body names fields⟩ ∧
        names.Each TypeReference.IsPlain ∧ dirs.Each Directive.WellFormed ∧
        fields.Each FieldDefinition.WellFormed ∧
        w = interfacesSpelling lead names ++ directivesSpelling dirs ++
          fields.optionalSpelling .braceOpen .braceClose FieldDefinition.spelling)
      (do
        let names ← Parser.interfaces
        let dirs ← Parser.directives room
        let fields ← Parser.optionalBlock .braceOpen .braceClose (Parser.fieldDefinition room)
        return ⟨description, name, dirs, body names fields⟩) s := by
  refine .mono (.bind interfaces fun names _ => .bind (directives room) fun dirs _ =>
    .bind (optionalBlock fieldDefinition field_ne_nil) fun fields _ => pure _) ?_
  rintro t _ ⟨names, _, w, rfl, ⟨hn, lead, rfl⟩, h⟩
  simp only [Grammar.seq_only_iff, Grammar.unit] at h
  obtain ⟨dirs, _, hd, rfl, fields, _, hf, rfl, rfl, rfl⟩ := h
  exact ⟨names, dirs, fields, lead, rfl, hn, hd, hf, by simp⟩

/-- A type from its directives on, which have a block of `f`s behind them. -/
private theorem blockRest {P : α → Prop} {f : α → List Symbol} {item : Parser α}
    (body : IndexedList α → TypeBody) (name : String) (h : ∀ s, Conforms (.only P f) item s)
    (hf : ∀ a, f a ≠ []) :
    Conforms (fun (t : TypeDefinition) w => ∃ dirs l, t = ⟨description, name, dirs, body l⟩ ∧
        dirs.Each Directive.WellFormed ∧ l.Each P ∧
        w = directivesSpelling dirs ++ l.optionalSpelling .braceOpen .braceClose f)
      (do
        let dirs ← Parser.directives room
        let l ← Parser.optionalBlock .braceOpen .braceClose item
        return ⟨description, name, dirs, body l⟩) s := by
  refine .mono (.bind (directives room) fun dirs _ => .bind (optionalBlock h hf) fun l _ => pure _) ?_
  intro t w h
  simp only [Grammar.seq_only_iff, Grammar.unit] at h
  obtain ⟨dirs, _, hd, rfl, l, _, hl, rfl, rfl, rfl⟩ := h
  exact ⟨dirs, l, rfl, hd, hl, by simp⟩

/-- What stands behind the name of a type and what is made of it. -/
private def behindName (description : Option StringValue) (name : String) (kind : TypeKind) :
    Grammar TypeDefinition := fun t w =>
  ∃ dirs body lead, t = ⟨description, name, dirs, body⟩ ∧ body.kind = kind ∧
    dirs.Each Directive.WellFormed ∧ body.WellFormed ∧ w = body.spelling lead dirs

theorem typeDefinition (kind : TypeKind) :
    Conforms (fun t w => t.description = description ∧ t.kind = kind ∧ TypeDefinition.WellFormed t ∧
        ∃ lead, t.spelling lead = descriptionSpelling description ++ w)
      (typeDefinition room kind description) s := by
  refine .mono (.bind expectKeyword fun _ _ => .bind (H := (behindName description · kind)) expectName
    fun name _ => ?_) ?_
  · cases kind with
    | scalar =>
      refine .mono (.bind (directives room) fun dirs _ => pure _) ?_
      intro t w h
      simp only [Grammar.seq_only_iff, Grammar.unit] at h
      obtain ⟨dirs, _, hd, rfl, rfl, rfl⟩ := h
      exact ⟨dirs, .scalar, false, rfl, rfl, hd, trivial, by simp [TypeBody.spelling]⟩
    | object =>
      refine (fieldsRest .object name).mono ?_
      rintro t w ⟨names, dirs, fields, lead, rfl, hn, hd, hf, rfl⟩
      exact ⟨dirs, _, lead, rfl, rfl, hd, ⟨hn, hf⟩, rfl⟩
    | interface =>
      refine (fieldsRest .interface name).mono ?_
      rintro t w ⟨names, dirs, fields, lead, rfl, hn, hd, hf, rfl⟩
      exact ⟨dirs, _, lead, rfl, rfl, hd, ⟨hn, hf⟩, rfl⟩
    | union =>
      refine .mono (.bind (directives room) fun dirs _ => .bind unionMembers fun names _ => pure _) ?_
      intro t w h
      simp only [Grammar.seq_only_iff] at h
      obtain ⟨dirs, _, hd, rfl, names, _, _, rfl, ⟨hn, lead, rfl⟩, rfl, rfl⟩ := h
      exact ⟨dirs, .union names, lead, rfl, rfl, hd, hn, by simp [TypeBody.spelling]⟩
    | enum =>
      refine .mono (blockRest .enum name enumValueDefinition fun v => ?_) ?_
      · simp [EnumValueDefinition.spelling]
      · rintro t w ⟨dirs, l, rfl, hd, hl, rfl⟩
        exact ⟨dirs, _, false, rfl, rfl, hd, hl, rfl⟩
    | inputObject =>
      refine .mono (blockRest .inputObject name inputValueDefinition fun i => ?_) ?_
      · simp [InputValueDefinition.spelling]
      · rintro t w ⟨dirs, l, rfl, hd, hl, rfl⟩
        exact ⟨dirs, _, false, rfl, rfl, hd, hl, rfl⟩
  · intro t w h
    simp only [Grammar.seq_symbol_iff, Grammar.seq_only_iff] at h
    obtain ⟨_, rfl, name, _, -, rfl, dirs, body, lead, rfl, rfl, hd, hb, rfl⟩ := h
    exact ⟨rfl, rfl, ⟨hd, hb⟩, lead, by simp [TypeDefinition.spelling, TypeDefinition.kind]⟩

theorem directiveLocation (s : TokenStream) :
    Conforms (.only (fun _ => True) ([word ·.text])) directiveLocation s := by
  apply peek_bind
  split
  · next l hl =>
    obtain ⟨name, hn, hl⟩ := Option.bind_eq_some_iff.mp hl
    refine advance_pure (by simp [Token.kind_of_name hn]) ⟨trivial, ?_⟩
    simp [Token.bare_of_name hn, DirectiveLocation.text_of_ofText? hl]
  · exact mapError (unexpected ⟨.query, _, trivial, rfl⟩) (fun _ => rfl) (fun _ => rfl) fun _ => rfl

/-- A directive from the question whether it may be repeated on. -/
private theorem locationsRest {name : String} {args : IndexedList InputValueDefinition}
    (repeatable : Bool) :
    Conforms (fun (d : DirectiveDefinition) w => ∃ locations lead,
        d = ⟨description, name, args, repeatable, locations⟩ ∧
        locations ≠ nil ∧ locations.Numbered ∧
        w = word "on" :: locations.separatedSpelling .pipe lead ([word ·.text]))
      (do
        Parser.expectKeyword "on"
        return ⟨description, name, args, repeatable, ← Parser.someSeparated .pipe Parser.directiveLocation⟩)
      s := by
  refine .mono (.bind expectKeyword fun _ _ => .bind (someSeparated directiveLocation (by simp))
    fun locations _ => pure _) ?_
  intro d w h
  simp only [Grammar.seq_symbol_iff] at h
  obtain ⟨_, rfl, locations, _, _, rfl, ⟨⟨hne, hl⟩, lead, rfl⟩, rfl, rfl⟩ := h
  exact ⟨locations, lead, rfl, hne, hl.1, by simp⟩

theorem directiveDefinition :
    Conforms (fun d w => d.description = description ∧ DirectiveDefinition.WellFormed d ∧
        ∃ lead, d.spelling lead = descriptionSpelling description ++ w)
      (directiveDefinition room description) s := by
  refine .mono (.bind expectKeyword fun _ _ => .bind expect fun _ _ => .bind expectName fun name _ =>
    .bind argumentDefinitions fun args s => .acceptKeyword_bind (locationsRest true)
      fun _ => locationsRest false) ?_
  intro d w h
  simp only [Grammar.ifNext, Grammar.seq_symbol_iff, Grammar.seq_only_iff] at h
  obtain ⟨_, rfl, _, rfl, name, _, -, rfl, args, _, ha, rfl,
    ⟨_, rfl, locations, lead, rfl, hne, hl, rfl⟩ | ⟨locations, lead, rfl, hne, hl, rfl⟩⟩ := h
  · exact ⟨rfl, ⟨ha, hne, hl⟩, lead, by simp [DirectiveDefinition.spelling]⟩
  · exact ⟨rfl, ⟨ha, hne, hl⟩, lead, by simp [DirectiveDefinition.spelling]⟩

end Parser.Conforms
end GraphQL
