import Mathlib.Order.Lattice
import GraphQL.Proofs.Parser.Conforms.TypeSystem
import GraphQL.Proofs.Parser.Recovers.Executable

/-! Schemas, types and directives are taken back from their spellings, each from its keyword on. What may
stand behind one depends on whether it has its block. -/
namespace GraphQL
open GraphQL.Symbol IndexedList

/-- What may stand behind a definition, which could lack its block in braces. -/
def Symbol.Follows (lacking : Bool) (x : Symbol) : Prop :=
  Avoids [.atSign, .parenOpen, .ampersand, .equals, .pipe] x ∧ x ≠ word "implements" ∧
    (lacking → x ≠ mark .braceOpen)

namespace Parser.Recovers
variable {α : Type} {a : α} {w v : List Symbol} {ps : List Punctuator} {F : Symbol → Prop} {D : Prop}
variable {room : Nat} {description : Option StringValue}

/-- A description stands in front of a name, which is none. -/
theorem optionalDescription_next {name : String} {f : Option StringValue → Parser α}
    (h : Recovers (f description) a (word name :: v) [] F D) :
    Recovers (optionalDescription >>= f) a (descriptionSpelling description ++ word name :: v) [] F D := by
  unfold optionalDescription
  rw [bind_assoc]
  cases description with
  | none =>
    refine peek_next among_word fun t ht => ?_
    have hk : t.kind = .name := by rw [← Token.bare_kind, ht]; rfl
    simp only [hk, pure_bind]
    exact h
  | some s =>
    obtain ⟨text, _ | _⟩ := s
    · refine peek_next (by simp [Among, mark]) fun t ht => ?_
      have hk : t.kind = .string := by rw [← Token.bare_kind, ht]; rfl
      simp only [hk, bind_assoc, pure_bind, Token.literal_of_bare ht (by simp)]
      exact advance_next (by simp [Among, mark]) h
    · refine peek_next (by simp [Among, mark]) fun t ht => ?_
      have hk : t.kind = .blockString := by rw [← Token.bare_kind, ht]; rfl
      simp only [hk, bind_assoc, pure_bind, Token.literal_of_bare ht (by simp)]
      exact advance_next (by simp [Among, mark]) h

theorem rootOperation (r : RootOperation) :
    Recovers rootOperation r r.spelling [] F True :=
  operationType_next (expect_next (expectName_next (pure _)))

/-- What may not stand behind an input value. -/
private abbrev afterInput : List Punctuator := [.bang, .equals, .atSign, .parenOpen]

private theorem inputValueDefinition {i : InputValueDefinition} (hi : i.WellFormed) :
    Recovers (inputValueDefinition room) i i.spelling [] (Avoids afterInput) (i.nesting ≤ room) := by
  refine .congr (optionalDescription_next (expectName_next (expect_next (typed _ i.type hi.1 hi.2)))) ?_ ?_
  · simp [InputValueDefinition.spelling]
  · simp [InputValueDefinition.nesting]

private theorem inputValueDefinitions (room : Nat) : RecoversEach (Parser.inputValueDefinition room)
    InputValueDefinition.WellFormed InputValueDefinition.spelling [] afterInput (·.nesting ≤ room) :=
  ⟨Conforms.inputValueDefinition, by simp [InputValueDefinition.spelling], fun _ => inputValueDefinition⟩

theorem argumentDefinitions {l : IndexedList InputValueDefinition}
    (hl : l.Each InputValueDefinition.WellFormed) :
    Recovers (argumentDefinitions room) l (argumentDefinitionsSpelling l) [.parenOpen]
      (Avoids [.parenOpen]) (l.deepest InputValueDefinition.nesting ≤ room) :=
  (optionalBlock (inputValueDefinitions room) (by decide) (by decide) (fun _ x hx => hx .parenOpen (.head _))
    hl).congr rfl deepest_le_iff

private theorem fieldDefinitions (room : Nat) : RecoversEach (Parser.fieldDefinition room)
    FieldDefinition.WellFormed FieldDefinition.spelling [] [.bang, .atSign, .parenOpen]
    (·.nesting ≤ room) := by
  refine ⟨Conforms.fieldDefinition, by simp [FieldDefinition.spelling], fun f hf => ?_⟩
  have annotated : Recovers (Parser.directives room >>= fun dirs =>
      Pure.pure (FieldDefinition.mk f.description f.name f.arguments f.type dirs)) f _ _
      (Avoids [.bang, .atSign, .parenOpen]) _ := (directives hf.2).map.next (by decide)
  have rest : Recovers (Parser.typeReference room >>= fun t => Parser.directives room >>= fun dirs =>
      Pure.pure (FieldDefinition.mk f.description f.name f.arguments t dirs)) f _ _
      (Avoids [.bang, .atSign, .parenOpen]) _ :=
    .bind (typeReference room f.type) annotated (by decide) fun _ => by decide
  refine .congr (optionalDescription_next (expectName_next (.bind (argumentDefinitions hf.1)
    (expect_next rest) (by decide) fun _ => by decide))) ?_ ?_
  · simp [FieldDefinition.spelling]
  · simp [FieldDefinition.nesting]

/-- A name that is not reserved passes the check. -/
private theorem refuseReserved_next {name : String} {f : Unit → Parser α} (hn : IsEnumName name)
    (h : Recovers (f ()) a (word name :: v) [] F D) :
    Recovers (refuseReservedEnumValue >>= f) a (word name :: v) [] F D := by
  unfold refuseReservedEnumValue
  rw [bind_assoc]
  refine peek_next among_word fun t ht => ?_
  simp only [Token.name_of_bare ht, isReservedEnumValue_iff.mpr hn]
  exact h

private theorem enumValueDefinitions (room : Nat) : RecoversEach (Parser.enumValueDefinition room)
    EnumValueDefinition.WellFormed EnumValueDefinition.spelling [] [.atSign, .parenOpen]
    (·.nesting ≤ room) := by
  refine ⟨Conforms.enumValueDefinition, by simp [EnumValueDefinition.spelling], fun v hv => ?_⟩
  exact optionalDescription_next (refuseReserved_next hv.1 (expectName_next (directives hv.2).map))

private theorem namedTypes (room : Nat) :
    RecoversEach Parser.namedType TypeReference.IsPlain TypeReference.spelling
    [] [] (·.nesting ≤ room) := by
  refine ⟨fun _ => Conforms.namedType, TypeReference.spelling_ne_nil, ?_⟩
  rintro _ ⟨name, rfl⟩
  refine .congr (expectName_next (pure _)) rfl ?_
  simp [TypeReference.nesting]

theorem interfaces (room : Nat) {l : IndexedList TypeReference} (lead : Bool)
    (hl : l.Each TypeReference.IsPlain) :
    Recovers interfaces l (interfacesSpelling lead l) []
      (fun x => Avoids [.ampersand] x ∧ x ≠ word "implements")
      (l.deepest TypeReference.nesting ≤ room) := by
  cases l with
  | nil =>
    have none : Recovers (Pure.pure nil) (nil : IndexedList TypeReference) [] []
      (fun x => Avoids [.ampersand] x ∧ x ≠ word "implements") (0 ≤ room) := (pure nil).congr rfl (by simp)
    exact acceptKeyword_other none (by simp [interfacesSpelling]) fun _ _ hx => hx.2
  | cons p t rest =>
    exact (acceptKeyword_next (someSeparated (namedTypes room) (by simp) (by simp) (fun _ hx => hx.1) lead hl
      (by simp))).congr rfl deepest_le_iff

theorem unionMembers (room : Nat) {l : IndexedList TypeReference} (lead : Bool)
    (hl : l.Each TypeReference.IsPlain) :
    Recovers unionMembers l (membersSpelling lead l) [.equals] (Avoids [.equals, .pipe])
      (l.deepest TypeReference.nesting ≤ room) := by
  cases l with
  | nil =>
    have none : Recovers (Pure.pure nil) (nil : IndexedList TypeReference) [] []
      (Avoids [.equals, .pipe]) (0 ≤ room) := (pure nil).congr rfl (by simp)
    exact (accept_other none (by simp) fun _ _ hx => hx .equals (.head _)).fromWord
  | cons p t rest =>
    exact (accept_next (someSeparated (namedTypes room) (by simp) (by simp) (fun _ hx => hx.mono (by simp)) lead
      hl (by simp))).congr rfl deepest_le_iff

/-- Directives and the block in braces behind them, and what is made of both. -/
private theorem block {β : Type} {item : Parser α} {P fits : α → Prop} {f : α → List Symbol}
    {ns : List Punctuator} {dirs : IndexedList Directive} {l : IndexedList α}
    (room : Nat) (make : IndexedList Directive → IndexedList α → β) (h : RecoversEach item P f [] ns fits)
    (hn : ∀ q ∈ ns, q ≠ .braceClose) (hd : dirs.Each Directive.WellFormed) (hl : l.Each P) :
    Recovers (do
        let dirs ← Parser.directives room
        let l ← Parser.optionalBlock .braceOpen .braceClose item
        return make dirs l)
      (make dirs l) (directivesSpelling dirs ++ l.optionalSpelling .braceOpen .braceClose f)
      [.atSign, .braceOpen] (Follows l.isEmpty)
      (dirs.deepest Directive.nesting ≤ room ∧ ∀ x ∈ l.toList, fits x) := by
  have rows : Recovers (Parser.optionalBlock .braceOpen .braceClose item) l _ _ (Follows l.isEmpty) _ :=
    optionalBlock h (by simpa using hn) (by simp) (fun he _ hx => hx.2.2 he) hl
  refine (directives hd).bind_of rows.map ?_ ?_
  · exact fun x hx => (rows.starts x hx).avoids (by decide)
  · exact fun _ x hx => hx.1.mono (by decide)

theorem schema {s : SchemaDefinition} (isExtension : Bool) (hs : s.WellFormed isExtension) :
    Recovers (schema room s.description isExtension) s
      (word "schema" :: (directivesSpelling s.directives ++
        if isExtension && s.roots.isEmpty then []
        else s.roots.blockSpelling .braceOpen .braceClose RootOperation.spelling)) []
      (Follows (isExtension && s.roots.isEmpty)) (s.nesting ≤ room) := by
  obtain ⟨hd, hr, hne⟩ := hs
  have roots : RecoversEach Parser.rootOperation (fun _ => True) RootOperation.spelling [] []
      fun _ => True :=
    ⟨Conforms.rootOperation, by simp [RootOperation.spelling], fun r _ => rootOperation r⟩
  have hr : s.roots.Each fun _ => True := ⟨hr, by simp⟩
  cases isExtension with
  | true =>
    refine .congr (expectKeyword_next (block room _ roots (by simp) hd hr)) ?_ ?_
    · simp [optionalSpelling]
    · simp [SchemaDefinition.nesting]
  | false =>
    have rows : Recovers (Parser.someThrough .braceClose Parser.rootOperation) s.roots _ _
      (Follows false) _ := someThrough roots (by simp) (by simp) hr (hne rfl)
    refine .congr (expectKeyword_next (.bind_before (directives hd) (expect_next rows.map) (by decide)
      (by simp))) ?_ ?_
    · simp [blockSpelling]
    · simp [SchemaDefinition.nesting]

/-- What stands behind interfaces is no keyword. -/
private theorem directives_block_head {dirs : IndexedList Directive} {l : IndexedList α}
    {close : Punctuator} {f : α → List Symbol} :
    ∀ x ∈ (directivesSpelling dirs ++ l.optionalSpelling .braceOpen close f).head?,
      x ≠ word "implements" := by
  cases dirs with
  | nil => cases l <;> simp [directivesSpelling, optionalSpelling, blockSpelling, isEmpty]
  | cons => simp [directivesSpelling, Directive.spelling, IndexedList.spelling, toList]

/-- A type that may have interfaces and fields, from these on. -/
private theorem fields (body : IndexedList TypeReference → IndexedList FieldDefinition → TypeBody)
    {name : String} {names : IndexedList TypeReference} {dirs : IndexedList Directive}
    {l : IndexedList FieldDefinition} (lead : Bool) (hn : names.Each TypeReference.IsPlain)
    (hd : dirs.Each Directive.WellFormed) (hl : l.Each FieldDefinition.WellFormed) :
    Recovers (do
        let names ← Parser.interfaces
        let dirs ← Parser.directives room
        let fields ← Parser.optionalBlock .braceOpen .braceClose (Parser.fieldDefinition room)
        return TypeDefinition.mk description name dirs (body names fields))
      (TypeDefinition.mk description name dirs (body names l))
      (interfacesSpelling lead names ++ (directivesSpelling dirs ++
        l.optionalSpelling .braceOpen .braceClose FieldDefinition.spelling))
      [.atSign, .braceOpen] (Follows l.isEmpty)
      (max (dirs.deepest Directive.nesting)
        (max (names.deepest TypeReference.nesting) (l.deepest FieldDefinition.nesting)) ≤ room) := by
  have rest := block room (fun dirs l => TypeDefinition.mk description name dirs (body names l))
    (fieldDefinitions room) (by simp) hd hl
  refine .congr (.bind_of (interfaces room lead hn) rest ?_ ?_) rfl ?_
  · exact fun x hx => ⟨(rest.starts x hx).avoids (by decide), directives_block_head x hx⟩
  · exact fun _ x hx => ⟨hx.1.mono (by decide), hx.2.1⟩
  · simp only [Nat.max_le, deepest_le_iff (l := l)]
    exact and_left_comm

theorem typeDefinition {t : TypeDefinition} (lead : Bool) (ht : t.WellFormed) :
    Recovers (typeDefinition room t.kind t.description) t
      (word t.kind.keyword :: word t.name :: t.body.spelling lead t.directives) []
      (Follows t.body.lacksBlock) (t.nesting ≤ room) := by
  obtain ⟨description, name, dirs, body⟩ := t
  obtain ⟨hd, hb⟩ := ht
  cases body with
  | scalar =>
    refine .congr (expectKeyword_next (expectName_next ((directives hd).map.mono (fun _ => id)
      fun x hx => hx.1.mono (by decide)))) rfl ?_
    simp [TypeDefinition.nesting, TypeBody.nesting]
  | object names l =>
    refine .congr (expectKeyword_next (expectName_next (fields .object lead hb.1 hd hb.2))) ?_ Iff.rfl
    simp [TypeBody.spelling]
  | interface names l =>
    refine .congr (expectKeyword_next (expectName_next (fields .interface lead hb.1 hd hb.2))) ?_ Iff.rfl
    simp [TypeBody.spelling]
  | union names =>
    have members : Recovers (Parser.unionMembers >>= fun names =>
        Pure.pure (TypeDefinition.mk description name dirs (.union names))) _ _ [.equals] (Follows false) _ :=
      ((unionMembers room lead hb).mono (fun _ => id) fun x hx => hx.1.mono (by decide)).map
    refine .congr (expectKeyword_next (expectName_next (.bind_of (directives hd) members ?_ ?_))) rfl ?_
    · exact fun x hx => (members.starts x hx).avoids (by decide)
    · exact fun _ x hx => hx.1.mono (by decide)
    · simp [TypeDefinition.nesting, TypeBody.nesting]
  | enum values =>
    refine .congr (expectKeyword_next (expectName_next
      (block room _ (enumValueDefinitions room) (by simp) hd hb))) rfl ?_
    simp [TypeDefinition.nesting, TypeBody.nesting, deepest_le_iff]
  | inputObject l =>
    refine .congr (expectKeyword_next (expectName_next
      (block room _ (inputValueDefinitions room) (by simp) hd hb))) rfl ?_
    simp [TypeDefinition.nesting, TypeBody.nesting, deepest_le_iff]

private theorem directiveLocations : RecoversEach Parser.directiveLocation (fun _ => True)
    ([word ·.text]) [] [] fun _ => True := by
  refine ⟨Conforms.directiveLocation, by simp, fun l _ => peek_next among_word fun t ht => ?_⟩
  have hl : t.name?.bind DirectiveLocation.ofText? = some l := by
    rw [Token.name_of_bare ht]
    cases l <;> rfl
  simp only [hl]
  exact advance_next among_word (pure l)

theorem directiveDefinition {d : DirectiveDefinition} (lead : Bool) (hd : d.WellFormed) :
    Recovers (directiveDefinition room d.description) d
      (word "directive" :: mark .atSign :: word d.name :: (argumentDefinitionsSpelling d.arguments ++
        ((if d.repeatable then [word "repeatable"] else []) ++
          word "on" :: d.locations.separatedSpelling .pipe lead ([word ·.text])))) []
      (Avoids [.pipe]) (d.nesting ≤ room) := by
  obtain ⟨description, name, args, repeatable, locations⟩ := d
  obtain ⟨ha, hne, hl⟩ := hd
  have places : Recovers (Parser.someSeparated .pipe Parser.directiveLocation) locations _ _
      (Avoids [.pipe]) _ :=
    someSeparated directiveLocations (by simp) (by simp) (fun _ => id) lead ⟨hl, by simp⟩ hne
  have rest : Recovers (acceptKeyword "repeatable" >>= fun repeatable => Parser.expectKeyword "on" >>= fun _ =>
      Parser.someSeparated .pipe Parser.directiveLocation >>= fun locations =>
        Pure.pure (DirectiveDefinition.mk description name args repeatable locations))
      ⟨description, name, args, repeatable, locations⟩
      ((if repeatable then [word "repeatable"] else []) ++
        word "on" :: locations.separatedSpelling .pipe lead ([word ·.text])) [] (Avoids [.pipe]) True := by
    cases repeatable with
    | true => exact (acceptKeyword_next (expectKeyword_next places.map)).congr rfl (by simp)
    | false =>
      exact (acceptKeyword_other (expectKeyword_next places.map) (by simp) (by simp)).congr rfl (by simp)
  refine .congr (expectKeyword_next (expect_next (expectName_next (.bind (argumentDefinitions ha) rest
    (by simp) (by simp))))) rfl ?_
  simp [DirectiveDefinition.nesting]

end Parser.Recovers
end GraphQL
