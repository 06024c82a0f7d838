import GraphQL.Proofs.Parser.Conforms.Document
import GraphQL.Proofs.Parser.Recovers.TypeSystem

/-! Definitions and documents are taken back from their spellings. A definition that lacks its block is
followed by none that begins with an opening brace. -/
namespace GraphQL
open GraphQL.Symbol IndexedList

theorem TypeKind.ofKeyword?_keyword (k : TypeKind) : ofKeyword? k.keyword = some k := by
  cases k <;> rfl

namespace Parser.Recovers
variable {F : Symbol → Prop} {D : Prop} {room : Nat}

/-- The parser of a definition that begins with this word. -/
private abbrev atWord (room : Nat) (keyword : String) : Parser Definition := do
  match keyword with
  | "query" | "mutation" | "subscription" =>
    return .executable (.operation (← Parser.operation room))
  | "fragment" => return .executable (.fragment (← Parser.fragment room))
  | "extend" => return .extension (← Parser.extension room)
  | _ => return .typeSystem (← Parser.typeSystemDefinition room none)

private theorem definition_atWord {d : Definition} (keyword : String) {v : List Symbol}
    (h : Recovers (atWord room keyword) d (word keyword :: v) [] F D) :
    Recovers (Parser.definition room) d (word keyword :: v) [] F D := by
  refine peek_next among_word fun t ht => ?_
  have hn : t.kind = .name := by rw [← Token.bare_kind, ht]; rfl
  have hl : t.literal = keyword := Token.literal_of_bare ht (by simp [word])
  simp only [hn, hl]
  exact h

/-- The parser of a definition at a keyword behind a description, or behind none. -/
private theorem described {d : TypeSystemDefinition} (description : Option StringValue)
    (keyword : String) {v : List Symbol}
    (h : Recovers (typeSystemDefinition room description) d (word keyword :: v) [] F D)
    (hk : keyword ∉ ["query", "mutation", "subscription", "fragment", "extend"]) :
    Recovers (definition room) (.typeSystem d) (descriptionSpelling description ++ word keyword :: v) []
      F D := by
  have behind := optionalDescription_next (f := fun description =>
    Parser.typeSystemDefinition room description >>= fun d => Pure.pure (Definition.typeSystem d)) h.map
  cases description with
  | none =>
    refine definition_atWord _ ?_
    unfold atWord
    split
    all_goals first | exact absurd (by decide) hk | exact h.map
  | some s =>
    obtain ⟨text, _ | _⟩ := s
    · refine peek_next (by simp [Among, mark]) fun t ht => ?_
      have hk : t.kind = .string := by rw [← Token.bare_kind, ht]; rfl
      simp only [hk]
      exact behind
    · refine peek_next (by simp [Among, mark]) fun t ht => ?_
      have hk : t.kind = .blockString := by rw [← Token.bare_kind, ht]; rfl
      simp only [hk]
      exact behind

private theorem schemaDefinition {s : SchemaDefinition} (hs : s.WellFormed false) :
    Recovers (definition room) (.typeSystem (.schema s)) (s.spelling false) [] (Follows false)
      (s.nesting ≤ room) := by
  have behind : Recovers (typeSystemDefinition room s.description) (.schema s) _ _ _
      (s.nesting ≤ room) :=
    look (schema false hs).map fun u hu => by
      simp [Parser.typeSystemDefinition, peek_run, Token.name_of_bare hu]
  refine (described s.description "schema" behind (by decide)).congr ?_ Iff.rfl
  simp [SchemaDefinition.spelling]

private theorem directiveDefinition_described {d : DirectiveDefinition} (lead : Bool)
    (hd : d.WellFormed) :
    Recovers (definition room) (.typeSystem (.directive d)) (d.spelling lead) [] (Avoids [.pipe])
      (d.nesting ≤ room) := by
  have behind : Recovers (typeSystemDefinition room d.description) (.directive d) _ _ _
      (d.nesting ≤ room) :=
    look (directiveDefinition lead hd).map fun u hu => by
      simp [Parser.typeSystemDefinition, peek_run, Token.name_of_bare hu]
  refine (described d.description "directive" behind (by decide)).congr ?_ Iff.rfl
  simp [DirectiveDefinition.spelling]

private theorem typeDefinition_described {t : TypeDefinition} (lead : Bool) (ht : t.WellFormed) :
    Recovers (definition room) (.typeSystem (.type t)) (t.spelling lead) []
      (Follows t.body.lacksBlock) (t.nesting ≤ room) := by
  have hk : t.kind.keyword ≠ "schema" ∧ t.kind.keyword ≠ "directive" := by
    cases t.kind <;> decide
  have behind : Recovers (typeSystemDefinition room t.description) (.type t) _ _ _
      (t.nesting ≤ room) :=
    look (typeDefinition lead ht).map fun u hu => by
      simp [Parser.typeSystemDefinition, peek_run, Token.name_of_bare hu, hk, TypeKind.ofKeyword?_keyword]
  refine described t.description t.kind.keyword behind ?_
  cases t.kind <;> decide

private theorem extension_schema {s : SchemaDefinition}
    (hs : (Definition.extension (.schema s)).WellFormed) :
    Recovers (extension room) (.schema s) (word "extend" :: s.spelling true) []
      (Follows s.roots.isEmpty) (s.nesting ≤ room) := by
  obtain ⟨hw, hn, he⟩ := hs
  have rest : Recovers (Parser.schema room s.description true) s _ _ _ _ := schema true hw
  rw [hn] at rest
  rw [SchemaDefinition.spelling, hn, descriptionSpelling, List.nil_append, List.cons_append]
  refine expectKeyword_next (peek_next (among_word : Among [] _) fun t ht => ?_)
  simp only [Token.name_of_bare ht]
  refine rest.into (if_neg ?_)
  simpa [isEmpty_iff_eq_nil] using he

private theorem extension_type {t : TypeDefinition} (lead : Bool)
    (ht : (Definition.extension (.type t)).WellFormed) :
    Recovers (extension room) (.type t) (word "extend" :: t.spelling lead) []
      (Follows t.body.lacksBlock) (t.nesting ≤ room) := by
  obtain ⟨hw, hn, he⟩ := ht
  have hk : t.kind.keyword ≠ "schema" := by cases t.kind <;> decide
  have rest : Recovers (Parser.typeDefinition room t.kind t.description) t _ _ _ _ :=
    typeDefinition lead hw
  rw [hn] at rest
  rw [TypeDefinition.spelling, hn, descriptionSpelling, List.nil_append]
  refine expectKeyword_next (peek_next (among_word : Among [] _) fun u hu => ?_)
  simp only [Token.name_of_bare hu, Option.some.injEq, hk, if_false, Option.bind_some,
    TypeKind.ofKeyword?_keyword]
  refine rest.into (if_neg ?_)
  simpa [isEmpty_iff_eq_nil] using he

private theorem operation_definition {o : OperationDefinition} (ho : o.WellFormed) :
    Recovers (Parser.definition room) (.executable (.operation o)) o.spelling [] F (o.nesting ≤ room) := by
  have same : atWord room o.type.keyword =
      Parser.operation room >>= fun o => Pure.pure (.executable (.operation o)) := by
    cases o.type <;> rfl
  refine definition_atWord _ ?_
  rw [same]
  exact (operation ho).map

theorem definition (room : Nat) {d : Definition} {w : List Symbol} (hd : d.WellFormed) (hw : d.Spells w) :
    Recovers (definition room) d w [.braceOpen] (Follows d.lacksBlock) (d.nesting ≤ room) := by
  cases hw with
  | operation o => exact (operation_definition hd).fromWord
  | shorthand o hs =>
    refine peek_next (among_mark (.head _)) fun t ht => ?_
    simp only [Token.kind_of_bare ht]
    exact (operation_shorthand hd hs).map
  | fragment f => exact (definition_atWord "fragment" (fragment hd).map).fromWord
  | schema s => exact (schemaDefinition hd).fromWord
  | type t lead => exact (typeDefinition_described lead hd).fromWord
  | directive d lead =>
    exact (directiveDefinition_described lead hd).mono (by simp) fun x hx => hx.1.mono (by decide)
  | schemaExtension s => exact (definition_atWord "extend" (extension_schema hd).map).fromWord
  | typeExtension t lead => exact (definition_atWord "extend" (extension_type lead hd).map).fromWord

private theorem described_head {description : Option StringValue} {keyword : String} {v : List Symbol}
    (hk : keyword ≠ "implements") :
    ∀ x ∈ (descriptionSpelling description ++ word keyword :: v).head?, x ≠ word "implements" := by
  cases description with
  | none => simpa [descriptionSpelling] using hk
  | some s => cases hs : s.isBlock <;> simp [descriptionSpelling, StringValue.spelling, hs, word]

/-- No definition begins with the keyword of interfaces. -/
private theorem spells_head {d : Definition} {w : List Symbol} (h : d.Spells w) :
    ∀ x ∈ w.head?, x ≠ word "implements" := by
  cases h with
  | operation o => cases ho : o.type <;> simp [OperationDefinition.spelling, ho, OperationType.keyword]
  | shorthand o => simp [SelectionSet.spelling, blockSpelling]
  | fragment => simp [FragmentDefinition.spelling]
  | schema s =>
    rw [SchemaDefinition.spelling, List.append_assoc, List.cons_append]
    exact described_head (by decide)
  | type t => exact described_head (by cases t.kind <;> decide)
  | directive d =>
    simp only [DirectiveDefinition.spelling, List.append_assoc, List.cons_append]
    exact described_head (by decide)
  | schemaExtension => simp
  | typeExtension => simp

/-- What begins a row may stand behind the definition in front of it. -/
private theorem row_head {lacking : Bool} {ds : List Definition} {w : List Symbol}
    (hs : Definition.SpellRow lacking ds w) (hw : ∀ d ∈ ds, d.WellFormed) :
    ∀ x ∈ w.head?, Follows lacking x := by
  cases hs with
  | nil => simp
  | @cons _ d ds w v head apart tail =>
    intro x hx
    have hx : x ∈ w.head? := by
      cases w with
      | nil => exact absurd rfl head.ne_nil
      | cons y w => exact hx
    have hd := definition 0 (hw d (.head _)) head
    refine ⟨(hd.starts x hx).avoids (by decide), spells_head head x hx, fun hl => ?_⟩
    rintro rfl
    exact apart hl hx

private theorem follows_end {lacking : Bool} {x : Symbol} (h : x.kind = .eof) : Follows lacking x := by
  refine ⟨fun p _ hp => ?_, fun hw => ?_, fun _ hp => ?_⟩
  · simp [hp, mark] at h
  · simp [hw, word] at h
  · simp [hp, mark] at h

/-- A first definition and behind it a row, and what is made of both. -/
private theorem definition_row {α : Type} {row : Parser (IndexedList Definition)} {d : Definition}
    {l : IndexedList Definition} {w v : List Symbol} {ps : List Punctuator}
    (make : IndexedList Definition → α) (hd : d.WellFormed) (hw : d.Spells w)
    (hl : l.Each Definition.WellFormed) (hv : Definition.SpellRow d.lacksBlock l.toList v)
    (hr : Recovers row l v ps (·.kind = .eof) (∀ d ∈ l.toList, d.nesting ≤ room)) :
    Recovers (Parser.definition room >>= fun first => row >>= fun rest =>
        Pure.pure (make (rest.add first))) (make (l.add d)) (w ++ v) [.braceOpen] (·.kind = .eof)
      (∀ x ∈ (l.add d).toList, x.nesting ≤ room) :=
  ((definition room hd hw).bind_some hr.map hw.ne_nil (row_head hv hl.2) fun _ _ =>
    follows_end).congr rfl (by simp)

/-- Definitions up to the end of input. -/
private theorem definitions {lacking : Bool} {l : IndexedList Definition} {w : List Symbol}
    (hl : l.Each Definition.WellFormed) (hs : Definition.SpellRow lacking l.toList w) :
    Recovers (manyToEnd (Parser.definition room)) l w [.braceOpen] (·.kind = .eof)
      (∀ d ∈ l.toList, d.nesting ≤ room) := by
  induction l, hl using Each.induction generalizing lacking w with
  | nil =>
    rw [manyToEnd_eq Conforms.progress_definition]
    cases hs
    have none : Recovers (Pure.pure nil) (nil : IndexedList Definition) [] [] (·.kind = .eof)
      (∀ d ∈ (nil : IndexedList Definition).toList, d.nesting ≤ room) := (pure nil).congr rfl (by simp [toList])
    exact (isAtEnd_next none fun _ => id).fromWord
  | add l d hl hd ih =>
    rw [manyToEnd_eq Conforms.progress_definition]
    cases hs with
    | cons head apart tail =>
      refine isAtEnd_other (definition_row (fun l => l) hd head hl tail (ih tail)) ?_
      simp [head.ne_nil]

theorem document {d : Document} {w : List Symbol} (hd : d.WellFormed) (hw : d.Spells w) :
    Recovers document d w [.braceOpen] (·.kind = .eof) (d.nesting ≤ maxNesting) := by
  obtain ⟨l⟩ := d
  obtain ⟨hne, hl⟩ := hd
  have hw : Definition.SpellRow false l.toList w := hw
  induction l, hl using Each.induction with
  | nil => exact absurd rfl hne
  | add l d hl hd =>
    cases hw with
    | cons head apart tail =>
      exact (definition_row Document.mk hd head hl tail (definitions hl tail)).congr rfl deepest_le_iff

end Parser.Recovers
end GraphQL
