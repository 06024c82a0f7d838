import GraphQL.Parser.Document
import GraphQL.Proofs.Parser.Conforms.TypeSystem
import GraphQL.Proofs.Parser.Ensures

/-! Definitions and documents follow the grammar. An extension is checked when it is over, at the token
behind it, where a directive could still stand. -/
namespace GraphQL
open GraphQL.Symbol IndexedList

/-- The well-formed definitions and their spellings. -/
def Definition.grammar : Grammar Definition := fun d w => d.WellFormed ∧ d.Spells w

theorem TypeKind.keyword_of_ofKeyword? {word : String} {k : TypeKind} (h : ofKeyword? word = some k) :
    k.keyword = word := by
  unfold ofKeyword? at h
  split at h <;> first | cases h; rfl | cases h

namespace Parser
namespace Conforms
variable {s : TokenStream} {room : Nat}

theorem typeSystemDefinition (description : Option StringValue) :
    Conforms (fun d w => Definition.grammar (.typeSystem d) (descriptionSpelling description ++ w))
      (typeSystemDefinition room description) s := by
  have inhabited : ∃ d w, Definition.grammar (.typeSystem d) (descriptionSpelling description ++ w) :=
    ⟨.type ⟨description, "a", nil, .scalar⟩, _, ⟨.nil, trivial⟩, .type _ false⟩
  apply peek_bind
  dsimp only
  split
  · refine .mono (.bind (schema false) fun d _ => pure _) ?_
    rintro _ _ ⟨d, w, _, rfl, ⟨rfl, hd, hw⟩, rfl, rfl⟩
    rw [List.append_nil, ← hw]
    exact ⟨hd, .schema d⟩
  split
  · refine .mono (.bind directiveDefinition fun d _ => pure _) ?_
    rintro _ _ ⟨d, w, _, rfl, ⟨rfl, hd, lead, hw⟩, rfl, rfl⟩
    rw [List.append_nil, ← hw]
    exact ⟨hd, .directive d lead⟩
  split
  · refine .mono (.bind (typeDefinition _) fun t _ => pure _) ?_
    rintro _ _ ⟨t, w, _, rfl, ⟨rfl, -, ht, lead, hw⟩, rfl, rfl⟩
    rw [List.append_nil, ← hw]
    exact ⟨ht, .type t lead⟩
  split
  · exact mapError (unexpected inhabited) (fun _ => rfl) (fun _ => rfl) fun _ => rfl
  · exact unexpected inhabited

/-- A directive that is added to an extension that would add nothing without it. -/
private def addedDirective : Directive := ⟨"a", nil⟩

private theorem each_addedDirective : (nil.add addedDirective).Each Directive.WellFormed :=
  Each.nil.add .nil

private theorem spelling_addedDirective :
    directivesSpelling (nil.add addedDirective) = [mark .atSign, word "a"] := rfl

private theorem spelling_noDirectives : directivesSpelling nil = [] := rfl

/-- The check of an extension `x` that is over. One that adds nothing would go on with a directive. -/
private theorem extension_end {x : TypeSystemExtension} (y : TypeSystemExtension) {isEmpty : Bool}
    {expected : List String} :
    Conforms (fun e w => (isEmpty = false ∧ e = x ∧ w = []) ∨
        isEmpty ∧ e = y ∧ w = [mark .atSign, word "a"])
      (do
        if isEmpty then Parser.unexpected expected
        return x) s := by
  cases isEmpty with
  | true =>
    refine unexpected_bind (g := id) ⟨y, _, .inr ⟨rfl, rfl, rfl⟩⟩ ?_ ?_ ?_
    all_goals exact fun _ => rfl
  | false => exact .mono (pure x) fun _ _ h => .inl ⟨rfl, h⟩

/-- Whether it is over or goes on, an extension adds something. -/
private theorem schema_end {d : SchemaDefinition} {e : TypeSystemExtension} {v w : List Symbol}
    (hn : d.description = none) (hd : d.WellFormed true) (hw : d.spelling true = w)
    (h : ((d.directives.isEmpty && d.roots.isEmpty) = false ∧ e = .schema d ∧ v = []) ∨
      (d.directives.isEmpty && d.roots.isEmpty) ∧
        e = .schema { d with directives := nil.add addedDirective } ∧ v = [mark .atSign, word "a"]) :
    Definition.grammar (.extension e) (word "extend" :: (w ++ v)) := by
  rcases h with ⟨he, rfl, rfl⟩ | ⟨he, rfl, rfl⟩
  · rw [List.append_nil, ← hw]
    exact ⟨⟨hd, hn, fun ⟨h, h'⟩ => by simp [h, h'] at he⟩, .schemaExtension d⟩
  · simp only [Bool.and_eq_true, isEmpty_iff_eq_nil] at he
    have hs : w ++ [mark .atSign, word "a"] =
        { d with directives := nil.add addedDirective }.spelling true := by
      simp [← hw, SchemaDefinition.spelling, hn, he, descriptionSpelling, spelling_addedDirective,
        spelling_noDirectives]
    rw [hs]
    exact ⟨⟨⟨each_addedDirective, hd.2⟩, hn, by simp [IndexedList.add]⟩, .schemaExtension _⟩

private theorem type_end {t : TypeDefinition} {e : TypeSystemExtension} (lead : Bool)
    {v w : List Symbol} (hn : t.description = none) (ht : t.WellFormed) (hw : t.spelling lead = w)
    (h : ((t.directives.isEmpty && t.body.isEmpty) = false ∧ e = .type t ∧ v = []) ∨
      (t.directives.isEmpty && t.body.isEmpty) ∧
        e = .type { t with directives := nil.add addedDirective } ∧ v = [mark .atSign, word "a"]) :
    Definition.grammar (.extension e) (word "extend" :: (w ++ v)) := by
  rcases h with ⟨he, rfl, rfl⟩ | ⟨he, rfl, rfl⟩
  · rw [List.append_nil, ← hw]
    exact ⟨⟨ht, hn, fun ⟨h, h'⟩ => by simp [h, h'] at he⟩, .typeExtension t lead⟩
  · simp only [Bool.and_eq_true, isEmpty_iff_eq_nil] at he
    have hs : w ++ [mark .atSign, word "a"] =
        { t with directives := nil.add addedDirective }.spelling lead := by
      simp [← hw, TypeDefinition.spelling, hn, he, descriptionSpelling, spelling_addedDirective,
        TypeBody.spelling_of_isEmpty, TypeDefinition.kind, spelling_noDirectives]
    rw [hs]
    exact ⟨⟨⟨each_addedDirective, ht.2⟩, hn, by simp [IndexedList.add]⟩, .typeExtension _ lead⟩

theorem extension :
    Conforms (fun e w => Definition.grammar (.extension e) w) (extension room) s := by
  have inhabited : ∃ e w, Definition.grammar (.extension e) (word "extend" :: w) :=
    ⟨_, _, type_end (t := ⟨none, "a", nil, .scalar⟩) false rfl ⟨.nil, trivial⟩ rfl
      (.inr ⟨rfl, rfl, rfl⟩)⟩
  refine .mono (.bind (H := fun _ e w => Definition.grammar (.extension e) (word "extend" :: w))
    expectKeyword fun _ s => ?_) ?_
  · apply peek_bind
    dsimp only
    split
    · refine .mono (.bind (schema true) fun d _ =>
        extension_end (.schema { d with directives := nil.add addedDirective })) ?_
      rintro e _ ⟨d, w, v, rfl, ⟨hn, hd, hw⟩, h⟩
      exact schema_end hn hd hw h
    split
    · refine .mono (.bind (typeDefinition _) fun t _ =>
        extension_end (.type { t with directives := nil.add addedDirective })) ?_
      rintro e _ ⟨t, w, v, rfl, ⟨hn, -, ht, lead, hw⟩, h⟩
      exact type_end lead hn ht hw h
    · exact unexpected inhabited
  · intro e w h
    obtain ⟨_, rfl, he⟩ := Grammar.seq_symbol_iff.mp h
    exact he

theorem definition : Conforms Definition.grammar (definition room) s := by
  have operation : Conforms Definition.grammar
      (Parser.operation room >>= fun o => Pure.pure (.executable (.operation o))) s := by
    refine .mono (.bind operation fun o _ => pure _) ?_
    rintro _ _ ⟨o, w, _, rfl, ⟨ho, hw⟩, rfl, rfl⟩
    rw [List.append_nil]
    rcases hw with rfl | ⟨hs, rfl⟩
    · exact ⟨ho, .operation o⟩
    · exact ⟨ho, .shorthand o hs⟩
  have described : Conforms Definition.grammar
      (Parser.optionalDescription >>= fun description =>
        Parser.typeSystemDefinition room description >>= fun d => Pure.pure (.typeSystem d)) s := by
    refine .mono (.bind optionalDescription fun description _ =>
      .bind (typeSystemDefinition description) fun d _ => pure _) ?_
    intro d w h
    obtain ⟨description, _, -, rfl, d, w, _, rfl, hd, rfl, rfl⟩ := Grammar.seq_only_iff.mp h
    simpa using hd
  apply peek_bind
  split
  · exact operation
  · exact described
  · exact described
  · split
    · exact operation
    · exact operation
    · exact operation
    · refine .mono (.bind fragment fun f _ => pure _) ?_
      rintro _ _ ⟨f, _, _, rfl, ⟨hf, rfl⟩, rfl, rfl⟩
      rw [List.append_nil]
      exact ⟨hf, .fragment f⟩
    · refine .mono (.bind extension fun e _ => pure _) ?_
      rintro _ _ ⟨e, w, _, rfl, he, rfl, rfl⟩
      simpa using he
    · refine .mono (.bind (typeSystemDefinition none) fun d _ => pure _) ?_
      rintro _ _ ⟨d, w, _, rfl, hd, rfl, rfl⟩
      simpa [descriptionSpelling] using hd
  · exact unexpected ⟨.typeSystem (.type ⟨none, "a", nil, .scalar⟩), _, ⟨.nil, trivial⟩, .type _ false⟩

/-- A grammar without the spellings that begin with a symbol is followed where that is not next. -/
private theorem avoid {α : Type} {G : Grammar α} {p : Parser α} {x : Symbol} (h : Conforms G p s)
    (hx : s.peek.bare ≠ x) (other : ∃ a w, G a w ∧ w.head? ≠ some x) :
    Conforms (fun a w => G a w ∧ w.head? ≠ some x) p s := by
  have head {t ts s'} (reads : s.Reads (t :: ts) s') : some t.bare ≠ some x := by
    rw [reads.peek_eq] at hx
    simpa using hx
  refine ⟨other, ?_⟩
  cases h.ends with
  | ok a ts s' run reads same spelled =>
    refine .ok a ts s' run reads same ⟨spelled, ?_⟩
    cases ts with
    | nil => simp
    | cons t ts => exact head reads
  | error e ts s' run reads same blames viable =>
    refine .error e ts s' run reads same blames fun he => ?_
    cases ts with
    | nil => exact other
    | cons t ts =>
      obtain ⟨a, w, ha⟩ := viable he
      exact ⟨a, w, ha, head reads⟩

theorem progress_definition : Progress (Parser.definition room) :=
  progress_of_conforms (fun _ => definition) fun _ h => h.2.ne_nil rfl

private theorem definition_apart {lacking : Bool}
    (hs : lacking → s.peek.kind ≠ .punctuator .braceOpen) :
    Conforms (fun d w => Definition.grammar d w ∧ (lacking → w.head? ≠ some (mark .braceOpen)))
      (Parser.definition room) s := by
  cases lacking with
  | false => exact .mono definition fun _ _ h => ⟨h, by simp⟩
  | true =>
    refine .mono (avoid definition (x := mark .braceOpen) ?_ ?_) fun _ _ h => ⟨h.1, fun _ => h.2⟩
    · exact fun h => hs rfl (Token.kind_of_bare h)
    · exact ⟨.typeSystem (.type ⟨none, "a", nil, .scalar⟩), _, ⟨⟨.nil, trivial⟩, .type _ false⟩, by
        simp [TypeDefinition.spelling, descriptionSpelling, word, mark]⟩

/-- A first definition and behind it a row, and what is made of both. -/
private theorem definition_row {α : Type} {row : Parser (IndexedList Definition)} {lacking : Bool}
    (make : IndexedList Definition → α) (hs : lacking → s.peek.kind ≠ .punctuator .braceOpen)
    (ih : ∀ d s', Parser.definition room s = .ok d s' → Conforms (fun l w =>
      l.Each Definition.WellFormed ∧ Definition.SpellRow d.lacksBlock l.toList w) row s') :
    Conforms (fun a w => ∃ l, a = make l ∧ l ≠ nil ∧ l.Each Definition.WellFormed ∧
        Definition.SpellRow lacking l.toList w)
      (Parser.definition room >>= fun first => row >>= fun rest => Pure.pure (make (rest.add first)))
      s := by
  refine .mono (.bind_of (definition_apart hs) (fun d s' run => .bind (ih d s' run) fun l _ => pure _)
    fun d w _ => ?_) ?_
  · exact ⟨_, _, nil, _, _, rfl, ⟨.nil, .nil⟩, rfl, rfl⟩
  · rintro _ _ ⟨d, w, _, rfl, ⟨⟨hd, hw⟩, apart⟩, l, v, _, rfl, ⟨hl, hv⟩, rfl, rfl⟩
    exact ⟨_, rfl, by simp [IndexedList.add], hl.add hd, by simpa using .cons hw apart hv⟩

/-- Definitions up to the end of input. -/
private theorem definitions {lacking : Bool} (hs : lacking → s.peek.kind ≠ .punctuator .braceOpen) :
    Conforms (fun l w => l.Each Definition.WellFormed ∧ Definition.SpellRow lacking l.toList w)
      (manyToEnd (Parser.definition room)) s := by
  -- on the number of unread tokens, which every definition lowers
  induction hn : s.unread.length using Nat.strongRecOn generalizing s lacking with
  | ind n ih =>
    rw [manyToEnd_eq progress_definition]
    refine isAtEnd_bind (.mono (pure nil) ?_) (.mono (definition_row (fun l => l) hs
      fun d s' run => ih _ ?_ (ensures_definition s d s' run) rfl) ?_)
    · rintro _ _ ⟨rfl, rfl⟩
      exact ⟨.nil, .nil⟩
    · exact hn ▸ progress_definition s d s' run
    · rintro _ w ⟨l, rfl, -, h⟩
      exact h

theorem document : Conforms (fun d w => Document.WellFormed d ∧ d.Spells w) document s := by
  have start : false → s.peek.kind ≠ .punctuator .braceOpen := by simp
  refine .mono (definition_row Document.mk start fun d s' run =>
    definitions (ensures_definition s d s' run)) ?_
  rintro _ w ⟨l, rfl, hne, hl, hw⟩
  exact ⟨⟨hne, hl⟩, hw⟩

end Conforms

/-- Behind a document the input is at its end. -/
theorem ensures_document : Ensures (fun _ s => s.peek.kind = .eof) document :=
  .bind fun _ => .map (ensures_manyToEnd Conforms.progress_definition) fun _ _ => id

end Parser
end GraphQL
