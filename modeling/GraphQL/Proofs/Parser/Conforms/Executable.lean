import GraphQL.Parser.Executable
import GraphQL.Proofs.Parser.Conforms.Value

/-! Selections, operations and fragments follow the grammar in every room. Without room for a level its
opening brace can still be continued, since the grammar knows no limit. -/
namespace GraphQL
open GraphQL.Symbol IndexedList

/-- A selection set of one field. -/
theorem SelectionSet.exists_wellFormed : ∃ s : SelectionSet, SelectionSet.WellFormed s := by
  refine ⟨nil.add (.field none "a" nil nil none), by simp [IndexedList.add], ?_⟩
  exact Each.nil.add ⟨.nil, .nil, trivial⟩

namespace Parser.Conforms
variable {s : TokenStream} {room : Nat}

/-- An inline fragment from its directives on. -/
private theorem inlineRest {inner : Parser SelectionSet} {on : Option String}
    (h : ∀ s, Conforms (.only SelectionSet.WellFormed SelectionSet.spelling) inner s) :
    Conforms (fun x w => ∃ dirs set, x = Selection.inlineFragment on dirs set ∧
        dirs.Each Directive.WellFormed ∧ SelectionSet.WellFormed set ∧
        w = directivesSpelling dirs ++ SelectionSet.spelling set)
      (Parser.directives room >>= fun dirs => inner >>= fun set => Pure.pure (.inlineFragment on dirs set)) s := by
  refine ((directives room).bind fun dirs s => (h s).bind fun set _ => pure _).mono ?_
  intro x w hx
  simp only [Grammar.seq_only_iff, Grammar.unit] at hx
  obtain ⟨dirs, _, hd, rfl, set, _, hs, rfl, rfl, rfl⟩ := hx
  exact ⟨dirs, set, rfl, hd, hs, by simp⟩

/-- What stands behind an ellipsis without a type condition. -/
private theorem ellipsisRest {inner : Parser SelectionSet} (hon : s.peek.name? ≠ some "on")
    (h : ∀ s, Conforms (.only SelectionSet.WellFormed SelectionSet.spelling) inner s) :
    Conforms (fun x w => Selection.WellFormed x ∧ x.spelling = mark .ellipsis :: w)
      (do
        match (← peek).name? with
        | some name =>
          advance
          return .spread name (← Parser.directives room)
        | none =>
          let directives ← Parser.directives room
          return .inlineFragment none directives (← inner)) s := by
  apply peek_bind
  cases hn : s.peek.name? with
  | some name =>
    refine .mono (.advance_bind (by simp [Token.kind_of_name hn])
      (.bind (directives room) fun dirs _ => pure _)) ?_
    intro x w hx
    simp only [Grammar.seq_only_iff, Grammar.unit] at hx
    obtain ⟨_, rfl, dirs, _, hd, rfl, rfl, rfl⟩ := hx
    have hne : name ≠ "on" := fun h => hon (h ▸ hn)
    exact ⟨⟨hne, hd⟩, by simp [Selection.spelling, Token.bare_of_name hn]⟩
  | none =>
    refine .mono (inlineRest h) ?_
    rintro x w ⟨dirs, set, rfl, hd, hs, rfl⟩
    exact ⟨(Selection.wellFormed_inlineFragment ..).mpr ⟨hd, hs⟩, by
      simp [Selection.spelling_inlineFragment, conditionSpelling]⟩

/-- A field from its arguments on. -/
private theorem fieldRest {inner : Parser SelectionSet} {aliasName : Option String} {name : String}
    (h : ∀ s, Conforms (.only SelectionSet.WellFormed SelectionSet.spelling) inner s) :
    Conforms (fun x w => ∃ args dirs set, x = Selection.field aliasName name args dirs set ∧
        args.Each Argument.WellFormed ∧ dirs.Each Directive.WellFormed ∧
        (∀ ss ∈ set, SelectionSet.WellFormed ss) ∧
        w = argumentsSpelling args ++ directivesSpelling dirs ++ set.elim [] SelectionSet.spelling)
      (do
        let arguments ← Parser.arguments room
        let directives ← Parser.directives room
        let selections ← if ← isAt .braceOpen then Pure.pure (some (← inner)) else Pure.pure none
        return .field aliasName name arguments directives selections) s := by
  simp only [pure_bind]
  refine .mono (.bind (arguments room) fun args _ => .bind (directives room) fun dirs s =>
    .isAt_bind (.bind (h s) fun set _ => pure _) (pure _)) ?_
  intro x w hx
  simp only [Grammar.seq_only_iff, Grammar.unit] at hx
  obtain ⟨args, _, ha, rfl, dirs, _, hd, rfl, ⟨set, _, hs, rfl, rfl, rfl⟩ | ⟨rfl, rfl⟩⟩ := hx
  · exact ⟨args, dirs, some set, rfl, ha, hd, by simpa using hs, by simp⟩
  · exact ⟨args, dirs, none, rfl, ha, hd, by simp, by simp⟩

theorem selectionWith (room : Nat) {inner : Parser SelectionSet}
    (h : ∀ s, Conforms (.only SelectionSet.WellFormed SelectionSet.spelling) inner s)
    (s : TokenStream) :
    Conforms (.only Selection.WellFormed Selection.spelling) (selectionWith room inner) s := by
  unfold Parser.selectionWith
  simp only [pure_bind]
  refine .mono (.accept_bind (fun _ => .acceptKeyword_bind (.bind expectName fun on _ => inlineRest h)
    fun hon => ellipsisRest hon h) fun _ => .bind expectName fun first _ => .accept_bind
      (fun _ => .bind expectName fun name _ => fieldRest h) fun _ => fieldRest h) ?_
  intro x w hx
  simp only [Grammar.ifNext, Grammar.seq_only_iff] at hx
  obtain ⟨_, rfl, ⟨_, rfl, on, _, -, rfl, dirs, set, rfl, hd, hs, rfl⟩ | hx⟩ |
    ⟨first, _, -, rfl, ⟨_, rfl, name, _, -, rfl, args, dirs, set, rfl, ha, hd, hs, rfl⟩ |
      ⟨args, dirs, set, rfl, ha, hd, hs, rfl⟩⟩ := hx
  · exact ⟨(Selection.wellFormed_inlineFragment ..).mpr ⟨hd, hs⟩, by
      simp [Selection.spelling_inlineFragment, conditionSpelling]⟩
  · exact ⟨hx.1, hx.2.symm⟩
  · exact ⟨(Selection.wellFormed_field ..).mpr ⟨ha, hd, hs⟩, by simp [Selection.spelling_field, aliasSpelling]⟩
  · exact ⟨(Selection.wellFormed_field ..).mpr ⟨ha, hd, hs⟩, by simp [Selection.spelling_field, aliasSpelling]⟩

private theorem noteUnclosed_same (opening : Token) (e : SyntaxError) :
    (noteUnclosed opening e).kind = e.kind ∧ (noteUnclosed opening e).line = e.line ∧
      (noteUnclosed opening e).position = e.position := by
  unfold noteUnclosed
  split <;> exact ⟨rfl, rfl, rfl⟩

/-- What stands behind the opening brace of a selection set. -/
private def setRest : Grammar SelectionSet :=
  .only SelectionSet.WellFormed fun set => IndexedList.spelling Selection.spelling set ++ [mark .braceClose]

private theorem seq_setRest {set : SelectionSet} {w : List Symbol}
    (h : (Grammar.symbol (mark .braceOpen)).seq (fun _ => setRest) set w) :
    Grammar.only SelectionSet.WellFormed SelectionSet.spelling set w := by
  obtain ⟨_, rfl, hs, rfl⟩ := Grammar.seq_symbol_iff.mp h
  exact ⟨hs, rfl⟩

theorem selectionSet (room : Nat) : ∀ s,
    Conforms (.only SelectionSet.WellFormed SelectionSet.spelling) (selectionSet room) s := by
  induction room with
  | zero =>
    intro s
    obtain ⟨set, hset⟩ := SelectionSet.exists_wellFormed
    exact .mono (.bind expect fun _ _ => nestingExceeded ⟨set, _, hset, rfl⟩) fun _ _ => seq_setRest
  | succ room ih =>
    intro s
    refine peek_bind (.mono (.bind expect fun _ _ => .mapError (G := setRest)
      (someThrough (selectionWith room ih) Selection.spelling_ne_nil) ?_ ?_ ?_) fun _ _ => seq_setRest)
    · exact fun e => (noteUnclosed_same _ e).1
    · exact fun e => (noteUnclosed_same _ e).2.1
    · exact fun e => (noteUnclosed_same _ e).2.2

theorem operationType :
    Conforms (.only (fun _ => True) fun t => [word t.keyword]) operationType s := by
  apply peek_bind
  split
  · next t ht =>
    obtain ⟨name, hn, ht⟩ := Option.bind_eq_some_iff.mp ht
    refine advance_pure (by simp [Token.kind_of_name hn]) ⟨trivial, ?_⟩
    simp [Token.bare_of_name hn, OperationType.keyword_of_ofKeyword? ht]
  · exact unexpected ⟨.query, _, trivial, rfl⟩

theorem variableDefinition (s : TokenStream) :
    Conforms (.only VariableDefinition.WellFormed VariableDefinition.spelling)
      (variableDefinition room) s := by
  refine .mono (.bind expect fun _ _ => .bind expectName fun name _ => .bind expect fun _ s =>
    .bind (typeReference room s) fun type _ => .bind (optionalDefault room) fun v _ =>
      .bind (directives room) fun dirs _ => pure _) ?_
  intro x w h
  simp only [Grammar.seq_symbol_iff, Grammar.seq_only_iff, Grammar.unit] at h
  obtain ⟨_, rfl, name, _, -, rfl, _, rfl, type, _, -, rfl, v, _, hv, rfl, dirs, _, hd, rfl, rfl, rfl⟩ := h
  exact ⟨⟨hv, hd⟩, by simp [VariableDefinition.spelling]⟩

/-- An operation from its variables on. -/
private theorem operationRest {type : OperationType} {name : Option String} :
    Conforms (fun o w => o.type = type ∧ o.name = name ∧ OperationDefinition.WellFormed o ∧
        w = o.variableDefinitions.optionalSpelling .parenOpen .parenClose VariableDefinition.spelling ++
          directivesSpelling o.directives ++ SelectionSet.spelling o.selections)
      (do
        let variableDefinitions ←
          Parser.optionalBlock .parenOpen .parenClose (Parser.variableDefinition room)
        let directives ← Parser.directives room
        return ⟨type, name, variableDefinitions, directives, ← Parser.selectionSet room⟩) s := by
  refine .mono (.bind (optionalBlock variableDefinition (by simp [VariableDefinition.spelling]))
    fun vars _ => .bind (directives room) fun dirs s => .bind (selectionSet room s) fun set _ =>
      pure _) ?_
  intro o w h
  simp only [Grammar.seq_only_iff, Grammar.unit] at h
  obtain ⟨vars, _, hv, rfl, dirs, _, hd, rfl, set, _, hs, rfl, rfl, rfl⟩ := h
  exact ⟨rfl, rfl, ⟨hv, hd, hs⟩, by simp⟩

/-- An operation from its name on. -/
private theorem operationName {type : OperationType} :
    Conforms (fun o w => OperationDefinition.WellFormed o ∧ o.spelling = word type.keyword :: w)
      (do
        let name := (← peek).name?
        if name.isSome then advance
        let variableDefinitions ←
          Parser.optionalBlock .parenOpen .parenClose (Parser.variableDefinition room)
        let directives ← Parser.directives room
        return ⟨type, name, variableDefinitions, directives, ← Parser.selectionSet room⟩) s := by
  apply peek_bind
  cases hn : s.peek.name? with
  | none =>
    refine .mono operationRest ?_
    rintro o w ⟨rfl, hname, ho, rfl⟩
    exact ⟨ho, by simp [OperationDefinition.spelling, nameSpelling, hname]⟩
  | some name =>
    refine .mono (.advance_bind (by simp [Token.kind_of_name hn]) operationRest) ?_
    rintro o w ⟨_, rfl, rfl, hname, ho, rfl⟩
    exact ⟨ho, by simp [OperationDefinition.spelling, nameSpelling, hname, Token.bare_of_name hn]⟩

theorem operation :
    Conforms (fun o w => OperationDefinition.WellFormed o ∧
        (w = o.spelling ∨ o.isShorthand ∧ w = SelectionSet.spelling o.selections))
      (operation room) s := by
  refine .mono (.isAt_bind (.bind (selectionSet room s) fun set _ => pure _)
    (.bind operationType fun type s => operationName)) ?_
  intro o w h
  simp only [Grammar.seq_only_iff, Grammar.unit] at h
  rcases h with ⟨set, _, hs, rfl, rfl, rfl⟩ | ⟨type, _, -, rfl, ho, hw⟩
  · exact ⟨⟨.nil, .nil, hs⟩, .inr ⟨rfl, by simp⟩⟩
  · exact ⟨ho, .inl (by simp [hw])⟩

/-- A fragment from its name on. -/
private theorem fragmentRest (hon : s.peek.name? ≠ some "on") :
    Conforms (fun f w => FragmentDefinition.WellFormed f ∧ f.spelling = word "fragment" :: w)
      (do
        let name ← Parser.expectName
        Parser.expectKeyword "on"
        let typeCondition ← Parser.expectName
        let directives ← Parser.directives room
        return ⟨name, typeCondition, directives, ← Parser.selectionSet room⟩) s := by
  refine .mono (.bind (expectName_of (P := (· ≠ "on")) ?_ ⟨"", by simp⟩) fun name _ =>
    .bind expectKeyword fun _ _ => .bind expectName fun on _ => .bind (directives room) fun dirs s =>
      .bind (selectionSet room s) fun set _ => pure _) ?_
  · rintro name hn rfl
    exact hon hn
  · intro f w h
    simp only [Grammar.seq_only_iff, Grammar.seq_symbol_iff, Grammar.unit] at h
    obtain ⟨name, _, hn, rfl, _, rfl, on, _, -, rfl, dirs, _, hd, rfl, set, _, hs, rfl, rfl, rfl⟩ := h
    exact ⟨⟨hn, hd, hs⟩, by simp [FragmentDefinition.spelling]⟩

theorem fragment :
    Conforms (.only FragmentDefinition.WellFormed FragmentDefinition.spelling) (fragment room) s := by
  obtain ⟨set, hset⟩ := SelectionSet.exists_wellFormed
  have inhabited : ∃ f w, FragmentDefinition.WellFormed f ∧ f.spelling = word "fragment" :: w :=
    ⟨⟨"a", "a", nil, set⟩, _, ⟨by simp, .nil, hset⟩, rfl⟩
  refine .mono (.bind expectKeyword fun _ s => .isAtKeyword_bind
    (fun hon => unexpected_bind inhabited (fun _ => rfl) (fun _ => rfl) fun _ => rfl) fragmentRest) ?_
  intro f w h
  obtain ⟨_, rfl, hf, hw⟩ := Grammar.seq_symbol_iff.mp h
  exact ⟨hf, hw.symm⟩

end Parser.Conforms
end GraphQL
