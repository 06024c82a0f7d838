import GraphQL.Proofs.Parser.Conforms.Document

/-! Parsers of what may not be left out consume a token. -/
namespace GraphQL.Parser
variable {α β : Type} {p : Parser α}

namespace Progress

theorem of_error (h : ∀ s, ∃ e s', p s = .error e s') : Progress p := by
  intro s a s' run
  obtain ⟨e, s'', fails⟩ := h s
  cases run.symm.trans fails

theorem unexpected {expected : List String} : Progress (Parser.unexpected expected : Parser α) :=
  of_error fun _ => ⟨_, _, rfl⟩

theorem bind {f : α → Parser β} (h : Progress p)
    (keeps : ∀ a s b s', f a s = .ok b s' → s'.unread.length ≤ s.unread.length) : Progress (p >>= f) := by
  intro s b s'' run
  cases hp : p s with
  | error e s' => cases (bind_error hp).symm.trans run
  | ok a s' =>
    rw [bind_ok hp] at run
    exact Nat.lt_of_le_of_lt (keeps a s' b s'' run) (h s a s' hp)

theorem map (h : Progress p) (g : α → β) : Progress (p >>= fun a => pure (g a)) := by
  refine h.bind fun a s b s' run => ?_
  cases run
  exact Nat.le_refl _

theorem mapError {g : SyntaxError → SyntaxError} (h : Progress p) : Progress (mapError g p) := by
  intro s a s' run
  unfold Parser.mapError at run
  split at run
  · next hp =>
    cases run
    exact h s a s' hp
  · cases run

theorem peek_bind {f : Token → Parser α} (h : ∀ t, Progress (f t)) : Progress (peek >>= f) :=
  fun s a s' run => h s.peek s a s' run

theorem expect {c : Punctuator} : Progress (expect c) := progress_of_only (fun _ => Conforms.expect) (by simp)

theorem expectKeyword {keyword : String} : Progress (expectKeyword keyword) :=
  progress_of_only (fun _ => Conforms.expectKeyword) (by simp)

theorem expectName : Progress expectName := progress_of_only (fun _ => Conforms.expectName) (by simp)

theorem operationType : Progress operationType := progress_of_only (fun _ => Conforms.operationType) (by simp)

theorem directiveLocation : Progress directiveLocation := progress_of_only Conforms.directiveLocation (by simp)

theorem namedType : Progress namedType := progress_of_only (fun _ => Conforms.namedType) TypeReference.spelling_ne_nil

theorem rootOperation : Progress rootOperation :=
  progress_of_only Conforms.rootOperation (by simp [RootOperation.spelling])

variable (room : Nat)

theorem value : Progress (value room) := progress_of_only (Conforms.value room) Value.spelling_ne_nil

/-- The arguments of a field and the fields of an object value. -/
theorem namedValue : Progress (named (Parser.value room)) :=
  progress_of_only (Conforms.argument (Conforms.value room)) Argument.spelling_ne_nil

theorem directive : Progress (do
    let name ← Parser.expectName
    return (⟨name, ← arguments room⟩ : Directive)) :=
  progress_of_only (Conforms.directiveName room) (by simp)

theorem typeReference : Progress (typeReference room) :=
  progress_of_only (Conforms.typeReference room) TypeReference.spelling_ne_nil

theorem selectionSet : Progress (selectionSet room) :=
  progress_of_only (Conforms.selectionSet room) fun set => by
    simp [SelectionSet.spelling, IndexedList.blockSpelling]

theorem selection : Progress (selectionWith room (Parser.selectionSet room)) :=
  progress_of_only (Conforms.selectionWith room (Conforms.selectionSet room)) Selection.spelling_ne_nil

theorem variableDefinition : Progress (variableDefinition room) :=
  progress_of_only Conforms.variableDefinition (by simp [VariableDefinition.spelling])

theorem variableDefinitions : Progress (do
    Parser.expect .parenOpen
    someThrough .parenClose (Parser.variableDefinition room)) := by
  have items : Progress (someThrough .parenClose (Parser.variableDefinition room)) :=
    progress_of_only (fun _ => Conforms.someThrough Conforms.variableDefinition (by simp [VariableDefinition.spelling]))
      (by simp)
  exact expect.bind fun _ s l s' run => Nat.le_of_lt (items s l s' run)

theorem operation : Progress (operation room) := by
  refine progress_of_conforms (fun _ => Conforms.operation) ?_
  rintro o ⟨-, h | ⟨-, h⟩⟩
  · simp [OperationDefinition.spelling] at h
  · simp [SelectionSet.spelling, IndexedList.blockSpelling] at h

theorem fragment : Progress (fragment room) :=
  progress_of_only (fun _ => Conforms.fragment) (by simp [FragmentDefinition.spelling])

theorem inputValueDefinition : Progress (inputValueDefinition room) :=
  progress_of_only Conforms.inputValueDefinition (by simp [InputValueDefinition.spelling])

theorem fieldDefinition : Progress (fieldDefinition room) :=
  progress_of_only Conforms.fieldDefinition (by simp [FieldDefinition.spelling])

theorem enumValueDefinition : Progress (enumValueDefinition room) :=
  progress_of_only Conforms.enumValueDefinition (by simp [EnumValueDefinition.spelling])

variable (description : Option StringValue)

theorem schema (isExtension : Bool) : Progress (schema room description isExtension) := by
  refine progress_of_conforms (fun _ => Conforms.schema isExtension) ?_
  rintro d ⟨rfl, -, h⟩
  simp [SchemaDefinition.spelling] at h

theorem typeDefinition (kind : TypeKind) : Progress (typeDefinition room kind description) := by
  refine progress_of_conforms (fun _ => Conforms.typeDefinition kind) ?_
  rintro t ⟨rfl, -, -, lead, h⟩
  simp [TypeDefinition.spelling] at h

theorem directiveDefinition : Progress (directiveDefinition room description) := by
  refine progress_of_conforms (fun _ => Conforms.directiveDefinition) ?_
  rintro d ⟨rfl, -, lead, h⟩
  simp [DirectiveDefinition.spelling] at h

theorem typeSystemDefinition : Progress (typeSystemDefinition room description) := by
  refine peek_bind fun t => ?_
  dsimp only
  split
  · exact (schema room description false).map _
  split
  · exact (directiveDefinition room description).map _
  split
  · exact (typeDefinition room description _).map _
  split
  · exact of_error fun _ => ⟨_, _, rfl⟩
  · exact unexpected

theorem extension : Progress (extension room) :=
  progress_of_conforms (fun _ => Conforms.extension) fun _ h => h.2.ne_nil rfl

end Progress
end GraphQL.Parser
