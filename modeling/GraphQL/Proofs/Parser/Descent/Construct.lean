import GraphQL.Proofs.Parser.Descent.Document

/-! Every construct of the grammar in a descent. -/
namespace GraphQL.Descent
open GraphQL.Parser (maxNesting)

/-- What a descent may have to read next, from single tokens to definitions. -/
inductive Construct where
  | punctuator (p : Punctuator)
  | optionalPunctuator (p : Punctuator)
  | keyword (keyword : String)
  | name
  | definition
  | typeSystemDefinition (description : Option StringValue)
  | extension
  | operation
  | operationType
  | variableDefinitions
  | fragment
  | selectionSet
  | selection
  | field
  | arguments
  | directives
  | value
  | typeReference
  | namedType
  | optionalDescription
  | schema (description : Option StringValue) (isExtension : Bool)
  | type (kind : TypeKind) (description : Option StringValue)
  | interfaces
  | fields
  | argumentDefinitions
  | inputFields
  | inputValue
  | unionMembers
  | enumValues
  | directiveDefinition (description : Option StringValue)

namespace Construct

def Result : Construct → Type
  | punctuator _ | keyword _ => Unit
  | optionalPunctuator _ => Bool
  | name => String
  | definition => Definition
  | typeSystemDefinition _ => TypeSystemDefinition
  | extension => TypeSystemExtension
  | operation => OperationDefinition
  | operationType => OperationType
  | variableDefinitions => IndexedList VariableDefinition
  | fragment => FragmentDefinition
  | selectionSet => SelectionSet
  | selection | field => Selection
  | arguments => IndexedList Argument
  | directives => IndexedList Directive
  | value => Value
  | typeReference | namedType => TypeReference
  | optionalDescription => Option StringValue
  | schema _ _ => SchemaDefinition
  | type _ _ => TypeDefinition
  | interfaces | unionMembers => IndexedList TypeReference
  | fields => IndexedList FieldDefinition
  | argumentDefinitions | inputFields => IndexedList InputValueDefinition
  | inputValue => InputValueDefinition
  | enumValues => IndexedList EnumValueDefinition
  | directiveDefinition _ => DirectiveDefinition

def descent (fuel : Nat) : (c : Construct) → Descent c.Result
  | punctuator p => step (Parser.expect p)
  | optionalPunctuator p => step (Parser.accept p)
  | keyword word => step (Parser.expectKeyword word)
  | name => step Parser.expectName
  | definition => Descent.definition fuel
  | typeSystemDefinition description => Descent.typeSystemDefinition description fuel
  | extension => Descent.extension fuel
  | operation => Descent.operation fuel
  | operationType => step Parser.operationType
  | variableDefinitions => Descent.variableDefinitions fuel
  | fragment => Descent.fragment fuel
  | selectionSet => Descent.selectionSet fuel
  | selection => Descent.selection (Descent.selectionSet fuel) fuel
  | field => Descent.field (Descent.selectionSet fuel) fuel
  | arguments => Descent.arguments fuel
  | directives => Descent.directives fuel
  | value => Descent.value fuel
  | typeReference => Descent.typeReference fuel
  | namedType => Descent.namedType
  | optionalDescription => step Parser.optionalDescription
  | schema description isExtension => Descent.schema description isExtension fuel
  | type kind description => Descent.typeDefinition kind description fuel
  | interfaces => Descent.interfaces fuel
  | fields => Descent.block Descent.fieldDefinition fuel
  | argumentDefinitions => Descent.argumentDefinitions fuel
  | inputFields => Descent.block Descent.inputValueDefinition fuel
  | inputValue => Descent.inputValueDefinition fuel
  | unionMembers => Descent.unionMembers fuel
  | enumValues => Descent.block Descent.enumValueDefinition fuel
  | directiveDefinition description => Descent.directiveDefinition description fuel

def parser (room : Nat) : (c : Construct) → Parser c.Result
  | punctuator p => Parser.expect p
  | optionalPunctuator p => Parser.accept p
  | keyword word => Parser.expectKeyword word
  | name => Parser.expectName
  | definition => Parser.definition room
  | typeSystemDefinition description => Parser.typeSystemDefinition room description
  | extension => Parser.extension room
  | operation => Parser.operation room
  | operationType => Parser.operationType
  | variableDefinitions => do
    Parser.expect .parenOpen
    Parser.someThrough .parenClose (Parser.variableDefinition room)
  | fragment => Parser.fragment room
  | selectionSet => Parser.selectionSet room
  | selection => Parser.selectionWith room (Parser.selectionSet room)
  | field => Parser.field room (Parser.selectionSet room)
  | arguments => Parser.arguments room
  | directives => Parser.directives room
  | value => Parser.value room
  | typeReference => Parser.typeReference room
  | namedType => Parser.namedType
  | optionalDescription => Parser.optionalDescription
  | schema description isExtension => Parser.schema room description isExtension
  | type kind description => Parser.typeDefinition room kind description
  | interfaces => Parser.interfaces
  | fields => Parser.optionalBlock .braceOpen .braceClose (Parser.fieldDefinition room)
  | argumentDefinitions => Parser.argumentDefinitions room
  | inputFields => Parser.optionalBlock .braceOpen .braceClose (Parser.inputValueDefinition room)
  | inputValue => Parser.inputValueDefinition room
  | unionMembers => Parser.unionMembers
  | enumValues => Parser.optionalBlock .braceOpen .braceClose (Parser.enumValueDefinition room)
  | directiveDefinition description => Parser.directiveDefinition room description

/-- Whether the construct has at least one token. -/
def isMandatory : Construct → Bool
  | optionalPunctuator _ | arguments | directives | optionalDescription | interfaces | fields | argumentDefinitions
  | inputFields | unionMembers | enumValues => false
  | _ => true

end Construct

/-- Between the counter at the start and one level too many. -/
def Point.Bounds (start x : Point) : Prop := start.depth ≤ x.depth ∧ x.depth ≤ max start.depth maxNesting + 1

theorem Passes.bounds {inBlock : Bool} {under : List Token} {start x : Point} (h : Passes inBlock under start x) :
    start.Bounds x := by
  cases h with
  | reached ts opened reads left depth bounded => exact ⟨depth ▸ Nat.le_add_right .., bounded⟩

theorem Tracks.ends {α : Type} {fuel : Nat} {b : Bool} {p : Descent α} {q : Parser α} {start : Point}
    (h : Tracks fuel b [] p q start) (enough : start.stream.unread.length < fuel) :
    Ends start.Bounds p q start := by
  cases h enough with
  | ok a ts s looks run same reads closed passed =>
    have last : start.Bounds ⟨s, start.depth⟩ := ⟨Nat.le_refl _, Nat.le_succ_of_le (Nat.le_max_left ..)⟩
    exact .ok a ts s looks run same reads (List.forall_mem_cons.mpr ⟨last, fun x hx => (passed x hx).1.bounds⟩)
  | failed e stop looks run same stopped passed =>
    obtain ⟨ts, opened, reads, -, -, -⟩ := id stopped
    exact .failed e ts stop looks run same reads
      (List.forall_mem_cons.mpr ⟨stopped.bounds, fun x hx => (passed x hx).bounds⟩)

/-- A step that takes any token but the end of input, or none. -/
private theorem step_ends {α : Type} {q : Parser α} {s : TokenStream} {d : Nat}
    (h : (∃ a, q s = .ok a s ∨ q s = .ok a s.advance ∧ s.peek.kind ≠ .eof) ∨ ∃ e, q s = .error e s) :
    Ends (Point.Bounds ⟨s, d⟩) (step q) q ⟨s, d⟩ := by
  have same (s' : TokenStream) : Point.Bounds ⟨s, d⟩ ⟨s', d⟩ := ⟨Nat.le_refl _, Nat.le_succ_of_le (Nat.le_max_left ..)⟩
  rcases h with ⟨a, run | ⟨run, inside⟩⟩ | ⟨e, run⟩
  · exact .ok a [] s [⟨s, d⟩] (step_ok run) run .done (by simp [same])
  · exact .ok a [s.peek] s.advance [⟨s, d⟩] (step_ok run) run (.one inside) (by simp [same])
  · exact .failed e [] ⟨s, d⟩ [⟨s, d⟩] (step_error run) run .done (by simp [same])

theorem Construct.ends (c : Construct) (start : Point) (fuel : Nat) (enough : start.stream.unread.length < fuel) :
    Ends start.Bounds (c.descent fuel) (c.parser (maxNesting - start.depth)) start := by
  cases c with
  | punctuator p =>
    by_cases hk : start.stream.peek.kind = .punctuator p
    · exact step_ends (.inl ⟨(), .inr ⟨Parser.expect_of hk, by simp [hk]⟩⟩)
    · exact step_ends (.inr (Parser.expect_of_not hk))
  | optionalPunctuator p =>
    by_cases hk : start.stream.peek.kind = .punctuator p
    · exact step_ends (.inl ⟨true, .inr ⟨Parser.accept_of hk, by simp [hk]⟩⟩)
    · exact step_ends (.inl ⟨false, .inl (Parser.accept_of_not hk)⟩)
  | keyword word => exact Tracks.ends (b := false) (.step .expectKeyword) enough
  | name => exact Tracks.ends (b := false) (.step .expectName) enough
  | definition => exact Tracks.definition.ends enough
  | typeSystemDefinition description => exact Tracks.typeSystemDefinition.ends enough
  | extension => exact Tracks.extension.ends enough
  | operation => exact Tracks.operation.ends enough
  | operationType => exact Tracks.ends (b := false) (.step .operationType) enough
  | variableDefinitions => exact Tracks.variableDefinitions.ends enough
  | fragment => exact Tracks.fragment.ends enough
  | selectionSet => exact Tracks.selectionSet.ends enough
  | selection => exact (Tracks.selection fun _ => Tracks.selectionSet).ends enough
  | field => exact (Tracks.field fun _ => Tracks.selectionSet).ends enough
  | arguments => exact Tracks.ends (b := false) .arguments enough
  | directives => exact Tracks.ends (b := false) .directives enough
  | value => exact Tracks.value.ends enough
  | typeReference => exact Tracks.typeReference.ends enough
  | namedType => exact Tracks.ends (b := false) .namedType enough
  | optionalDescription => exact Tracks.ends (b := false) (.step .optionalDescription) enough
  | schema description isExtension => exact (Tracks.schema isExtension).ends enough
  | type kind description => exact (Tracks.typeDefinition kind).ends enough
  | interfaces => exact Tracks.ends (b := false) .interfaces enough
  | fields => exact Tracks.fields.ends enough
  | argumentDefinitions => exact Tracks.ends (b := false) .argumentDefinitions enough
  | inputFields => exact Tracks.inputFields.ends enough
  | inputValue => exact Tracks.inputValueDefinition.ends enough
  | unionMembers => exact Tracks.ends (b := false) .unionMembers enough
  | enumValues => exact Tracks.enumValues.ends enough
  | directiveDefinition description => exact Tracks.directiveDefinition.ends enough

theorem Construct.progress (c : Construct) (room : Nat) (h : c.isMandatory) : Parser.Progress (c.parser room) := by
  cases c with
  | optionalPunctuator | arguments | directives | optionalDescription | interfaces | fields | argumentDefinitions
  | inputFields | unionMembers | enumValues => cases h
  | punctuator p => exact .expect
  | keyword word => exact .expectKeyword
  | name => exact .expectName
  | definition => exact Parser.Conforms.progress_definition
  | typeSystemDefinition description => exact .typeSystemDefinition room description
  | extension => exact .extension room
  | operation => exact .operation room
  | operationType => exact .operationType
  | variableDefinitions => exact .variableDefinitions room
  | fragment => exact .fragment room
  | selectionSet => exact .selectionSet room
  | selection => exact .selection room
  | field => exact Parser.progress_field room
  | value => exact .value room
  | typeReference => exact .typeReference room
  | namedType => exact .namedType
  | schema description isExtension => exact .schema room description isExtension
  | type kind description => exact .typeDefinition room description kind
  | inputValue => exact .inputValueDefinition room
  | directiveDefinition description => exact .directiveDefinition room description

/-- With more fuel than tokens a descent ends, wherever it starts and whatever it is to read. It comes to what the
parser of the construct comes to and does not consume the end of input. On success the counter is what it was, and a
mandatory construct has taken a token. A document comes to what the tokens spell, and no more of them are consumed than
there are. Wherever it looks at a token, and where it ends, the counter is the number of levels that are open, at most
one more than are allowed. -/
theorem ends_and_counts :
    (∀ (c : Construct) (start : Point) (fuel : Nat), start.stream.unread.length < fuel →
      Ends start.Bounds (c.descent fuel) (c.parser (maxNesting - start.depth)) start ∧
      (c.isMandatory → ∀ past a final, c.descent fuel ⟨start, past⟩ = .ok a final →
        final.point.stream.unread.length < start.stream.unread.length)) ∧
    ∀ (tokens : List Token) (fuel : Nat), tokens.length < fuel → ∃ (consumed : List Token) (final : State),
      (document fuel (.ofTokens tokens) = match parseTokens tokens with
        | .ok d => .ok d final
        | .error e => .error (.failed e) final) ∧
      (TokenStream.ofTokens tokens).Reads consumed final.point.stream ∧ consumed.length ≤ tokens.length ∧
      ∀ x ∈ final.point :: final.past, Counts tokens x := by
  refine ⟨fun c start fuel enough => ⟨c.ends start fuel enough, fun mandatory past a final run => ?_⟩,
    fun tokens fuel enough => ?_⟩
  · cases c.ends start fuel enough with
    | ok a' ts s looks run' same =>
      cases (run' past).symm.trans run
      exact c.progress _ mandatory start.stream a s same
    | failed e ts stop looks run' => cases (run' past).symm.trans run
  · have consumes {ts : List Token} {s : TokenStream} (reads : (TokenStream.ofTokens tokens).Reads ts s) :
        ts.length ≤ tokens.length := Nat.le.intro reads.length_le
    cases document_ends enough with
    | ok d ts s looks run same reads passed =>
      have spelled : parseTokens tokens = .ok d := by simp [parseTokens, same]
      refine ⟨ts, ⟨⟨s, 0⟩, looks⟩, ?_, reads, consumes reads, passed⟩
      rw [spelled]
      exact (run []).trans (by rw [List.append_nil])
    | failed e ts stop looks run same reads passed =>
      have spelled : parseTokens tokens = .error e := by simp [parseTokens, same]
      refine ⟨ts, ⟨stop, looks⟩, ?_, reads, consumes reads, passed⟩
      rw [spelled]
      exact (run []).trans (by rw [List.append_nil])

/-- A selection set that is never closed is one open level where the tokens end. An empty list value fits into the last
level. -/
theorem ends_and_counts_unclosed :
    (∃ e final, document 2 (.ofTokens [⟨.punctuator .braceOpen, "\x7b", 1, 1⟩]) = .error (.failed e) final ∧
      final.point.depth = 1 ∧ Counts [⟨.punctuator .braceOpen, "\x7b", 1, 1⟩] final.point) ∧
    ∃ a final, value 3 ⟨⟨.ofTokens [⟨.punctuator .bracketOpen, "[", 1, 1⟩, ⟨.punctuator .bracketClose, "]", 1, 2⟩],
      63⟩, []⟩ = .ok a final ∧ final.point.stream.unread.length < 2 := by
  constructor
  · obtain ⟨consumed, final, run, reads, le, counts⟩ :=
      ends_and_counts.2 [⟨.punctuator .braceOpen, "\x7b", 1, 1⟩] 2 (by decide)
    have depth : (match document 2 (.ofTokens [⟨.punctuator .braceOpen, "\x7b", 1, 1⟩]) with
      | .ok _ σ | .error _ σ => σ.point.depth) = 1 := by decide +kernel
    have fails : (parseTokens [⟨.punctuator .braceOpen, "\x7b", 1, 1⟩]).toOption.isSome = false := by decide +kernel
    cases spelled : parseTokens [⟨.punctuator .braceOpen, "\x7b", 1, 1⟩] with
    | ok d => simp [spelled, Except.toOption] at fails
    | error e =>
      rw [spelled] at run
      rw [run] at depth
      exact ⟨e, final, run, depth, counts _ List.mem_cons_self⟩
  · have run : value 3 ⟨⟨.ofTokens [⟨.punctuator .bracketOpen, "[", 1, 1⟩, ⟨.punctuator .bracketClose, "]", 1, 2⟩],
        63⟩, []⟩ = .ok (.list .nil) _ := rfl
    exact ⟨_, _, run, (ends_and_counts.1 .value _ 3 (by decide)).2 rfl _ _ _ run⟩

end GraphQL.Descent
