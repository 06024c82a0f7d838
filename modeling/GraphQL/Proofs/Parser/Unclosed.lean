import GraphQL.Proofs.Parser.Brackets
import GraphQL.Proofs.Parser.Conforms.Document
import GraphQL.Proofs.Parser.Input
import GraphQL.Proofs.Parser.Raises.Document

/-! The notes on selection sets that are never closed. Values, types and directives add none, so what is noted are the
braces that no parenthesis surrounds. -/
namespace GraphQL
namespace Parser.Closes
variable {α : Type} {shown shown' : List Token → List Token} {s : TokenStream}

theorem named (nil : shown [] = []) {value : Parser α} (h : ∀ s, Closes shown [] value s) :
    Closes shown [] (named value) s :=
  (expectName nil).bind fun _ _ _ => expect_plain nil rfl fun s' => (h s').map _

/-- Nothing is noted about the brackets of a value. -/
theorem valueWith {inner : Option (Parser Value)} (h : ∀ p ∈ inner, ∀ s, Closes (fun _ => []) [] p s) :
    Closes (fun _ => []) [] (valueWith inner) s := by
  apply peek_bind
  split
  · next hk => exact advance_bind (by simp [hk]) (by simp [hk, Punctuator.isBracket]) ((expectName rfl).map _)
  · next hk => exact advance_bind (by simp [hk]) (by simp [hk]) (pure _)
  · next hk => exact advance_bind (by simp [hk]) (by simp [hk]) (pure _)
  · next hk => exact advance_bind (by simp [hk]) (by simp [hk]) (pure _)
  · next hk => exact advance_bind (by simp [hk]) (by simp [hk]) (pure _)
  · next hk => exact advance_bind (by simp [hk]) (by simp [hk]) (pure _)
  · next hk =>
    refine opening_bind hk rfl (enter_bind fun p hp => ?_) fun _ => rfl
    exact (manyThrough rfl (h p hp) ⟨_, hk, rfl⟩).map _
  · next hk =>
    refine opening_bind hk rfl (enter_bind fun p hp => ?_) fun _ => rfl
    exact (manyThrough rfl (fun _ => named rfl (h p hp)) ⟨_, hk, rfl⟩).map _
  · exact unexpected rfl

theorem value (room : Nat) : Closes (fun _ => []) [] (value room) s := by
  induction room generalizing s with
  | zero => exact valueWith (by simp)
  | succ room ih => exact valueWith (by simpa using fun s => ih)

theorem optionalDefault (room : Nat) : Closes (fun _ => []) [] (optionalDefault room) s := by
  refine accept_plain rfl fun c s' => ?_
  cases c with
  | true => exact (value room).map _
  | false => exact pure _

/-- Arguments stand in parentheses. -/
theorem arguments (shows : Shows shown) (room : Nat) : Closes shown [] (arguments room) s :=
  optionalBlock rfl (fun _ => named rfl fun _ => value room) rfl shows.paren

theorem directives (shows : Shows shown) (room : Nat) : Closes shown [] (directives room) s :=
  manyAfter (fun _ => (expectName shows.nil).bind fun _ _ _ => (arguments shows room).map _) rfl

/-- The exclamation mark behind a type, or nothing. -/
private theorem bang_total (make : Bool → TypeReference) (s : TokenStream) :
    ∃ t ts s', (Parser.accept .bang >>= fun nonNull => Pure.pure (make nonNull) : Parser _) s = .ok t s' ∧
      s.Reads ts s' ∧ ∀ outer, ts.foldl openBehind outer = outer := by
  rw [accept_run]
  split
  · next hk =>
    have plain (outer : List Token) : openBehind outer s.peek = outer :=
      openBehind_of_plain (by simp [hk, Punctuator.isBracket])
    exact ⟨_, [s.peek], _, rfl, .one (by simp [hk]), plain⟩
  · exact ⟨_, [], _, rfl, .done, fun _ => rfl⟩

theorem typeReferenceWith {inner : Option (Parser TypeReference)}
    (h : ∀ p ∈ inner, ∀ s, Closes (fun _ => []) [] p s) : Closes (fun _ => []) [] (typeReferenceWith inner) s := by
  refine accept_bind (fun hk => ?_) ((expectName rfl).bind_total fun name => bang_total _)
  refine opening_bind hk rfl (enter_bind fun p hp => (h p hp _).bind fun element s' _ => ?_) fun _ => rfl
  exact (expect_closing rfl ⟨_, hk, rfl⟩).bind_total fun _ => bang_total _

theorem typeReference (room : Nat) : Closes (fun _ => []) [] (typeReference room) s := by
  induction room generalizing s with
  | zero => exact typeReferenceWith (by simp)
  | succ room ih => exact typeReferenceWith (by simpa using fun s => ih)

theorem variableDefinition (room : Nat) : Closes (fun _ => []) [] (variableDefinition room) s :=
  expect_plain rfl rfl fun _ => (expectName rfl).bind fun _ _ _ => expect_plain rfl rfl fun _ =>
    (typeReference room).bind fun _ _ _ => (optionalDefault room).bind fun _ _ _ =>
      (directives ⟨rfl, fun _ _ _ => rfl⟩ room).map _

theorem shows_unclosedSets : Shows unclosedSets where
  nil := rfl
  paren _ _ := unclosedSets_append_paren

theorem selectionWith (room : Nat) {inner : Parser SelectionSet} (h : ∀ s, Closes unclosedSets [] inner s) :
    Closes unclosedSets [] (selectionWith room inner) s := by
  have inlineFragment (on : Option String) (s : TokenStream) : Closes unclosedSets [] (do
      let directives ← Parser.directives room
      return Selection.inlineFragment on directives (← inner)) s :=
    (directives shows_unclosedSets room).bind fun _ s' _ => (h s').map _
  have field (aliasName : Option String) (name : String) (s : TokenStream) : Closes unclosedSets [] (do
      let arguments ← Parser.arguments room
      let directives ← Parser.directives room
      let selections ← if ← Parser.isAt .braceOpen then Pure.pure (some (← inner)) else Pure.pure none
      return Selection.field aliasName name arguments directives selections) s :=
    (arguments shows_unclosedSets room).bind fun _ _ _ => (directives shows_unclosedSets room).bind fun _ s' _ =>
      isAt_bind ((h s').bind fun _ _ _ => pure _) (pure _)
  refine accept_plain rfl fun spread s' => ?_
  cases spread with
  | true =>
    refine acceptKeyword_bind fun conditioned s' => ?_
    cases conditioned with
    | true => exact (expectName rfl).bind fun on s' _ => inlineFragment on s'
    | false =>
      apply peek_bind
      cases hn : s'.peek.name? with
      | none => exact inlineFragment none s'
      | some name => exact name_bind hn ((directives shows_unclosedSets room).map _)
  | false =>
    refine (expectName rfl).bind fun first s' _ => accept_plain rfl fun aliased s' => ?_
    cases aliased with
    | true => exact (expectName rfl).bind fun name s' _ => field (some first) name s'
    | false => exact field none first s'

/-- Each selection set adds the note on itself behind the notes on those inside. -/
theorem selectionSet (room : Nat) : Closes unclosedSets [] (selectionSet room) s := by
  induction room generalizing s with
  | zero =>
    refine expect_bind rfl fun hk => opening_bind hk rfl ?_ fun opened => unclosedSets_append_brace hk
    exact (nestingExceeded_bind (f := Pure.pure)).congr rfl
  | succ room ih =>
    refine peek_bind (expect_bind rfl fun hk => ?_)
    refine opening_bind hk rfl (noted ?_) fun opened => unclosedSets_append_brace hk
    exact someThrough rfl (fun _ => selectionWith room fun _ => ih) ⟨_, hk, rfl⟩

theorem operationType : Closes unclosedSets [] operationType s := by
  apply peek_bind
  cases hn : s.peek.name? with
  | none => exact unexpected rfl
  | some name =>
    rw [Option.bind_some]
    split
    · exact name_bind hn (pure _)
    · exact unexpected rfl

theorem operation (room : Nat) : Closes unclosedSets [] (operation room) s := by
  have rest (type : OperationType) (name : Option String) (s : TokenStream) : Closes unclosedSets [] (do
      let variableDefinitions ← Parser.optionalBlock .parenOpen .parenClose (Parser.variableDefinition room)
      let directives ← Parser.directives room
      return OperationDefinition.mk type name variableDefinitions directives (← Parser.selectionSet room)) s :=
    (optionalBlock rfl (fun _ => variableDefinition room) rfl shows_unclosedSets.paren).bind fun _ _ _ =>
      (directives shows_unclosedSets room).bind fun _ _ _ => (selectionSet room).map _
  refine isAt_bind ((selectionSet room).map _) (operationType.bind fun type s' _ => ?_)
  apply peek_bind
  cases hn : s'.peek.name? with
  | none => exact rest type none s'
  | some name => exact name_bind hn (rest type (some name) _)

theorem fragment (room : Nat) : Closes unclosedSets [] (fragment room) s := by
  have rest (s : TokenStream) : Closes unclosedSets [] (do
      let name ← Parser.expectName
      Parser.expectKeyword "on"
      let typeCondition ← Parser.expectName
      let directives ← Parser.directives room
      return FragmentDefinition.mk name typeCondition directives (← Parser.selectionSet room)) s :=
    (expectName rfl).bind fun _ _ _ => expectKeyword_bind rfl fun _ => (expectName rfl).bind fun _ _ _ =>
      (directives shows_unclosedSets room).bind fun _ _ _ => (selectionSet room).map _
  refine expectKeyword_bind rfl fun s' => isAtKeyword_bind (fun hn => fail rfl ?_) (rest s')
  rintro ⟨expected, he⟩
  simp [SyntaxError.unexpected, SyntaxError.addHelp, SyntaxError.withWidth, SyntaxError.new,
    Token.kind_of_name hn] at he

end Parser.Closes

/-- An operation or a fragment starts with the token. -/
def Token.StartsExecutable (t : Token) : Prop :=
  t.kind = .punctuator .braceOpen ∨ ∃ keyword ∈ ["query", "mutation", "subscription", "fragment"], t.isKeyword keyword

theorem Parser.Closes.definition {room : Nat} {s : TokenStream} (h : s.peek.StartsExecutable) :
    Closes unclosedSets [] (definition room) s := by
  apply peek_bind
  rcases h with hk | ⟨keyword, among, hk⟩
  · rw [hk]
    exact (operation room).map _
  · obtain ⟨kind, literal⟩ : s.peek.kind = .name ∧ s.peek.literal = keyword := by simpa [Token.isKeyword] using hk
    rw [kind, literal]
    simp only [List.mem_cons, List.not_mem_nil, or_false] at among
    obtain rfl | rfl | rfl | rfl := among
    · exact (operation room).map _
    · exact (operation room).map _
    · exact (operation room).map _
    · exact (fragment room).map _

namespace Parser
variable {α : Type} {e : SyntaxError} {s s' s'' : TokenStream}

/-- Where the parser of documents starts to read a definition. -/
inductive Arrives (tokens : List Token) : TokenStream → Prop where
  | first : Arrives tokens (.ofTokens tokens)
  | next {s s' : TokenStream} {d : Definition} (before : Arrives tokens s)
      (run : Parser.definition maxNesting s = .ok d s') (more : s'.isAtEnd = false) : Arrives tokens s'

/-- The definition that starts at the stream is the one in which the parser of documents fails. -/
structure FailsAt (tokens : List Token) (e : SyntaxError) (s : TokenStream) : Prop where
  arrives : Arrives tokens s
  fails : ∃ s', Parser.definition maxNesting s = .error e s'

private theorem manyToEnd_error {item : Parser α} (progress : Progress item) {P : TokenStream → Prop}
    (next : ∀ s a s', P s → item s = .ok a s' → s'.isAtEnd = false → P s') (start : s.isAtEnd = false → P s)
    (run : manyToEnd item s = .error e s'') : ∃ s, P s ∧ item s = .error e s'' := by
  induction hn : s.unread.length using Nat.strongRecOn generalizing s with
  | ind n ih =>
    rw [manyToEnd_eq progress, isAtEnd_run] at run
    cases atEnd : s.isAtEnd with
    | true =>
      rw [atEnd] at run
      cases run
    | false =>
      rw [atEnd, if_neg Bool.false_ne_true] at run
      cases hi : item s with
      | error e' s' =>
        rw [bind_error hi] at run
        cases run
        exact ⟨s, start atEnd, hi⟩
      | ok a s' =>
        rw [bind_ok hi] at run
        cases hr : manyToEnd item s' with
        | ok rest u =>
          rw [bind_ok hr] at run
          cases run
        | error e' u =>
          rw [bind_error hr] at run
          cases run
          exact ih _ (hn ▸ progress s a s' hi) (next s a s' (start atEnd) hi) hr rfl

/-- A document fails in one of its definitions. -/
theorem document_fails {tokens : List Token} (run : document (.ofTokens tokens) = .error e s'') :
    ∃ s, Arrives tokens s ∧ Parser.definition maxNesting s = .error e s'' := by
  unfold document at run
  cases hd : Parser.definition maxNesting (.ofTokens tokens) with
  | error e' s' =>
    rw [bind_error hd] at run
    cases run
    exact ⟨_, .first, hd⟩
  | ok d s' =>
    rw [bind_ok hd] at run
    cases hm : manyToEnd (Parser.definition maxNesting) s' with
    | ok rest u =>
      rw [bind_ok hm] at run
      cases run
    | error e' u =>
      rw [bind_error hm] at run
      cases run
      exact manyToEnd_error Conforms.progress_definition (fun _ _ _ => .next) (fun more => .next .first hd more) hm

end Parser

/-- Errors about the end of input lie there. -/
private theorem isLaw_eof : SyntaxError.IsLaw fun e t => e.IsUnexpectedEof → t.kind = .eof where
  unexpected expected t := by
    rintro ⟨others, he⟩
    unfold SyntaxError.unexpected at he
    split at he
    · simp [SyntaxError.ofIllegal, SyntaxError.new] at he
    · assumption
    · simp [SyntaxError.new, SyntaxError.withWidth] at he
  nestingExceeded _ _ := by rintro ⟨_, ⟨⟩⟩
  reserved _ _ _ _ _ := by rintro ⟨_, ⟨⟩⟩
  unclosed e t opening h := by
    unfold Parser.noteUnclosed
    split
    · exact h
    · exact h
  helped _ _ _ h := h
  undescribed _ _ h := h

/-- Only errors about the end of input have notes on selection sets. -/
private theorem isLaw_noted (line position : Nat) :
    SyntaxError.IsLaw fun e _ => unclosedNote line position ∈ e.notes → e.IsUnexpectedEof where
  unexpected expected t := by
    unfold SyntaxError.unexpected
    split <;> simp [SyntaxError.ofIllegal, SyntaxError.new, SyntaxError.withWidth]
  nestingExceeded _ _ := by simp [SyntaxError.new]
  reserved _ _ _ _ _ := by simp [SyntaxError.new, SyntaxError.withWidth]
  unclosed e t opening h := by
    unfold Parser.noteUnclosed
    split
    · next expected hk => exact fun _ => ⟨expected, hk⟩
    · exact h
  helped e t message h := by
    intro mem
    exact h (by simpa [SyntaxError.addHelp, unclosedNote] using mem)
  undescribed e t h := by
    intro mem
    refine h ?_
    have other : unclosedNote line position ≠ ⟨.general, "only type system definitions may have descriptions"⟩ := by
      intro same
      have letters := congrArg (fun note : Note => note.message.toList.head?) same
      simp [unclosedNote] at letters
    simpa [SyntaxError.addNote, other] using mem

/-- An error about the end of input in an operation or a fragment has one note for each selection set of it that is
still open, innermost first, and no other notes. Errors of all other kinds have no such note. -/
theorem parse_unclosed {source : List Char} {e : SyntaxError} (h : parse source = .error e) :
    (∃ s, Parser.FailsAt (tokenize source) e s) ∧
    (∀ s, Parser.FailsAt (tokenize source) e s → s.peek.StartsExecutable → e.IsUnexpectedEof →
      e.notes = (unclosedSets (openBrackets (s.unread.takeWhile (·.kind ≠ .eof)))).map
        fun t => unclosedNote t.line t.position) ∧
    (¬ e.IsUnexpectedEof → ∀ line position, unclosedNote line position ∉ e.notes) := by
  unfold parse parseTokens at h
  cases run : Parser.document (.ofTokens (tokenize source)) with
  | ok d s => simp [run] at h
  | error e' s'' =>
    simp only [run, Except.error.injEq] at h
    subst h
    refine ⟨?_, ?_, ?_⟩
    · obtain ⟨s, arrives, fails⟩ := Parser.document_fails run
      exact ⟨s, arrives, s'', fails⟩
    · rintro s ⟨-, s', fails⟩ starts he
      have atEnd : s'.peek.kind = .eof := Parser.Raises.definition isLaw_eof _ s _ s' fails he
      have closes : Parser.Closes unclosedSets [] (Parser.definition Parser.maxNesting) s := .definition starts
      cases closes with
      | ok d ts u run => cases run.symm.trans fails
      | error e ts opened u run reads left noted =>
        cases run.symm.trans fails
        have opens : openBrackets ts = opened := (left []).trans (by simp)
        rw [reads.takeWhile_eq atEnd, opens]
        exact noted he
    · exact fun other line position mem =>
        other (Parser.Raises.document (isLaw_noted line position) _ _ _ run mem)

/-- Two sets are open around the value of an argument where the second definition ends. -/
theorem parse_unclosed_nested :
    ∃ e, parse "\x7ba\x7d query \x7bb \x7bc(x: \x7b".toList = .error e ∧
      e.notes = [unclosedNote 1 14, unclosedNote 1 11] := by
  have h : parse "\x7ba\x7d query \x7bb \x7bc(x: \x7b".toList = .error _ := rfl
  obtain ⟨-, notes, -⟩ := parse_unclosed h
  refine ⟨_, h, (notes _ ⟨.next .first rfl rfl, _, rfl⟩ (.inr ⟨"query", by simp, rfl⟩) ⟨_, rfl⟩).trans ?_⟩
  rfl

end GraphQL
