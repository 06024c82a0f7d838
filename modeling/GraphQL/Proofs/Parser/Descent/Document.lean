import GraphQL.Parser.Descent.Document
import GraphQL.Proofs.Parser.Descent.Executable
import GraphQL.Proofs.Parser.Descent.TypeSystem
import GraphQL.Proofs.Parser.Unclosed

/-! Definitions and documents in a descent. -/
namespace GraphQL

instance (t : Token) : Decidable t.StartsExecutable := inferInstanceAs (Decidable (_ ∨ _))

/-- Documents, asking first whether there is anything. -/
theorem Parser.document_eq : document = isAtEnd >>= fun atEnd =>
    if atEnd then unexpected ["a definition"]
    else manyToEnd (Parser.definition maxNesting) >>= fun definitions => pure ⟨definitions⟩ := by
  funext s
  rw [isAtEnd_run]
  cases atEnd : s.isAtEnd with
  | true =>
    have kind : s.peek.kind = .eof := by simpa [TokenStream.isAtEnd] using atEnd
    have fails : Parser.definition maxNesting s = .error (.unexpected ["a definition"] s.peek) s := by
      unfold Parser.definition
      rw [peek_run, kind]
      rfl
    exact bind_error fails
  | false =>
    have rows : manyToEnd (Parser.definition maxNesting) s = (Parser.definition maxNesting >>= fun first =>
        manyToEnd (Parser.definition maxNesting) >>= fun rest => pure (rest.add first) : Parser _) s :=
      (congrFun (manyToEnd_eq Conforms.progress_definition) s).trans (by rw [isAtEnd_run, atEnd]; rfl)
    have whole : document = (Parser.definition maxNesting >>= fun first =>
        manyToEnd (Parser.definition maxNesting) >>= fun rest => pure (rest.add first)) >>= fun definitions =>
        pure ⟨definitions⟩ := by simp [document]
    rw [whole]
    simp [bind, EStateM.bind, rows]

/-- The words that start a definition that is none of the type system. -/
def definitionWords : List String := ["query", "mutation", "subscription", "fragment", "extend"]

theorem Parser.definition_run {s : TokenStream} (hk : s.peek.kind = .name) (other : s.peek.literal ∉ definitionWords)
    (room : Nat) :
    Parser.definition room s =
      (peek >>= fun _ => typeSystemDefinition room none >>= fun d => pure (.typeSystem d)) s := by
  unfold Parser.definition
  rw [peek_run, peek_run, hk]
  refine congrFun (?_ : _ = (_ : Parser Definition)) s
  dsimp only
  split
  all_goals first | rfl | simp_all [definitionWords]

namespace Descent
open GraphQL.Parser (maxNesting)

theorem definition_run {s : TokenStream} (hk : s.peek.kind = .name) (other : s.peek.literal ∉ definitionWords)
    (fuel d : Nat) (past : List Point) :
    definition fuel ⟨⟨s, d⟩, past⟩ = (step Parser.peek >>= fun _ =>
      typeSystemDefinition none fuel >>= fun x => pure (.typeSystem x)) ⟨⟨s, d⟩, past⟩ := by
  unfold definition
  rw [bind_ok (step_ok (q := Parser.peek) rfl past), bind_ok (step_ok (q := Parser.peek) rfl past), hk]
  refine congrFun (?_ : _ = (_ : Descent Definition)) _
  dsimp only
  split
  all_goals first | rfl | simp_all [definitionWords]

namespace Tracks
variable {fuel d : Nat} {inBlock : Bool} {description : Option StringValue} {s : TokenStream}

theorem typeSystemDefinition : Tracks fuel true [] (Descent.typeSystemDefinition description fuel)
    (Parser.typeSystemDefinition (maxNesting - d) description) ⟨s, d⟩ := by
  apply peek_bind
  dsimp only
  split
  · exact (schema false).map _
  split
  · exact directiveDefinition.map _
  cases s.peek.name?.bind TypeKind.ofKeyword? with
  | some kind => exact (typeDefinition kind).map _
  | none =>
    dsimp only
    split
    · exact unexpected.mapError _
    · exact unexpected

theorem extension :
    Tracks fuel true [] (Descent.extension fuel) (Parser.extension (maxNesting - d)) ⟨s, d⟩ := by
  refine (step .expectKeyword).bind fun _ s' _ => ?_
  apply peek_bind
  dsimp only
  split
  · refine (schema true).bind fun x s'' _ => ?_
    split
    · exact unexpected.bind fun _ _ _ => pure _
    · exact pure _
  cases s'.peek.name?.bind TypeKind.ofKeyword? with
  | some kind =>
    refine (typeDefinition kind).bind fun x s'' _ => ?_
    split
    · exact unexpected.bind fun _ _ _ => pure _
    · exact pure _
  | none => exact unexpected

theorem definition : Tracks fuel (!decide s.peek.StartsExecutable) [] (Descent.definition fuel)
    (Parser.definition (maxNesting - d)) ⟨s, d⟩ := by
  by_cases h : s.peek.StartsExecutable
  · rw [decide_eq_true h]
    apply peek_bind
    rcases h with hk | ⟨keyword, among, hk⟩
    · rw [hk]
      exact operation.map _
    · obtain ⟨kind, literal⟩ : s.peek.kind = .name ∧ s.peek.literal = keyword := by simpa [Token.isKeyword] using hk
      rw [kind, literal]
      simp only [List.mem_cons, List.not_mem_nil, or_false] at among
      obtain rfl | rfl | rfl | rfl := among
      · exact operation.map _
      · exact operation.map _
      · exact operation.map _
      · exact fragment.map _
  rw [decide_eq_false h]
  cases hk : s.peek.kind with
  | name =>
    by_cases ext : s.peek.literal = "extend"
    · apply peek_bind
      rw [hk, ext]
      exact extension.map _
    · have other : s.peek.literal ∉ definitionWords := by
        simpa [Token.StartsExecutable, Token.isKeyword, hk, definitionWords, ext] using h
      exact (peek_bind (typeSystemDefinition.map _)).congr (definition_run hk other fuel d)
        (Parser.definition_run hk other _)
  | string | blockString =>
    apply peek_bind
    rw [hk]
    exact (step .optionalDescription).bind fun _ _ _ => typeSystemDefinition.map _
  | punctuator c =>
    apply peek_bind
    rw [hk]
    cases c with
    | braceOpen => exact absurd (.inl hk) h
    | _ => exact unexpected
  | int | float | illegal | eof =>
    apply peek_bind
    rw [hk]
    exact unexpected

end Tracks

/-- How a descent ends: it comes to what the parser comes to, with the counter as before on success. The points at which
it has looked at the next token, and the last one, satisfy `P`. -/
inductive Ends {α : Type} (P : Point → Prop) (p : Descent α) (q : Parser α) (start : Point) : Prop where
  | ok (a : α) (ts : List Token) (s : TokenStream) (looks : List Point)
      (run : ∀ past, p ⟨start, past⟩ = .ok a ⟨⟨s, start.depth⟩, looks ++ past⟩) (same : q start.stream = .ok a s)
      (reads : start.stream.Reads ts s) (passed : ∀ x ∈ ⟨s, start.depth⟩ :: looks, P x)
  | failed (e : SyntaxError) (ts : List Token) (stop : Point) (looks : List Point)
      (run : ∀ past, p ⟨start, past⟩ = .error (.failed e) ⟨stop, looks ++ past⟩)
      (same : q start.stream = .error e stop.stream) (reads : start.stream.Reads ts stop.stream)
      (passed : ∀ x ∈ stop :: looks, P x)

namespace Ends
variable {α β : Type} {P : Point → Prop} {p : Descent α} {q : Parser α} {f : α → Descent β} {g : α → Parser β}
  {s : TokenStream} {d : Nat}

theorem pure (a : α) (here : P ⟨s, d⟩) : Ends P (Pure.pure a : Descent α) (Pure.pure a) ⟨s, d⟩ :=
  .ok a [] s [] (fun _ => rfl) rfl .done (by simpa using here)

theorem bind (h : Ends P p q ⟨s, d⟩) (more : ∀ a s', q s = .ok a s' → P ⟨s', d⟩ → Ends P (f a) (g a) ⟨s', d⟩) :
    Ends P (p >>= f) (q >>= g) ⟨s, d⟩ := by
  cases h with
  | failed e ts stop looks run same reads passed =>
    exact .failed e ts stop looks (fun past => bind_error (run past)) (Parser.bind_error same) reads passed
  | ok a ts s' looks run same reads passed =>
    obtain ⟨here, before⟩ := List.forall_mem_cons.mp passed
    cases more a s' same here with
    | ok b vs s'' looks' run' same' reads' passed' =>
      refine .ok b (ts ++ vs) s'' (looks' ++ looks) (fun past => ?_) ((Parser.bind_ok same).trans same')
        (reads.append reads') (List.forall_mem_append.mpr ⟨passed', before⟩)
      rw [bind_ok (run past), run', List.append_assoc]
    | failed e vs stop looks' run' same' reads' passed' =>
      refine .failed e (ts ++ vs) stop (looks' ++ looks) (fun past => ?_) ((Parser.bind_ok same).trans same')
        (reads.append reads') (List.forall_mem_append.mpr ⟨passed', before⟩)
      rw [bind_ok (run past), run', List.append_assoc]

theorem isAtEnd_bind {f : Bool → Descent α} {g : Bool → Parser α} (here : P ⟨s, d⟩)
    (ht : s.isAtEnd = true → Ends P (f true) (g true) ⟨s, d⟩)
    (hf : s.isAtEnd = false → Ends P (f false) (g false) ⟨s, d⟩) :
    Ends P (step Parser.isAtEnd >>= f) (Parser.isAtEnd >>= g) ⟨s, d⟩ := by
  have look : Ends P (step Parser.isAtEnd) Parser.isAtEnd ⟨s, d⟩ :=
    .ok s.isAtEnd [] s [⟨s, d⟩] (step_ok rfl) rfl .done (by simpa using here)
  refine look.bind fun atEnd s' run _ => ?_
  cases run
  cases h : s.isAtEnd with
  | true => exact ht h
  | false => exact hf h

end Ends

/-- The counter of the descent into tokens at a point: the levels among the brackets that are open there, in the
definition around the point. -/
inductive Counts (tokens : List Token) (x : Point) : Prop where
  | inside (s : TokenStream) (ts : List Token) (arrives : Parser.Arrives tokens s) (reads : s.Reads ts x.stream)
      (around : ∀ d s', Parser.definition maxNesting s = .ok d s' → ∃ vs, x.stream.Reads vs s')
      (depth : x.depth = openLevels (!decide s.peek.StartsExecutable) (openBrackets ts))
      (bounded : x.depth ≤ maxNesting + 1)

section
variable {tokens : List Token} {fuel : Nat} {s : TokenStream}

private theorem definition_ends (arrives : Parser.Arrives tokens s) (hs : s.unread.length < fuel) :
    Ends (Counts tokens) (definition fuel) (Parser.definition maxNesting) ⟨s, 0⟩ := by
  have tracks : Tracks fuel _ [] (definition fuel) (Parser.definition (maxNesting - 0)) ⟨s, 0⟩ := Tracks.definition
  rw [Nat.sub_zero] at tracks
  have counts {x : Point} (h : Passes (!decide s.peek.StartsExecutable) [] ⟨s, 0⟩ x)
      (around : ∀ d s', Parser.definition maxNesting s = .ok d s' → ∃ vs, x.stream.Reads vs s') : Counts tokens x := by
    cases h with
    | reached ts opened reads left depth bounded =>
      have opens : openBrackets ts = opened := (left []).trans (by simp)
      exact .inside s ts arrives reads around (by simpa [opens] using depth) (by simpa using bounded)
  cases tracks hs with
  | ok d ts s' looks run same reads closed passed =>
    refine .ok d ts s' looks run same reads (List.forall_mem_cons.mpr ⟨?_, fun x hx => ?_⟩)
    · refine .inside s ts arrives reads (fun d' u run' => ?_) ?_ (Nat.zero_le _)
      · cases same.symm.trans run'
        exact ⟨[], .done⟩
      · rw [openBrackets, ← List.nil_append [], closed, openLevels_nil]
    · refine counts (passed x hx).1 fun d' u run' => ?_
      cases same.symm.trans run'
      exact (passed x hx).2
  | failed e stop looks run same stopped passed =>
    have around (x : Point) (d : Definition) (s' : TokenStream)
        (run' : Parser.definition maxNesting s = .ok d s') : ∃ vs, x.stream.Reads vs s' := by
      cases same.symm.trans run'
    obtain ⟨ts, opened, reads, -, -, -⟩ := id stopped
    exact .failed e ts stop looks run same reads (List.forall_mem_cons.mpr
      ⟨counts stopped (around stop), fun x hx => counts (passed x hx) (around x)⟩)

/-- From where a definition may start, or behind the last one. -/
private theorem definitions_end (n : Nat) (le : n ≤ fuel) (hs : s.unread.length < n)
    (arrives : s.isAtEnd = false → Parser.Arrives tokens s) (here : Counts tokens ⟨s, 0⟩) :
    Ends (Counts tokens) (manyToEnd (definition fuel) n) (Parser.manyToEnd (Parser.definition maxNesting)) ⟨s, 0⟩ := by
  induction n generalizing s with
  | zero => exact absurd hs (Nat.not_lt_zero _)
  | succ n ih =>
    rw [Parser.manyToEnd_eq Parser.Conforms.progress_definition]
    refine Ends.isAtEnd_bind here (fun _ => .pure _ here) fun more => ?_
    have first := definition_ends (arrives more) (Nat.lt_of_lt_of_le hs le)
    refine first.bind fun d s' run here' => ?_
    have fewer := Parser.Conforms.progress_definition s d s' run
    exact (ih (Nat.le_of_succ_le le) (by omega) (.next (arrives more) run) here').bind fun rest s'' _ => .pure _

/-- The descent into a document comes to what its parser comes to. -/
theorem document_ends (enough : tokens.length < fuel) :
    Ends (Counts tokens) (document fuel) Parser.document ⟨.ofTokens tokens, 0⟩ := by
  have here : Counts tokens ⟨.ofTokens tokens, 0⟩ := by
    refine .inside _ [] .first .done (fun d s' run => ?_) openLevels_nil.symm (Nat.zero_le _)
    cases Parser.Conforms.definition.ends with
    | ok d' ts u run' reads =>
      cases run.symm.trans run'
      exact ⟨ts, reads⟩
    | error e ts u run' => cases run.symm.trans run'
  rw [Parser.document_eq]
  refine Ends.isAtEnd_bind here (fun atEnd => ?_) fun more => ?_
  · exact .failed (.unexpected ["a definition"] (TokenStream.ofTokens tokens).peek) [] ⟨.ofTokens tokens, 0⟩
      [⟨.ofTokens tokens, 0⟩] (fun _ => rfl) rfl .done (by simpa using here)
  · exact (definitions_end fuel (Nat.le_refl _) enough (fun _ => .first) here).bind fun l s' _ => .pure _

end
end Descent
end GraphQL
