import GraphQL.Parser.Document
import GraphQL.Proofs.IndexedList.Numbered
import GraphQL.Proofs.Parser.Rounds

/-! What a parser leaves behind it. A type or an extension without its block is not followed by an
opening brace, since the parser would have gone on there. -/
namespace GraphQL.Parser
variable {α β : Type}

/-- Every result and the stream behind it satisfy `Q`. -/
def Ensures (Q : α → TokenStream → Prop) (p : Parser α) : Prop :=
  ∀ s a s', p s = .ok a s' → Q a s'

namespace Ensures
variable {Q : β → TokenStream → Prop} {p : Parser α}

theorem bind_of {R : α → TokenStream → Prop} {f : α → Parser β} (hp : Ensures R p)
    (hf : ∀ a s b s', R a s → f a s = .ok b s' → Q b s') : Ensures Q (p >>= f) := by
  intro s b s'' h
  cases hr : p s with
  | error e s' => simp [bind, EStateM.bind, hr] at h
  | ok a s' =>
    simp only [bind, EStateM.bind, hr] at h
    exact hf a s' b s'' (hp s a s' hr) h

theorem bind {f : α → Parser β} (hf : ∀ a, Ensures Q (f a)) : Ensures Q (p >>= f) :=
  bind_of (R := fun _ _ => True) (fun _ _ _ _ => trivial) fun a s b s' _ => hf a s b s'

/-- What a result ensures, ensured of what is made of it. -/
theorem map {R : α → TokenStream → Prop} {g : α → β} (hp : Ensures R p)
    (h : ∀ a s, R a s → Q (g a) s) : Ensures Q (p >>= fun a => pure (g a)) := by
  refine bind_of hp fun a s b s' ha hr => ?_
  cases hr
  exact h a s ha

theorem unexpected {expected : List String} : Ensures Q (Parser.unexpected expected) := by
  intro s a s' h
  cases h

theorem mapError {g : SyntaxError → SyntaxError} {q : Parser β} (h : Ensures Q q) :
    Ensures Q (Parser.mapError g q) := by
  intro s a s' hr
  unfold Parser.mapError at hr
  split at hr
  · next hq =>
    cases hr
    exact h s _ _ hq
  · cases hr

end Ensures

/-- Behind a block that is missing there is no opening. -/
private theorem ensures_optionalBlock {opening close : Punctuator} {item : Parser α} :
    Ensures (fun l s => l.isEmpty → s.peek.kind ≠ .punctuator opening)
      (optionalBlock opening close item) := by
  intro s l s' h
  simp only [optionalBlock, accept_run] at h
  split at h
  · have added : Ensures (fun l _ => l.isEmpty = false) (someThrough close item) :=
      .bind fun first => .map (R := fun _ _ => True) (fun _ _ _ _ => trivial) (by simp)
    simp [added _ _ _ h]
  · next hk =>
    cases h
    exact fun _ => hk

theorem ensures_manyToEnd {item : Parser α} (h : Progress item) :
    Ensures (fun _ s => s.peek.kind = .eof) (manyToEnd item) := by
  intro s l s' run
  induction hn : s.unread.length using Nat.strongRecOn generalizing s l with
  | ind n ih =>
    rw [manyToEnd_eq h, isAtEnd_run] at run
    split at run
    · next hk =>
      cases run
      simpa [TokenStream.isAtEnd] using hk
    · cases hi : item s with
      | error e u => cases (bind_error hi).symm.trans run
      | ok a u =>
        rw [bind_ok hi] at run
        cases hr : manyToEnd item u with
        | error e u' => cases (bind_error hr).symm.trans run
        | ok rest u' =>
          rw [bind_ok hr] at run
          cases run
          exact ih _ (hn ▸ h s a u hi) u rest hr rfl

private theorem ensures_schema {room : Nat} {description : Option StringValue} :
    Ensures (fun d s => d.roots.isEmpty → s.peek.kind ≠ .punctuator .braceOpen)
      (schema room description true) :=
  .bind fun _ => .bind fun _ => .map ensures_optionalBlock fun _ _ => id

private theorem ensures_typeDefinition {room : Nat} {kind : TypeKind}
    {description : Option StringValue} :
    Ensures (fun t s => t.body.lacksBlock → s.peek.kind ≠ .punctuator .braceOpen)
      (typeDefinition room kind description) := by
  refine .bind fun _ => .bind fun name => ?_
  cases kind with
  | scalar => exact .map (R := fun _ _ => True) (fun _ _ _ _ => trivial) (by simp [TypeBody.lacksBlock])
  | union =>
    exact .bind fun _ => .map (R := fun _ _ => True) (fun _ _ _ _ => trivial)
      (by simp [TypeBody.lacksBlock])
  | object => exact .bind fun _ => .bind fun _ => .map ensures_optionalBlock fun _ _ => id
  | interface => exact .bind fun _ => .bind fun _ => .map ensures_optionalBlock fun _ _ => id
  | enum => exact .bind fun _ => .map ensures_optionalBlock fun _ _ => id
  | inputObject => exact .bind fun _ => .map ensures_optionalBlock fun _ _ => id

/-- What is to be told of a definition and the stream behind it. -/
private abbrev Apart (d : Definition) (s : TokenStream) : Prop :=
  d.lacksBlock → s.peek.kind ≠ .punctuator .braceOpen

private theorem ensures_trivial {α : Type} {p : Parser α} : Ensures (fun _ _ => True) p :=
  fun _ _ _ _ => trivial

private theorem ensures_typeSystemDefinition {room : Nat} {description : Option StringValue} :
    Ensures (fun d => Apart (.typeSystem d)) (typeSystemDefinition room description) := by
  refine .bind fun t => ?_
  dsimp only
  split
  · exact .map ensures_trivial (by simp [Apart, Definition.lacksBlock])
  · split
    · exact .map ensures_trivial (by simp [Apart, Definition.lacksBlock])
    · split
      · exact .map ensures_typeDefinition fun _ _ => id
      · split
        · exact .mapError .unexpected
        · exact .unexpected

private theorem ensures_extension {room : Nat} :
    Ensures (fun e => Apart (.extension e)) (extension room) := by
  refine .bind fun _ => .bind fun t => ?_
  dsimp only
  split
  · refine .bind_of ensures_schema fun d s e s' hd h => ?_
    split at h
    · cases h
    · cases h
      exact hd
  · split
    · refine .bind_of ensures_typeDefinition fun d s e s' hd h => ?_
      split at h
      · cases h
      · cases h
        exact hd
    · exact .unexpected

/-- No opening brace follows a definition that lacks its block. -/
theorem ensures_definition {room : Nat} :
    Ensures (fun d s => d.lacksBlock → s.peek.kind ≠ .punctuator .braceOpen) (definition room) := by
  refine .bind fun t => ?_
  split
  · exact .map ensures_trivial (by simp [Definition.lacksBlock])
  · exact .bind fun _ => .map ensures_typeSystemDefinition fun _ _ => id
  · exact .bind fun _ => .map ensures_typeSystemDefinition fun _ _ => id
  · split
    · exact .map ensures_trivial (by simp [Definition.lacksBlock])
    · exact .map ensures_trivial (by simp [Definition.lacksBlock])
    · exact .map ensures_trivial (by simp [Definition.lacksBlock])
    · exact .map ensures_trivial (by simp [Definition.lacksBlock])
    · exact .map ensures_extension fun _ _ => id
    · exact .map ensures_typeSystemDefinition fun _ _ => id
  · exact .unexpected

end GraphQL.Parser
