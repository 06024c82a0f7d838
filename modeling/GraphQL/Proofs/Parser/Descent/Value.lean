import GraphQL.Parser.Descent.Value
import GraphQL.Proofs.Parser.Descent.Steps
import GraphQL.Proofs.Parser.Progress

/-! Values, arguments, directive annotations and type references in a descent. -/
namespace GraphQL.Descent
open GraphQL.Parser (accept_of expect_of maxNesting)
variable {α : Type}

/-- What room is left inside a level. -/
private theorem room_cases {p : Nat → Parser α} {f : Option (Parser α) → Parser α} (full : p 0 = f none)
    (room : ∀ n, p (n + 1) = f (some (p n))) (d : Nat) :
    ∃ inner, p (maxNesting - d) = f inner ∧ (inner = none ↔ maxNesting ≤ d) ∧
      ∀ q ∈ inner, q = p (maxNesting - (d + 1)) := by
  by_cases h : d < maxNesting
  · obtain ⟨n, hn⟩ : ∃ n, maxNesting - d = n + 1 := ⟨maxNesting - (d + 1), by omega⟩
    have less : maxNesting - (d + 1) = n := by omega
    exact ⟨some (p n), by rw [hn, room], by simpa using h, by simp [less]⟩
  · have left : maxNesting - d = 0 := by omega
    exact ⟨none, by rw [left, full], by simpa using h, by simp⟩

namespace Tracks
variable {fuel d : Nat} {inBlock : Bool} {p : Descent α} {q : Parser α} {s : TokenStream}

theorem named (h : ∀ s, Tracks fuel inBlock [] p q ⟨s, d⟩) :
    Tracks fuel inBlock [] (Descent.named p) (Parser.named q) ⟨s, d⟩ :=
  (step .expectName).bind fun _ _ _ => (step (.expect rfl)).bind fun _ s _ => (h s).map _

/-- Taking a token that is no bracket, and a result. -/
theorem advance_pure {a : α} (inside : s.peek.kind ≠ .eof)
    (plain : ∀ c, s.peek.kind = .punctuator c → c.isBracket = false) :
    Tracks fuel inBlock [] (Descent.step Parser.advance >>= fun _ => Pure.pure a)
      (Parser.advance >>= fun _ => Pure.pure a) ⟨s, d⟩ :=
  (step (.take () rfl inside plain)).map _

theorem value : Tracks fuel false [] (Descent.value fuel) (Parser.value (maxNesting - d)) ⟨s, d⟩ := by
  -- on the fuel, which every level inside lowers
  induction fuel generalizing s d with
  | zero => exact fun hs => absurd hs (Nat.not_lt_zero _)
  | succ fuel ih =>
    obtain ⟨inner, unfolds, room, same⟩ := room_cases (p := Parser.value) rfl (fun _ => rfl) d
    rw [unfolds]
    apply peek_bind
    cases hk : s.peek.kind with
    | int | float | string | blockString | name => exact advance_pure (by simp [hk]) (by simp [hk])
    | illegal | eof => exact unexpected
    | punctuator c =>
      cases c with
      | dollar =>
        exact (step (.take () rfl (by simp [hk]) (by simp [hk, Punctuator.isBracket]))).bind fun _ _ _ =>
          (step .expectName).map _
      | bracketOpen =>
        refine level_bind rfl hk rfl nofun room (fun q hq => ?_) fun items s' => pure _
        rw [same q hq]
        exact manyThrough (.value _) (fun s => ih) ⟨_, hk, rfl⟩
      | braceOpen =>
        refine level_bind rfl hk rfl nofun room (fun q hq => ?_) fun fields s' => pure _
        rw [same q hq]
        exact manyThrough (.namedValue _) (fun s => named fun s => ih) ⟨_, hk, rfl⟩
      | _ => exact unexpected

theorem optionalDefault :
    Tracks fuel false [] (Descent.optionalDefault fuel) (Parser.optionalDefault (maxNesting - d)) ⟨s, d⟩ := by
  refine (step (.accept rfl)).bind fun given s' _ => ?_
  cases given with
  | true => exact value.map _
  | false => exact pure _

/-- Arguments stand in parentheses. -/
theorem arguments : Tracks fuel inBlock [] (Descent.arguments fuel) (Parser.arguments (maxNesting - d)) ⟨s, d⟩ :=
  optionalBlock (.namedValue _) rfl (fun _ _ => openLevels_paren) fun _ => named fun _ => value

theorem directives : Tracks fuel inBlock [] (Descent.directives fuel) (Parser.directives (maxNesting - d)) ⟨s, d⟩ :=
  manyAfter (.directive _) rfl fun _ => (step .expectName).bind fun _ _ _ => arguments.map _

theorem typeReference :
    Tracks fuel false [] (Descent.typeReference fuel) (Parser.typeReference (maxNesting - d)) ⟨s, d⟩ := by
  -- what closes the bracket belongs to the inside of the level, and the exclamation mark stands behind it
  induction fuel generalizing s d with
  | zero => exact fun hs => absurd hs (Nat.not_lt_zero _)
  | succ fuel ih =>
    obtain ⟨inner, unfolds, room, same⟩ := room_cases (p := Parser.typeReference) rfl (fun _ => rfl) d
    rw [unfolds]
    refine accept_bind (fun hk => ?_) ((step .expectName).bind fun _ _ _ => (step (.accept rfl)).map _)
    have inside : Tracks (fuel + 1) false []
        (Descent.step (Parser.accept .bracketOpen) >>= fun _ => enterNested >>= fun _ => (do
          let element ← Descent.typeReference fuel
          Descent.step (Parser.expect .bracketClose)
          return element) >>= fun element => exitNested >>= fun _ => (do
          return TypeReference.list element (← Descent.step (Parser.accept .bang))))
        (Parser.accept .bracketOpen >>= fun _ => Parser.enter inner >>= fun q => (do
          let element ← q
          Parser.expect .bracketClose
          return element) >>= fun element => (do
          return TypeReference.list element (← Parser.accept .bang))) ⟨s, d⟩ := by
      refine level_bind (accept_of hk) hk rfl nofun room (fun q hq => ?_) fun element s' => (step (.accept rfl)).map _
      rw [same q hq]
      exact ih.bind fun element s' _ => expect_bind fun hk' =>
        closing_bind (expect_of hk') hk' ⟨_, hk, rfl⟩ rfl rfl
    exact inside.congr_bind (accept_of hk) (by simp) (by simp)

theorem namedType : Tracks fuel inBlock [] Descent.namedType Parser.namedType ⟨s, d⟩ := (step .expectName).map _

end Tracks
end GraphQL.Descent
