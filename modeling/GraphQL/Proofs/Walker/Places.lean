import Mathlib.Data.List.Pairwise
import GraphQL.Proofs.Walker.Trace

/-! Each place of a document in its trace. A place is told by the path to it, and it is passed twice, once to
enter what stands there and once to leave it. -/
namespace GraphQL

/-- Entering and leaving match as brackets do. -/
inductive Balanced : List Event → Prop where
  | nil : Balanced []
  | cons {n : Node} {t u : List Event} (inside : Balanced t) (behind : Balanced u) :
      Balanced (⟨.enter, n⟩ :: t ++ ⟨.leave, n⟩ :: u)

/-- Entering or leaving the node at the end of a path. -/
structure Visit where
  phase : Phase
  path : List Nat
  deriving DecidableEq

namespace Visit

/-- A node is entered before and left after everything inside it. Of two nodes side by side the first one is
left before the other is entered. -/
def Precedes (first second : Phase) : List Nat → List Nat → Prop
  | [], [] => first = .enter ∧ second = .leave
  | [], _ :: _ => first = .enter
  | _ :: _, [] => second = .leave
  | i :: p, j :: q => i < j ∨ i = j ∧ Precedes first second p q

def Before (v v' : Visit) : Prop := Precedes v.phase v'.phase v.path v'.path

theorem not_precedes_self (φ : Phase) (p : List Nat) : ¬ Precedes φ φ p p := by
  induction p with
  | nil =>
    rintro ⟨rfl, h⟩
    cases h
  | cons i p ih => simpa [Precedes] using ih

/-- The visit as seen from the node around it, in which the place is in the child of this number. -/
def within (i : Nat) (v : Visit) : Visit := ⟨v.phase, i :: v.path⟩

/-- The visit with one more child in front. -/
def behindOne (v : Visit) : Visit :=
  match v.path with
  | [] => v
  | i :: p => ⟨v.phase, (i + 1) :: p⟩

end Visit

namespace Node

/-- The node at the end of a path, which tells at every node the number of the child to go on with. -/
def at? (n : Node) : List Nat → Option Node
  | [] => some n
  | i :: p => n.children[i]?.bind (·.at? p)

/-- The node at the end of a path that starts in one of several nodes side by side. -/
def rowAt? (ns : List Node) : List Nat → Option Node
  | [] => none
  | i :: p => ns[i]?.bind (·.at? p)

end Node

/-- The visits are to every place once for entering and once for leaving, in order, and make up the trace. -/
structure IsTour (place? : List Nat → Option Node) (vs : List Visit) (t : List Event) : Prop where
  ordered : vs.Pairwise Visit.Before
  complete : ∀ v : Visit, v ∈ vs ↔ (place? v.path).isSome
  events : t.map some = vs.map fun v => (place? v.path).map (Event.mk v.phase)

namespace IsTour
open Node
variable {n : Node} {ns : List Node} {vs us : List Visit} {t u : List Event}

theorem nodup {place? : List Nat → Option Node} (h : IsTour place? vs t) : vs.Nodup := by
  refine h.ordered.imp fun {v v'} before same => ?_
  subst same
  exact Visit.not_precedes_self v.phase v.path before

/-- Nodes side by side are no place of their own. -/
private theorem exists_path (h : IsTour (rowAt? ns) vs t) {v : Visit} (hv : v ∈ vs) :
    ∃ φ i p, v = ⟨φ, i :: p⟩ := by
  obtain ⟨φ, _ | ⟨i, p⟩⟩ := v
  · simpa [rowAt?] using (h.complete _).mp hv
  · exact ⟨φ, i, p, rfl⟩

/-- A node around the nodes right inside it. -/
private theorem around (h : IsTour (rowAt? n.children) vs t) :
    IsTour n.at? (⟨.enter, []⟩ :: vs ++ [⟨.leave, []⟩]) (⟨.enter, n⟩ :: t ++ [⟨.leave, n⟩]) where
  ordered := by
    refine List.pairwise_append.mpr ⟨List.pairwise_cons.mpr ⟨fun v hv => ?_, h.ordered⟩,
      List.pairwise_singleton .., fun v hv v' hv' => ?_⟩
    · obtain ⟨φ, i, p, rfl⟩ := h.exists_path hv
      exact rfl
    · cases List.mem_singleton.mp hv'
      rcases List.mem_cons.mp hv with rfl | hv
      · exact ⟨rfl, rfl⟩
      · obtain ⟨φ, i, p, rfl⟩ := h.exists_path hv
        exact rfl
  complete := by
    rintro ⟨φ, _ | ⟨i, p⟩⟩
    · cases φ <;> simp [at?]
    · simpa [at?, rowAt?] using h.complete ⟨φ, i :: p⟩
  events := by
    have same : vs.map (fun v => (n.at? v.path).map (Event.mk v.phase)) =
        vs.map (fun v => (rowAt? n.children v.path).map (Event.mk v.phase)) := by
      refine List.map_congr_left fun v hv => ?_
      obtain ⟨φ, i, p, rfl⟩ := h.exists_path hv
      rfl
    simp [h.events, same, at?]

/-- A node in front of others. -/
private theorem cons (hn : IsTour n.at? vs t) (hs : IsTour (rowAt? ns) us u) :
    IsTour (rowAt? (n :: ns)) (vs.map (.within 0) ++ us.map .behindOne) (t ++ u) where
  ordered := by
    refine List.pairwise_append.mpr ⟨List.pairwise_map.mpr (hn.ordered.imp fun h => .inr ⟨rfl, h⟩),
      List.pairwise_map.mpr (hs.ordered.imp_of_mem fun {v v'} hv hv' h => ?_), fun v hv v' hv' => ?_⟩
    · obtain ⟨φ, i, p, rfl⟩ := hs.exists_path hv
      obtain ⟨ψ, j, q, rfl⟩ := hs.exists_path hv'
      simpa [Visit.Before, Visit.Precedes, Visit.behindOne] using h
    · obtain ⟨v, -, rfl⟩ := List.mem_map.mp hv
      obtain ⟨v', hu, rfl⟩ := List.mem_map.mp hv'
      obtain ⟨φ, i, p, rfl⟩ := hs.exists_path hu
      exact .inl (Nat.succ_pos i)
  complete := by
    have first (v : Visit) : v ∈ vs.map (.within 0) ↔ ∃ φ p, v = ⟨φ, 0 :: p⟩ ∧ ⟨φ, p⟩ ∈ vs := by
      simp only [List.mem_map, Visit.within]
      exact ⟨fun ⟨⟨φ, p⟩, hv, same⟩ => ⟨φ, p, same.symm, hv⟩, fun ⟨φ, p, same, hv⟩ => ⟨⟨φ, p⟩, hv, same.symm⟩⟩
    have further (v : Visit) : v ∈ us.map .behindOne ↔ ∃ φ i p, v = ⟨φ, (i + 1) :: p⟩ ∧ ⟨φ, i :: p⟩ ∈ us := by
      rw [List.mem_map]
      constructor
      · rintro ⟨v, hv, rfl⟩
        obtain ⟨φ, i, p, rfl⟩ := hs.exists_path hv
        exact ⟨φ, i, p, rfl, hv⟩
      · rintro ⟨φ, i, p, rfl, hv⟩
        exact ⟨_, hv, rfl⟩
    rintro ⟨φ, _ | ⟨_ | i, p⟩⟩
    · simp [first, further, rowAt?]
    · simpa [first, further, rowAt?] using hn.complete ⟨φ, p⟩
    · simpa [first, further, rowAt?] using hs.complete ⟨φ, i :: p⟩
  events := by
    have further : us.map (fun v => (rowAt? (n :: ns) v.behindOne.path).map (Event.mk v.behindOne.phase)) =
        us.map (fun v => (rowAt? ns v.path).map (Event.mk v.phase)) := by
      refine List.map_congr_left fun v hv => ?_
      obtain ⟨φ, i, p, rfl⟩ := hs.exists_path hv
      rfl
    rw [List.map_append, List.map_append, List.map_map, List.map_map, hn.events, hs.events]
    exact congrArg₂ (· ++ ·) rfl further.symm

private theorem exists_row (h : ∀ n ∈ ns, ∃ vs, IsTour n.at? vs n.trace) :
    ∃ vs, IsTour (rowAt? ns) vs (traces ns) := by
  induction ns with
  | nil => exact ⟨[], .nil, fun ⟨_, p⟩ => by cases p <;> simp [rowAt?], rfl⟩
  | cons n ns ih =>
    obtain ⟨hn, hs⟩ := List.forall_mem_cons.mp h
    obtain ⟨vs, first⟩ := hn
    obtain ⟨us, further⟩ := ih hs
    exact ⟨_, first.cons further⟩

/-- The trace of a node goes to all places in it. -/
theorem exists_tour (n : Node) : ∃ vs, IsTour n.at? vs n.trace := by
  induction n using Node.induction with
  | step n ih =>
    obtain ⟨vs, inside⟩ := exists_row ih
    rw [trace_eq]
    exact ⟨_, inside.around⟩

end IsTour

namespace Balanced
open Node

theorem append {t u : List Event} (ht : Balanced t) (hu : Balanced u) : Balanced (t ++ u) := by
  induction ht with
  | nil => exact hu
  | cons inside _ _ ih => simpa using inside.cons ih

private theorem traces {ns : List Node} (h : ∀ n ∈ ns, Balanced n.trace) : Balanced (traces ns) := by
  induction ns with
  | nil => exact nil
  | cons n ns ih =>
    obtain ⟨hn, hs⟩ := List.forall_mem_cons.mp h
    exact hn.append (ih hs)

theorem trace (n : Node) : Balanced n.trace := by
  induction n using Node.induction with
  | step n ih =>
    rw [trace_eq]
    exact (traces ih).cons nil

end Balanced
end GraphQL
