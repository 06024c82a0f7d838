import GraphQL.Proofs.Walker.Entered
import GraphQL.Proofs.Walker.Places
import GraphQL.Proofs.Walker.Printed

/-! The calls that a walk makes. They are read off a trace that the document alone determines, whatever handlers
are registered. -/
namespace GraphQL

/-- Whether nodes of the kind define a part of the type system. -/
def NodeKind.isTypeSystemDefinition : NodeKind → Bool
  | typeSystemDefinition | schemaDefinition | typeDefinition | typeVariant _ | directiveDefinition => true
  | _ => false

theorem NodeKind.isTypeSystemDefinition_of_isPart {k : NodeKind} (h : k.isPart) :
    k.isTypeSystemDefinition = false := by
  cases k <;> first | rfl | cases h

namespace Node
variable {n m : Node}

theorem at?_append (n : Node) (p q : List Nat) : n.at? (p ++ q) = (n.at? p).bind (·.at? q) := by
  induction p generalizing n with
  | nil => rfl
  | cons i p ih =>
    rw [List.cons_append, at?, at?, Option.bind_assoc]
    exact congrArg _ (funext ih)

theorem mem_nodes_of_at? {p : List Nat} (h : n.at? p = some m) : m ∈ n.nodes := by
  induction p generalizing n with
  | nil =>
    cases h
    rw [nodes_eq]
    exact .head _
  | cons i p ih =>
    obtain ⟨c, hc, inside⟩ := Option.bind_eq_some_iff.mp h
    rw [nodes_eq]
    exact .tail _ (List.mem_flatMap.mpr ⟨c, List.mem_of_getElem? hc, ih inside⟩)

/-- Nothing inside an extension is a definition. -/
theorem not_definition_of_extension {e : TypeSystemExtension} (h : n ∈ (typeSystemExtension e).nodes) :
    n.kind.isTypeSystemDefinition = false := by
  cases part : n.kind.isPart with
  | true => exact NodeKind.isTypeSystemDefinition_of_isPart part
  | false =>
    have whole : n ∈ (typeSystemExtension e).wholes := List.mem_filter.mpr ⟨h, by simp [part]⟩
    cases e with
    | schema x =>
      rw [wholes_cons rfl rfl (wholes_eq_singleton (n := schemaExtension x) rfl rfl)] at whole
      rcases List.mem_pair.mp whole with rfl | rfl <;> rfl
    | type t =>
      rw [wholes_cons rfl rfl (wholes_eq_singleton (n := typeExtension t) rfl rfl)] at whole
      rcases List.mem_pair.mp whole with rfl | rfl <;> rfl

end Node

/-- The trace of a document. Each of its nodes is entered once and left once, around all that is inside it, and
nodes side by side come in the order in which they are printed. -/
structure Document.IsTrace (d : Document) (t : List Event) : Prop where
  balanced : Balanced t
  /-- Every place is entered once and left once, each in the order of the paths. -/
  places : ∃ vs : List Visit, vs.Nodup ∧ IsTour (Node.document d).at? vs t
  printed : Node.StandIn [.document d] d.layout
  /-- A node of a union is around its variant, and around nothing else. -/
  variants : ∀ p n v, (Node.document d).at? p = some n → n.variant? = some v →
    ∀ i, (Node.document d).at? (p ++ [i]) = if i = 0 then some v else none
  /-- Around the parts of definitions and extensions are these, with the unions that they are in. -/
  wholes : (t.filterMap (·.entered?)).filter (!·.kind.isPart) =
    .document d :: d.definitions.toList.flatMap (·.spine)
  /-- An extension of the type system is not entered as a definition, and nothing inside it is. -/
  extensions : ∀ p q e n, (Node.document d).at? p = some (.typeSystemExtension e) →
    (Node.document d).at? (p ++ q) = some n → n.kind.isTypeSystemDefinition = false

theorem Document.isTrace_trace (d : Document) : d.IsTrace d.trace where
  balanced := .trace (.document d)
  places := by
    obtain ⟨vs, tour⟩ := IsTour.exists_tour (.document d)
    exact ⟨vs, tour.nodup, tour⟩
  printed := by
    have whole := Node.StandIn.cons (n := .document d) [] rfl (Node.IsPrintedAs.standIn _ rfl) (.nil [])
    simpa using whole
  variants := by
    intro p n v hn hv i
    rw [Node.at?_append, hn]
    cases i <;> simp [Node.at?, Node.children_eq_of_variant? hv]
  wholes := d.wholes_eq
  extensions := by
    intro p q e n he hn
    rw [Node.at?_append, he] at hn
    exact Node.not_definition_of_extension (Node.mem_nodes_of_at? hn)

namespace Walker
variable {σ : Type}

/-- The handlers that are registered for an event, in the order of their registration, each with the node that
it is called for. -/
def calls (w : Walker σ) (e : Event) : List (Handler σ × Node) :=
  (w.filter fun h => h.kind = e.node.kind ∧ h.phase = e.phase).map (·, e.node)

/-- Makes one call after another. -/
def make (cs : List (Handler σ × Node)) (s : σ) : σ := cs.foldl (fun s c => c.1.action c.2 s) s

theorem fire_eq_make (w : Walker σ) (e : Event) (s : σ) : w.fire e.phase e.node s = make (w.calls e) s := by
  rw [fire, make, calls, List.foldl_map, List.foldl_filter]
  simp

theorem run_eq_make (w : Walker σ) (t : List Event) (s : σ) : w.run t s = make (t.flatMap w.calls) s := by
  induction t generalizing s with
  | nil => rfl
  | cons e t ih =>
    refine (ih _).trans ?_
    have first := w.fire_eq_make e s
    rw [List.flatMap_cons]
    exact (congrArg (make _) first).trans List.foldl_append.symm

/-- A walk makes the calls for the events of the trace of the document, in their order. -/
theorem walk_calls (d : Document) :
    d.IsTrace d.trace ∧
      ∀ {σ : Type} (w : Walker σ) (s : σ), w.walk d s = make (d.trace.flatMap w.calls) s :=
  ⟨d.isTrace_trace, fun w s => (congrFun (w.walk_eq_run d) s).trans (w.run_eq_make d.trace s)⟩

end Walker
end GraphQL
