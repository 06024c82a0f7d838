import GraphQL.Proofs.Walker.Trace

/-! The nodes that a walk enters, and walks that do nothing when they leave. -/
namespace GraphQL

/-- The node of an event, if it is entered there. -/
def Event.entered? (e : Event) : Option Node :=
  match e.phase with
  | .enter => some e.node
  | .leave => none

namespace Node

/-- The node and all nodes inside it, in the order in which they are entered. -/
def nodes (n : Node) : List Node := n.trace.filterMap (·.entered?)

theorem nodes_eq (n : Node) : n.nodes = n :: n.children.flatMap nodes := by
  rw [nodes, trace_eq, traces]
  simp only [List.filterMap_append, List.filterMap_cons, Event.entered?, List.filterMap_nil, List.append_nil,
    List.filterMap_flatMap]
  rfl

end Node

/-- All nodes of the document, in the order in which they are entered. -/
def Document.nodes (d : Document) : List Node := (Node.document d).nodes

namespace NodeKind

/-- Whether what is right inside nodes of the kind is a definition or an extension, or the sort of one. -/
def wrapsDefinition : NodeKind → Bool
  | document | definition | executableDefinition | operationDefinition | typeSystemDefinition | typeDefinition
  | typeSystemExtension => true
  | _ => false

/-- Whether nodes of the kind are parts of definitions and extensions. -/
def isPart : NodeKind → Bool
  | variableDefinition | selectionSet | selection | selectionVariant _ | argument | directive | objectField
  | type | value | valueVariant _ | rootOperation | fieldDefinition | inputValueDefinition
  | enumValueDefinition => true
  | _ => false

theorem wrapsDefinition_of_isPart {k : NodeKind} (h : k.isPart) : k.wrapsDefinition = false := by
  cases k <;> first | rfl | cases h

end NodeKind

namespace Node

/-- All nodes of a row are parts. -/
private def Parts (ns : List Node) : Prop := ∀ c ∈ ns, c.kind.isPart

namespace Parts

private theorem nil : Parts [] := by simp [Parts]

private theorem one {n : Node} (h : n.kind.isPart) : Parts [n] := List.forall_mem_singleton.mpr h

private theorem append {a b : List Node} (ha : Parts a) (hb : Parts b) : Parts (a ++ b) :=
  List.forall_mem_append.mpr ⟨ha, hb⟩

private theorem map {α : Type} {node : α → Node} (h : ∀ a, (node a).kind.isPart) (as : List α) :
    Parts (as.map node) :=
  List.forall_mem_map.mpr fun a _ => h a

private theorem directives (l : IndexedList Directive) : Parts (directives l) := map (fun _ => rfl) _

private theorem typed (t : TypeReference) (default : Option Value) (dirs : IndexedList Directive) :
    Parts (typed t default dirs) :=
  append (append (a := [_]) (one rfl) (map (fun _ => rfl) _)) (directives dirs)

private theorem typeParts (dirs : IndexedList Directive) (b : TypeBody) : Parts (typeParts dirs b) := by
  have dirs := directives dirs
  cases b with
  | scalar => exact dirs
  | object is fs | interface is fs => exact append (append (map (fun _ => rfl) _) dirs) (map (fun _ => rfl) _)
  | union members => exact append dirs (map (fun _ => rfl) _)
  | enum values => exact append dirs (map (fun _ => rfl) _)
  | inputObject fs => exact append dirs (map (fun _ => rfl) _)

private theorem children {n : Node} (h : n.kind.wrapsDefinition = false) : Parts n.children := by
  cases n with
  | document _ | definition _ | executableDefinition _ | operationDefinition _ | typeSystemDefinition _
  | typeDefinition _ | typeSystemExtension _ => cases h
  | operationVariant o => exact append (append (map (fun _ => rfl) _) (directives _)) (one rfl)
  | fragmentDefinition f => exact append (directives _) (one rfl)
  | variableDefinition v => exact typed _ _ _
  | selectionSet s => exact map (fun _ => rfl) _
  | selection s => exact one rfl
  | selectionVariant s =>
    cases s with
    | field => exact append (append (map (fun _ => rfl) _) (directives _)) (map (fun _ => rfl) _)
    | spread => exact directives _
    | inlineFragment => exact append (directives _) (one rfl)
  | argument a | objectField f => exact one rfl
  | directive d => exact map (fun _ => rfl) _
  | type t =>
    cases t with
    | named => exact nil
    | list => exact one rfl
  | value v => exact one rfl
  | valueVariant v =>
    cases v with
    | list items | object fields => exact map (fun _ => rfl) _
    | _ => exact nil
  | schemaDefinition x | schemaExtension x => exact append (directives _) (map (fun _ => rfl) _)
  | rootOperation r => exact nil
  | typeVariant t | typeExtension t => exact typeParts _ _
  | fieldDefinition f => exact append (append (map (fun _ => rfl) _) (one rfl)) (directives _)
  | inputValueDefinition i => exact typed _ _ _
  | enumValueDefinition v => exact directives _
  | directiveDefinition x => exact map (fun _ => rfl) _

end Parts

/-- All that is inside a part is a part. -/
theorem isPart_of_mem_nodes (n : Node) : n.kind.isPart → ∀ c ∈ n.nodes, c.kind.isPart := by
  induction n using Node.induction with
  | step n ih =>
    intro h
    have children := Parts.children (NodeKind.wrapsDefinition_of_isPart h)
    rw [nodes_eq]
    refine List.forall_mem_cons.mpr ⟨h, fun m hm => ?_⟩
    obtain ⟨c, hc, hm⟩ := List.mem_flatMap.mp hm
    exact ih c hc (children c hc) m hm

/-- The nodes that are no parts of definitions or extensions. -/
def wholes (n : Node) : List Node := n.nodes.filter (!·.kind.isPart)

theorem wholes_eq_nil {n : Node} (h : n.kind.isPart) : n.wholes = [] :=
  List.filter_eq_nil_iff.mpr fun c hc => by simpa using isPart_of_mem_nodes n h c hc

theorem wholes_eq {n : Node} (h : n.kind.isPart = false) : n.wholes = n :: n.children.flatMap wholes := by
  rw [wholes, nodes_eq, List.filter_cons_of_pos (by simpa using h), List.filter_flatMap]
  rfl

/-- A node with one node inside. -/
theorem wholes_cons {n c : Node} {ns : List Node} (h : n.kind.isPart = false) (only : n.children = [c])
    (inside : c.wholes = ns) : n.wholes = n :: ns := by
  rw [wholes_eq h, only, List.flatMap_singleton, inside]

/-- A definition or extension holds nothing but parts. -/
theorem wholes_eq_singleton {n : Node} (h : n.kind.isPart = false) (wraps : n.kind.wrapsDefinition = false) :
    n.wholes = [n] := by
  rw [wholes_eq h, List.flatMap_eq_nil_iff.mpr fun c hc => wholes_eq_nil (Parts.children wraps c hc)]

end Node

/-- A definition with the unions that it is in. -/
def Definition.spine : Definition → List Node
  | d@(.executable x@(.operation o)) =>
    [.definition d, .executableDefinition x, .operationDefinition o, .operationVariant o]
  | d@(.executable x@(.fragment f)) => [.definition d, .executableDefinition x, .fragmentDefinition f]
  | d@(.typeSystem x@(.schema s)) => [.definition d, .typeSystemDefinition x, .schemaDefinition s]
  | d@(.typeSystem x@(.type t)) => [.definition d, .typeSystemDefinition x, .typeDefinition t, .typeVariant t]
  | d@(.typeSystem x@(.directive s)) => [.definition d, .typeSystemDefinition x, .directiveDefinition s]
  | d@(.extension x@(.schema s)) => [.definition d, .typeSystemExtension x, .schemaExtension s]
  | d@(.extension x@(.type t)) => [.definition d, .typeSystemExtension x, .typeExtension t]

theorem Definition.wholes_eq (d : Definition) : (Node.definition d).wholes = d.spine := by
  rcases d with (o | f) | (x | t | x) | (x | t)
  · exact Node.wholes_cons rfl rfl (Node.wholes_cons rfl rfl
      (Node.wholes_cons rfl rfl (Node.wholes_eq_singleton rfl rfl)))
  · exact Node.wholes_cons rfl rfl (Node.wholes_cons rfl rfl (Node.wholes_eq_singleton rfl rfl))
  · exact Node.wholes_cons rfl rfl (Node.wholes_cons rfl rfl (Node.wholes_eq_singleton rfl rfl))
  · exact Node.wholes_cons rfl rfl (Node.wholes_cons rfl rfl
      (Node.wholes_cons rfl rfl (Node.wholes_eq_singleton rfl rfl)))
  · exact Node.wholes_cons rfl rfl (Node.wholes_cons rfl rfl (Node.wholes_eq_singleton rfl rfl))
  · exact Node.wholes_cons rfl rfl (Node.wholes_cons rfl rfl (Node.wholes_eq_singleton rfl rfl))
  · exact Node.wholes_cons rfl rfl (Node.wholes_cons rfl rfl (Node.wholes_eq_singleton rfl rfl))

/-- Apart from what is inside them, the nodes of a document are its definitions and extensions. -/
theorem Document.wholes_eq (d : Document) :
    d.nodes.filter (!·.kind.isPart) = .document d :: d.definitions.toList.flatMap (·.spine) := by
  have outer : (Node.document d).wholes =
      .document d :: (d.definitions.toList.map .definition).flatMap Node.wholes := Node.wholes_eq rfl
  rw [List.flatMap_map, List.flatMap_congr fun x _ => x.wholes_eq] at outer
  exact outer

namespace Walker
variable {σ : Type} {w : Walker σ}

/-- Nothing happens where no handler is registered. -/
theorem fire_eq_self {phase : Phase} {n : Node} (h : ∀ x ∈ w, ¬ (x.kind = n.kind ∧ x.phase = phase)) (s : σ) :
    w.fire phase n s = s := by
  unfold fire
  induction w with
  | nil => rfl
  | cons x w ih =>
    obtain ⟨hx, hw⟩ := List.forall_mem_cons.mp h
    rw [List.foldl_cons, if_neg hx, ih hw]

/-- Without handlers for leaving, a walk is a run over the nodes alone. -/
theorem walk_eq_foldl_nodes (h : ∀ x ∈ w, x.phase = .enter) (d : Document) (s : σ) :
    w.walk d s = d.nodes.foldl (fun s n => w.fire .enter n s) s := by
  have leave (n : Node) (s : σ) : w.fire .leave n s = s := fire_eq_self (fun x hx => by simp [h x hx]) s
  rw [walk_eq_run, Document.nodes, Node.nodes, List.foldl_filterMap, run]
  congr
  funext s ⟨phase, n⟩
  cases phase with
  | enter => rfl
  | leave => exact leave n s

/-- Handlers for entering whole definitions and extensions run from each of these to the next. -/
theorem walk_eq_foldl_spine (enter : ∀ x ∈ w, x.phase = .enter) (whole : ∀ x ∈ w, x.kind.isPart = false)
    (d : Document) (s : σ) : w.walk d s = d.definitions.toList.foldl
      (fun s x => x.spine.foldl (fun s n => w.fire .enter n s) s) (w.fire .enter (.document d) s) := by
  have part (n : Node) (h : n.kind.isPart) (s : σ) : w.fire .enter n s = s := by
    refine fire_eq_self (fun x hx same => ?_) s
    rw [← same.1, whole x hx] at h
    cases h
  have wholes : d.nodes.foldl (fun s n => w.fire .enter n s) s =
      (d.nodes.filter (!·.kind.isPart)).foldl (fun s n => w.fire .enter n s) s := by
    rw [List.foldl_filter]
    congr
    funext s n
    split
    · rfl
    · next h => exact part n (by simpa using h) s
  rw [walk_eq_foldl_nodes enter, wholes, d.wholes_eq, List.foldl_cons, List.foldl_flatMap]

end Walker
end GraphQL
