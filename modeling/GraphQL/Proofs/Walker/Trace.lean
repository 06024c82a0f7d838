import GraphQL.Proofs.Walker.Nodes

/-! What a walk does, as a run over a list of events. The events are known from the document alone. -/
namespace GraphQL

/-- A node that is entered or left. -/
structure Event where
  phase : Phase
  node : Node
  deriving DecidableEq

namespace Node

/-- The node is entered, then all that is right inside it is passed through in order, and then it is left. -/
def trace (n : Node) : List Event :=
  ⟨.enter, n⟩ :: n.children.attach.flatMap (fun ⟨c, _⟩ => c.trace) ++ [⟨.leave, n⟩]
termination_by n.rank
decreasing_by exact rank_lt_of_mem_children ‹_›

/-- The events of nodes that stand side by side. -/
def traces (ns : List Node) : List Event := ns.flatMap trace

theorem trace_eq (n : Node) : n.trace = ⟨.enter, n⟩ :: traces n.children ++ [⟨.leave, n⟩] := by
  rw [trace, traces, List.flatMap_subtype (g := trace) (fun _ _ => rfl), List.unattach_attach]

@[simp] theorem traces_nil : traces [] = [] := rfl

@[simp] theorem traces_cons (n : Node) (ns : List Node) : traces (n :: ns) = n.trace ++ traces ns := rfl

@[simp] theorem traces_append (ns ms : List Node) : traces (ns ++ ms) = traces ns ++ traces ms :=
  List.flatMap_append

end Node

/-- The events of a walk over the document. -/
def Document.trace (d : Document) : List Event := (Node.document d).trace

namespace Walker
variable {σ α : Type}

/-- Runs the handlers for one event after another. -/
def run (w : Walker σ) (t : List Event) (s : σ) : σ := t.foldl (fun s e => w.fire e.phase e.node s) s

@[simp] theorem run_nil (w : Walker σ) : w.run [] = id := rfl

theorem run_append (w : Walker σ) (t u : List Event) : w.run (t ++ u) = fun s => w.run u (w.run t s) := by
  funext s
  exact List.foldl_append

/-- A walk that does what the nodes beside each other ask for. -/
def Follows (w : Walker σ) (f : σ → σ) (ns : List Node) : Prop := f = w.run (Node.traces ns)

namespace Follows
variable {w : Walker σ} {f g : σ → σ} {ns ms : List Node}

theorem nothing : w.Follows id [] := rfl

theorem around {n : Node} (h : w.Follows f n.children) : w.Follows (w.visit n f) [n] := by
  funext s
  rw [Node.traces_cons, Node.traces_nil, List.append_nil, Node.trace_eq, run_append]
  exact congrArg (w.fire .leave n) (congrFun h _)

/-- One part after another. -/
theorem andThen (hf : w.Follows f ns) (hg : w.Follows g ms) : w.Follows (fun s => g (f s)) (ns ++ ms) := by
  rw [Follows, Node.traces_append, run_append, ← hf, ← hg]

theorem each {f : α → σ → σ} {node : α → Node} (h : ∀ a, w.Follows (f a) [node a]) (l : IndexedList α) :
    w.Follows (visitEach f l) (l.toList.map node) := by
  unfold visitEach
  induction l.toList with
  | nil => rfl
  | cons a as ih => exact (h a).andThen ih

theorem option {f : α → σ → σ} {node : α → Node} (h : ∀ a, w.Follows (f a) [node a]) (a : Option α) :
    w.Follows (visitOption f a) (a.toList.map node) := by
  cases a with
  | none => rfl
  | some a => exact h a

end Follows
open Follows

variable (w : Walker σ)

mutual

theorem follows_value : ∀ v : Value, w.Follows (w.value v) [.value v]
  | .variable _ | .int _ | .float _ | .string _ | .boolean _ | .null | .enum _ => around (around nothing)
  | .list items => around (around (follows_listItems items))
  | .object fields => around (around (follows_objectFields fields))

theorem follows_listItems : ∀ items : IndexedList Value, w.Follows (w.listItems items) (items.toList.map .value)
  | .nil => nothing
  | .cons _ v rest => (follows_value v).andThen (follows_listItems rest)

theorem follows_objectFields : ∀ fields : IndexedList (Named Value),
    w.Follows (w.objectFields fields) (fields.toList.map .objectField)
  | .nil => nothing
  | .cons _ ⟨_, v⟩ rest => (around (follows_value v)).andThen (follows_objectFields rest)

end

theorem follows_type (t : TypeReference) : w.Follows (w.type t) [.type t] := by
  induction t with
  | named => exact around nothing
  | list element nonNull ih => exact around ih

theorem follows_arguments (l : IndexedList Argument) :
    w.Follows (visitEach w.argument l) (l.toList.map .argument) :=
  each (fun a => around (w.follows_value a.value)) l

theorem follows_directives (l : IndexedList Directive) : w.Follows (w.directives l) (Node.directives l) :=
  each (fun d => around (w.follows_arguments d.arguments)) l

mutual

theorem follows_selection : ∀ x : Selection, w.Follows (w.selection x) [.selection x]
  | .field _ _ args dirs none =>
    around (around (((w.follows_arguments args).andThen (w.follows_directives dirs)).andThen nothing))
  | .field _ _ args dirs (some inner) =>
    around (around (((w.follows_arguments args).andThen (w.follows_directives dirs)).andThen
      (around (follows_selections inner))))
  | .spread _ dirs => around (around (w.follows_directives dirs))
  | .inlineFragment _ dirs inner =>
    around (around ((w.follows_directives dirs).andThen (around (follows_selections inner))))

theorem follows_selections : ∀ l : IndexedList Selection, w.Follows (w.selections l) (l.toList.map .selection)
  | .nil => nothing
  | .cons _ x rest => (follows_selection x).andThen (follows_selections rest)

end

theorem follows_selectionSet (l : SelectionSet) : w.Follows (w.selectionSet l) [.selectionSet l] :=
  around (w.follows_selections l)

/-- A type, perhaps a default value, and directives. -/
private theorem follows_typed (t : TypeReference) (default : Option Value) (dirs : IndexedList Directive) :
    w.Follows (fun s => w.directives dirs (visitOption w.value default (w.type t s)))
      (Node.typed t default dirs) :=
  ((w.follows_type t).andThen (option w.follows_value default)).andThen (w.follows_directives dirs)

theorem follows_variableDefinition (v : VariableDefinition) :
    w.Follows (w.variableDefinition v) [.variableDefinition v] :=
  around (w.follows_typed v.type v.defaultValue v.directives)

theorem follows_executableDefinition (d : ExecutableDefinition) :
    w.Follows (w.executableDefinition d) [.executableDefinition d] := by
  cases d with
  | operation o =>
    exact around (around (around (((each w.follows_variableDefinition o.variableDefinitions).andThen
      (w.follows_directives o.directives)).andThen (w.follows_selectionSet o.selections))))
  | fragment f =>
    exact around (around ((w.follows_directives f.directives).andThen (w.follows_selectionSet f.selections)))

theorem follows_inputValueDefinition (i : InputValueDefinition) :
    w.Follows (w.inputValueDefinition i) [.inputValueDefinition i] :=
  around (w.follows_typed i.type i.defaultValue i.directives)

theorem follows_fieldDefinition (f : FieldDefinition) : w.Follows (w.fieldDefinition f) [.fieldDefinition f] :=
  around (((each w.follows_inputValueDefinition f.arguments).andThen (w.follows_type f.type)).andThen
    (w.follows_directives f.directives))

theorem follows_enumValueDefinition (v : EnumValueDefinition) :
    w.Follows (w.enumValueDefinition v) [.enumValueDefinition v] :=
  around (w.follows_directives v.directives)

theorem follows_schemaParts (x : SchemaDefinition) :
    w.Follows (w.schemaParts x) (Node.schemaDefinition x).children :=
  (w.follows_directives x.directives).andThen (each (fun _ => around nothing) x.roots)

theorem follows_typeParts (t : TypeDefinition) :
    w.Follows (w.typeParts t) (Node.typeParts t.directives t.body) := by
  obtain ⟨description, name, dirs, body⟩ := t
  have dirs := w.follows_directives dirs
  cases body with
  | scalar => exact dirs
  | object is fs => exact ((each w.follows_type is).andThen dirs).andThen (each w.follows_fieldDefinition fs)
  | interface is fs => exact ((each w.follows_type is).andThen dirs).andThen (each w.follows_fieldDefinition fs)
  | union members => exact dirs.andThen (each w.follows_type members)
  | enum values => exact dirs.andThen (each w.follows_enumValueDefinition values)
  | inputObject fs => exact dirs.andThen (each w.follows_inputValueDefinition fs)

theorem follows_definition (d : Definition) : w.Follows (w.definition d) [.definition d] := by
  rcases d with x | (x | t | x) | (x | t)
  · exact around (w.follows_executableDefinition x)
  · exact around (around (around (w.follows_schemaParts x)))
  · exact around (around (around (around (w.follows_typeParts t))))
  · exact around (around (around (each w.follows_inputValueDefinition x.arguments)))
  · exact around (around (around (w.follows_schemaParts x)))
  · exact around (around (around (w.follows_typeParts t)))

/-- A walk is a run over the events of the document. -/
theorem walk_eq_run (d : Document) : w.walk d = w.run d.trace :=
  (around (each w.follows_definition d.definitions) : w.Follows (w.walk d) [.document d]).trans
    (congrArg w.run (List.append_nil _))

end Walker
end GraphQL
