import GraphQL.Layout.Document
import GraphQL.Proofs.Grammar.Spelling
import GraphQL.Proofs.Layout.Executable
import GraphQL.Proofs.Walker.Nodes

/-! Where the nodes of a document stand in its printed text. What is right inside a node stands inside its
text, in the order of the children. -/
namespace GraphQL
open Layout

namespace Node

/-- The layouts in which a node is printed. They differ in indentation, in what sets off a description, and in
whether a query may be written as its selection set alone. -/
def IsPrintedAs : Node → Layout → Prop
  | document d, l => l = d.layout
  | definition d, l => ∃ shorthand, l = d.layout shorthand
  | executableDefinition d, l => ∃ shorthand, l = (Definition.executable d).layout shorthand
  | operationDefinition o, l | operationVariant o, l => ∃ shorthand, l = o.layout shorthand
  | fragmentDefinition f, l => l = f.layout
  | variableDefinition v, l => l = v.layout
  | selectionSet s, l => ∃ depth, l = block depth (Selection.layouts (depth + 1) s)
  | selection s, l | selectionVariant s, l => ∃ depth, l = s.layout depth
  | argument a, l | objectField a, l => l = Value.fieldLayout a
  | directive d, l => l = d.layout
  | type t, l => l = t.layout
  | value v, l | valueVariant v, l => l = v.layout
  | typeSystemDefinition d, l => ∃ shorthand, l = (Definition.typeSystem d).layout shorthand
  | schemaDefinition x, l => l = x.layout false
  | rootOperation r, l => l = r.layout
  | typeDefinition t, l | typeVariant t, l | typeExtension t, l => l = t.layout
  | fieldDefinition f, l => l = f.layout
  | inputValueDefinition i, l => ∃ between, l = i.layout between
  | enumValueDefinition v, l => l = v.layout
  | directiveDefinition x, l => l = x.layout
  | typeSystemExtension e, l => ∃ shorthand, l = (Definition.extension e).layout shorthand
  | schemaExtension x, l => l = x.layout true

/-- Nodes side by side stand one behind the other in a printed text, each with a text of its own in which all
that is inside it stands in the same way. -/
inductive StandIn : List Node → Layout → Prop where
  | nil (l : Layout) : StandIn [] l
  | cons {n : Node} {ns : List Node} {own behind : Layout} (before : Layout) (printed : n.IsPrintedAs own)
      (inside : StandIn n.children own) (rest : StandIn ns behind) : StandIn (n :: ns) (before ++ own ++ behind)

/-- Nodes side by side that stand one behind the other in a printed text. -/
inductive InOrder : List Node → Layout → Prop where
  | nil (l : Layout) : InOrder [] l
  | cons {n : Node} {ns : List Node} {own behind : Layout} (before : Layout) (printed : n.IsPrintedAs own)
      (rest : InOrder ns behind) : InOrder (n :: ns) (before ++ own ++ behind)

namespace InOrder
variable {n : Node} {ns ms : List Node} {l m : Layout} {parts : List Layout}

theorem behind (x : Layout) (h : InOrder ns l) : InOrder ns (x ++ l) := by
  cases h with
  | nil => exact .nil _
  | cons before printed rest =>
    rw [← List.append_assoc, ← List.append_assoc]
    exact .cons (x ++ before) printed rest

theorem skip (p : Piece) (h : InOrder ns l) : InOrder ns (p :: l) := h.behind [p]

theorem append (h : InOrder ns l) (h' : InOrder ms m) : InOrder (ns ++ ms) (l ++ m) := by
  induction h with
  | nil l => exact h'.behind l
  | cons before printed _ ih =>
    rw [List.append_assoc]
    exact .cons before printed ih

theorem before (x : Layout) (h : InOrder ns l) : InOrder ns (l ++ x) := by
  simpa using h.append (.nil x)

theorem one (h : n.IsPrintedAs l) : InOrder [n] l := by
  simpa using (InOrder.nil []).cons [] h

/-- Nodes whose layouts are separated from each other. -/
theorem joined (separator : Layout) (h : List.Forall₂ IsPrintedAs ns parts) :
    InOrder ns (joined separator parts) := by
  induction h with
  | nil => exact .nil _
  | @cons n part ns parts first _ ih =>
    cases parts with
    | nil =>
      cases ns with
      | nil => exact .before [] (.one first)
      | cons => cases ‹List.Forall₂ _ _ _›
    | cons part' parts =>
      have rest : InOrder ns (separator ++ Layout.joined separator (part' :: parts)) := ih.behind separator
      exact (one first).append rest

/-- Nodes whose layouts stand behind a piece each. -/
theorem listed (p : Piece) (h : List.Forall₂ IsPrintedAs ns parts) : InOrder ns (parts.flatMap (p :: ·)) := by
  induction h with
  | nil => exact .nil _
  | cons first _ ih => exact ((one first).skip p).append ih

theorem block (depth : Nat) (h : List.Forall₂ IsPrintedAs ns parts) : InOrder ns (block depth parts) :=
  ((listed _ h).skip _).before _

theorem optionalBlock (depth : Nat) (h : List.Forall₂ IsPrintedAs ns parts) :
    InOrder ns (optionalBlock depth parts) := by
  unfold Layout.optionalBlock
  split
  · next none =>
    cases List.isEmpty_iff.mp none
    cases h
    exact .nil _
  · exact (block depth h).skip _

theorem optionalParens (h : List.Forall₂ IsPrintedAs ns parts) : InOrder ns (optionalParens parts) := by
  unfold Layout.optionalParens
  split
  · next none =>
    cases List.isEmpty_iff.mp none
    cases h
    exact .nil _
  · exact ((joined _ h).skip _).before _

end InOrder
open InOrder

/-- Nodes of one kind and their layouts. -/
private theorem forall_printed {α : Type} (node : α → Node) (f : α → Layout) (as : List α)
    (h : ∀ a, (node a).IsPrintedAs (f a)) :
    List.Forall₂ IsPrintedAs (as.map node) (as.map f) := by
  induction as with
  | nil => exact .nil
  | cons a as ih => exact .cons (h a) ih

private theorem inOrder_directives (l : IndexedList Directive) : InOrder (directives l) (directiveList l) := by
  have printed := listed space (forall_printed directive Directive.layout l.toList fun _ => rfl)
  rwa [List.flatMap_map] at printed

private theorem inOrder_arguments (l : IndexedList Argument) :
    InOrder (l.toList.map argument) (argumentList l) := by
  rw [argumentList, Value.fieldLayouts_eq]
  exact .optionalParens (forall_printed argument Value.fieldLayout _ fun _ => rfl)

private theorem inOrder_type (t : TypeReference) : InOrder [type t] (typeClause t) :=
  .skip _ (.skip _ (.one rfl))

/-- A type with what stands in front of it, perhaps a default value, and directives. -/
private theorem inOrder_typed {t : TypeReference} {l : Layout} (h : InOrder [type t] l)
    (default : Option Value) (dirs : IndexedList Directive) :
    InOrder (typed t default dirs) (l ++ defaultClause default ++ directiveList dirs) := by
  refine .append (h.append ?_) (inOrder_directives dirs)
  cases default with
  | none => exact .nil _
  | some v => exact .skip _ (.skip _ (.skip _ (.one rfl)))

private theorem inOrder_inputs (l : IndexedList InputValueDefinition) :
    InOrder (l.toList.map inputValueDefinition) (argumentDefinitionList l) :=
  .optionalParens (forall_printed inputValueDefinition (·.layout space) _ fun _ => ⟨_, rfl⟩)

private theorem inOrder_types (introduction : Layout) (p : Punctuator) (l : IndexedList TypeReference) :
    InOrder (l.toList.map type) (typeList introduction p l) := by
  unfold typeList
  split
  · next none =>
    cases (IndexedList.isEmpty_iff_eq_nil l).mp none
    exact .nil _
  · exact .behind _ (.joined _ (forall_printed type TypeReference.layout _ fun _ => rfl))

private theorem inOrder_typeParts (t : TypeDefinition) : InOrder (typeParts t.directives t.body) t.layout := by
  obtain ⟨description, name, dirs, body⟩ := t
  have dirs := inOrder_directives dirs
  refine .behind _ ?_
  cases body with
  | scalar => exact dirs
  | object is fs | interface is fs =>
    exact ((inOrder_types _ _ is).append dirs).append
      (.optionalBlock 0 (forall_printed fieldDefinition FieldDefinition.layout _ fun _ => rfl))
  | union members => exact dirs.append (inOrder_types _ _ members)
  | enum values =>
    exact dirs.append
      (.optionalBlock 0 (forall_printed enumValueDefinition EnumValueDefinition.layout _ fun _ => rfl))
  | inputObject fs =>
    exact dirs.append
      (.optionalBlock 0 (forall_printed inputValueDefinition (·.layout (newline 1)) _ fun _ => ⟨_, rfl⟩))

private theorem inOrder_schemaParts (x : SchemaDefinition) (isExtension : Bool) :
    InOrder (schemaDefinition x).children (x.layout isExtension) := by
  refine .append (.behind _ (.skip _ (inOrder_directives x.directives))) ?_
  split
  · next none =>
    have none : x.roots = .nil := (IndexedList.isEmpty_iff_eq_nil _).mp (Bool.and_eq_true_iff.mp none).2
    rw [none]
    exact .nil _
  · exact .skip _ (.block 0 (forall_printed rootOperation RootOperation.layout _ fun _ => rfl))

private theorem inOrder_operation (o : OperationDefinition) (shorthand : Bool) :
    InOrder (operationVariant o).children (o.layout shorthand) := by
  refine .append ?_ (.one ⟨0, rfl⟩)
  split
  · next short =>
    rw [OperationDefinition.eq_of_isShorthand (Bool.and_eq_true_iff.mp short).1]
    exact .nil _
  · have vars := InOrder.optionalParens
      (forall_printed variableDefinition VariableDefinition.layout o.variableDefinitions.toList fun _ => rfl)
    exact .before _ (.append (.behind _ vars) (inOrder_directives o.directives))

private theorem inOrder_selection (s : Selection) (depth : Nat) :
    InOrder (selectionVariant s).children (s.layout depth) := by
  cases s with
  | field aliasName name args dirs selections =>
    have front (x : Layout) : InOrder (args.toList.map argument ++ directives dirs)
        (x ++ word name :: argumentList args ++ directiveList dirs) :=
      .append (.behind _ (.skip _ (inOrder_arguments args))) (inOrder_directives dirs)
    cases selections with
    | none => exact .append (front _) (.nil _)
    | some selections => exact .append (front _) (.skip _ (.one ⟨depth, rfl⟩))
  | spread name dirs => exact .skip _ (.skip _ (inOrder_directives dirs))
  | inlineFragment condition dirs selections =>
    exact .append (.behind _ (inOrder_directives dirs)) (.skip _ (.one ⟨depth, rfl⟩))

private theorem inOrder_definitions (shorthand : Bool) (ds : List Definition) :
    List.Forall₂ IsPrintedAs (ds.map definition) (Definition.layouts shorthand ds) := by
  induction ds generalizing shorthand with
  | nil => exact .nil
  | cons d ds ih => exact .cons ⟨shorthand, rfl⟩ (ih d.isExecutable)

/-- The children of a node stand in its text, one behind the other. -/
theorem IsPrintedAs.inOrder {n : Node} {l : Layout} (h : n.IsPrintedAs l) : InOrder n.children l := by
  cases n with
  | document d =>
    cases h
    exact .before _ (.joined _ (inOrder_definitions true _))
  | definition d =>
    obtain ⟨shorthand, rfl⟩ := h
    cases d <;> exact .one ⟨shorthand, rfl⟩
  | executableDefinition d =>
    obtain ⟨shorthand, rfl⟩ := h
    cases d with
    | operation o => exact .one ⟨shorthand, rfl⟩
    | fragment f => exact .one rfl
  | operationDefinition o => exact .one h
  | operationVariant o =>
    obtain ⟨shorthand, rfl⟩ := h
    exact inOrder_operation o shorthand
  | fragmentDefinition f =>
    cases h
    exact .append (.behind _ (inOrder_directives f.directives)) (.skip _ (.one ⟨0, rfl⟩))
  | variableDefinition v =>
    cases h
    exact inOrder_typed (.skip _ (.skip _ (inOrder_type v.type))) v.defaultValue v.directives
  | selectionSet s =>
    obtain ⟨depth, rfl⟩ := h
    rw [Selection.layouts_eq]
    exact .block depth (forall_printed selection (Selection.layout (depth + 1)) _ fun _ => ⟨_, rfl⟩)
  | selection s => exact .one h
  | selectionVariant s =>
    obtain ⟨depth, rfl⟩ := h
    exact inOrder_selection s depth
  | argument a | objectField f =>
    cases h
    exact .skip _ (.skip _ (.skip _ (.one rfl)))
  | directive d =>
    cases h
    exact .skip _ (.skip _ (inOrder_arguments d.arguments))
  | type t =>
    cases h
    cases t with
    | named => exact .nil _
    | list element nonNull => exact .before _ (.skip _ (.one rfl))
  | value v => exact .one h
  | valueVariant v =>
    cases h
    cases v with
    | list items =>
      rw [Value.layout, Value.itemLayouts_eq]
      exact .before _ (.skip _ (.joined _ (forall_printed value Value.layout _ fun _ => rfl)))
    | object fields =>
      rw [Value.layout, Value.fieldLayouts_eq]
      exact .before _ (.skip _ (.joined _ (forall_printed objectField Value.fieldLayout _ fun _ => rfl)))
    | _ => exact .nil _
  | typeSystemDefinition d =>
    obtain ⟨shorthand, rfl⟩ := h
    cases d <;> exact .one rfl
  | schemaDefinition x =>
    cases h
    exact inOrder_schemaParts x false
  | rootOperation r => exact .nil _
  | typeDefinition t => exact .one h
  | typeVariant t | typeExtension t =>
    cases h
    exact inOrder_typeParts t
  | fieldDefinition f =>
    cases h
    exact .append (.append (.behind _ (.skip _ (inOrder_inputs f.arguments))) (inOrder_type f.type))
      (inOrder_directives f.directives)
  | inputValueDefinition i =>
    obtain ⟨between, rfl⟩ := h
    exact inOrder_typed (.behind _ (.skip _ (inOrder_type i.type))) i.defaultValue i.directives
  | enumValueDefinition v =>
    cases h
    exact .behind _ (.skip _ (inOrder_directives v.directives))
  | directiveDefinition x =>
    cases h
    exact .before _ (.before _ (.before _ (.behind _ (inOrder_inputs x.arguments))))
  | typeSystemExtension e =>
    obtain ⟨shorthand, rfl⟩ := h
    cases e <;> exact .skip _ (.skip _ (.one rfl))
  | schemaExtension x =>
    cases h
    exact inOrder_schemaParts x true

private theorem InOrder.standIn {ns : List Node} {l : Layout} (h : InOrder ns l)
    (inside : ∀ n ∈ ns, ∀ own, n.IsPrintedAs own → StandIn n.children own) : StandIn ns l := by
  induction h with
  | nil l => exact .nil l
  | cons before printed _ ih =>
    obtain ⟨hn, hs⟩ := List.forall_mem_cons.mp inside
    exact .cons before printed (hn _ printed) (ih hs)

/-- Everything inside a node stands in its text, at any depth. -/
theorem IsPrintedAs.standIn (n : Node) : ∀ {l : Layout}, n.IsPrintedAs l → StandIn n.children l := by
  induction n using Node.induction with
  | step n ih => exact fun h => h.inOrder.standIn fun c hc _ printed => ih c hc printed

end Node
end GraphQL
