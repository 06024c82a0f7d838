import Mathlib.Data.List.Basic
import GraphQL.Walker

/-! Documents as trees of nodes. A table says what stands right inside each node, and from it follows in
which order all nodes of a document are entered and left. -/
namespace GraphQL

theorem IndexedList.sizeOf_lt_of_mem {α : Type} [SizeOf α] {l : IndexedList α} {a : α}
    (h : a ∈ l.toList) : sizeOf a < sizeOf l := by
  induction l with
  | nil => cases h
  | cons p b rest ih =>
    rw [IndexedList.cons.sizeOf_spec]
    rcases List.mem_cons.mp h with rfl | h
    · omega
    · have := ih h
      omega

namespace Node

/-- Directive annotations. -/
def directives (l : IndexedList Directive) : List Node := l.toList.map directive

/-- A type, perhaps a default value, and directive annotations. -/
def typed (t : TypeReference) (default : Option Value) (dirs : IndexedList Directive) : List Node :=
  type t :: default.toList.map value ++ directives dirs

/-- What a type consists of, be it defined or extended. -/
def typeParts (dirs : IndexedList Directive) : TypeBody → List Node
  | .scalar => directives dirs
  | .object interfaces fields | .interface interfaces fields =>
    interfaces.toList.map type ++ directives dirs ++ fields.toList.map fieldDefinition
  | .union members => directives dirs ++ members.toList.map type
  | .enum values => directives dirs ++ values.toList.map enumValueDefinition
  | .inputObject fields => directives dirs ++ fields.toList.map inputValueDefinition

/-- The nodes right inside a node, in the order of the grammar. A node of a union holds the variant that
it is. -/
def children : Node → List Node
  | document d => d.definitions.toList.map definition
  | definition (.executable x) => [executableDefinition x]
  | definition (.typeSystem x) => [typeSystemDefinition x]
  | definition (.extension x) => [typeSystemExtension x]
  | executableDefinition (.operation o) => [operationDefinition o]
  | executableDefinition (.fragment f) => [fragmentDefinition f]
  | operationDefinition o => [operationVariant o]
  | operationVariant o =>
    o.variableDefinitions.toList.map variableDefinition ++ directives o.directives ++
      [selectionSet o.selections]
  | fragmentDefinition f => directives f.directives ++ [selectionSet f.selections]
  | variableDefinition v => typed v.type v.defaultValue v.directives
  | selectionSet s => s.toList.map selection
  | selection s => [selectionVariant s]
  | selectionVariant (.field _ _ args dirs selections) =>
    args.toList.map argument ++ directives dirs ++ selections.toList.map selectionSet
  | selectionVariant (.spread _ dirs) => directives dirs
  | selectionVariant (.inlineFragment _ dirs selections) => directives dirs ++ [selectionSet selections]
  | argument a => [value a.value]
  | directive d => d.arguments.toList.map argument
  | objectField f => [value f.value]
  | type (.named ..) => []
  | type (.list element _) => [type element]
  | value v => [valueVariant v]
  | valueVariant (.list items) => items.toList.map value
  | valueVariant (.object fields) => fields.toList.map objectField
  | valueVariant _ => []
  | typeSystemDefinition (.schema x) => [schemaDefinition x]
  | typeSystemDefinition (.type t) => [typeDefinition t]
  | typeSystemDefinition (.directive x) => [directiveDefinition x]
  | schemaDefinition x | schemaExtension x =>
    directives x.directives ++ x.roots.toList.map rootOperation
  | rootOperation _ => []
  | typeDefinition t => [typeVariant t]
  | typeVariant t | typeExtension t => typeParts t.directives t.body
  | fieldDefinition f =>
    f.arguments.toList.map inputValueDefinition ++ [type f.type] ++ directives f.directives
  | inputValueDefinition i => typed i.type i.defaultValue i.directives
  | enumValueDefinition v => directives v.directives
  | directiveDefinition x => x.arguments.toList.map inputValueDefinition
  | typeSystemExtension (.schema x) => [schemaExtension x]
  | typeSystemExtension (.type t) => [typeExtension t]

/-- All nodes of a row are smaller. -/
private def Within (size : Nat) (ns : List Node) : Prop := ∀ c ∈ ns, sizeOf c < size

namespace Within
variable {size : Nat}

private theorem nil : Within size [] := by simp [Within]

private theorem one {n : Node} (h : sizeOf n < size) : Within size [n] := by simpa [Within] using h

private theorem append {a b : List Node} (ha : Within size a) (hb : Within size b) : Within size (a ++ b) :=
  List.forall_mem_append.mpr ⟨ha, hb⟩

private theorem map {α : Type} [SizeOf α] {node : α → Node} {l : IndexedList α}
    (node_size : ∀ a, sizeOf (node a) = 1 + sizeOf a) (h : sizeOf l < size) :
    Within size (l.toList.map node) := by
  refine List.forall_mem_map.mpr fun a ha => ?_
  have := IndexedList.sizeOf_lt_of_mem ha
  rw [node_size]
  omega

private theorem directives {l : IndexedList Directive} (h : sizeOf l < size) :
    Within size (directives l) :=
  map (fun _ => rfl) h

private theorem typed {t : TypeReference} {default : Option Value} {dirs : IndexedList Directive}
    (h : sizeOf t + sizeOf default + sizeOf dirs + 1 < size) : Within size (typed t default dirs) := by
  refine append (a := type t :: default.toList.map value) ?_ (directives (by omega))
  cases default with
  | none => exact one (by rw [type.sizeOf_spec]; omega)
  | some v =>
    rw [Option.some.sizeOf_spec] at h
    exact append (one (n := type t) (by rw [type.sizeOf_spec]; omega)) (one (by rw [value.sizeOf_spec]; omega))

private theorem typeParts {dirs : IndexedList Directive} {b : TypeBody} (h : sizeOf dirs + sizeOf b < size) :
    Within size (typeParts dirs b) := by
  have dirs : Within size (Node.directives dirs) := directives (by omega)
  cases b with
  | scalar => exact dirs
  | object is fs =>
    rw [TypeBody.object.sizeOf_spec] at h
    exact append (append (map (fun _ => rfl) (by omega)) dirs) (map (fun _ => rfl) (by omega))
  | interface is fs =>
    rw [TypeBody.interface.sizeOf_spec] at h
    exact append (append (map (fun _ => rfl) (by omega)) dirs) (map (fun _ => rfl) (by omega))
  | union members =>
    rw [TypeBody.union.sizeOf_spec] at h
    exact append dirs (map (fun _ => rfl) (by omega))
  | enum values =>
    rw [TypeBody.enum.sizeOf_spec] at h
    exact append dirs (map (fun _ => rfl) (by omega))
  | inputObject fs =>
    rw [TypeBody.inputObject.sizeOf_spec] at h
    exact append dirs (map (fun _ => rfl) (by omega))

end Within

/-- The variant that the node is, if it is of a union. -/
def variant? : Node → Option Node
  | operationDefinition o => some (operationVariant o)
  | selection s => some (selectionVariant s)
  | value v => some (valueVariant v)
  | typeDefinition t => some (typeVariant t)
  | _ => none

/-- A node of a union holds nothing but its variant. -/
theorem children_eq_of_variant? {n v : Node} (h : n.variant? = some v) : n.children = [v] := by
  cases n <;> cases h <;> rfl

private theorem within_children {n : Node} (h : n.variant? = none) : Within (sizeOf n) n.children := by
  cases n with
  | document d =>
    cases d
    simp only [children, document.sizeOf_spec, Document.mk.sizeOf_spec]
    exact .map (fun _ => rfl) (by omega)
  | definition d => cases d <;> exact .one (by simp)
  | executableDefinition d => cases d <;> exact .one (by simp)
  | operationDefinition o => cases h
  | operationVariant o =>
    cases o
    simp only [children, operationVariant.sizeOf_spec, OperationDefinition.mk.sizeOf_spec]
    exact .append (.append (.map (fun _ => rfl) (by omega)) (.directives (by omega)))
      (.one (by rw [selectionSet.sizeOf_spec]; omega))
  | fragmentDefinition f =>
    cases f
    simp only [children, fragmentDefinition.sizeOf_spec, FragmentDefinition.mk.sizeOf_spec]
    exact .append (.directives (by omega)) (.one (by rw [selectionSet.sizeOf_spec]; omega))
  | variableDefinition v =>
    cases v
    simp only [children, variableDefinition.sizeOf_spec, VariableDefinition.mk.sizeOf_spec]
    exact .typed (by omega)
  | selectionSet s => exact .map (fun _ => rfl) (by rw [selectionSet.sizeOf_spec]; omega)
  | selection s => cases h
  | selectionVariant s =>
    rw [selectionVariant.sizeOf_spec]
    cases s with
    | field aliasName name args dirs selections =>
      rw [Selection.field.sizeOf_spec]
      refine .append (.append (.map (fun _ => rfl) (by omega)) (.directives (by omega))) ?_
      cases selections with
      | none => exact .nil
      | some selections => exact .one (by rw [selectionSet.sizeOf_spec, Option.some.sizeOf_spec]; omega)
    | spread name dirs =>
      rw [Selection.spread.sizeOf_spec]
      exact .directives (by omega)
    | inlineFragment condition dirs selections =>
      rw [Selection.inlineFragment.sizeOf_spec]
      exact .append (.directives (by omega)) (.one (by rw [selectionSet.sizeOf_spec]; omega))
  | argument a =>
    cases a
    simp only [children, argument.sizeOf_spec, Named.mk.sizeOf_spec]
    exact .one (by rw [value.sizeOf_spec]; omega)
  | directive d =>
    cases d
    simp only [children, directive.sizeOf_spec, Directive.mk.sizeOf_spec]
    exact .map (fun _ => rfl) (by omega)
  | objectField f =>
    cases f
    simp only [children, objectField.sizeOf_spec, Named.mk.sizeOf_spec]
    exact .one (by rw [value.sizeOf_spec]; omega)
  | type t =>
    rw [type.sizeOf_spec]
    cases t with
    | named => exact .nil
    | list element nonNull => exact .one (by rw [type.sizeOf_spec, TypeReference.list.sizeOf_spec]; omega)
  | value v => cases h
  | valueVariant v =>
    rw [valueVariant.sizeOf_spec]
    cases v with
    | list items => exact .map (fun _ => rfl) (by rw [Value.list.sizeOf_spec]; omega)
    | object fields => exact .map (fun _ => rfl) (by rw [Value.object.sizeOf_spec]; omega)
    | _ => exact .nil
  | typeSystemDefinition d => cases d <;> exact .one (by simp)
  | schemaDefinition x =>
    cases x
    simp only [children, schemaDefinition.sizeOf_spec, SchemaDefinition.mk.sizeOf_spec]
    exact .append (.directives (by omega)) (.map (fun _ => rfl) (by omega))
  | rootOperation r => exact .nil
  | typeDefinition t => cases h
  | typeVariant t =>
    cases t
    simp only [children, typeVariant.sizeOf_spec, TypeDefinition.mk.sizeOf_spec]
    exact .typeParts (by omega)
  | fieldDefinition f =>
    cases f
    simp only [children, fieldDefinition.sizeOf_spec, FieldDefinition.mk.sizeOf_spec]
    exact .append (.append (.map (fun _ => rfl) (by omega)) (.one (by rw [type.sizeOf_spec]; omega)))
      (.directives (by omega))
  | inputValueDefinition i =>
    cases i
    simp only [children, inputValueDefinition.sizeOf_spec, InputValueDefinition.mk.sizeOf_spec]
    exact .typed (by omega)
  | enumValueDefinition v =>
    cases v
    simp only [children, enumValueDefinition.sizeOf_spec, EnumValueDefinition.mk.sizeOf_spec]
    exact .directives (by omega)
  | directiveDefinition x =>
    cases x
    simp only [children, directiveDefinition.sizeOf_spec, DirectiveDefinition.mk.sizeOf_spec]
    exact .map (fun _ => rfl) (by omega)
  | typeSystemExtension e => cases e <;> exact .one (by simp)
  | schemaExtension x =>
    cases x
    simp only [children, schemaExtension.sizeOf_spec, SchemaDefinition.mk.sizeOf_spec]
    exact .append (.directives (by omega)) (.map (fun _ => rfl) (by omega))
  | typeExtension t =>
    cases t
    simp only [children, typeExtension.sizeOf_spec, TypeDefinition.mk.sizeOf_spec]
    exact .typeParts (by omega)

/-- Grows from each node to the one around it. -/
noncomputable def rank (n : Node) : Nat := 2 * sizeOf n + n.variant?.isSome.toNat

theorem rank_lt_of_mem_children {c n : Node} (h : c ∈ n.children) : c.rank < n.rank := by
  cases hn : n.variant? with
  | none =>
    have smaller := within_children hn c h
    have bit := c.variant?.isSome.toNat_le
    unfold rank
    omega
  | some v =>
    rw [children_eq_of_variant? hn] at h
    cases List.mem_singleton.mp h
    -- a variant is of the same size as its union
    cases n <;> cases hn <;> exact Nat.lt_succ_self _

/-- What holds of a node if it does of all nodes right inside it holds of every node. -/
theorem induction {motive : Node → Prop} (step : ∀ n : Node, (∀ c ∈ n.children, motive c) → motive n)
    (n : Node) : motive n :=
  step n fun c _ => induction step c
termination_by n.rank
decreasing_by exact rank_lt_of_mem_children ‹_›

end Node
end GraphQL
