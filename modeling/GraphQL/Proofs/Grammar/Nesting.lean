import GraphQL.Document

/-! How deep selection sets, list values, object values and list types stand in each other on the
deepest path of a node. -/
namespace GraphQL

/-- The greatest number that an element has, zero if there is none. -/
def IndexedList.deepest {α : Type} (f : α → Nat) (l : IndexedList α) : Nat :=
  l.toList.foldr (fun a n => max (f a) n) 0

theorem IndexedList.deepest_le_iff {α : Type} {f : α → Nat} {l : IndexedList α} {n : Nat} :
    l.deepest f ≤ n ↔ ∀ a ∈ l.toList, f a ≤ n := by
  unfold deepest
  induction l.toList with
  | nil => simp
  | cons a as ih => simp only [List.foldr_cons, Nat.max_le, List.forall_mem_cons, ih]

namespace Value

mutual

def nesting : Value → Nat
  | .list items => itemsNesting items + 1
  | .object fields => fieldsNesting fields + 1
  | _ => 0

def itemsNesting : IndexedList Value → Nat
  | .nil => 0
  | .cons _ v rest => max v.nesting (itemsNesting rest)

def fieldsNesting : IndexedList (Named Value) → Nat
  | .nil => 0
  | .cons _ ⟨_, v⟩ rest => max v.nesting (fieldsNesting rest)

end

theorem itemsNesting_eq (l : IndexedList Value) : itemsNesting l = l.deepest nesting := by
  induction l with
  | nil => rfl
  | cons p v rest ih => exact congrArg (max v.nesting ·) ih

theorem fieldsNesting_eq (l : IndexedList (Named Value)) :
    fieldsNesting l = l.deepest (·.value.nesting) := by
  induction l with
  | nil => rfl
  | cons p v rest ih => exact congrArg (max v.value.nesting ·) ih

end Value

def TypeReference.nesting : TypeReference → Nat
  | named _ _ => 0
  | list element _ => element.nesting + 1

def Argument.nesting (a : Argument) : Nat := a.value.nesting

def Directive.nesting (d : Directive) : Nat := d.arguments.deepest Argument.nesting

/-- A default value, or none. -/
def defaultNesting (v : Option Value) : Nat := v.elim 0 Value.nesting

def VariableDefinition.nesting (v : VariableDefinition) : Nat :=
  max v.type.nesting (max (defaultNesting v.defaultValue) (v.directives.deepest Directive.nesting))

namespace Selection

mutual

def nesting : Selection → Nat
  | .field _ _ args dirs selections =>
    max (args.deepest Argument.nesting) (max (dirs.deepest Directive.nesting)
      (match selections with
        | some selections => allNesting selections + 1
        | none => 0))
  | .spread _ dirs => dirs.deepest Directive.nesting
  | .inlineFragment _ dirs selections =>
    max (dirs.deepest Directive.nesting) (allNesting selections + 1)

def allNesting : IndexedList Selection → Nat
  | .nil => 0
  | .cons _ s rest => max s.nesting (allNesting rest)

end

theorem allNesting_eq (l : IndexedList Selection) : allNesting l = l.deepest nesting := by
  induction l with
  | nil => rfl
  | cons p s rest ih => exact congrArg (max s.nesting ·) ih

end Selection

def SelectionSet.nesting (s : SelectionSet) : Nat := s.deepest Selection.nesting + 1

def OperationDefinition.nesting (o : OperationDefinition) : Nat :=
  max (o.variableDefinitions.deepest VariableDefinition.nesting)
    (max (o.directives.deepest Directive.nesting) (SelectionSet.nesting o.selections))

def FragmentDefinition.nesting (f : FragmentDefinition) : Nat :=
  max (f.directives.deepest Directive.nesting) (SelectionSet.nesting f.selections)

def SchemaDefinition.nesting (s : SchemaDefinition) : Nat := s.directives.deepest Directive.nesting

def InputValueDefinition.nesting (i : InputValueDefinition) : Nat :=
  max i.type.nesting (max (defaultNesting i.defaultValue) (i.directives.deepest Directive.nesting))

def FieldDefinition.nesting (f : FieldDefinition) : Nat :=
  max (f.arguments.deepest InputValueDefinition.nesting)
    (max f.type.nesting (f.directives.deepest Directive.nesting))

def EnumValueDefinition.nesting (v : EnumValueDefinition) : Nat :=
  v.directives.deepest Directive.nesting

def TypeBody.nesting : TypeBody → Nat
  | .object interfaces fields | .interface interfaces fields =>
    max (interfaces.deepest TypeReference.nesting) (fields.deepest FieldDefinition.nesting)
  | .union members => members.deepest TypeReference.nesting
  | .enum values => values.deepest EnumValueDefinition.nesting
  | .inputObject fields => fields.deepest InputValueDefinition.nesting
  | .scalar => 0

def TypeDefinition.nesting (t : TypeDefinition) : Nat :=
  max (t.directives.deepest Directive.nesting) t.body.nesting

def DirectiveDefinition.nesting (d : DirectiveDefinition) : Nat :=
  d.arguments.deepest InputValueDefinition.nesting

def Definition.nesting : Definition → Nat
  | .executable (.operation o) => o.nesting
  | .executable (.fragment f) => f.nesting
  | .typeSystem (.schema s) | .extension (.schema s) => s.nesting
  | .typeSystem (.type t) | .extension (.type t) => t.nesting
  | .typeSystem (.directive d) => d.nesting

def Document.nesting (d : Document) : Nat := d.definitions.deepest Definition.nesting

end GraphQL
