import GraphQL.Document
import GraphQL.Proofs.IndexedList.Numbered

/-! The documents that the grammar describes. Names are not looked into, apart from those that a
keyword takes; whether the document makes sense is for validation. -/
namespace GraphQL
open IndexedList

/-- A name that an enum value may have. -/
def IsEnumName (name : String) : Prop := name ≠ "true" ∧ name ≠ "false" ∧ name ≠ "null"

namespace Value

mutual

def WellFormed : Value → Prop
  | .enum name => IsEnumName name
  | .list items => items.Numbered ∧ itemsWellFormed items
  | .object fields => fields.Numbered ∧ fieldsWellFormed fields
  | _ => True

def itemsWellFormed : IndexedList Value → Prop
  | .nil => True
  | .cons _ v rest => v.WellFormed ∧ itemsWellFormed rest

def fieldsWellFormed : IndexedList (Named Value) → Prop
  | .nil => True
  | .cons _ ⟨_, v⟩ rest => v.WellFormed ∧ fieldsWellFormed rest

end

theorem itemsWellFormed_iff (l : IndexedList Value) :
    itemsWellFormed l ↔ ∀ v ∈ l.toList, v.WellFormed := by
  induction l with
  | nil => simp [itemsWellFormed, toList]
  | cons p v rest ih => simp [itemsWellFormed, toList, ih]

theorem fieldsWellFormed_iff (l : IndexedList (Named Value)) :
    fieldsWellFormed l ↔ ∀ v ∈ l.toList, v.value.WellFormed := by
  induction l with
  | nil => simp [fieldsWellFormed, toList]
  | cons p v rest ih => simp [fieldsWellFormed, toList, ih]

end Value

def Argument.WellFormed (a : Argument) : Prop := a.value.WellFormed

def Directive.WellFormed (d : Directive) : Prop := d.arguments.Each Argument.WellFormed

def DefaultWellFormed (v : Option Value) : Prop := ∀ x ∈ v, x.WellFormed

def VariableDefinition.WellFormed (v : VariableDefinition) : Prop :=
  DefaultWellFormed v.defaultValue ∧ v.directives.Each Directive.WellFormed

namespace Selection

mutual

def WellFormed : Selection → Prop
  | .field _ _ args dirs selections =>
    args.Each Argument.WellFormed ∧ dirs.Each Directive.WellFormed ∧
      match selections with
      | some selections => selections ≠ .nil ∧ selections.Numbered ∧ allWellFormed selections
      | none => True
  | .spread name dirs => name ≠ "on" ∧ dirs.Each Directive.WellFormed
  | .inlineFragment _ dirs selections =>
    dirs.Each Directive.WellFormed ∧
      selections ≠ .nil ∧ selections.Numbered ∧ allWellFormed selections

def allWellFormed : IndexedList Selection → Prop
  | .nil => True
  | .cons _ s rest => s.WellFormed ∧ allWellFormed rest

end

theorem allWellFormed_iff (l : IndexedList Selection) :
    allWellFormed l ↔ ∀ s ∈ l.toList, s.WellFormed := by
  induction l with
  | nil => simp [allWellFormed, toList]
  | cons p s rest ih => simp [allWellFormed, toList, ih]

end Selection

def SelectionSet.WellFormed (s : SelectionSet) : Prop := s ≠ .nil ∧ s.Each Selection.WellFormed

namespace Selection

theorem wellFormed_field (aliasName : Option String) (name : String) (args : IndexedList Argument)
    (dirs : IndexedList Directive) (set : Option SelectionSet) :
    (field aliasName name args dirs set).WellFormed ↔
      args.Each Argument.WellFormed ∧ dirs.Each Directive.WellFormed ∧
        ∀ s ∈ set, SelectionSet.WellFormed s := by
  cases set with
  | none => simp [WellFormed]
  | some set => simp [WellFormed, SelectionSet.WellFormed, Each, allWellFormed_iff]

theorem wellFormed_inlineFragment (condition : Option String) (dirs : IndexedList Directive)
    (set : SelectionSet) :
    (inlineFragment condition dirs set).WellFormed ↔
      dirs.Each Directive.WellFormed ∧ SelectionSet.WellFormed set := by
  rw [WellFormed, SelectionSet.WellFormed, Each, Each, allWellFormed_iff]

end Selection

def OperationDefinition.WellFormed (o : OperationDefinition) : Prop :=
  o.variableDefinitions.Each VariableDefinition.WellFormed ∧
    o.directives.Each Directive.WellFormed ∧ SelectionSet.WellFormed o.selections

def FragmentDefinition.WellFormed (f : FragmentDefinition) : Prop :=
  f.name ≠ "on" ∧ f.directives.Each Directive.WellFormed ∧ SelectionSet.WellFormed f.selections

/-- Only an extension may have no root operation. -/
def SchemaDefinition.WellFormed (isExtension : Bool) (s : SchemaDefinition) : Prop :=
  s.directives.Each Directive.WellFormed ∧ s.roots.Numbered ∧
    (isExtension = false → s.roots ≠ .nil)

def InputValueDefinition.WellFormed (i : InputValueDefinition) : Prop :=
  DefaultWellFormed i.defaultValue ∧ i.directives.Each Directive.WellFormed

def FieldDefinition.WellFormed (f : FieldDefinition) : Prop :=
  f.arguments.Each InputValueDefinition.WellFormed ∧ f.directives.Each Directive.WellFormed

def EnumValueDefinition.WellFormed (v : EnumValueDefinition) : Prop :=
  IsEnumName v.name ∧ v.directives.Each Directive.WellFormed

/-- A name that is not marked as never null and stands in no list. -/
def TypeReference.IsPlain (t : TypeReference) : Prop := ∃ name, t = .named name false

def TypeBody.WellFormed : TypeBody → Prop
  | .scalar => True
  | .object interfaces fields | .interface interfaces fields =>
    interfaces.Each TypeReference.IsPlain ∧ fields.Each FieldDefinition.WellFormed
  | .union members => members.Each TypeReference.IsPlain
  | .enum values => values.Each EnumValueDefinition.WellFormed
  | .inputObject fields => fields.Each InputValueDefinition.WellFormed

def TypeDefinition.WellFormed (t : TypeDefinition) : Prop :=
  t.directives.Each Directive.WellFormed ∧ t.body.WellFormed

def DirectiveDefinition.WellFormed (d : DirectiveDefinition) : Prop :=
  d.arguments.Each InputValueDefinition.WellFormed ∧ d.locations ≠ .nil ∧ d.locations.Numbered

/-- An extension has no description and adds something. -/
def Definition.WellFormed : Definition → Prop
  | .executable (.operation o) => o.WellFormed
  | .executable (.fragment f) => f.WellFormed
  | .typeSystem (.schema s) => s.WellFormed false
  | .typeSystem (.type t) => t.WellFormed
  | .typeSystem (.directive d) => d.WellFormed
  | .extension (.schema s) =>
    s.WellFormed true ∧ s.description = none ∧ ¬ (s.directives = .nil ∧ s.roots = .nil)
  | .extension (.type t) =>
    t.WellFormed ∧ t.description = none ∧ ¬ (t.directives = .nil ∧ t.body.isEmpty)

def Document.WellFormed (d : Document) : Prop :=
  d.definitions ≠ .nil ∧ d.definitions.Each Definition.WellFormed

theorem Document.toList_join (d e : Document) :
    (d.join e).definitions.toList = d.definitions.toList ++ e.definitions.toList :=
  IndexedList.toList_join ..

end GraphQL
