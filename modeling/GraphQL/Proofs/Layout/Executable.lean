import GraphQL.Layout.Executable
import GraphQL.Proofs.Layout.Writes

/-! Values, type references, directives, operations and fragments write their spellings. -/
namespace GraphQL
open Layout GraphQL.Symbol

theorem StringValue.symbol_eq (s : StringValue) :
    s.symbol = Symbol.printed ⟨if s.isBlock then .blockString else .string, s.text⟩ := by
  obtain ⟨text, isBlock⟩ := s
  cases isBlock <;> cases hp : isBlockPrintable text.toList <;> simp [symbol, Symbol.printed, hp]

theorem StringValue.writes {l : Layout} {w : List Symbol} (s : StringValue) (hl : Trails l w) :
    Writes (.symbol s.symbol :: l) (s.spelling ++ w) := by
  rw [symbol_eq]
  exact .symbol _ hl

namespace Value

theorem itemLayouts_eq (l : IndexedList Value) : itemLayouts l = l.toList.map layout := by
  induction l with
  | nil => rfl
  | cons p v rest ih => exact congrArg (v.layout :: ·) ih

/-- An argument or a field of an object. -/
def fieldLayout (a : Named Value) : Layout := word a.name :: punctuator .colon :: space :: a.value.layout

theorem fieldLayouts_eq (l : IndexedList (Named Value)) : fieldLayouts l = l.toList.map fieldLayout := by
  induction l with
  | nil => rfl
  | cons p v rest ih => exact congrArg (fieldLayout v :: ·) ih

private theorem writes_field {a : Named Value} (h : Writes a.value.layout a.value.spelling) :
    Writes (fieldLayout a) (Argument.spelling a) :=
  .word _ (.mark h.space)

/-- The parts between two brackets. -/
private theorem writes_enclosed {parts : List Layout} {ws : List (List Symbol)} (opening closing : Punctuator)
    (h : WritesAll parts ws) (hc : closing ≠ .ellipsis := by decide) :
    Writes (punctuator opening :: commaJoined parts ++ [punctuator closing])
      (mark opening :: ws.flatten ++ [mark closing]) :=
  .mark opening ((Writes.commaJoined h).append (.mark .nil hc))

mutual

theorem writes : ∀ v : Value, Writes v.layout v.spelling
  | .variable name => .mark .dollar (.word name .nil)
  | .int literal => .symbol ⟨.int, literal⟩ .nil
  | .float literal => .symbol ⟨.float, literal⟩ .nil
  | .string s => s.writes .nil
  | .boolean true => .word "true" .nil
  | .boolean false => .word "false" .nil
  | .null => .word "null" .nil
  | .enum name => .word name .nil
  | .list items => by
    have written := writes_enclosed .bracketOpen .bracketClose (.map (items_write items))
    rwa [← itemLayouts_eq, ← List.flatMap_def, ← IndexedList.spelling, ← itemsSpelling_eq] at written
  | .object fields => by
    have written := writes_enclosed .braceOpen .braceClose (.map (fields_write fields))
    rwa [← fieldLayouts_eq, ← List.flatMap_def, ← IndexedList.spelling, ← fieldsSpelling_eq] at written

theorem items_write : ∀ items : IndexedList Value, ∀ v ∈ items.toList, Writes v.layout v.spelling
  | .nil => by simp [IndexedList.toList]
  | .cons _ v rest => List.forall_mem_cons.mpr ⟨writes v, items_write rest⟩

theorem fields_write : ∀ fields : IndexedList (Named Value), ∀ a ∈ fields.toList,
    Writes (fieldLayout a) (Argument.spelling a)
  | .nil => by simp [IndexedList.toList]
  | .cons _ ⟨_, v⟩ rest => List.forall_mem_cons.mpr ⟨writes_field (writes v), fields_write rest⟩

end

end Value

namespace TypeReference

private theorem nullability_trails (nonNull : Bool) : Trails (nullability nonNull) (bangSpelling nonNull) := by
  cases nonNull with
  | true => exact .mark .nil
  | false => exact .nil

theorem writes (t : TypeReference) : Writes t.layout t.spelling := by
  induction t with
  | named name nonNull => exact .word name (nullability_trails nonNull)
  | list element nonNull ih =>
    exact .mark .bracketOpen (ih.append (.mark (nullability_trails nonNull).toWrites))

end TypeReference

namespace Layout.Trails

theorem arguments (l : IndexedList Argument) : Trails (argumentList l) (argumentsSpelling l) := by
  rw [argumentList, Value.fieldLayouts_eq]
  exact .optionalParens (Value.fields_write l)

end Layout.Trails

theorem Directive.writes (d : Directive) : Writes d.layout d.spelling :=
  .mark .atSign (.word d.name (.arguments d.arguments))

namespace Layout.Trails

theorem directives (l : IndexedList Directive) : Trails (directiveList l) (directivesSpelling l) := by
  rw [directiveList, directivesSpelling, IndexedList.spelling]
  induction l.toList with
  | nil => exact .nil
  | cons d ds ih => exact .append (.space d.writes) ih

theorem default (v : Option Value) : Trails (defaultClause v) (defaultSpelling v) := by
  cases v with
  | none => exact .nil
  | some v => exact .space (.mark .equals v.writes.space)

theorem type (t : TypeReference) : Trails (typeClause t) (Symbol.mark .colon :: t.spelling) :=
  .mark t.writes.space

end Layout.Trails

namespace Selection

theorem layouts_eq (depth : Nat) (l : IndexedList Selection) :
    layouts depth l = l.toList.map (layout depth) := by
  induction l with
  | nil => rfl
  | cons p s rest ih => exact congrArg (s.layout depth :: ·) ih

private theorem writes_alias {l : Layout} {w : List Symbol} (aliasName : Option String)
    (hl : Writes l w) :
    Writes ((match aliasName with
        | some aliasName => [word aliasName, punctuator .colon, space]
        | none => []) ++ l) (aliasSpelling aliasName ++ w) := by
  cases aliasName with
  | none => exact hl
  | some name => exact .word name (.mark hl.space)

private theorem condition_trails (condition : Option String) :
    Trails (match condition with
      | some name => [space, word "on", space, word name]
      | none => []) (conditionSpelling condition) := by
  cases condition with
  | none => exact .nil
  | some name => exact .space (.word "on" (.space (.word name .nil)))

private theorem set_trails (depth : Nat) {l : IndexedList Selection}
    (h : ∀ s ∈ l.toList, Writes (s.layout (depth + 1)) s.spelling) :
    Trails (space :: block depth (layouts (depth + 1) l)) (SelectionSet.spelling l) := by
  rw [layouts_eq]
  exact .space (Trails.blockSpelling depth h).toWrites

mutual

theorem writes : ∀ (s : Selection) (depth : Nat), Writes (s.layout depth) s.spelling
  | .field aliasName name args dirs selections, depth => by
    have head := (writes_alias aliasName (.word name (.arguments args))).append (.directives dirs)
    rw [spelling_field]
    cases selections with
    | none => exact head.append .nil
    | some set => exact head.append (set_trails depth (all_write set (depth + 1)))
  | .spread name dirs, _ => .mark .ellipsis (.word name (.directives dirs))
  | .inlineFragment condition dirs set, depth => by
    have head := (Writes.mark .ellipsis (condition_trails condition).toWrites).append (.directives dirs)
    rw [layout.eq_def, spelling_inlineFragment]
    exact head.append (set_trails depth (all_write set (depth + 1)))

theorem all_write : ∀ (l : IndexedList Selection) (depth : Nat), ∀ s ∈ l.toList,
    Writes (s.layout depth) s.spelling
  | .nil, _ => by simp [IndexedList.toList]
  | .cons _ s rest, depth => List.forall_mem_cons.mpr ⟨writes s depth, all_write rest depth⟩

end

end Selection

theorem SelectionSet.block_trails (s : SelectionSet) : Trails s.layout s.spelling := by
  rw [layout, Selection.layouts_eq]
  exact .blockSpelling 0 fun x hx => Selection.all_write s 1 x hx

theorem VariableDefinition.writes (v : VariableDefinition) : Writes v.layout v.spelling :=
  .append (.append (.mark .dollar (.word v.name (.type v.type))) (.default v.defaultValue))
    (.directives v.directives)

private theorem name_trails (name : Option String) :
    Trails (match name with
      | some name => [space, word name]
      | none => []) (nameSpelling name) := by
  cases name with
  | none => exact .nil
  | some name => exact .space (.word name .nil)

/-- The spelling of an operation that `shorthand` decides on. -/
def OperationDefinition.printedSpelling (shorthand : Bool) (o : OperationDefinition) : List Symbol :=
  if o.isShorthand && shorthand then SelectionSet.spelling o.selections else o.spelling

theorem OperationDefinition.writes (shorthand : Bool) (o : OperationDefinition) :
    Writes (o.layout shorthand) (o.printedSpelling shorthand) := by
  unfold layout printedSpelling
  split
  · exact (SelectionSet.block_trails o.selections).toWrites
  · have head := (Writes.word o.type.keyword (name_trails o.name)).append
      (Trails.optionalParens (l := o.variableDefinitions) fun v _ => v.writes)
    have set := Trails.space (SelectionSet.block_trails o.selections).toWrites
    rw [List.append_assoc _ [space]]
    exact (head.append (.directives o.directives)).append set

theorem FragmentDefinition.writes (f : FragmentDefinition) : Writes f.layout f.spelling := by
  have head := Writes.word "fragment" (.space (.word f.name (.space (.word "on" (.space
    (.word f.typeCondition .nil))))))
  exact (head.append (.directives f.directives)).append
    (.space (SelectionSet.block_trails f.selections).toWrites)

end GraphQL
