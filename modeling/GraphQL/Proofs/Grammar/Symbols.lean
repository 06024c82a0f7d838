import GraphQL.Proofs.Grammar.Spelling

/-! The symbols of a spelling. Each of them is that of a token that is neither malformed nor the end of
input. -/
namespace GraphQL
open GraphQL.Symbol

/-- The symbol of a token that is consumed. -/
def Symbol.IsSpelled (x : Symbol) : Prop :=
  ∃ t : Token, (t.kind ≠ .eof ∧ t.kind ≠ .illegal) ∧ t.bare = x

/-- All symbols are those of tokens that are consumed. -/
def AllSpelled (w : List Symbol) : Prop := ∀ x ∈ w, x.IsSpelled

namespace AllSpelled

@[simp] theorem nil : AllSpelled [] := by simp [AllSpelled]

@[simp] theorem cons_iff {x : Symbol} {w : List Symbol} :
    AllSpelled (x :: w) ↔ x.IsSpelled ∧ AllSpelled w := by
  simp [AllSpelled]

@[simp] theorem append_iff {u v : List Symbol} :
    AllSpelled (u ++ v) ↔ AllSpelled u ∧ AllSpelled v := by
  simp [AllSpelled, or_imp, forall_and]

@[simp] theorem mark (p : Punctuator) : (Symbol.mark p).IsSpelled :=
  ⟨⟨.punctuator p, "", 0, 0⟩, by simp, rfl⟩

@[simp] theorem word (name : String) : (Symbol.word name).IsSpelled :=
  ⟨⟨.name, name, 0, 0⟩, by simp, rfl⟩

variable {α : Type} {f : α → List Symbol}

theorem spelling (h : ∀ a, AllSpelled (f a)) (l : IndexedList α) : AllSpelled (l.spelling f) := by
  intro x hx
  obtain ⟨a, -, hx⟩ := List.mem_flatMap.mp hx
  exact h a x hx

theorem blockSpelling (h : ∀ a, AllSpelled (f a)) (l : IndexedList α) (opening closing : Punctuator) :
    AllSpelled (l.blockSpelling opening closing f) := by
  simp [IndexedList.blockSpelling, spelling h l]

theorem optionalSpelling (h : ∀ a, AllSpelled (f a)) (l : IndexedList α)
    (opening closing : Punctuator) : AllSpelled (l.optionalSpelling opening closing f) := by
  unfold IndexedList.optionalSpelling
  split
  · exact nil
  · exact blockSpelling h l opening closing

theorem separatedSpelling (h : ∀ a, AllSpelled (f a)) (l : IndexedList α) (separator : Punctuator)
    (lead : Bool) : AllSpelled (l.separatedSpelling separator lead f) := by
  have all : AllSpelled (l.spelling (Symbol.mark separator :: f ·)) := spelling (by simp [h]) l
  cases lead with
  | true => exact all
  | false => exact fun x hx => all x (List.mem_of_mem_tail hx)

/-- The tokens that symbols stand for. -/
theorem tokens {w : List Symbol} (h : AllSpelled w) :
    ∃ ts : List Token, (∀ t ∈ ts, t.kind ≠ .eof) ∧ ts.map Token.bare = w := by
  induction w with
  | nil => exact ⟨[], by simp, rfl⟩
  | cons x w ih =>
    obtain ⟨⟨t, hk, rfl⟩, hw⟩ := cons_iff.mp h
    obtain ⟨ts, hts, rfl⟩ := ih hw
    exact ⟨t :: ts, List.forall_mem_cons.mpr ⟨hk.1, hts⟩, rfl⟩

end AllSpelled
open AllSpelled

@[simp] theorem StringValue.allSpelled (s : StringValue) : AllSpelled s.spelling := by
  obtain ⟨text, isBlock⟩ := s
  cases isBlock with
  | true => simpa [spelling] using ⟨⟨.blockString, text, 0, 0⟩, by simp, rfl⟩
  | false => simpa [spelling] using ⟨⟨.string, text, 0, 0⟩, by simp, rfl⟩

namespace Value

mutual

theorem allSpelled : ∀ v : Value, AllSpelled v.spelling
  | .variable _ | .boolean true | .boolean false | .null | .enum _ => by simp [spelling]
  | .int literal => by simpa [spelling] using ⟨⟨.int, literal, 0, 0⟩, by simp, rfl⟩
  | .float literal => by simpa [spelling] using ⟨⟨.float, literal, 0, 0⟩, by simp, rfl⟩
  | .string s => by simp [spelling]
  | .list items => by simp [spelling, items_allSpelled items]
  | .object fields => by simp [spelling, fields_allSpelled fields]

theorem items_allSpelled : ∀ items : IndexedList Value, AllSpelled (itemsSpelling items)
  | .nil => by simp [itemsSpelling]
  | .cons _ v rest => by simp [itemsSpelling, allSpelled v, items_allSpelled rest]

theorem fields_allSpelled : ∀ fields : IndexedList (Named Value), AllSpelled (fieldsSpelling fields)
  | .nil => by simp [fieldsSpelling]
  | .cons _ ⟨_, v⟩ rest => by simp [fieldsSpelling, allSpelled v, fields_allSpelled rest]

end

end Value

theorem Argument.allSpelled (a : Argument) : AllSpelled a.spelling := by
  simp [spelling, Value.allSpelled]

@[simp] theorem allSpelled_arguments (l : IndexedList Argument) : AllSpelled (argumentsSpelling l) :=
  AllSpelled.optionalSpelling Argument.allSpelled l _ _

@[simp] theorem allSpelled_directives (l : IndexedList Directive) : AllSpelled (directivesSpelling l) :=
  AllSpelled.spelling (by simp [Directive.spelling]) l

@[simp] theorem TypeReference.allSpelled (t : TypeReference) : AllSpelled t.spelling := by
  have bang (nonNull : Bool) : AllSpelled (bangSpelling nonNull) := by
    cases nonNull <;> simp [bangSpelling]
  induction t with
  | named name nonNull => simp [spelling, bang]
  | list element nonNull ih => simp [spelling, ih, bang]

@[simp] theorem allSpelled_default (v : Option Value) : AllSpelled (defaultSpelling v) := by
  cases v <;> simp [defaultSpelling, Value.allSpelled]

namespace Selection

mutual

theorem allSpelled : ∀ s : Selection, AllSpelled s.spelling
  | .field aliasName _ _ _ none => by cases aliasName <;> simp [spelling, aliasSpelling]
  | .field aliasName _ _ _ (some set) => by
    cases aliasName <;> simp [spelling, aliasSpelling, all_allSpelled set]
  | .spread _ _ => by simp [spelling]
  | .inlineFragment condition _ set => by
    cases condition <;> simp [spelling, conditionSpelling, all_allSpelled set]

theorem all_allSpelled : ∀ set : IndexedList Selection, AllSpelled (allSpelling set)
  | .nil => by simp [allSpelling]
  | .cons _ s rest => by simp [allSpelling, allSpelled s, all_allSpelled rest]

end

end Selection

@[simp] theorem SelectionSet.allSpelled (s : SelectionSet) : AllSpelled (SelectionSet.spelling s) :=
  AllSpelled.blockSpelling Selection.allSpelled s _ _

@[simp] theorem allSpelled_description (s : Option StringValue) : AllSpelled (descriptionSpelling s) := by
  cases s <;> simp [descriptionSpelling]

theorem OperationDefinition.allSpelled (o : OperationDefinition) : AllSpelled o.spelling := by
  have vars := AllSpelled.optionalSpelling (f := VariableDefinition.spelling)
    (by simp [VariableDefinition.spelling]) o.variableDefinitions .parenOpen .parenClose
  cases hn : o.name <;> simp [spelling, nameSpelling, hn, vars]

theorem SchemaDefinition.allSpelled (s : SchemaDefinition) (isExtension : Bool) :
    AllSpelled (s.spelling isExtension) := by
  have roots := AllSpelled.blockSpelling (f := RootOperation.spelling) (by simp [RootOperation.spelling])
    s.roots .braceOpen .braceClose
  unfold spelling
  split <;> simp [roots]

theorem InputValueDefinition.allSpelled (i : InputValueDefinition) : AllSpelled i.spelling := by
  simp [spelling]

@[simp] theorem allSpelled_argumentDefinitions (l : IndexedList InputValueDefinition) :
    AllSpelled (argumentDefinitionsSpelling l) :=
  AllSpelled.optionalSpelling InputValueDefinition.allSpelled l _ _

theorem TypeBody.allSpelled (b : TypeBody) (lead : Bool) (dirs : IndexedList Directive) :
    AllSpelled (b.spelling lead dirs) := by
  have names (l : IndexedList TypeReference) (p : Punctuator) :=
    AllSpelled.separatedSpelling TypeReference.allSpelled l p lead
  have interfaces (l : IndexedList TypeReference) : AllSpelled (interfacesSpelling lead l) := by
    unfold interfacesSpelling
    split <;> simp [names]
  have members (l : IndexedList TypeReference) : AllSpelled (membersSpelling lead l) := by
    unfold membersSpelling
    split <;> simp [names]
  have fields (l : IndexedList FieldDefinition) :=
    AllSpelled.optionalSpelling (f := FieldDefinition.spelling) (by simp [FieldDefinition.spelling]) l
      .braceOpen .braceClose
  have values (l : IndexedList EnumValueDefinition) :=
    AllSpelled.optionalSpelling (f := EnumValueDefinition.spelling)
      (by simp [EnumValueDefinition.spelling]) l .braceOpen .braceClose
  have inputs (l : IndexedList InputValueDefinition) :=
    AllSpelled.optionalSpelling InputValueDefinition.allSpelled l .braceOpen .braceClose
  cases b <;> simp [spelling, interfaces, members, fields, values, inputs]

theorem TypeDefinition.allSpelled (t : TypeDefinition) (lead : Bool) : AllSpelled (t.spelling lead) := by
  simp [spelling, TypeBody.allSpelled]

theorem DirectiveDefinition.allSpelled (d : DirectiveDefinition) (lead : Bool) :
    AllSpelled (d.spelling lead) := by
  have locations := AllSpelled.separatedSpelling (f := ([Symbol.word ·.text])) (by simp) d.locations
    .pipe lead
  cases hr : d.repeatable <;> simp [spelling, hr, locations]

theorem Definition.Spells.allSpelled {d : Definition} {w : List Symbol} (h : d.Spells w) :
    AllSpelled w := by
  cases h with
  | operation o => exact o.allSpelled
  | shorthand o => exact SelectionSet.allSpelled o.selections
  | fragment f => simp [FragmentDefinition.spelling]
  | schema s => exact s.allSpelled false
  | type t lead => exact t.allSpelled lead
  | directive d lead => exact d.allSpelled lead
  | schemaExtension s => simp [s.allSpelled true]
  | typeExtension t lead => simp [t.allSpelled lead]

theorem Definition.SpellRow.allSpelled {lacking : Bool} {ds : List Definition} {w : List Symbol}
    (h : Definition.SpellRow lacking ds w) : AllSpelled w := by
  induction h with
  | nil => exact .nil
  | cons head _ _ ih => exact append_iff.mpr ⟨head.allSpelled, ih⟩

end GraphQL
