import GraphQL.Document
import GraphQL.Layout
import GraphQL.Proofs.IndexedList.Numbered

/-! What a document spells: its parts in grammar order, as symbols. A spelling is free in three places
only, namely an optional separator in front of a list, and the keyword of a query that has no more than
a selection set. -/
namespace GraphQL

/-- The symbol that a token stands for. The literal of a punctuator says nothing. -/
def Token.bare (t : Token) : Symbol :=
  match t.kind with
  | .punctuator p => ⟨.punctuator p, p.text⟩
  | kind => ⟨kind, t.literal⟩

namespace Symbol

/-- A name or keyword. -/
def word (name : String) : Symbol := ⟨.name, name⟩

def mark (p : Punctuator) : Symbol := ⟨.punctuator p, p.text⟩

end Symbol
open GraphQL.Symbol

namespace IndexedList
variable {α : Type}

/-- The elements one after another. -/
def spelling (f : α → List Symbol) (l : IndexedList α) : List Symbol := l.toList.flatMap f

/-- The elements between two punctuators. -/
def blockSpelling (opening closing : Punctuator) (f : α → List Symbol) (l : IndexedList α) :
    List Symbol :=
  mark opening :: l.spelling f ++ [mark closing]

/-- A block, or nothing if there is no element. -/
def optionalSpelling (opening closing : Punctuator) (f : α → List Symbol) (l : IndexedList α) :
    List Symbol :=
  if l.isEmpty then [] else l.blockSpelling opening closing f

/-- Each element behind a separator. The first has one only if `lead` says so. -/
def separatedSpelling (separator : Punctuator) (lead : Bool) (f : α → List Symbol)
    (l : IndexedList α) : List Symbol :=
  let all := l.spelling (mark separator :: f ·)
  if lead then all else all.tail

end IndexedList

def StringValue.spelling (s : StringValue) : List Symbol :=
  [⟨if s.isBlock then .blockString else .string, s.text⟩]

namespace Value

mutual

def spelling : Value → List Symbol
  | .variable name => [mark .dollar, word name]
  | .int literal => [⟨.int, literal⟩]
  | .float literal => [⟨.float, literal⟩]
  | .string s => s.spelling
  | .boolean true => [word "true"]
  | .boolean false => [word "false"]
  | .null => [word "null"]
  | .enum name => [word name]
  | .list items => mark .bracketOpen :: itemsSpelling items ++ [mark .bracketClose]
  | .object fields => mark .braceOpen :: fieldsSpelling fields ++ [mark .braceClose]

def itemsSpelling : IndexedList Value → List Symbol
  | .nil => []
  | .cons _ v rest => v.spelling ++ itemsSpelling rest

def fieldsSpelling : IndexedList (Named Value) → List Symbol
  | .nil => []
  | .cons _ ⟨name, v⟩ rest => (word name :: mark .colon :: v.spelling) ++ fieldsSpelling rest

end

end Value

def Argument.spelling (a : Argument) : List Symbol :=
  word a.name :: mark .colon :: a.value.spelling

theorem Argument.spelling_ne_nil (a : Argument) : a.spelling ≠ [] := by simp [spelling]

namespace Value

theorem itemsSpelling_eq (l : IndexedList Value) : itemsSpelling l = l.spelling spelling := by
  induction l with
  | nil => rfl
  | cons p v rest ih => exact congrArg (v.spelling ++ ·) ih

theorem fieldsSpelling_eq (l : IndexedList (Named Value)) :
    fieldsSpelling l = l.spelling Argument.spelling := by
  induction l with
  | nil => rfl
  | cons p v rest ih => exact congrArg (Argument.spelling v ++ ·) ih

theorem spelling_ne_nil (v : Value) : v.spelling ≠ [] := by
  rcases v with _ | _ | _ | _ | (_ | _) | _ | _ | _ | _ <;>
    simp [spelling, StringValue.spelling]

end Value

namespace TypeReference

def bangSpelling (nonNull : Bool) : List Symbol := if nonNull then [mark .bang] else []

def spelling : TypeReference → List Symbol
  | named name nonNull => word name :: bangSpelling nonNull
  | list element nonNull =>
    mark .bracketOpen :: element.spelling ++ mark .bracketClose :: bangSpelling nonNull

theorem spelling_ne_nil (t : TypeReference) : t.spelling ≠ [] := by cases t <;> simp [spelling]

end TypeReference

def argumentsSpelling (l : IndexedList Argument) : List Symbol :=
  l.optionalSpelling .parenOpen .parenClose Argument.spelling

def Directive.spelling (d : Directive) : List Symbol :=
  mark .atSign :: word d.name :: argumentsSpelling d.arguments

def directivesSpelling (l : IndexedList Directive) : List Symbol := l.spelling Directive.spelling

/-- A default value behind an equals sign, if there is one. -/
def defaultSpelling : Option Value → List Symbol
  | some v => mark .equals :: v.spelling
  | none => []

def VariableDefinition.spelling (v : VariableDefinition) : List Symbol :=
  mark .dollar :: word v.name :: mark .colon :: v.type.spelling ++ defaultSpelling v.defaultValue ++
    directivesSpelling v.directives

/-- An alias and its colon, if there is one. -/
def aliasSpelling : Option String → List Symbol
  | some name => [word name, mark .colon]
  | none => []

/-- A type condition behind its keyword, if there is one. -/
def conditionSpelling : Option String → List Symbol
  | some name => [word "on", word name]
  | none => []

namespace Selection

mutual

def spelling : Selection → List Symbol
  | .field aliasName name args dirs selections =>
    aliasSpelling aliasName ++ word name :: argumentsSpelling args ++ directivesSpelling dirs ++
    match selections with
    | some selections => mark .braceOpen :: allSpelling selections ++ [mark .braceClose]
    | none => []
  | .spread name dirs => mark .ellipsis :: word name :: directivesSpelling dirs
  | .inlineFragment typeCondition dirs selections =>
    mark .ellipsis :: conditionSpelling typeCondition ++ directivesSpelling dirs ++
      mark .braceOpen :: allSpelling selections ++ [mark .braceClose]

def allSpelling : IndexedList Selection → List Symbol
  | .nil => []
  | .cons _ s rest => s.spelling ++ allSpelling rest

end

theorem allSpelling_eq (l : IndexedList Selection) : allSpelling l = l.spelling spelling := by
  induction l with
  | nil => rfl
  | cons p s rest ih => exact congrArg (s.spelling ++ ·) ih

end Selection

def SelectionSet.spelling (s : SelectionSet) : List Symbol :=
  s.blockSpelling .braceOpen .braceClose Selection.spelling

namespace Selection

theorem spelling_field (aliasName : Option String) (name : String) (args : IndexedList Argument)
    (dirs : IndexedList Directive) (set : Option SelectionSet) :
    (field aliasName name args dirs set).spelling =
      aliasSpelling aliasName ++ word name :: argumentsSpelling args ++ directivesSpelling dirs ++
        set.elim [] SelectionSet.spelling := by
  cases set with
  | none => rfl
  | some set => simp [spelling, SelectionSet.spelling, IndexedList.blockSpelling, allSpelling_eq]

theorem spelling_inlineFragment (condition : Option String) (dirs : IndexedList Directive)
    (set : SelectionSet) :
    (inlineFragment condition dirs set).spelling =
      mark .ellipsis :: conditionSpelling condition ++ directivesSpelling dirs ++
        SelectionSet.spelling set := by
  simp [spelling, SelectionSet.spelling, IndexedList.blockSpelling, allSpelling_eq]

theorem spelling_ne_nil (s : Selection) : s.spelling ≠ [] := by
  cases s with
  | field => simp [spelling_field]
  | spread => simp [spelling]
  | inlineFragment => simp [spelling_inlineFragment]

end Selection

theorem OperationType.keyword_of_ofKeyword? {word : String} {t : OperationType}
    (h : ofKeyword? word = some t) : t.keyword = word := by
  unfold ofKeyword? at h
  split at h <;> first | cases h; rfl | cases h

/-- A name, if there is one. -/
def nameSpelling : Option String → List Symbol
  | some name => [word name]
  | none => []

def OperationDefinition.spelling (o : OperationDefinition) : List Symbol :=
  word o.type.keyword :: nameSpelling o.name ++
    o.variableDefinitions.optionalSpelling .parenOpen .parenClose VariableDefinition.spelling ++
    directivesSpelling o.directives ++ SelectionSet.spelling o.selections

theorem OperationDefinition.eq_of_isShorthand {o : OperationDefinition} (h : o.isShorthand) :
    o = ⟨.query, none, .nil, .nil, o.selections⟩ := by
  obtain ⟨type, name, vars, dirs, selections⟩ := o
  obtain ⟨rfl, rfl, rfl, rfl⟩ : type = .query ∧ name = none ∧ vars = .nil ∧ dirs = .nil := by
    simpa [isShorthand, IndexedList.isEmpty_iff_eq_nil, and_assoc] using h
  rfl

def FragmentDefinition.spelling (f : FragmentDefinition) : List Symbol :=
  [word "fragment", word f.name, word "on", word f.typeCondition] ++
    directivesSpelling f.directives ++ SelectionSet.spelling f.selections

def descriptionSpelling : Option StringValue → List Symbol
  | some s => s.spelling
  | none => []

def RootOperation.spelling (r : RootOperation) : List Symbol :=
  [word r.type.keyword, mark .colon, word r.namedType]

/-- A schema from its description on. Only an extension may have no block. -/
def SchemaDefinition.spelling (isExtension : Bool) (s : SchemaDefinition) : List Symbol :=
  descriptionSpelling s.description ++ word "schema" :: directivesSpelling s.directives ++
    (if isExtension && s.roots.isEmpty then []
      else s.roots.blockSpelling .braceOpen .braceClose RootOperation.spelling)

def InputValueDefinition.spelling (i : InputValueDefinition) : List Symbol :=
  descriptionSpelling i.description ++ word i.name :: mark .colon :: i.type.spelling ++
    defaultSpelling i.defaultValue ++ directivesSpelling i.directives

def argumentDefinitionsSpelling (l : IndexedList InputValueDefinition) : List Symbol :=
  l.optionalSpelling .parenOpen .parenClose InputValueDefinition.spelling

def FieldDefinition.spelling (f : FieldDefinition) : List Symbol :=
  descriptionSpelling f.description ++ word f.name :: argumentDefinitionsSpelling f.arguments ++
    mark .colon :: f.type.spelling ++ directivesSpelling f.directives

def EnumValueDefinition.spelling (v : EnumValueDefinition) : List Symbol :=
  descriptionSpelling v.description ++ word v.name :: directivesSpelling v.directives

/-- Interfaces behind their keyword, or nothing if there is none. -/
def interfacesSpelling (lead : Bool) (l : IndexedList TypeReference) : List Symbol :=
  if l.isEmpty then []
  else word "implements" :: l.separatedSpelling .ampersand lead TypeReference.spelling

/-- Union members behind an equals sign, or nothing if there is none. -/
def membersSpelling (lead : Bool) (l : IndexedList TypeReference) : List Symbol :=
  if l.isEmpty then [] else mark .equals :: l.separatedSpelling .pipe lead TypeReference.spelling

/-- What is written behind the name of a type. -/
def TypeBody.spelling (lead : Bool) (directives : IndexedList Directive) : TypeBody → List Symbol
  | .scalar => directivesSpelling directives
  | .object interfaces fields | .interface interfaces fields =>
    interfacesSpelling lead interfaces ++ directivesSpelling directives ++
      fields.optionalSpelling .braceOpen .braceClose FieldDefinition.spelling
  | .union members => directivesSpelling directives ++ membersSpelling lead members
  | .enum values =>
    directivesSpelling directives ++
      values.optionalSpelling .braceOpen .braceClose EnumValueDefinition.spelling
  | .inputObject fields =>
    directivesSpelling directives ++
      fields.optionalSpelling .braceOpen .braceClose InputValueDefinition.spelling

theorem TypeBody.spelling_of_isEmpty {b : TypeBody} (h : b.isEmpty) (lead : Bool)
    (directives : IndexedList Directive) :
    b.spelling lead directives = directivesSpelling directives := by
  cases b <;> simp_all [isEmpty, spelling, interfacesSpelling, membersSpelling,
    IndexedList.optionalSpelling]

/-- A type from its description on. `lead` puts a separator in front of its interfaces or members. -/
def TypeDefinition.spelling (lead : Bool) (t : TypeDefinition) : List Symbol :=
  descriptionSpelling t.description ++ word t.kind.keyword :: word t.name ::
    t.body.spelling lead t.directives

/-- A directive from its description on. `lead` puts a separator in front of its locations. -/
def DirectiveDefinition.spelling (lead : Bool) (d : DirectiveDefinition) : List Symbol :=
  descriptionSpelling d.description ++ word "directive" :: mark .atSign :: word d.name ::
    argumentDefinitionsSpelling d.arguments ++
    (if d.repeatable then [word "repeatable"] else []) ++
    word "on" :: d.locations.separatedSpelling .pipe lead ([word ·.text])

/-- The ways to spell a definition. -/
inductive Definition.Spells : Definition → List Symbol → Prop where
  | operation (o : OperationDefinition) : Spells (.executable (.operation o)) o.spelling
  | shorthand (o : OperationDefinition) (h : o.isShorthand) :
      Spells (.executable (.operation o)) (SelectionSet.spelling o.selections)
  | fragment (f : FragmentDefinition) : Spells (.executable (.fragment f)) f.spelling
  | schema (s : SchemaDefinition) : Spells (.typeSystem (.schema s)) (s.spelling false)
  | type (t : TypeDefinition) (lead : Bool) : Spells (.typeSystem (.type t)) (t.spelling lead)
  | directive (d : DirectiveDefinition) (lead : Bool) :
      Spells (.typeSystem (.directive d)) (d.spelling lead)
  | schemaExtension (s : SchemaDefinition) :
      Spells (.extension (.schema s)) (word "extend" :: s.spelling true)
  | typeExtension (t : TypeDefinition) (lead : Bool) :
      Spells (.extension (.type t)) (word "extend" :: t.spelling lead)

theorem Definition.Spells.ne_nil {d : Definition} {w : List Symbol} (h : d.Spells w) : w ≠ [] := by
  cases h <;> simp [OperationDefinition.spelling, SelectionSet.spelling, IndexedList.blockSpelling,
    FragmentDefinition.spelling, SchemaDefinition.spelling, TypeDefinition.spelling,
    DirectiveDefinition.spelling]

/-- Whether a type lacks the block in braces that types of its kind may have. -/
def TypeBody.lacksBlock : TypeBody → Bool
  | .object _ fields | .interface _ fields => fields.isEmpty
  | .enum values => values.isEmpty
  | .inputObject fields => fields.isEmpty
  | .scalar | .union _ => false

/-- Whether an opening brace right behind the definition would be read as its block. -/
def Definition.lacksBlock : Definition → Bool
  | .typeSystem (.type t) | .extension (.type t) => t.body.lacksBlock
  | .extension (.schema s) => s.roots.isEmpty
  | _ => false

/-- Definitions one after another. Behind one that lacks a block, which is so at the start if `lacking`
says so, the next may not begin with an opening brace. -/
inductive Definition.SpellRow : (lacking : Bool) → List Definition → List Symbol → Prop where
  | nil {lacking : Bool} : SpellRow lacking [] []
  | cons {lacking : Bool} {d : Definition} {ds : List Definition} {w v : List Symbol}
      (head : d.Spells w) (apart : lacking → w.head? ≠ some (mark .braceOpen))
      (tail : SpellRow d.lacksBlock ds v) : SpellRow lacking (d :: ds) (w ++ v)

namespace Definition.SpellRow

/-- The row may stand behind a definition that lacks its block. -/
theorem behind {ds : List Definition} {w : List Symbol} (h : SpellRow false ds w) {lacking : Bool}
    (apart : lacking → w.head? ≠ some (mark .braceOpen)) : SpellRow lacking ds w := by
  cases h with
  | nil => exact .nil
  | @cons _ _ _ w _ head _ tail =>
    refine .cons head (fun h => ?_) tail
    cases w with
    | nil => exact absurd rfl head.ne_nil
    | cons => exact apart h

/-- Two rows one after another, if the second may stand behind the last definition of the first. -/
theorem append {lacking : Bool} {ds es : List Definition} {w v : List Symbol} (h : SpellRow lacking ds w)
    (hv : SpellRow (ds.getLast?.elim lacking lacksBlock) es v) : SpellRow lacking (ds ++ es) (w ++ v) := by
  induction h with
  | nil => exact hv
  | @cons _ d ds w u head apart _ ih =>
    rw [List.append_assoc]
    refine .cons head apart (ih ?_)
    cases hl : ds.getLast? <;> simpa [List.getLast?_cons, hl] using hv

end Definition.SpellRow

/-- The symbols spell the document. -/
def Document.Spells (d : Document) (w : List Symbol) : Prop :=
  Definition.SpellRow false d.definitions.toList w

end GraphQL
