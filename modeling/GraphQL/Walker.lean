import GraphQL.Node

/-! Walks over a document, depth first and in grammar order. Each node is entered and left, and the
handlers registered for its kind change a state that is passed along. -/
namespace GraphQL

inductive Phase where
  | enter
  | leave
  deriving DecidableEq

/-- What to do with the state at nodes of one kind. -/
structure Handler (σ : Type) where
  kind : NodeKind
  phase : Phase
  action : Node → σ → σ

/-- Handlers in the order in which they were registered. -/
abbrev Walker (σ : Type) := List (Handler σ)

namespace Walker
variable {σ α : Type}

/-- Runs the handlers for a node in one phase. -/
def fire (w : Walker σ) (phase : Phase) (n : Node) (s : σ) : σ :=
  w.foldl (fun s h => if h.kind = n.kind ∧ h.phase = phase then h.action n s else s) s

/-- Enters a node, does what is inside it, and leaves it. -/
def visit (w : Walker σ) (n : Node) (inside : σ → σ) (s : σ) : σ :=
  w.fire .leave n (inside (w.fire .enter n s))

/-- A node with nothing inside. -/
def visitLeaf (w : Walker σ) (n : Node) (s : σ) : σ := w.visit n id s

/-- Visits the elements of a list from head to tail. -/
def visitEach (f : α → σ → σ) (l : IndexedList α) (s : σ) : σ :=
  l.toList.foldl (fun s a => f a s) s

/-- Visits what is there, if it is. -/
def visitOption (f : α → σ → σ) (a : Option α) (s : σ) : σ :=
  match a with
  | some a => f a s
  | none => s

mutual

def value (w : Walker σ) : Value → σ → σ
  | v@(.list items), s => w.visit (.value v) (w.visit (.valueVariant v) (w.listItems items)) s
  | v@(.object fields), s => w.visit (.value v) (w.visit (.valueVariant v) (w.objectFields fields)) s
  | v, s => w.visit (.value v) (w.visitLeaf (.valueVariant v)) s

def listItems (w : Walker σ) : IndexedList Value → σ → σ
  | .nil, s => s
  | .cons _ v rest, s => w.listItems rest (w.value v s)

def objectFields (w : Walker σ) : IndexedList (Named Value) → σ → σ
  | .nil, s => s
  | .cons _ ⟨name, v⟩ rest, s =>
    w.objectFields rest (w.visit (.objectField ⟨name, v⟩) (w.value v) s)

end

def type (w : Walker σ) : TypeReference → σ → σ
  | t@(.named ..), s => w.visitLeaf (.type t) s
  | t@(.list element _), s => w.visit (.type t) (w.type element) s

def argument (w : Walker σ) (a : Argument) : σ → σ :=
  w.visit (.argument a) (w.value a.value)

def directive (w : Walker σ) (d : Directive) : σ → σ :=
  w.visit (.directive d) (visitEach w.argument d.arguments)

def directives (w : Walker σ) (l : IndexedList Directive) : σ → σ :=
  visitEach w.directive l

mutual

def selection (w : Walker σ) : Selection → σ → σ
  | x@(.field _ _ args dirs none), s =>
    w.visit (.selection x) (w.visit (.selectionVariant x) fun s =>
      w.directives dirs (visitEach w.argument args s)) s
  | x@(.field _ _ args dirs (some inner)), s =>
    w.visit (.selection x) (w.visit (.selectionVariant x) fun s =>
      w.visit (.selectionSet inner) (w.selections inner)
        (w.directives dirs (visitEach w.argument args s))) s
  | x@(.spread _ dirs), s =>
    w.visit (.selection x) (w.visit (.selectionVariant x) (w.directives dirs)) s
  | x@(.inlineFragment _ dirs inner), s =>
    w.visit (.selection x) (w.visit (.selectionVariant x) fun s =>
      w.visit (.selectionSet inner) (w.selections inner) (w.directives dirs s)) s

def selections (w : Walker σ) : IndexedList Selection → σ → σ
  | .nil, s => s
  | .cons _ x rest, s => w.selections rest (w.selection x s)

end

def selectionSet (w : Walker σ) (l : SelectionSet) : σ → σ :=
  w.visit (.selectionSet l) (w.selections l)

def variableDefinition (w : Walker σ) (v : VariableDefinition) : σ → σ :=
  w.visit (.variableDefinition v) fun s =>
    w.directives v.directives (visitOption w.value v.defaultValue (w.type v.type s))

def operation (w : Walker σ) (o : OperationDefinition) : σ → σ :=
  w.visit (.operationDefinition o) (w.visit (.operationVariant o) fun s =>
    w.selectionSet o.selections
      (w.directives o.directives (visitEach w.variableDefinition o.variableDefinitions s)))

def fragment (w : Walker σ) (f : FragmentDefinition) : σ → σ :=
  w.visit (.fragmentDefinition f) fun s =>
    w.selectionSet f.selections (w.directives f.directives s)

def executableDefinition (w : Walker σ) (d : ExecutableDefinition) : σ → σ :=
  w.visit (.executableDefinition d) <|
    match d with
    | .operation o => w.operation o
    | .fragment f => w.fragment f

def inputValueDefinition (w : Walker σ) (i : InputValueDefinition) : σ → σ :=
  w.visit (.inputValueDefinition i) fun s =>
    w.directives i.directives (visitOption w.value i.defaultValue (w.type i.type s))

def fieldDefinition (w : Walker σ) (f : FieldDefinition) : σ → σ :=
  w.visit (.fieldDefinition f) fun s =>
    w.directives f.directives (w.type f.type (visitEach w.inputValueDefinition f.arguments s))

def enumValueDefinition (w : Walker σ) (v : EnumValueDefinition) : σ → σ :=
  w.visit (.enumValueDefinition v) (w.directives v.directives)

/-- What is inside a schema definition or extension. -/
def schemaParts (w : Walker σ) (x : SchemaDefinition) (s : σ) : σ :=
  visitEach (fun r => w.visitLeaf (.rootOperation r)) x.roots (w.directives x.directives s)

/-- What is inside a type definition or extension. -/
def typeParts (w : Walker σ) (t : TypeDefinition) (s : σ) : σ :=
  match t.body with
  | .scalar => w.directives t.directives s
  | .object interfaces fields | .interface interfaces fields =>
    visitEach w.fieldDefinition fields (w.directives t.directives (visitEach w.type interfaces s))
  | .union members => visitEach w.type members (w.directives t.directives s)
  | .enum values => visitEach w.enumValueDefinition values (w.directives t.directives s)
  | .inputObject fields => visitEach w.inputValueDefinition fields (w.directives t.directives s)

def typeSystemDefinition (w : Walker σ) (d : TypeSystemDefinition) : σ → σ :=
  w.visit (.typeSystemDefinition d) <|
    match d with
    | .schema x => w.visit (.schemaDefinition x) (w.schemaParts x)
    | .type t => w.visit (.typeDefinition t) (w.visit (.typeVariant t) (w.typeParts t))
    | .directive x =>
      w.visit (.directiveDefinition x) (visitEach w.inputValueDefinition x.arguments)

/-- An extension is never visited as a definition. -/
def typeSystemExtension (w : Walker σ) (e : TypeSystemExtension) : σ → σ :=
  w.visit (.typeSystemExtension e) <|
    match e with
    | .schema x => w.visit (.schemaExtension x) (w.schemaParts x)
    | .type t => w.visit (.typeExtension t) (w.typeParts t)

def definition (w : Walker σ) (d : Definition) : σ → σ :=
  w.visit (.definition d) <|
    match d with
    | .executable x => w.executableDefinition x
    | .typeSystem x => w.typeSystemDefinition x
    | .extension x => w.typeSystemExtension x

/-- The state after all handlers have run on a document. -/
def walk (w : Walker σ) (d : Document) : σ → σ :=
  w.visit (.document d) (visitEach w.definition d.definitions)

end Walker
end GraphQL
