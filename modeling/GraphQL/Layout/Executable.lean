import GraphQL.Executable
import GraphQL.Layout

/-! Values, type references, directives, operations and fragments laid out. -/
namespace GraphQL
open Layout

namespace Value

mutual

def layout : Value → Layout
  | .variable name => [punctuator .dollar, word name]
  | .int literal => [.symbol ⟨.int, literal⟩]
  | .float literal => [.symbol ⟨.float, literal⟩]
  | .string s => [.symbol s.symbol]
  | .boolean true => [word "true"]
  | .boolean false => [word "false"]
  | .null => [word "null"]
  | .enum name => [word name]
  | .list items =>
    punctuator .bracketOpen :: commaJoined (itemLayouts items) ++ [punctuator .bracketClose]
  | .object fields =>
    punctuator .braceOpen :: commaJoined (fieldLayouts fields) ++ [punctuator .braceClose]

def itemLayouts : IndexedList Value → List Layout
  | .nil => []
  | .cons _ v rest => v.layout :: itemLayouts rest

def fieldLayouts : IndexedList (Named Value) → List Layout
  | .nil => []
  | .cons _ ⟨name, v⟩ rest =>
    (word name :: punctuator .colon :: space :: v.layout) :: fieldLayouts rest

end

end Value

namespace TypeReference

def nullability (nonNull : Bool) : Layout := if nonNull then [punctuator .bang] else []

def layout : TypeReference → Layout
  | named name nonNull => word name :: nullability nonNull
  | list element nonNull =>
    punctuator .bracketOpen :: element.layout ++ punctuator .bracketClose :: nullability nonNull

end TypeReference

namespace Layout

def argumentList (l : IndexedList Argument) : Layout :=
  optionalParens (Value.fieldLayouts l)

end Layout

def Directive.layout (d : Directive) : Layout :=
  punctuator .atSign :: word d.name :: argumentList d.arguments

namespace Layout

/-- Each directive behind a space. -/
def directiveList (l : IndexedList Directive) : Layout :=
  l.toList.flatMap (space :: ·.layout)

/-- A default value behind an equals sign, if there is one. -/
def defaultClause (v : Option Value) : Layout :=
  match v with
  | some v => space :: punctuator .equals :: space :: v.layout
  | none => []

/-- A colon and a type. -/
def typeClause (t : TypeReference) : Layout := punctuator .colon :: space :: t.layout

end Layout

namespace Selection

mutual

/-- The selection on a line that is indented by `depth` levels. -/
def layout (depth : Nat) : Selection → Layout
  | .field aliasName name args dirs selections =>
    (match aliasName with
      | some aliasName => [word aliasName, punctuator .colon, space]
      | none => []) ++
    word name :: argumentList args ++ directiveList dirs ++
    match selections with
    | some selections => space :: block depth (layouts (depth + 1) selections)
    | none => []
  | .spread name dirs => punctuator .ellipsis :: word name :: directiveList dirs
  | .inlineFragment typeCondition dirs selections =>
    punctuator .ellipsis ::
    (match typeCondition with
      | some name => [space, word "on", space, word name]
      | none => []) ++
    directiveList dirs ++ space :: block depth (layouts (depth + 1) selections)

def layouts (depth : Nat) : IndexedList Selection → List Layout
  | .nil => []
  | .cons _ s rest => s.layout depth :: layouts depth rest

end

end Selection

/-- The selection set of a definition. -/
def SelectionSet.layout (s : SelectionSet) : Layout :=
  block 0 (Selection.layouts 1 s)

def VariableDefinition.layout (v : VariableDefinition) : Layout :=
  punctuator .dollar :: word v.name :: typeClause v.type ++ defaultClause v.defaultValue ++
    directiveList v.directives

/-- The operation; where `shorthand` allows it, a selection set alone. -/
def OperationDefinition.layout (shorthand : Bool) (o : OperationDefinition) : Layout :=
  (if o.isShorthand && shorthand then []
    else
      word o.type.keyword ::
      (match o.name with
        | some name => [space, word name]
        | none => []) ++
      optionalParens (o.variableDefinitions.toList.map (·.layout)) ++ directiveList o.directives ++ [space]) ++
  SelectionSet.layout o.selections

def FragmentDefinition.layout (f : FragmentDefinition) : Layout :=
  [word "fragment", space, word f.name, space, word "on", space, word f.typeCondition] ++
    directiveList f.directives ++ space :: SelectionSet.layout f.selections

end GraphQL
