import GraphQL.Schema
import GraphQL.Validation.Error
import GraphQL.Walker

/-! Validation rules. A rule is a set of handlers on a shared walk; what it has to remember is kept
beside the errors found so far, in parts of which each belongs to one rule. -/
namespace GraphQL

/-- The errors found so far, in the order of their detection, and what the rules remember. -/
structure Findings where
  errors : List ValidationError
  operationCount : Nat
  schemaDefinitionCount : Nat
  operationNames : List String
  fragmentNames : List String
  typeNames : List String
  directiveNames : List String
  /-- The kinds of the types that the document defines. The first definition of a name counts. -/
  definedKinds : Registry TypeKind
  deriving DecidableEq

namespace Findings

def none : Findings := ⟨[], 0, 0, [], [], [], [], .empty⟩

def report (f : Findings) (e : ValidationError) : Findings := { f with errors := f.errors ++ [e] }

def reportAll (f : Findings) (es : List ValidationError) : Findings :=
  { f with errors := f.errors ++ es }

end Findings

/-- The names that stand in the list a second time or more, each as often as it is repeated. -/
def repeatedNames (seen : List String) : List String → List String
  | [] => []
  | name :: rest =>
    if seen.contains name then name :: repeatedNames seen rest
    else repeatedNames (name :: seen) rest

inductive Rule where
  | executableDefinitions
  | loneAnonymousOperation
  | uniqueOperationNames
  | uniqueFragmentNames
  | uniqueVariableNames
  | uniqueArgumentNames
  | loneSchemaDefinition
  | uniqueTypeNames
  | uniqueDirectiveNames
  | possibleTypeExtensions
  deriving DecidableEq

namespace Rule

/-- The name of a definition that cannot be executed. -/
def nonExecutableName? : Definition → Option String
  | .executable _ => none
  | .typeSystem (.schema _) | .extension (.schema _) => some "schema"
  | .typeSystem (.type t) | .extension (.type t) => some t.name
  | .typeSystem (.directive d) => some d.name

/-- Executable documents hold no definition or extension of the type system. -/
def checkExecutable : Node → Findings → Findings
  | .definition d, f =>
    match nonExecutableName? d with
    | some name => f.report (.nonExecutableDefinition name)
    | none => f
  | _, f => f

def countOperations : Node → Findings → Findings
  | .document d, f => { f with operationCount := d.operations.length }
  | _, f => f

/-- An operation without a name is the only operation of its document. -/
def checkAnonymous : Node → Findings → Findings
  | .operationDefinition o, f =>
    if o.name.isNone && 1 < f.operationCount then f.report .anonymousOperationNotAlone else f
  | _, f => f

/-- Operations have different names. -/
def checkOperationName : Node → Findings → Findings
  | .operationDefinition o, f =>
    match o.name with
    | none => f
    | some name =>
      if f.operationNames.contains name then f.report (.duplicateOperationName name)
      else { f with operationNames := name :: f.operationNames }
  | _, f => f

/-- Fragments have different names. -/
def checkFragmentName : Node → Findings → Findings
  | .fragmentDefinition x, f =>
    if f.fragmentNames.contains x.name then f.report (.duplicateFragmentName x.name)
    else { f with fragmentNames := x.name :: f.fragmentNames }
  | _, f => f

/-- The variables of one operation have different names. -/
def checkVariableNames : Node → Findings → Findings
  | .operationDefinition o, f =>
    f.reportAll ((repeatedNames [] (o.variableDefinitions.toList.map (·.name))).map .duplicateVariableName)
  | _, f => f

def duplicateArguments (arguments : IndexedList Argument) : List ValidationError :=
  (repeatedNames [] (arguments.toList.map (·.name))).map .duplicateArgumentName

/-- The arguments of one field or directive have different names. -/
def checkArgumentNames : Node → Findings → Findings
  | .selectionVariant (.field _ _ arguments _ _), f => f.reportAll (duplicateArguments arguments)
  | .directive d, f => f.reportAll (duplicateArguments d.arguments)
  | _, f => f

/-- A schema is defined once, and not over one that is defined already. -/
def checkSchemaDefinition (schema : Option Schema) : Node → Findings → Findings
  | .schemaDefinition _, f =>
    if schema.any (·.isDefined) then f.report .schemaAlreadyDefined
    else
      let f' := if 0 < f.schemaDefinitionCount then f.report .schemaDefinitionNotAlone else f
      { f' with schemaDefinitionCount := f.schemaDefinitionCount + 1 }
  | _, f => f

/-- Types have different names, and none that the existing schema has. -/
def checkTypeName (schema : Option Schema) : Node → Findings → Findings
  | .typeDefinition t, f =>
    if schema.any (·.types.contains t.name) then f.report (.existedTypeName t.name)
    else if f.typeNames.contains t.name then f.report (.duplicateTypeName t.name)
    else { f with typeNames := t.name :: f.typeNames }
  | _, f => f

/-- Directives have different names, and none that the existing schema has. -/
def checkDirectiveName (schema : Option Schema) : Node → Findings → Findings
  | .directiveDefinition d, f =>
    if schema.any (·.directives.contains d.name) then f.report (.existedDirectiveName d.name)
    else if f.directiveNames.contains d.name then f.report (.duplicateDirectiveName d.name)
    else { f with directiveNames := d.name :: f.directiveNames }
  | _, f => f

/-- Collects the kinds of all types before any extension is looked at, which may stand in front. -/
def collectKinds : Node → Findings → Findings
  | .document d, f =>
    { f with definedKinds :=
        d.typeDefinitions.foldl (fun kinds t => kinds.insertNew t.name t.kind) f.definedKinds }
  | _, f => f

/-- An extended type is defined, by the document or the existing schema, and of the same kind. -/
def checkExtension (schema : Option Schema) : Node → Findings → Findings
  | .typeExtension t, f =>
    let existing := (schema.bind (·.types.get? t.name)).map (·.kind)
    match (f.definedKinds.get? t.name).or existing with
    | none => f.report (.extendedTypeNotDefined t.name)
    | some kind =>
      if kind = t.kind then f else f.report (.extendedTypeKindMismatch t.name t.kind)
  | _, f => f

/-- The handlers of a rule, for documents on top of an existing schema. -/
def handlers (schema : Option Schema) : Rule → Walker Findings
  | executableDefinitions => [⟨.definition, .enter, checkExecutable⟩]
  | loneAnonymousOperation =>
    [⟨.document, .enter, countOperations⟩, ⟨.operationDefinition, .enter, checkAnonymous⟩]
  | uniqueOperationNames => [⟨.operationDefinition, .enter, checkOperationName⟩]
  | uniqueFragmentNames => [⟨.fragmentDefinition, .enter, checkFragmentName⟩]
  | uniqueVariableNames => [⟨.operationDefinition, .enter, checkVariableNames⟩]
  | uniqueArgumentNames =>
    [⟨.selectionVariant .field, .enter, checkArgumentNames⟩,
      ⟨.directive, .enter, checkArgumentNames⟩]
  | loneSchemaDefinition => [⟨.schemaDefinition, .enter, checkSchemaDefinition schema⟩]
  | uniqueTypeNames => [⟨.typeDefinition, .enter, checkTypeName schema⟩]
  | uniqueDirectiveNames => [⟨.directiveDefinition, .enter, checkDirectiveName schema⟩]
  | possibleTypeExtensions =>
    [⟨.document, .enter, collectKinds⟩, ⟨.typeExtension, .enter, checkExtension schema⟩]

/-- The rules for documents that are executed. -/
def executable : List Rule :=
  [executableDefinitions, loneAnonymousOperation, uniqueOperationNames, uniqueFragmentNames,
    uniqueVariableNames, uniqueArgumentNames]

/-- The rules for documents that define a schema. -/
def sdl : List Rule :=
  [loneSchemaDefinition, uniqueTypeNames, uniqueDirectiveNames, possibleTypeExtensions]

end Rule

/-- The errors that the rules find in one walk, in the order of their detection. -/
def validate (d : Document) (schema : Option Schema) (rules : List Rule) : List ValidationError :=
  (Walker.walk (rules.flatMap (Rule.handlers schema)) d Findings.none).errors

def validateExecutable (d : Document) : List ValidationError := validate d none Rule.executable

/-- Validates definitions of the type system, perhaps on top of an existing schema. -/
def validateSdl (d : Document) (schema : Option Schema) : List ValidationError :=
  validate d schema Rule.sdl

end GraphQL
