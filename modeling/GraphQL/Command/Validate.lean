import GraphQL.Command.Display
import GraphQL.Command.Invocation
import GraphQL.Command.Scan
import GraphQL.Schema.Build

/-! The command that validates files. Each executable document is validated alone; all documents that
define a schema are joined, in the order of their paths, and built into one. -/
namespace GraphQL.Command

/-- What keeps files from being loaded. -/
inductive LoadError where
  | unreached (u : Unreached)
  | unreadable (path : Path) (e : ReadError)
  deriving DecidableEq

def LoadError.message : LoadError → String
  | unreached u => u.message
  | unreadable p e => p.text ++ ": " ++ e.message

/-- A file with what has been made of its content. -/
structure FileOf (α : Type) where
  path : Path
  content : α
  deriving DecidableEq

/-- What is wrong with the content of the files. -/
inductive Problem where
  | malformed (path : Path) (source : List Char) (e : SyntaxError)
  | invalid (path : Path) (e : ValidationError)
  | schema (e : ValidationError)
  deriving DecidableEq

def Problem.message : Problem → String
  | malformed p source e => p.text ++ ":\n" ++ e.detailed (some source)
  | invalid p e => p.text ++ ": " ++ e.message
  | schema e => "schema: " ++ e.message

/-- The lines of a validation with so many rules. -/
def validationLines (d : Document) (rules : Nat) (errors : List ValidationError) : Log :=
  ⟨.debug, "gqlparse_validation::validate",
      "validating document with " ++ toString d.definitions.len ++ " definition(s) against " ++
        toString rules ++ " rule(s)"⟩ ::
    errors.map fun e =>
      ⟨.debug, "gqlparse_validation::validation_context", "validation error: " ++ e.message⟩

/-- Whether a document is taken as one that defines a schema. -/
def ValidationMode.definesSchema (mode : ValidationMode) (d : Document) : Bool :=
  match mode with
  | executable => false
  | sdl => true
  | auto => !d.definitions.toList.any (·.isExecutable)

/-- The text of the file at a path, which is named if there is none. -/
def loadFile (env : Environment) (p : Path) : Except LoadError (FileOf (List Char)) :=
  match env.readFile p with
  | .ok source => .ok ⟨p, source⟩
  | .error e => .error (.unreadable p e)

/-- The files as texts. All of them are read at the same time. The texts are put in the order of the paths, but the
faults stay in the order in which the reads have ended. -/
def loadFiles (host : Host) (env : Environment) (paths : List Path) :
    List (FileOf (List Char)) × List LoadError :=
  let ended := (host.reads.arrange paths.zipIdx).map fun (p, place) => (place, loadFile env p)
  let texts := ended.filterMap fun (place, loaded) => loaded.toOption.map (place, ·)
  ((texts.mergeSort fun a b => a.1 ≤ b.1).map (·.2),
    ended.filterMap fun
      | (_, .ok _) => none
      | (_, .error e) => some e)

/-- The files as documents, and the files that are malformed. -/
def parseFiles (files : List (FileOf (List Char))) : List (FileOf Document) × List Problem :=
  let results := files.map fun f => (f, parse f.content)
  (results.filterMap fun
      | (f, .ok d) => some ⟨f.path, d⟩
      | (_, .error _) => none,
    results.filterMap fun
      | (_, .ok _) => none
      | (f, .error e) => some (.malformed f.path f.content e))

/-- What comes of validating a document or building a schema. -/
structure Verdict where
  problems : List Problem
  types : Nat
  directives : Nat
  operations : Nat
  log : Log
  deriving DecidableEq

/-- Validates an executable document. -/
def judgeExecutable (f : FileOf Document) : Verdict :=
  let errors := validateExecutable f.content
  { problems := errors.map (.invalid f.path)
    types := 0
    directives := 0
    operations := f.content.operations.length
    log := validationLines f.content Rule.executable.length errors }

/-- All definitions of the documents, in their order. -/
def joinDocuments (documents : List Document) : Document :=
  documents.foldl Document.join ⟨.nil⟩

/-- Builds the schema that documents define together. No documents define none. -/
def judgeSchema (files : List (FileOf Document)) : Verdict :=
  if files.isEmpty then ⟨[], 0, 0, 0, []⟩
  else
    let merging : Log := files.map fun f =>
      ⟨.trace, validateTarget,
        "Merging schema definitions from " ++ Text.quote (f.path.text).toList ++ "."⟩
    let document := joinDocuments (files.map (·.content))
    let line (message : String) : LogLine := ⟨.debug, "gqlparse_validation::schema", message⟩
    let lines (errors : List ValidationError) : Log :=
      merging ++ validationLines document Rule.sdl.length errors
    match Schema.build none document with
    | .ok schema =>
      { problems := []
        types := schema.types.size
        directives := schema.directives.size
        operations := 0
        log := lines [] ++ [line ("built schema with " ++ toString schema.types.size ++
          " type(s) and " ++ toString schema.directives.size ++ " directive(s)")] }
    | .error errors =>
      { problems := errors.map .schema
        types := 0
        directives := 0
        operations := 0
        log := lines errors ++ [line ("schema document rejected with " ++
          toString errors.length ++ " error(s)")] }

/-- The report on files without problems. -/
def validReport (files skipped types directives operations : Nat) : String :=
  "✅ All GraphQL validated successfully:\n" ++ bulleted [
    "Analyzed " ++ toString files ++ " files.",
    "Skipped " ++ toString skipped ++ " non-graphql files.",
    "Validated " ++ toString types ++ " type definitions.",
    "Validated " ++ toString directives ++ " directive definitions.",
    "Validated " ++ toString operations ++ " operations."]

/-- Validates the texts of files. Malformed files are reported first, then the faults of executable
documents, then those of the schema. Files are parsed at the same time, and so executable documents are validated. -/
def judgeFiles (host : Host) (mode : ValidationMode) (skipped : Nat)
    (files : List (FileOf (List Char))) : Outcome :=
  let (parsed, malformed) := parseFiles files
  let (schemas, executables) := parsed.partition fun f => mode.definesSchema f.content
  let judged := executables.map judgeExecutable
  let schema := judgeSchema schemas
  let verdicts := judged ++ [schema]
  let problems := malformed ++ verdicts.flatMap (·.problems)
  let total (count : Verdict → Nat) : Nat := verdicts.foldl (fun n v => n + count v) 0
  let outcome : Outcome :=
    if problems.isEmpty then
      .success (validReport files.length skipped (total (·.types)) (total (·.directives))
        (total (·.operations)))
    else
      .failure ("GraphQL validation errors:\n" ++ bulleted (problems.map (·.message)))
  outcome.after (host.lines.arrange (parsed.map (parsedLine ·.content)) ++
    ⟨.debug, validateTarget, "Parsed " ++ toString schemas.length ++ " schema documents and " ++
      toString executables.length ++ " executable documents."⟩ ::
      (host.lines.arrange (judged.flatMap (·.log)) ++ schema.log))

/-- Validates the files at and under the given paths. Nothing is validated unless all can be loaded. -/
def validateFiles (host : Host) (env : Environment) (options : ValidateOptions) : Outcome :=
  let scan := Scan.ofArguments host env options.extensions options.paths
  let (files, unreadable) := loadFiles host env scan.files
  let errors := scan.unreached.map .unreached ++ unreadable
  let outcome : Outcome :=
    if errors.isEmpty then judgeFiles host options.mode scan.skipped files
    else
      .failure ("Failed to load GraphQL files:\n" ++ bulleted (errors.map (·.message)))
  outcome.after (scan.log ++ [⟨.debug, validateTarget,
    "Found " ++ toString scan.files.length ++ " GraphQL files to be validated."⟩])

end GraphQL.Command
