import GraphQL.Command.Validate
import GraphQL.Proofs.IndexedList.Sequences
import GraphQL.Proofs.Lexer.Joined
import GraphQL.Proofs.RoundTrip

/-! Files that are parsed together. Texts that are joined by a line break spell the definitions of both, so the
document that files of a schema make together is that of one text. -/
namespace GraphQL
open GraphQL.Symbol

/-- The document defines and extends, and has nothing to be executed. -/
def Document.IsTypeSystem (d : Document) : Prop := ∀ a ∈ d.definitions.toList, a.isExecutable = false

namespace Definition

/-- Only a query can begin with an opening brace. -/
theorem Spells.isExecutable {d : Definition} {w : List Symbol} (h : d.Spells w)
    (brace : w.head? = some (mark .braceOpen)) : d.isExecutable := by
  have head (same : w.head? = (d.printedSpelling false).head?) : d.isExecutable :=
    absurd (same.symm.trans brace) d.head_printedSpelling
  cases h with
  | operation | shorthand | fragment => rfl
  | schema | schemaExtension | typeExtension => exact head rfl
  | type t lead => exact head (by simp [printedSpelling, TypeDefinition.spelling])
  | directive d lead => exact head (by simp [printedSpelling, DirectiveDefinition.spelling])

theorem SpellRow.head_of_isTypeSystem {lacking : Bool} {ds : List Definition} {w : List Symbol}
    (h : SpellRow lacking ds w) (typeSystem : ∀ d ∈ ds, d.isExecutable = false) :
    w.head? ≠ some (mark .braceOpen) := by
  cases h with
  | nil => simp
  | @cons _ d ds w v head _ _ =>
    intro brace
    cases w with
    | nil => exact absurd rfl head.ne_nil
    | cons x w =>
      have executable := head.isExecutable brace
      rw [typeSystem d (.head _)] at executable
      cases executable

end Definition

/-- The spelling of a text that is accepted has no malformed symbol. -/
private theorem legal_of_spells {d : Document} {w : List Symbol} (h : d.Spells w) :
    ∀ x ∈ w, x.kind ≠ .illegal := by
  intro x hx
  obtain ⟨t, ⟨-, legal⟩, rfl⟩ := h.allSpelled x hx
  rwa [Token.bare_kind]

/-- Two texts that are accepted, unless the second could be read as the block that the first lacks at its end. -/
theorem parse_newline {s t : List Char} {d e : Document} (hs : parse s = .ok d) (ht : parse t = .ok e)
    (apart : d.definitions.toList.getLast?.elim false Definition.lacksBlock = true →
      (spelledSymbols (tokenize t)).head? ≠ some (mark .braceOpen)) :
    parse (s ++ '\n' :: t) = .ok (d.join e) := by
  have printable := (Document.isPrintable_of_parse hs).join (Document.isPrintable_of_parse ht)
  obtain ⟨-, first⟩ := wellFormed_of_parseTokens hs
  obtain ⟨-, second⟩ := wellFormed_of_parseTokens ht
  refine parseTokens_of_spells printable.wellFormed ?_ printable.nesting
  rw [spelledSymbols_newline (legal_of_spells first), Document.Spells, Document.toList_join]
  apply Definition.SpellRow.append first
  exact Definition.SpellRow.behind second apart

theorem head_spelledSymbols {tokens : List Token} {p : Punctuator}
    (h : (spelledSymbols tokens).head? = some (mark p)) : tokens.head?.map (·.kind) = some (.punctuator p) := by
  cases tokens with
  | nil => cases h
  | cons t tokens =>
    by_cases eof : t.kind = .eof
    · simp [spelledSymbols, eof] at h
    · rw [spelledSymbols_cons eof] at h
      exact congrArg some (Token.kind_of_bare (Option.some.inj h))

namespace Command

theorem toList_foldl_join (d : Document) (ds : List Document) :
    (ds.foldl Document.join d).definitions.toList = d.definitions.toList ++ ds.flatMap (·.definitions.toList) := by
  induction ds generalizing d with
  | nil => simp
  | cons e ds ih => rw [List.foldl_cons, ih, Document.toList_join, List.flatMap_cons, List.append_assoc]

theorem numbered_foldl_join {d : Document} {ds : List Document} (hd : d.definitions.Numbered)
    (hds : ∀ e ∈ ds, e.definitions.Numbered) : (ds.foldl Document.join d).definitions.Numbered := by
  induction ds generalizing d with
  | nil => exact hd
  | cons e ds ih =>
    obtain ⟨he, hds⟩ := List.forall_mem_cons.mp hds
    exact ih (hd.join he) hds

theorem toList_joinDocuments (ds : List Document) :
    (joinDocuments ds).definitions.toList = ds.flatMap (·.definitions.toList) :=
  toList_foldl_join _ ds

theorem numbered_joinDocuments {ds : List Document} (h : ∀ e ∈ ds, e.definitions.Numbered) :
    (joinDocuments ds).definitions.Numbered :=
  numbered_foldl_join trivial h

theorem isTypeSystem_joinDocuments {ds : List Document} (h : ∀ d ∈ ds, d.IsTypeSystem) :
    (joinDocuments ds).IsTypeSystem := by
  intro a ha
  rw [toList_joinDocuments] at ha
  obtain ⟨d, hd, ha⟩ := List.mem_flatMap.mp ha
  exact h d hd a ha

/-- Documents are joined from the first on, which could as well be done from the last on. -/
theorem joinDocuments_cons {d : Document} {ds : List Document} (hd : d.definitions.Numbered)
    (hds : ∀ e ∈ ds, e.definitions.Numbered) : joinDocuments (d :: ds) = d.join (joinDocuments ds) := by
  have all : ∀ e ∈ d :: ds, e.definitions.Numbered := List.forall_mem_cons.mpr ⟨hd, hds⟩
  have definitions : (joinDocuments (d :: ds)).definitions = (d.join (joinDocuments ds)).definitions := by
    apply (numbered_joinDocuments all).ext (hd.join (numbered_joinDocuments hds))
    rw [IndexedList.toList_join, toList_joinDocuments, toList_joinDocuments, List.flatMap_cons]
  exact congrArg Document.mk definitions

/-- The file is accepted, and has type system definitions and extensions only. -/
structure FileOf.Defines (f : FileOf (List Char)) (p : FileOf Document) : Prop where
  accepted : parse f.content = .ok p.content
  typeSystem : p.content.IsTypeSystem

theorem FileOf.Defines.numbered {f : FileOf (List Char)} {p : FileOf Document} (h : f.Defines p) :
    p.content.definitions.Numbered :=
  (wellFormed_of_parseTokens h.accepted).1.2.1

theorem forall_mem_of_defines {P : Document → Prop} {files : List (FileOf (List Char))}
    {parsed : List (FileOf Document)} (h : List.Forall₂ FileOf.Defines files parsed)
    (hP : ∀ {f : FileOf (List Char)} {p : FileOf Document}, f.Defines p → P p.content) :
    ∀ d ∈ parsed.map (·.content), P d := by
  induction h with
  | nil => simp
  | cons head _ ih => exact List.forall_mem_cons.mpr ⟨hP head, ih⟩

/-- Files that are accepted, as documents in the same order. -/
theorem exists_parseFiles {files : List (FileOf (List Char))}
    (h : ∀ f ∈ files, ∃ d : Document, parse f.content = .ok d ∧ d.IsTypeSystem) :
    ∃ parsed, parseFiles files = (parsed, []) ∧ List.Forall₂ FileOf.Defines files parsed := by
  induction files with
  | nil => exact ⟨[], rfl, .nil⟩
  | cons f files ih =>
    obtain ⟨⟨d, accepted, typeSystem⟩, others⟩ := List.forall_mem_cons.mp h
    obtain ⟨parsed, run, all⟩ := ih others
    refine ⟨⟨f.path, d⟩ :: parsed, ?_, .cons ⟨accepted, typeSystem⟩ all⟩
    simp only [parseFiles, Prod.mk.injEq] at run ⊢
    simp [accepted, run]

/-- One text for all files. The document of those behind the first begins with no brace, so it may stand there. -/
theorem parse_intercalate {files : List (FileOf (List Char))} {parsed : List (FileOf Document)}
    (h : List.Forall₂ FileOf.Defines files parsed) (hne : files ≠ []) :
    parse (['\n'].intercalate (files.map (·.content))) = .ok (joinDocuments (parsed.map (·.content))) := by
  induction h with
  | nil => exact absurd rfl hne
  | cons head tail ih =>
    cases tail with
    | nil =>
      rw [List.map_singleton, List.intercalate_singleton]
      exact head.accepted
    | cons next others =>
      have behind := List.Forall₂.cons next others
      have rest := ih (by simp)
      have typeSystem := isTypeSystem_joinDocuments (forall_mem_of_defines behind FileOf.Defines.typeSystem)
      obtain ⟨-, spells⟩ := wellFormed_of_parseTokens rest
      have joined := joinDocuments_cons head.numbered (forall_mem_of_defines behind FileOf.Defines.numbered)
      rw [List.map_cons, List.map_cons, List.intercalate_cons_cons, List.append_assoc, List.map_cons, joined]
      exact parse_newline head.accepted rest fun _ => Definition.SpellRow.head_of_isTypeSystem spells typeSystem

/-- What is reported of so many files from the schema that they make, or from its faults. -/
def schemaReport (files skipped : Nat) : Except (List ValidationError) Schema → Outcome
  | .ok schema => .success (validReport files skipped schema.types.size schema.directives.size 0)
  | .error errors =>
    .failure ("GraphQL validation errors:\n" ++ bulleted (errors.map fun e => (Problem.schema e).message))

theorem ne_nil_of_build {existing : Option Schema} {d : Document} {errors : List ValidationError}
    (h : Schema.build existing d = .error errors) : errors ≠ [] := by
  rintro rfl
  rw [Schema.build] at h
  split at h
  · cases h
  · exact absurd (Except.error.inj h) ‹_›

/-- The verdict on documents is that on the schema that they define together. -/
theorem judgeSchema_of_build {schemas : List (FileOf Document)} (hne : schemas ≠ []) :
    (∀ schema, Schema.build none (joinDocuments (schemas.map (·.content))) = .ok schema →
      (judgeSchema schemas).problems = [] ∧ (judgeSchema schemas).types = schema.types.size ∧
        (judgeSchema schemas).directives = schema.directives.size ∧ (judgeSchema schemas).operations = 0) ∧
    ∀ errors, Schema.build none (joinDocuments (schemas.map (·.content))) = .error errors →
      (judgeSchema schemas).problems = errors.map .schema := by
  have given : schemas.isEmpty = false := by simpa using hne
  constructor
  · intro schema built
    simp [judgeSchema, given, built]
  · intro errors built
    simp [judgeSchema, given, built]

/-- Of files that all define a schema that is reported which comes of building it from their joined documents. -/
theorem judgeFiles_of_schemas {mode : ValidationMode} {files : List (FileOf (List Char))}
    {schemas : List (FileOf Document)} (host : Host) (skipped : Nat) (parsed : parseFiles files = (schemas, []))
    (defining : schemas.partition (fun f => mode.definesSchema f.content) = (schemas, [])) (hne : schemas ≠ []) :
    ∃ log, judgeFiles host mode skipped files =
      (schemaReport files.length skipped (Schema.build none (joinDocuments (schemas.map (·.content))))).after log := by
  obtain ⟨valid, invalid⟩ := judgeSchema_of_build hne
  rw [judgeFiles, parsed]
  dsimp only
  rw [defining]
  refine ⟨_, congrArg (Outcome.after _) ?_⟩
  cases built : Schema.build none (joinDocuments (schemas.map (·.content))) with
  | ok schema =>
    obtain ⟨problems, types, directives, operations⟩ := valid schema built
    simp [schemaReport, problems, types, directives, operations]
  | error errors =>
    have problems := invalid errors built
    have faulty := ne_nil_of_build built
    simp [schemaReport, problems, faulty, Function.comp_def]

end Command

/-- Two texts that are accepted are accepted with a line break between them, unless the second begins with a brace
behind a definition of the type system, and so are files of type system definitions and extensions. The document is
that which the documents make that are joined, and from it the schema is built when the files are validated. -/
theorem parse_composes :
    (∀ (s t : List Char) (d e : Document), parse s = .ok d → parse t = .ok e →
      ((tokenize t).head?.map (·.kind) ≠ some (.punctuator .braceOpen) ∨
        ∃ last ∈ d.definitions.toList.getLast?, last.isExecutable) →
      parse (s ++ '\n' :: t) = .ok (d.join e)) ∧
    ∀ (mode : Command.ValidationMode) (files : List (Command.FileOf (List Char))), mode ≠ .executable → files ≠ [] →
      (∀ f ∈ files, ∃ d : Document, parse f.content = .ok d ∧ d.IsTypeSystem) →
      ∃ schemas : List (Command.FileOf Document), Command.parseFiles files = (schemas, []) ∧
        schemas.partition (fun f => mode.definesSchema f.content) = (schemas, []) ∧
        parse (['\n'].intercalate (files.map (·.content))) =
          .ok (Command.joinDocuments (schemas.map (·.content))) ∧
        ∀ (host : Command.Host) (skipped : Nat), ∃ log, Command.judgeFiles host mode skipped files =
          (Command.schemaReport files.length skipped
            (Schema.build none (Command.joinDocuments (schemas.map (·.content))))).after log := by
  constructor
  · intro s t d e hs ht apart
    apply parse_newline hs ht
    intro lacks brace
    rcases apart with first | ⟨last, hl, executable⟩
    · exact first (head_spelledSymbols brace)
    · rw [hl] at lacks
      have notExecutable := Definition.isExecutable_of_lacksBlock lacks
      rw [executable] at notExecutable
      cases notExecutable
  · intro mode files notExecutable hne accepted
    obtain ⟨parsed, run, all⟩ := Command.exists_parseFiles accepted
    have defines : ∀ p ∈ parsed, mode.definesSchema p.content := by
      intro p hp
      cases mode with
      | executable => exact absurd rfl notExecutable
      | sdl => rfl
      | auto =>
        have none : p.content.IsTypeSystem :=
          Command.forall_mem_of_defines all Command.FileOf.Defines.typeSystem _ (List.mem_map_of_mem hp)
        simpa [Command.ValidationMode.definesSchema, Document.IsTypeSystem] using none
    have defining : parsed.partition (fun f => mode.definesSchema f.content) = (parsed, []) := by
      rw [List.partition_eq_filter_filter, List.filter_eq_self.mpr defines]
      simpa using defines
    have given : parsed ≠ [] := by
      rintro rfl
      cases all
      exact hne rfl
    exact ⟨parsed, run, defining, Command.parse_intercalate all hne, fun host skipped =>
      Command.judgeFiles_of_schemas host skipped run defining given⟩

/-- The first text ends in a comment and a type that lacks its block, and the second begins with a byte order mark. -/
theorem parse_composes_extension :
    ∃ d e : Document, parse "type A # a".toList = .ok d ∧ parse "\ufeffextend type A @a".toList = .ok e ∧
      parse "type A # a\n\ufeffextend type A @a".toList = .ok (d.join e) ∧
      parse "type A # a\n\ufeffextend type A @a".toList = .ok (Command.joinDocuments [d, e]) ∧
      ∃ log, Command.judgeFiles .inOrder .auto 0 [⟨["a"], "type A # a".toList⟩,
          ⟨["b"], "\ufeffextend type A @a".toList⟩] =
        (Command.schemaReport 2 0 (Schema.build none (Command.joinDocuments [d, e]))).after log := by
  let a : Definition := .typeSystem (.type ⟨none, "A", .nil, .object .nil .nil⟩)
  let x : Definition := .extension (.type ⟨none, "A", IndexedList.nil.add ⟨"a", .nil⟩, .object .nil .nil⟩)
  have hd : parse "type A # a".toList = .ok ⟨.ofList [a]⟩ := rfl
  have he : parse "\ufeffextend type A @a".toList = .ok ⟨.ofList [x]⟩ := rfl
  have text : "type A # a\n\ufeffextend type A @a".toList =
      "type A # a".toList ++ '\n' :: "\ufeffextend type A @a".toList := by decide
  have first : (tokenize "\ufeffextend type A @a".toList).head?.map (·.kind) = some .name := rfl
  rw [text]
  have both := parse_composes.1 _ _ _ _ hd he (.inl (by rw [first]; simp))
  refine ⟨_, _, hd, he, both, ?_⟩
  have all : ∀ f ∈ [(⟨["a"], "type A # a".toList⟩ : Command.FileOf (List Char)),
      ⟨["b"], "\ufeffextend type A @a".toList⟩], ∃ d : Document, parse f.content = .ok d ∧ d.IsTypeSystem :=
    List.forall_mem_cons.mpr ⟨⟨_, hd, List.forall_mem_singleton.mpr rfl⟩,
      List.forall_mem_singleton.mpr ⟨_, he, List.forall_mem_singleton.mpr rfl⟩⟩
  obtain ⟨schemas, files, -, run, judged⟩ := parse_composes.2 .auto _ (by decide) (by simp) all
  have parsed : Command.parseFiles [⟨["a"], "type A # a".toList⟩, ⟨["b"], "\ufeffextend type A @a".toList⟩] =
      ([⟨["a"], ⟨.ofList [a]⟩⟩, ⟨["b"], ⟨.ofList [x]⟩⟩], []) := by
    simp only [Command.parseFiles, List.map_cons, List.map_nil, hd, he]
    rfl
  obtain rfl := (Prod.mk.inj (parsed.symm.trans files)).1
  exact ⟨run, judged .inOrder 0⟩

end GraphQL
