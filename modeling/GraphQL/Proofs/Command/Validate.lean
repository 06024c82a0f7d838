import Mathlib
import GraphQL.Command.Run
import GraphQL.Proofs.Command.Load
import GraphQL.Proofs.Command.Search

/-! Validation depends on its arguments only through the files that they reach, apart from the number of files passed
over, which is reported as it was counted for each argument, and from what is logged for those who debug. -/
namespace GraphQL.Command

/-- How many files the arguments reach that are passed over for their extension, each as often as it is reached. -/
def passedOver (env : Environment) (o : ValidateOptions) : Nat :=
  (o.paths.flatMap (reachedFiles env)).countP fun p => !Scan.hasExtension (Scan.distinctExtensions o.extensions) p

/-- The search of a validation. -/
abbrev ValidateOptions.search (host : Host) (env : Environment) (o : ValidateOptions) : Scan :=
  .ofArguments host env o.extensions o.paths

/-- The outcome of a validation of which all is known but the host, the number of files passed over and the log. -/
structure Judgement where
  valid : Bool
  /-- The report on valid files, from the number of those passed over. -/
  report : Nat → String
  injective : Function.Injective report
  /-- The problems of files that are not valid, or that cannot be read. -/
  problems : Host → String

/-- The outcome with that host, that number and that log. -/
def Judgement.outcome (j : Judgement) (host : Host) (skipped : Nat) (log : Log) : Outcome :=
  (if j.valid then Outcome.success (j.report skipped) else .failure (j.problems host)).after log

theorem bulleted_cons (a b : String) (rest : List String) :
    bulleted (a :: b :: rest) = "  * " ++ a ++ "\n" ++ bulleted (b :: rest) := by
  simp [bulleted]

theorem second_of_bulleted {a b b' c : String} {rest : List String}
    (h : bulleted (a :: b :: c :: rest) = bulleted (a :: b' :: c :: rest)) : b = b' := by
  simpa [bulleted_cons, String.append_assoc] using h

theorem validReport_injective (files types directives operations : Nat) :
    Function.Injective fun skipped => validReport files skipped types directives operations := by
  intro n m same
  have item := second_of_bulleted ((String.append_right_inj _).mp same)
  rw [String.append_left_inj, String.append_right_inj] at item
  exact Nat.repr_injective item

/-- Of a log for those who debug nothing is shown to others. -/
theorem Log.visible_append_of_isDetail {log more : Log} (h : more.IsDetail) {level : LogLevel}
    (shown : level.rank ≤ LogLevel.info.rank) : Log.visible level (log ++ more) = Log.visible level log := by
  have hidden : ∀ l ∈ more, level.rank < l.level.rank := fun l hl => Nat.lt_of_le_of_lt shown (h l hl)
  simpa [Log.visible] using hidden

theorem Log.shown_congr {host host' : Host} (h : host'.logText = host.logText) (log : Log) :
    log.shown host' = log.shown host := by
  rw [shown, shown, h]

namespace Outcome

theorem after_after (o : Outcome) (log more : Log) : (o.after more).after log = o.after (log ++ more) := by
  simp [after]

theorem stdout_output {o : Outcome} {text : String} (h : o.stdout = some text) (host : Host) (level : LogLevel) :
    (o.output host level).stdout = text ++ "\n" := by
  rw [output, h]
  rfl

end Outcome

theorem isDetail_judgeExecutable (f : FileOf Document) : (judgeExecutable f).log.IsDetail :=
  .debug (.map (fun _ => .debug .nil _ _) _) _ _

theorem isDetail_judgeSchema (files : List (FileOf Document)) : (judgeSchema files).log.IsDetail := by
  have lines (document : Document) (errors : List ValidationError) :
      (validationLines document Rule.sdl.length errors).IsDetail :=
    .debug (.map (fun _ => .debug .nil _ _) _) _ _
  unfold judgeSchema
  split
  · exact .nil
  · dsimp only
    split
    all_goals exact ((Log.IsDetail.map (fun _ => .trace .nil _ _) _).append (lines _ _)).append (.debug .nil _ _)

theorem judgeFiles_eq (mode : ValidationMode) (files : List (FileOf (List Char))) :
    ∃ j : Judgement, (∀ host host', j.problems host' = j.problems host) ∧
      ∀ host skipped, ∃ log : Log, log.IsDetail ∧ judgeFiles host mode skipped files = j.outcome host skipped log := by
  let parsed := (parseFiles files).1
  let schemas := parsed.partition fun f => mode.definesSchema f.content
  let verdicts := schemas.2.map judgeExecutable ++ [judgeSchema schemas.1]
  let problems := (parseFiles files).2 ++ verdicts.flatMap (·.problems)
  let total (count : Verdict → Nat) : Nat := verdicts.foldl (fun n v => n + count v) 0
  refine ⟨⟨problems.isEmpty, fun skipped => validReport files.length skipped (total (·.types)) (total (·.directives))
    (total (·.operations)), validReport_injective _ _ _ _, fun _ => "GraphQL validation errors:\n" ++
      bulleted (problems.map (·.message))⟩, fun _ _ => rfl, fun host skipped => ⟨_, ?_, rfl⟩⟩
  have judged : Log.IsDetail ((schemas.2.map judgeExecutable).flatMap (·.log)) := by
    intro l hl
    obtain ⟨v, hv, hl⟩ := List.mem_flatMap.mp hl
    obtain ⟨f, -, rfl⟩ := List.mem_map.mp hv
    exact isDetail_judgeExecutable f l hl
  have parsing : Log.IsDetail (parsed.map (parsedLine ·.content)) := .map (fun _ => .trace .nil _ _) _
  exact (parsing.arrange host.lines).append
    (.debug ((judged.arrange host.lines).append (isDetail_judgeSchema _)) _ _)

/-- The line that tells how many files are to be validated. -/
private abbrev foundLine (files : List Path) : LogLine :=
  ⟨.debug, validateTarget, "Found " ++ toString files.length ++ " GraphQL files to be validated."⟩

/-- What is said of files that cannot be read. -/
private abbrev unreadText (env : Environment) (files : List Path) (host : Host) : String :=
  "Failed to load GraphQL files:\n" ++ bulleted ((loadFiles host env files).2.map (·.message))

/-- Validation where all arguments can be followed. -/
theorem validateFiles_of_search {host : Host} {env : Environment} {o : ValidateOptions} {files : List Path}
    (found : (o.search host env).files = files) (reached : (o.search host env).unreached = []) :
    validateFiles host env o = (if (loadFiles host env files).2.isEmpty
      then judgeFiles host o.mode (o.search host env).skipped (loadFiles host env files).1
      else .failure (unreadText env files host)).after ((o.search host env).log ++ [foundLine files]) := by
  unfold validateFiles
  dsimp only
  rw [reached, found]
  rfl

/-- What validation comes to once the files are known. Only of files that cannot be read the host tells in an order of
its own. -/
theorem validateFiles_eq (env : Environment) (mode : ValidationMode) (files : List Path) :
    ∃ j : Judgement, ((∀ p ∈ files, Readable env p) → ∀ host host', j.problems host' = j.problems host) ∧
      ∀ (host : Host) (o : ValidateOptions), o.mode = mode → (o.search host env).files = files →
        (o.search host env).unreached = [] → (o.search host env).log.IsDetail →
        ∃ log : Log, log.IsDetail ∧ validateFiles host env o = j.outcome host (o.search host env).skipped log := by
  have started {host : Host} {o : ValidateOptions} (detail : (o.search host env).log.IsDetail) :
      Log.IsDetail ((o.search host env).log ++ [foundLine files]) :=
    detail.append (.debug .nil _ _)
  by_cases readable : ∀ p ∈ files, Readable env p
  · obtain ⟨j, same, judged⟩ := judgeFiles_eq mode (files.filterMap fun p => (loadFile env p).toOption)
    refine ⟨j, fun _ => same, ?_⟩
    rintro host o rfl found reached detail
    obtain ⟨log, details, outcome⟩ := judged host (o.search host env).skipped
    refine ⟨_, (started detail).append details, ?_⟩
    rw [validateFiles_of_search found reached, loadFiles_snd_eq_nil_iff.mpr readable, List.isEmpty_nil, if_pos rfl,
      loadFiles_fst, outcome, Judgement.outcome, Judgement.outcome, Outcome.after_after]
  · refine ⟨⟨false, Nat.repr, fun _ _ => Nat.repr_injective, unreadText env files⟩, fun all => absurd all readable, ?_⟩
    rintro host o rfl found reached detail
    have faults : ¬ (loadFiles host env files).2.isEmpty := by
      rwa [List.isEmpty_iff, loadFiles_snd_eq_nil_iff]
    exact ⟨_, started detail, by rw [validateFiles_of_search found reached, if_neg faults]; rfl⟩

namespace Judgement
variable (j : Judgement) (host : Host) (n : Nat) (log before : Log) (level : LogLevel)

/-- What a run writes if its log begins with the lines `before`. -/
def written : Output := ((j.outcome host n log).after before).output host level

theorem code_written : (j.written host n log before level).code = if j.valid then 0 else 1 := by
  unfold written outcome
  cases j.valid <;> rfl

theorem stdout_written :
    (j.written host n log before level).stdout = if j.valid then j.report n ++ "\n" else "" := by
  unfold written outcome
  cases j.valid <;> rfl

theorem stderr_written (detail : log.IsDetail) (shown : level.rank ≤ LogLevel.info.rank) :
    (j.written host n log before level).stderr = (Log.visible level before).shown host ++
      if j.valid then "" else "❌ " ++ j.problems host ++ "\n" := by
  have visible : Log.visible level (before ++ (log ++ [])) = Log.visible level before :=
    Log.visible_append_of_isDetail (detail.append .nil) shown
  unfold written outcome
  cases j.valid with
  | true => exact congrArg (Log.shown host · ++ "") visible
  | false => exact congrArg (Log.shown host · ++ ("❌ " ++ j.problems host ++ "\n")) visible

end Judgement

/-- A run of validation writes what its judgement says. -/
private theorem run_eq_written {host : Host} {env : Environment} {arguments : List String} {verbose : Bool}
    {o : ValidateOptions} {j : Judgement} {log : Log}
    (read : Invocation.read? arguments = some ⟨verbose, .validate o⟩)
    (judged : validateFiles host env o = j.outcome host (o.search host env).skipped log) :
    run host env arguments = j.written host (o.search host env).skipped log
      (startLine :: (chooseLevel verbose env.logLevel).2) (chooseLevel verbose env.logLevel).1 := by
  rw [run, read, Judgement.written, ← judged]
  rfl

/-- Two runs of validation in the same mode, with the same extensions and with two arguments or more each that all
exist, end with the same exit code if they reach the same files, whatever their hosts are. Up to the level of plain
information they write the same to standard error if the files to validate can be read, but for the time of a warning
about the setting of the level. Their reports are the same unless the files are valid and the numbers of those passed
over, which are counted for each argument, differ. -/
theorem run_validate_reached {env : Environment} {arguments arguments' : List String} {verbose : Bool}
    {o o' : ValidateOptions} (host host' : Host) (read : Invocation.read? arguments = some ⟨verbose, .validate o⟩)
    (read' : Invocation.read? arguments' = some ⟨verbose, .validate o'⟩) (mode : o'.mode = o.mode)
    (extensions : ∀ e, e ∈ Scan.distinctExtensions o'.extensions ↔ e ∈ Scan.distinctExtensions o.extensions)
    (two : 2 ≤ o.paths.length) (two' : 2 ≤ o'.paths.length) (exist : ∀ a ∈ o.paths, ∃ p, env.resolve a = .ok p)
    (exist' : ∀ a ∈ o'.paths, ∃ p, env.resolve a = .ok p)
    (reached : ∀ p, (∃ a ∈ o'.paths, p ∈ reachedFiles env a) ↔ ∃ a ∈ o.paths, p ∈ reachedFiles env a) :
    (run host' env arguments').code = (run host env arguments).code ∧
    ((chooseLevel verbose env.logLevel).1.rank ≤ LogLevel.info.rank →
      ((chooseLevel verbose env.logLevel).2 = [] ∨ host'.logText = host.logText) →
      (∀ a ∈ o.paths, ∀ p ∈ reachedFiles env a,
        Scan.hasExtension (Scan.distinctExtensions o.extensions) p → Readable env p) →
      (run host' env arguments').stderr = (run host env arguments).stderr) ∧
    ((run host' env arguments').stdout = (run host env arguments).stdout ↔
      (run host env arguments).code ≠ 0 ∨ passedOver env o' = passedOver env o) := by
  have first : Scan.Describes _ (o.search host env) _ := .ofArguments two exist
  have second : Scan.Describes _ (o'.search host' env) _ := .ofArguments two' exist'
  have files : (o'.search host' env).files = (o.search host env).files := by
    refine Scan.files_congr fun p => ?_
    rw [first.found, second.found, Scan.hasExtension_congr extensions, List.mem_filter, List.mem_filter,
      List.mem_flatMap, List.mem_flatMap, reached]
  obtain ⟨j, same, judged⟩ := validateFiles_eq env o.mode (o.search host env).files
  obtain ⟨log, detail, outcome⟩ := judged host o rfl rfl first.unreached first.log
  obtain ⟨log', detail', outcome'⟩ := judged host' o' mode files second.unreached second.log
  have skipped : (o.search host env).skipped = passedOver env o := first.skipped
  have skipped' : (o'.search host' env).skipped = passedOver env o' := second.skipped
  rw [run_eq_written read outcome, run_eq_written read' outcome', skipped, skipped']
  refine ⟨by rw [j.code_written, j.code_written], fun shown written readable => ?_, ?_⟩
  · have problems : j.problems host' = j.problems host := by
      refine same (fun p hp => ?_) host host'
      rw [Scan.mem_files, first.found, List.mem_filter, List.mem_flatMap] at hp
      obtain ⟨⟨a, ha, hp⟩, known⟩ := hp
      exact readable a ha p hp known
    rw [j.stderr_written _ _ _ _ _ detail shown, j.stderr_written _ _ _ _ _ detail' shown, problems]
    rcases written with quiet | sameText
    · have nothing : Log.visible (chooseLevel verbose env.logLevel).1 ([] ++ [startLine]) = [] :=
        Log.visible_append_of_isDetail (.trace .nil _ _) shown
      rw [List.nil_append] at nothing
      rw [quiet, nothing]
      rfl
    · rw [Log.shown_congr sameText]
  · rw [j.code_written, j.stdout_written, j.stdout_written]
    cases j.valid with
    | true => simp [j.injective.eq_iff]
    | false => simp

/-- A directory with a file to validate and another one. -/
def sampleDirectory : Environment where
  tree := ⟨[(["d"], .directory), (["d", "a.graphql"], .file "type Query \x7b a: Int \x7d".toUTF8.toList),
    (["d", "notes.txt"], .file "x".toUTF8.toList)]⟩
  directory := []
  logLevel := none

open String.Pos.Raw in
/-- A path text of one character is one name, unless the character is a slash. -/
private theorem splitOn_slash {text : String} (more : ¬ atEnd text 0) (other : ¬ get text 0 == get "/" 0)
    (last : atEnd text (next text 0)) (whole : extract text 0 (next text 0) = text) :
    text.splitOn "/" = [text] := by
  have start : unoffsetBy 0 0 = 0 := rfl
  rw [String.splitOn, if_neg (by decide), String.splitOnAux, if_neg more, if_neg other, String.splitOnAux, start,
    if_pos last]
  exact congrArg ([·]) whole

private theorem resolve_here : sampleDirectory.resolve "." = .ok [] := by
  rw [Environment.resolve, FileTree.resolve, splitOn_slash] <;> decide +kernel

private theorem resolve_there : sampleDirectory.resolve "d" = .ok ["d"] := by
  rw [Environment.resolve, FileTree.resolve, splitOn_slash] <;> decide +kernel

theorem reachedFiles_sampleDirectory {argument : String} (h : argument = "d" ∨ argument = ".") :
    reachedFiles sampleDirectory argument = [["d", "a.graphql"], ["d", "notes.txt"]] := by
  obtain rfl | rfl := h
  · rw [reachedFiles, resolve_there]
    decide +kernel
  · rw [reachedFiles, resolve_here]
    decide +kernel

private theorem readable_sample : ∀ p ∈ [["d", "a.graphql"], ["d", "notes.txt"]], Readable sampleDirectory p :=
  List.forall_mem_cons.mpr ⟨⟨"type Query \x7b a: Int \x7d".toList, by decide +kernel⟩,
    List.forall_mem_singleton.mpr ⟨"x".toList, by decide +kernel⟩⟩

/-- A host that tells the places of log lines for times, and does last what could be done first. -/
def sampleHost : Host where
  logText n l := toString n ++ " " ++ l.text
  refuse _ := misuse
  reads := .reversed
  extensions := .reversed
  lines := .reversed

/-- The directory and the place where it stands, in either order and on different hosts. -/
theorem run_validate_reached_permuted :
    (run sampleHost sampleDirectory ["validate", ".", "d"]).code =
      (run .inOrder sampleDirectory ["validate", "d", "."]).code ∧
    (run sampleHost sampleDirectory ["validate", ".", "d"]).stderr =
      (run .inOrder sampleDirectory ["validate", "d", "."]).stderr ∧
    (run sampleHost sampleDirectory ["validate", ".", "d"]).stdout =
      (run .inOrder sampleDirectory ["validate", "d", "."]).stdout := by
  have read (first second : String) (h : first = "d" ∧ second = "." ∨ first = "." ∧ second = "d") :
      Invocation.read? ["validate", first, second] =
        some ⟨false, .validate ⟨["graphql", "graphqls", "gql"], .auto, [first, second]⟩⟩ := by
    obtain ⟨rfl, rfl⟩ | ⟨rfl, rfl⟩ := h <;> rfl
  have exist : ∀ a ∈ ["d", "."], ∃ p, sampleDirectory.resolve a = .ok p := by simp [resolve_here, resolve_there]
  have exist' : ∀ a ∈ [".", "d"], ∃ p, sampleDirectory.resolve a = .ok p := by simp [resolve_here, resolve_there]
  obtain ⟨code, stderr, stdout⟩ := run_validate_reached .inOrder sampleHost (read "d" "." (by simp))
    (read "." "d" (by simp)) rfl (fun _ => .rfl) (by decide) (by decide) exist exist' (by simp [or_comm])
  have counted : passedOver sampleDirectory ⟨["graphql", "graphqls", "gql"], .auto, [".", "d"]⟩ =
      passedOver sampleDirectory ⟨["graphql", "graphqls", "gql"], .auto, ["d", "."]⟩ := by
    simp [passedOver, Nat.add_comm]
  have readable : ∀ a ∈ ["d", "."], ∀ p ∈ reachedFiles sampleDirectory a, Readable sampleDirectory p := by
    intro a ha
    rw [reachedFiles_sampleDirectory (by simpa using ha)]
    exact readable_sample
  exact ⟨code, stderr (by decide) (.inl rfl) fun a ha p hp _ => readable a ha p hp, stdout.mpr (.inr counted)⟩

set_option maxRecDepth 20000 in
private theorem judgeFiles_sample (skipped : Nat) :
    (judgeFiles .inOrder .auto skipped [⟨["d", "a.graphql"], "type Query \x7b a: Int \x7d".toList⟩]).stdout =
      some (validReport 1 skipped 1 0 0) :=
  rfl

/-- What is reported if the directory is given so many times. -/
private theorem stdout_sample {n : Nat} (two : 2 ≤ n) {arguments : List String}
    (read : Invocation.read? arguments =
      some ⟨false, .validate ⟨["graphql", "graphqls", "gql"], .auto, List.replicate n "d"⟩⟩) :
    (run .inOrder sampleDirectory arguments).stdout = validReport 1 n 1 0 0 ++ "\n" := by
  let o : ValidateOptions := ⟨["graphql", "graphqls", "gql"], .auto, List.replicate n "d"⟩
  let known := Scan.distinctExtensions ["graphql", "graphqls", "gql"]
  have names : Scan.hasExtension known ["d", "a.graphql"] = true ∧
    Scan.hasExtension known ["d", "notes.txt"] = false := by decide
  have describes : Scan.Describes known (o.search .inOrder sampleDirectory) _ :=
    .ofArguments (by simpa [o] using two) (by simp [o, resolve_there])
  have skipped : (o.search .inOrder sampleDirectory).skipped = n := by
    rw [describes.skipped]
    simp [o, List.countP_flatMap, reachedFiles_sampleDirectory (.inl rfl), names]
  have files : (o.search .inOrder sampleDirectory).files = [["d", "a.graphql"]] := by
    refine (Scan.pairwise_files _).eq_of_mem_iff (List.pairwise_singleton _ _) fun p => ?_
    rw [Scan.mem_files, describes.found]
    have given : n ≠ 0 := by omega
    have reached : p ∈ o.paths.flatMap (reachedFiles sampleDirectory) ↔
        p = ["d", "a.graphql"] ∨ p = ["d", "notes.txt"] := by
      simp [o, reachedFiles_sampleDirectory (.inl rfl), given]
    rw [List.mem_filter, reached, List.mem_singleton]
    constructor
    · rintro ⟨rfl | rfl, known⟩
      · rfl
      · cases names.2.symm.trans known
    · rintro rfl
      exact ⟨.inl rfl, names.1⟩
  have loaded : loadFiles .inOrder sampleDirectory [["d", "a.graphql"]] =
      ([⟨["d", "a.graphql"], "type Query \x7b a: Int \x7d".toList⟩], []) := by decide +kernel
  have validated := validateFiles_of_search files describes.unreached
  rw [loaded, skipped] at validated
  have written : (validateFiles .inOrder sampleDirectory o).stdout = some (validReport 1 n 1 0 0) := by
    rw [validated]
    exact judgeFiles_sample n
  rw [run, read]
  exact Outcome.stdout_output written _ _

/-- The directory given twice or three times: the other file is counted as often. -/
theorem run_validate_reached_repeated :
    sampleDirectory.resolve "d" = .ok ["d"] ∧
    (∀ p ∈ reachedFiles sampleDirectory "d", Readable sampleDirectory p) ∧
    (∀ p, (∃ a ∈ ["d", "d", "d"], p ∈ reachedFiles sampleDirectory a) ↔
      ∃ a ∈ ["d", "d"], p ∈ reachedFiles sampleDirectory a) ∧
    (run .inOrder sampleDirectory ["validate", "d", "d"]).stdout = validReport 1 2 1 0 0 ++ "\n" ∧
    (run .inOrder sampleDirectory ["validate", "d", "d", "d"]).stdout = validReport 1 3 1 0 0 ++ "\n" ∧
    (run .inOrder sampleDirectory ["validate", "d", "d", "d"]).stdout ≠
      (run .inOrder sampleDirectory ["validate", "d", "d"]).stdout := by
  have twice : (run .inOrder sampleDirectory ["validate", "d", "d"]).stdout = validReport 1 2 1 0 0 ++ "\n" :=
    stdout_sample (Nat.le_refl 2) rfl
  have thrice : (run .inOrder sampleDirectory ["validate", "d", "d", "d"]).stdout = validReport 1 3 1 0 0 ++ "\n" :=
    stdout_sample (Nat.le_succ 2) rfl
  have readable : ∀ p ∈ reachedFiles sampleDirectory "d", Readable sampleDirectory p := by
    rw [reachedFiles_sampleDirectory (.inl rfl)]
    exact readable_sample
  refine ⟨resolve_there, readable, by simp, twice, thrice, ?_⟩
  rw [twice, thrice, ne_eq, String.append_left_inj]
  exact fun same => absurd (validReport_injective 1 1 0 0 same) (by decide)

end GraphQL.Command
