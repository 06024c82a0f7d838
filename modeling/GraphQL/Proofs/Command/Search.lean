import Mathlib.Data.List.Sort
import Mathlib.Data.String.Basic
import GraphQL.Command.Scan

/-! What the search for files comes to. It finds the files that its arguments reach, whose names end in an extension
that is looked for, and counts all others as often as they are reached. -/
namespace GraphQL.Command

/-- The file of an entry, if it is one. -/
def fileOf : Path × Content → List Path
  | (_, .directory) => []
  | (p, .file _) => [p]

/-- The files at and below the place that an argument names. -/
def reachedFiles (env : Environment) (argument : String) : List Path :=
  match env.resolve argument with
  | .ok p => (env.tree.below p).flatMap fileOf
  | .error _ => []

namespace Log

/-- All lines are for those who debug. -/
def IsDetail (log : Log) : Prop := ∀ l ∈ log, LogLevel.info.rank < l.level.rank

theorem IsDetail.nil : IsDetail [] := List.forall_mem_nil _

theorem IsDetail.debug {log : Log} (h : log.IsDetail) (target message : String) :
    IsDetail (⟨.debug, target, message⟩ :: log) :=
  List.forall_mem_cons.mpr ⟨Nat.lt_succ_self _, h⟩

theorem IsDetail.trace {log : Log} (h : log.IsDetail) (target message : String) :
    IsDetail (⟨.trace, target, message⟩ :: log) :=
  List.forall_mem_cons.mpr ⟨Nat.lt_add_of_pos_right (Nat.succ_pos 1), h⟩

theorem IsDetail.append {log more : Log} (h : log.IsDetail) (h' : more.IsDetail) : IsDetail (log ++ more) :=
  List.forall_mem_append.mpr ⟨h, h'⟩

theorem IsDetail.arrange {log : Log} (h : log.IsDetail) (a : Arrangement LogLine) : IsDetail (a.arrange log) :=
  fun l hl => h l ((a.perm log).mem_iff.mp hl)

theorem IsDetail.map {α : Type} {line : α → LogLine} (h : ∀ a, IsDetail [line a]) (as : List α) :
    IsDetail (as.map line) :=
  List.forall_mem_map.mpr fun a _ => h a (line a) (.head _)

end Log

namespace Scan
variable {extensions : List String} {env : Environment}

/-- The search came upon these files, each as often as it stands there, and upon nothing that it could not follow.
What it logged on the way is for those who debug. -/
structure Describes (extensions : List String) (s : Scan) (reached : List Path) : Prop where
  found : s.found = reached.filter (hasExtension extensions)
  skipped : s.skipped = reached.countP fun p => !hasExtension extensions p
  unreached : s.unreached = []
  log : s.log.IsDetail

namespace Describes
variable {s t : Scan} {reached more : List Path}

theorem empty : Describes extensions .empty [] := ⟨rfl, rfl, rfl, .nil⟩

theorem append (h : Describes extensions s reached) (h' : Describes extensions t more) :
    Describes extensions (s ++ t) (reached ++ more) where
  found := by rw [List.filter_append, ← h.found, ← h'.found]; rfl
  skipped := by rw [List.countP_append, ← h.skipped, ← h'.skipped]; rfl
  unreached := List.append_eq_nil_iff.mpr ⟨h.unreached, h'.unreached⟩
  log := h.log.append h'.log

theorem concat {α : Type} {scan : α → Scan} {files : α → List Path} {parts : List α}
    (h : ∀ a ∈ parts, Describes extensions (scan a) (files a)) :
    Describes extensions (concat (parts.map scan)) (parts.flatMap files) := by
  induction parts with
  | nil => exact empty
  | cons a parts ih =>
    obtain ⟨first, rest⟩ := List.forall_mem_cons.mp h
    exact first.append (ih rest)

theorem ofEntry (argument : String) (base : Path) (entry : Path × Content) :
    Describes extensions (ofEntry extensions argument base entry) (fileOf entry) := by
  obtain ⟨p, content⟩ := entry
  cases content with
  | directory => exact ⟨rfl, rfl, rfl, .trace .nil _ _⟩
  | file bytes =>
    cases known : hasExtension extensions p with
    | true => constructor <;> simp [Scan.ofEntry, fileOf, Scan.empty, known, Log.IsDetail, LogLevel.rank]
    | false => constructor <;> simp [Scan.ofEntry, fileOf, Scan.empty, known, Log.IsDetail]

theorem ofArgument {argument : String} {p : Path} (h : env.resolve argument = .ok p) :
    Describes extensions (ofArgument env extensions argument) (reachedFiles env argument) := by
  rw [Scan.ofArgument, reachedFiles, h]
  exact concat fun entry _ => ofEntry argument p entry

/-- All arguments together, if they are more than one and can be followed. -/
theorem ofArguments {host : Host} {arguments : List String} (two : 2 ≤ arguments.length)
    (exist : ∀ a ∈ arguments, ∃ p, env.resolve a = .ok p) :
    Describes (distinctExtensions extensions) (ofArguments host env extensions arguments)
      (arguments.flatMap (reachedFiles env)) := by
  have all : Describes (distinctExtensions extensions)
      (Scan.concat (arguments.map (Scan.ofArgument env (distinctExtensions extensions))))
      (arguments.flatMap (reachedFiles env)) :=
    concat fun a ha => by
      obtain ⟨p, hp⟩ := exist a ha
      exact ofArgument hp
  have several (s : Scan) : takeOnly host env (distinctExtensions extensions) arguments s = s := by
    unfold takeOnly
    split
    · simp at two
    · rfl
  rw [Scan.ofArguments, several]
  have started : Describes (distinctExtensions extensions) ⟨[], 0, [], [⟨.debug, validateTarget,
      "Scanning " ++ toString arguments.length ++ " input paths..."⟩]⟩ [] :=
    ⟨rfl, rfl, rfl, .debug .nil _ _⟩
  exact started.append all

end Describes

/-- Of the extensions it matters only which they are. -/
theorem hasExtension_congr {others : List String} (h : ∀ e, e ∈ extensions ↔ e ∈ others) :
    hasExtension extensions = hasExtension others := by
  have same : extensions.contains = others.contains := by
    funext e
    simp [h]
  funext p
  rw [hasExtension, hasExtension, same]

/-- Sorting a list and leaving each element in it once puts it in strict order. -/
theorem pairwise_eraseDups {α : Type} [LinearOrder α] [BEq α] [LawfulBEq α] {l : List α}
    (h : l.Pairwise (· ≤ ·)) : l.eraseDups.Pairwise (· < ·) := by
  induction hn : l.length using Nat.strongRecOn generalizing l with
  | ind n ih =>
    cases l with
    | nil => simp
    | cons a l =>
      obtain ⟨first, rest⟩ := List.pairwise_cons.mp h
      have shorter := List.length_filter_le (fun b => !b == a) l
      rw [List.length_cons] at hn
      rw [List.eraseDups_cons]
      refine List.pairwise_cons.mpr ⟨fun b hb => ?_, ih _ (by omega) (rest.sublist List.filter_sublist) rfl⟩
      obtain ⟨hb, ne⟩ := List.mem_filter.mp (List.mem_eraseDups.mp hb)
      exact lt_of_le_of_ne (first b hb) fun same => by simp [same] at ne

theorem pairwise_files (s : Scan) : s.files.Pairwise (· < ·) := by
  apply pairwise_eraseDups
  have sorted : (s.found.mergeSort fun a b => !decide (b < a)).Pairwise fun a b => !decide (b < a) :=
    List.pairwise_mergeSort (by simpa using fun a b c => le_trans) (by simpa using le_total) _
  simpa using sorted

theorem mem_files {s : Scan} {p : Path} : p ∈ s.files ↔ p ∈ s.found := by
  simp [files, List.mem_eraseDups]

/-- The files depend on what is found, but neither on the order nor on how often. -/
theorem files_congr {s t : Scan} (h : ∀ p, p ∈ s.found ↔ p ∈ t.found) : s.files = t.files :=
  s.pairwise_files.eq_of_mem_iff t.pairwise_files fun p => by rw [mem_files, mem_files, h]

end Scan
end GraphQL.Command
