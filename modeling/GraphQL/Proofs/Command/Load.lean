import Mathlib.Data.List.Nodup
import GraphQL.Command.Validate

/-! What loading files comes to, in whatever order the reads end. -/
namespace GraphQL.Command

/-- There is a text to be read at the path. -/
def Readable (env : Environment) (p : Path) : Prop := ∃ source, env.readFile p = .ok source

theorem loadFile_of_readable {env : Environment} {p : Path} (h : Readable env p) :
    ∃ f, loadFile env p = .ok f := by
  obtain ⟨source, read⟩ := h
  exact ⟨⟨p, source⟩, by rw [loadFile, read]⟩

theorem loadFile_of_not_readable {env : Environment} {p : Path} (h : ¬ Readable env p) :
    ∃ e, loadFile env p = .error e := by
  cases read : env.readFile p with
  | ok source => exact absurd ⟨source, read⟩ h
  | error e => exact ⟨.unreadable p e, by rw [loadFile, read]⟩

/-- Sorting by place puts elements back into order, however they have been rearranged. -/
theorem mergeSort_of_perm {α : Type} {l m : List (Nat × α)} (perm : l.Perm m)
    (ascending : m.Pairwise fun a b => a.1 < b.1) : l.mergeSort (fun a b => a.1 ≤ b.1) = m := by
  have sorted : (l.mergeSort fun a b => a.1 ≤ b.1).Pairwise fun a b => decide (a.1 ≤ b.1) :=
    List.pairwise_mergeSort (by simpa using fun a _ b _ c _ => Nat.le_trans)
      (by simpa using fun a _ b _ => Nat.le_total a b) l
  have same := (List.mergeSort_perm l fun a b => a.1 ≤ b.1).trans perm
  have places : (m.map (·.1)).Nodup := List.pairwise_map.mpr (ascending.imp Nat.ne_of_lt)
  have unique {a b : Nat × α} (ha : a ∈ m) (hb : b ∈ m) (le : a.1 ≤ b.1) (ge : b.1 ≤ a.1) : a = b :=
    List.inj_on_of_nodup_map places ha hb (Nat.le_antisymm le ge)
  exact same.eq_of_pairwise (fun a b ha hb => unique (same.mem_iff.mp ha) hb) (by simpa using sorted)
    (ascending.imp Nat.le_of_lt)

theorem pairwise_zipIdx {α : Type} (l : List α) : l.zipIdx.Pairwise fun a b => a.2 < b.2 := by
  apply List.pairwise_map.mp
  rw [List.zipIdx_map_snd]
  exact List.pairwise_lt_range'

/-- The texts stand in the order of the paths. -/
theorem loadFiles_fst (host : Host) (env : Environment) (paths : List Path) :
    (loadFiles host env paths).1 = paths.filterMap fun p => (loadFile env p).toOption := by
  have placed := mergeSort_of_perm
    ((host.reads.perm paths.zipIdx).filterMap fun x => (loadFile env x.1).toOption.map (x.2, ·))
    ((pairwise_zipIdx paths).filterMap _ fun a b lt x hx y hy => by
      obtain ⟨_, -, rfl⟩ := Option.map_eq_some_iff.mp hx
      obtain ⟨_, -, rfl⟩ := Option.map_eq_some_iff.mp hy
      exact lt)
  rw [loadFiles]
  dsimp only
  rw [List.filterMap_map]
  refine (congrArg (List.map (·.2)) placed).trans ?_
  rw [List.map_filterMap]
  conv_rhs => rw [← List.zipIdx_map_fst 0 paths, List.filterMap_map]
  simp [Function.comp_def]

/-- No fault comes up exactly if all files can be read. -/
theorem loadFiles_snd_eq_nil_iff {host : Host} {env : Environment} {paths : List Path} :
    (loadFiles host env paths).2 = [] ↔ ∀ p ∈ paths, Readable env p := by
  have arranged := host.reads.perm paths.zipIdx
  rw [loadFiles]
  dsimp only
  rw [List.filterMap_map, List.filterMap_eq_nil_iff]
  constructor
  · intro h p hp
    obtain ⟨place, hplace⟩ : ∃ place, (p, place) ∈ paths.zipIdx := by
      rw [← List.zipIdx_map_fst 0 paths, List.mem_map] at hp
      obtain ⟨⟨_, place⟩, placed, rfl⟩ := hp
      exact ⟨place, placed⟩
    by_contra unreadable
    obtain ⟨e, failed⟩ := loadFile_of_not_readable unreadable
    have fault := h _ (arranged.mem_iff.mpr hplace)
    simp [failed] at fault
  · intro h ⟨p, place⟩ placed
    obtain ⟨f, loaded⟩ := loadFile_of_readable (h p (List.fst_mem_of_mem_zipIdx (arranged.mem_iff.mp placed)))
    simp [loaded]

end GraphQL.Command
