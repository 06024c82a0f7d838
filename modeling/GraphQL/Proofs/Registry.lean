import Mathlib.Data.List.Basic
import GraphQL.Registry

/-! Registries as lists of entries. New names go to the end, and of several entries under one name the first
one counts. -/
namespace GraphQL.Registry
variable {α β : Type}

def keys (r : Registry α) : List String := r.entries.map (·.1)

/-- The entries of one registry behind those of another. -/
def append (r more : Registry α) : Registry α := ⟨r.entries ++ more.entries⟩

/-- Values under their own names. -/
def ofList (name : α → String) (as : List α) : Registry α := ⟨as.map fun a => (name a, a)⟩

@[simp] theorem keys_append (r more : Registry α) : (r.append more).keys = r.keys ++ more.keys :=
  List.map_append

@[simp] theorem keys_ofList (name : α → String) (as : List α) : (ofList name as).keys = as.map name := by
  simp [keys, ofList]

theorem ofList_append (name : α → String) (as bs : List α) :
    ofList name (as ++ bs) = (ofList name as).append (ofList name bs) :=
  congrArg mk List.map_append

/-- Values that stand under their own names. -/
theorem ofList_values {r : Registry α} {name : α → String} (h : ∀ e ∈ r.entries, name e.2 = e.1) :
    ofList name (r.entries.map (·.2)) = r := by
  refine congrArg mk ((List.map_map ..).trans ?_)
  refine (List.map_congr_left fun e he => ?_).trans (List.map_id r.entries)
  exact Prod.ext (h e he) rfl

/-- The names of a registry differ from each other and from those of another. -/
structure IsNew (more r : Registry α) : Prop where
  distinct : more.keys.Nodup
  new : ∀ name ∈ more.keys, name ∉ r.keys

theorem IsNew.nodup_keys_append {r more : Registry α} (h : more.IsNew r) (hr : r.keys.Nodup) :
    (r.append more).keys.Nodup := by
  rw [keys_append, List.nodup_append]
  exact ⟨hr, h.distinct, fun _ known name added same => h.new name added (same ▸ known)⟩

theorem IsNew.of_keys_eq {r r' more : Registry α} (h : more.IsNew r') (same : r'.keys = r.keys) :
    more.IsNew r :=
  ⟨h.distinct, same ▸ h.new⟩

/-- What is new, and then again something that is new, is so together. -/
theorem IsNew.append {r a b : Registry α} (ha : a.IsNew r) (hb : b.IsNew (r.append a)) :
    (a.append b).IsNew r := by
  have apart (name : String) (h : name ∈ b.keys) : name ∉ r.keys ∧ name ∉ a.keys := by
    simpa using hb.new name h
  constructor
  · exact IsNew.nodup_keys_append ⟨hb.distinct, fun name h => (apart name h).2⟩ ha.distinct
  · rw [keys_append]
    exact List.forall_mem_append.mpr ⟨ha.new, fun name h => (apart name h).1⟩

theorem append_assoc (r s t : Registry α) : (r.append s).append t = r.append (s.append t) := by
  simp [append]

/-- Of two entries with one name the first counts. -/
theorem get?_append (r more : Registry α) (name : String) :
    (r.append more).get? name = (r.get? name).or (more.get? name) :=
  List.lookup_append

theorem lookup_cons (key : String) (a : α) (entries : List (String × α)) (name : String) :
    ((key, a) :: entries).lookup name = if name = key then some a else entries.lookup name := by
  by_cases h : name = key
  · simp [h]
  · simp [List.lookup_cons, beq_eq_false_iff_ne.mpr h, h]

theorem isSome_lookup_iff (entries : List (String × α)) (name : String) :
    (entries.lookup name).isSome ↔ name ∈ entries.map (·.1) := by
  induction entries with
  | nil => simp
  | cons e entries ih =>
    obtain ⟨key, a⟩ := e
    by_cases h : name = key
    · simp [h]
    · simp [lookup_cons, h, ih]

/-- Of several values under one name the first is found. -/
theorem get?_ofList (name : α → String) (as : List α) (key : String) :
    (ofList name as).get? key = as.find? (name · = key) := by
  unfold get? ofList
  induction as with
  | nil => rfl
  | cons a as ih =>
    rw [List.map_cons, lookup_cons, ih, List.find?_cons]
    by_cases same : key = name a
    · simp [same]
    · simp [same, Ne.symm same]

theorem contains_iff {r : Registry α} {name : String} : r.contains name ↔ name ∈ r.keys :=
  isSome_lookup_iff r.entries name

theorem contains_eq_false_iff {r : Registry α} {name : String} :
    r.contains name = false ↔ name ∉ r.keys := by
  rw [← contains_iff, Bool.not_eq_true]

theorem get?_eq_none_iff {r : Registry α} {name : String} : r.get? name = none ↔ name ∉ r.keys := by
  rw [← contains_eq_false_iff, contains, Option.isSome_eq_false_iff, Option.isNone_iff_eq_none]

theorem isNew_iff {r more : Registry α} :
    more.IsNew r ↔ more.keys.Nodup ∧ ∀ name ∈ more.keys, r.contains name = false := by
  simp only [contains_eq_false_iff]
  exact ⟨fun h => ⟨h.distinct, h.new⟩, fun ⟨distinct, new⟩ => ⟨distinct, new⟩⟩

theorem entries_insert {r : Registry α} {name : String} (h : name ∉ r.keys) (a : α) :
    (r.insert name a).entries = r.entries ++ [(name, a)] := by
  simp [insert, contains_eq_false_iff.mpr h]

/-- New names go to the end, one after another. -/
theorem foldl_insert {name : α → String} {as : List α} {r : Registry α} (h : (ofList name as).IsNew r) :
    as.foldl (fun r a => r.insert (name a) a) r = r.append (ofList name as) := by
  induction as generalizing r with
  | nil => simp [append, ofList]
  | cons a as ih =>
    have keys : (ofList name (a :: as)).keys = name a :: (ofList name as).keys := rfl
    obtain ⟨ha, distinct⟩ := List.nodup_cons.mp (keys ▸ h.distinct)
    obtain ⟨free, new⟩ := List.forall_mem_cons.mp (keys ▸ h.new)
    have step : r.insert (name a) a = r.append (ofList name [a]) :=
      congrArg mk (entries_insert free a)
    have rest : (ofList name as).IsNew (r.append (ofList name [a])) := by
      refine ⟨distinct, fun key hk => ?_⟩
      have other : key ≠ name a := fun same => ha (same ▸ hk)
      simp [new key hk, other]
    rw [List.foldl_cons, step, ih rest, append_assoc]
    rfl

theorem get?_singleton (key : String) (a : α) (name : String) :
    (⟨[(key, a)]⟩ : Registry α).get? name = if name = key then some a else none := by
  by_cases same : name = key <;> simp [get?, lookup_cons, same]

theorem get?_insertNew (r : Registry α) (key : String) (a : α) (name : String) :
    (r.insertNew key a).get? name = (r.get? name).or (if name = key then some a else none) := by
  unfold insertNew
  split
  · next taken =>
    obtain ⟨b, hb⟩ := Option.isSome_iff_exists.mp taken
    split
    · next same => simp [same, hb]
    · simp
  · exact (get?_append r ⟨[(key, a)]⟩ name).trans (congrArg _ (get?_singleton ..))

/-- Of several values under one name the first is kept. -/
theorem get?_foldl_insertNew (name : β → String) (f : β → α) (bs : List β) (r : Registry α)
    (key : String) :
    (bs.foldl (fun r b => r.insertNew (name b) (f b)) r).get? key =
      (r.get? key).or (((ofList name bs).get? key).map f) := by
  induction bs generalizing r with
  | nil => simp [get?, ofList]
  | cons b bs ih =>
    rw [List.foldl_cons, ih, get?_insertNew, Option.or_assoc]
    congr 1
    by_cases same : key = name b <;> simp [get?, ofList, lookup_cons, same]

/-- Each value changed in a way that may depend on its name. -/
theorem lookup_map (f : String → α → β) (entries : List (String × α)) (name : String) :
    (entries.map fun e => (e.1, f e.1 e.2)).lookup name = (entries.lookup name).map (f name) := by
  induction entries with
  | nil => rfl
  | cons e entries ih =>
    obtain ⟨key, a⟩ := e
    by_cases h : name = key
    · simp [h]
    · simp [lookup_cons, h, ih]

theorem entries_modify (r : Registry α) (key : String) (f : α → α) :
    (r.modify key f).entries = r.entries.map fun e => (e.1, if e.1 = key then f e.2 else e.2) := by
  refine List.map_congr_left fun e _ => ?_
  by_cases same : e.1 = key <;> simp [same]

@[simp] theorem keys_modify (r : Registry α) (key : String) (f : α → α) : (r.modify key f).keys = r.keys := by
  simp [keys, entries_modify]

theorem get?_modify (r : Registry α) (key : String) (f : α → α) (name : String) :
    (r.modify key f).get? name = (r.get? name).map fun a => if name = key then f a else a := by
  rw [get?, entries_modify]
  exact lookup_map (fun known a => if known = key then f a else a) ..

/-- A new name goes to the end, and a known one stays where it is. -/
theorem keys_insert (r : Registry α) (key : String) (a : α) :
    (r.insert key a).keys = if r.contains key then r.keys else r.keys ++ [key] := by
  unfold insert
  split
  · exact keys_modify ..
  · exact List.map_append

/-- An inserted value takes the place of the old one. -/
theorem get?_insert (r : Registry α) (key : String) (a : α) (name : String) :
    (r.insert key a).get? name = if name = key then some a else r.get? name := by
  unfold insert
  split
  · next known =>
    obtain ⟨b, hb⟩ := Option.isSome_iff_exists.mp known
    rw [get?_modify]
    split
    · next same => rw [same, hb, Option.map_some]
    · exact Option.map_id'
  · next unknown =>
    refine (get?_append r ⟨[(key, a)]⟩ name).trans ?_
    rw [get?_singleton]
    split
    · next same => rw [same, Option.not_isSome_iff_eq_none.mp unknown, Option.none_or]
    · rw [Option.or_none]

/-- A name is there once. -/
theorem nodup_keys_insert {r : Registry α} (h : r.keys.Nodup) (key : String) (a : α) :
    (r.insert key a).keys.Nodup := by
  rw [keys_insert]
  split
  · exact h
  · next unknown =>
    have apart : key ∉ r.keys := by rwa [← contains_iff]
    rw [List.nodup_append]
    exact ⟨h, List.pairwise_singleton _ key, fun name known other new same =>
      apart ((same.trans (List.mem_singleton.mp new)) ▸ known)⟩

/-- Where no name stands twice, each entry is found. -/
theorem get?_of_mem {r : Registry α} (h : r.keys.Nodup) {name : String} {a : α}
    (ha : (name, a) ∈ r.entries) : r.get? name = some a := by
  obtain ⟨entries⟩ := r
  unfold get? keys at *
  dsimp only at *
  induction entries with
  | nil => cases ha
  | cons e entries ih =>
    obtain ⟨key, b⟩ := e
    obtain ⟨hk, h⟩ := List.nodup_cons.mp h
    rcases List.mem_cons.mp ha with same | further
    · cases same
      simp
    · have hne : name ≠ key := by
        rintro rfl
        exact hk (List.mem_map.mpr ⟨_, further, rfl⟩)
      simp [lookup_cons, hne, ih h further]

theorem get?_eq_some_iff {r : Registry α} (h : r.keys.Nodup) {name : String} {a : α} :
    r.get? name = some a ↔ (name, a) ∈ r.entries := by
  constructor
  · intro found
    obtain ⟨before, after, same, -⟩ := List.lookup_eq_some_iff.mp found
    simp [same]
  · exact get?_of_mem h

/-- Where no name stands twice the order of the entries makes no difference to what is found. -/
theorem get?_of_perm {r r' : Registry α} (perm : r'.entries.Perm r.entries) (h : r.keys.Nodup) (name : String) :
    r'.get? name = r.get? name := by
  have h' : r'.keys.Nodup := (perm.map _).nodup_iff.mpr h
  apply Option.ext
  intro a
  rw [get?_eq_some_iff h', get?_eq_some_iff h, perm.mem_iff]

theorem IsNew.of_perm {r more more' : Registry α} (h : more.IsNew r) (perm : more'.entries.Perm more.entries) :
    more'.IsNew r := by
  have keys : more'.keys.Perm more.keys := perm.map _
  constructor
  · exact keys.nodup_iff.mpr h.distinct
  · intro name added
    exact h.new name (keys.mem_iff.mp added)

end GraphQL.Registry
