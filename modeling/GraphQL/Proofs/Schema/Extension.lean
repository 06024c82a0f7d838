import Mathlib.Data.List.Induction
import GraphQL.Proofs.Grammar.WellFormed
import GraphQL.Proofs.Schema.Merge

/-! Types and their extensions. An extension of the right kind puts its lists behind those of the type
and leaves everything else as it is. -/
namespace GraphQL

namespace IndexedList
variable {α β : Type}

/-- The list holds the values of several lists, one list behind another, at positions that count down
to zero. -/
def Gathers (l first : IndexedList α) (more : List (IndexedList α)) : Prop :=
  l.Numbered ∧ l.toList = first.toList ++ more.flatMap (·.toList)

theorem Numbered.gathers {l : IndexedList α} (h : l.Numbered) : l.Gathers l [] := ⟨h, by simp⟩

theorem Gathers.join {l first : IndexedList α} {part : β → IndexedList α} {bs : List β} {b : β}
    (h : l.Gathers first (bs.map part)) (hb : (part b).Numbered) :
    (l.join (part b)).Gathers first ((bs ++ [b]).map part) :=
  ⟨h.1.join hb, by simp [h.2]⟩

end IndexedList

namespace TypeBody

def interfaces : TypeBody → IndexedList TypeReference
  | object is _ | interface is _ => is
  | _ => .nil

def fields : TypeBody → IndexedList FieldDefinition
  | object _ fs | interface _ fs => fs
  | _ => .nil

def members : TypeBody → IndexedList TypeReference
  | union ms => ms
  | _ => .nil

def values : TypeBody → IndexedList EnumValueDefinition
  | enum vs => vs
  | _ => .nil

def inputFields : TypeBody → IndexedList InputValueDefinition
  | inputObject fs => fs
  | _ => .nil

/-- A body is joined from two others, list by list. -/
structure Joins (joined a b : TypeBody) : Prop where
  kind : joined.kind = a.kind
  interfaces : joined.interfaces = a.interfaces.join b.interfaces
  fields : joined.fields = a.fields.join b.fields
  members : joined.members = a.members.join b.members
  values : joined.values = a.values.join b.values
  inputFields : joined.inputFields = a.inputFields.join b.inputFields

/-- Bodies of one kind can be joined. -/
theorem exists_joins {a b : TypeBody} (h : a.kind = b.kind) :
    ∃ joined, a.join? b = some joined ∧ joined.Joins a b := by
  cases a <;> cases b <;> cases h <;> exact ⟨_, rfl, rfl, rfl, rfl, rfl, rfl, rfl⟩

theorem join?_eq_none {a b : TypeBody} (h : a.kind ≠ b.kind) : a.join? b = none := by
  cases a <;> cases b <;> first | rfl | exact absurd rfl h

theorem wellFormed_iff (b : TypeBody) :
    b.WellFormed ↔ b.interfaces.Each TypeReference.IsPlain ∧ b.fields.Each FieldDefinition.WellFormed ∧
      b.members.Each TypeReference.IsPlain ∧ b.values.Each EnumValueDefinition.WellFormed ∧
      b.inputFields.Each InputValueDefinition.WellFormed := by
  cases b <;> simp [WellFormed, interfaces, fields, members, values, inputFields, IndexedList.Each.nil]

end TypeBody

namespace TypeDefinition

/-- With an extension of its kind a type has the directives and the body joined. -/
theorem exists_extend {t x : TypeDefinition} (h : t.kind = x.kind) :
    ∃ body, t.extend x = { t with directives := t.directives.join x.directives, body } ∧
      body.Joins t.body x.body := by
  obtain ⟨body, same, joins⟩ := TypeBody.exists_joins h
  exact ⟨body, by simp [extend, same], joins⟩

theorem extend_of_kind_ne {t x : TypeDefinition} (h : t.kind ≠ x.kind) : t.extend x = t := by
  simp [extend, TypeBody.join?_eq_none h]

@[simp] theorem name_extend (t x : TypeDefinition) : (t.extend x).name = t.name := by
  unfold extend
  split <;> rfl

@[simp] theorem description_extend (t x : TypeDefinition) : (t.extend x).description = t.description := by
  unfold extend
  split <;> rfl

@[simp] theorem kind_extend (t x : TypeDefinition) : (t.extend x).kind = t.kind := by
  by_cases h : t.kind = x.kind
  · obtain ⟨body, same, joins⟩ := exists_extend h
    rw [same]
    exact joins.kind
  · rw [extend_of_kind_ne h]

/-- A type with extensions merged in: each list is that of the type, followed by those of the extensions. -/
structure Merges (merged t : TypeDefinition) (extensions : List TypeDefinition) : Prop where
  name : merged.name = t.name
  description : merged.description = t.description
  kind : merged.kind = t.kind
  directives : merged.directives.Gathers t.directives (extensions.map (·.directives))
  interfaces : merged.body.interfaces.Gathers t.body.interfaces (extensions.map (·.body.interfaces))
  fields : merged.body.fields.Gathers t.body.fields (extensions.map (·.body.fields))
  members : merged.body.members.Gathers t.body.members (extensions.map (·.body.members))
  values : merged.body.values.Gathers t.body.values (extensions.map (·.body.values))
  inputFields : merged.body.inputFields.Gathers t.body.inputFields (extensions.map (·.body.inputFields))

theorem WellFormed.merges {t : TypeDefinition} (h : t.WellFormed) : t.Merges t [] := by
  obtain ⟨is, fs, ms, vs, inputs⟩ := t.body.wellFormed_iff.mp h.2
  exact ⟨rfl, rfl, rfl, h.1.1.gathers, is.1.gathers, fs.1.gathers, ms.1.gathers, vs.1.gathers, inputs.1.gathers⟩

theorem Merges.extend {merged t x : TypeDefinition} {extensions : List TypeDefinition}
    (h : merged.Merges t extensions) (hx : x.WellFormed) (kind : x.kind = t.kind) :
    (merged.extend x).Merges t (extensions ++ [x]) := by
  obtain ⟨body, same, joins⟩ := exists_extend (h.kind.trans kind.symm)
  obtain ⟨is, fs, ms, vs, inputs⟩ := x.body.wellFormed_iff.mp hx.2
  rw [same]
  exact {
    name := h.name
    description := h.description
    kind := joins.kind.trans h.kind
    directives := h.directives.join hx.1.1
    interfaces := joins.interfaces ▸ h.interfaces.join is.1
    fields := joins.fields ▸ h.fields.join fs.1
    members := joins.members ▸ h.members.join ms.1
    values := joins.values ▸ h.values.join vs.1
    inputFields := joins.inputFields ▸ h.inputFields.join inputs.1 }

@[simp] theorem name_foldl_extend (t : TypeDefinition) (xs : List TypeDefinition) :
    (xs.foldl extend t).name = t.name := by
  induction xs generalizing t with
  | nil => rfl
  | cons x xs ih => rw [List.foldl_cons, ih, name_extend]

@[simp] theorem kind_foldl_extend (t : TypeDefinition) (xs : List TypeDefinition) :
    (xs.foldl extend t).kind = t.kind := by
  induction xs generalizing t with
  | nil => rfl
  | cons x xs ih => rw [List.foldl_cons, ih, kind_extend]

/-- Extensions of the right kind are merged one after another. -/
theorem merges_foldl_extend {t : TypeDefinition} {xs : List TypeDefinition} (ht : t.WellFormed)
    (hx : ∀ x ∈ xs, x.WellFormed ∧ x.kind = t.kind) : (xs.foldl extend t).Merges t xs := by
  induction xs using List.reverseRecOn with
  | nil => exact ht.merges
  | append_singleton xs x ih =>
    obtain ⟨hxs, hx⟩ := List.forall_mem_append.mp hx
    obtain ⟨wellFormed, kind⟩ := hx x (.head _)
    rw [List.foldl_concat]
    exact (ih hxs).extend wellFormed kind

end TypeDefinition

namespace Schema

/-- Each type takes the extensions of its name, in their order. -/
theorem entries_extendTypes (types : Registry TypeDefinition) (xs : List TypeDefinition) :
    (extendTypes types xs).entries =
      types.entries.map fun e => (e.1, (xs.filter (·.name = e.1)).foldl TypeDefinition.extend e.2) := by
  induction xs generalizing types with
  | nil => simp [extendTypes]
  | cons x xs ih =>
    change (extendTypes (types.modify x.name (·.extend x)) xs).entries = _
    rw [ih, Registry.entries_modify, List.map_map]
    refine List.map_congr_left fun e _ => ?_
    by_cases same : e.1 = x.name
    · simp [same]
    · simp [same, Ne.symm same]

@[simp] theorem keys_extendTypes (types : Registry TypeDefinition) (xs : List TypeDefinition) :
    (extendTypes types xs).keys = types.keys := by
  simp [Registry.keys, entries_extendTypes]

theorem get?_extendTypes (types : Registry TypeDefinition) (xs : List TypeDefinition) (name : String) :
    (extendTypes types xs).get? name =
      (types.get? name).map ((xs.filter (·.name = name)).foldl TypeDefinition.extend) := by
  rw [Registry.get?, entries_extendTypes]
  exact Registry.lookup_map (fun key => (xs.filter (·.name = key)).foldl TypeDefinition.extend) ..

theorem extendTypes_append (types more : Registry TypeDefinition) (xs : List TypeDefinition) :
    extendTypes (types.append more) xs = (extendTypes types xs).append (extendTypes more xs) := by
  refine congrArg Registry.mk ((entries_extendTypes (types.append more) xs).trans ?_)
  rw [entries_extendTypes, entries_extendTypes]
  exact List.map_append

/-- Types that are not extended stay as they are. -/
theorem extendTypes_eq_self {types : Registry TypeDefinition} {xs : List TypeDefinition}
    (h : ∀ x ∈ xs, x.name ∉ types.keys) : extendTypes types xs = types := by
  refine congrArg Registry.mk ((entries_extendTypes types xs).trans ?_)
  refine (List.map_congr_left fun e he => ?_).trans (List.map_id types.entries)
  have none : xs.filter (·.name = e.1) = [] := by
    rw [List.filter_eq_nil_iff]
    intro x hx same
    exact h x hx (of_decide_eq_true same ▸ List.mem_map_of_mem he)
  rw [none]
  rfl

end Schema

end GraphQL
