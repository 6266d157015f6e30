import Mathlib.Data.List.AList
import Mathlib.Data.List.Dedup
import AdkAerospike.Data.Text

/-! Unordered finite maps with a value type that does not depend on the key, over
Mathlib's association lists. Two maps count as equal when their lookups agree. -/

namespace AdkAerospike.Data

/-- A finite map from `κ` to `ν`. -/
abbrev FMap (κ ν : Type) := AList fun _ : κ => ν

/-- A map with string keys. -/
abbrev Dict (ν : Type) := FMap Str ν

namespace FMap
variable {κ ν : Type} [DecidableEq κ] (d e : FMap κ ν) (k : κ)

def get (d : FMap κ ν) (k : κ) : Option ν := d.lookup k

@[simp] theorem get_empty : get (∅ : FMap κ ν) k = none := rfl

@[simp] theorem get_insert_self (v : ν) : get (d.insert k v) k = some v := AList.lookup_insert d

@[simp] theorem get_insert_of_ne {k j : κ} (v : ν) (h : k ≠ j) : get (d.insert j v) k = get d k :=
  AList.lookup_insert_ne h

@[simp] theorem get_erase_self : get (d.erase k) k = none := AList.lookup_erase k d

@[simp] theorem get_erase_of_ne {k j : κ} (h : k ≠ j) : get (d.erase j) k = get d k :=
  AList.lookup_erase_ne h

/-- Give a key a value, or none. -/
def set (d : FMap κ ν) (k : κ) : Option ν → FMap κ ν
  | some v => d.insert k v
  | none => d.erase k

theorem get_set (d : FMap κ ν) (k k' : κ) (v : Option ν) :
    get (set d k v) k' = if k' = k then v else get d k' := by
  by_cases hk : k' = k
  · subst hk
    cases v <;> simp [set]
  · cases v <;> simp [set, hk]

theorem get_insert (d : FMap κ ν) (k k' : κ) (v : ν) : get (d.insert k v) k' = if k' = k then some v else get d k' :=
  get_set d k k' (some v)

theorem mem_entries_iff {v : ν} : (⟨k, v⟩ : Sigma fun _ : κ => ν) ∈ d.entries ↔ get d k = some v :=
  AList.mem_lookup_iff.symm

/-- The entries whose keys satisfy `p`. -/
def restrict (p : κ → Bool) (d : FMap κ ν) : FMap κ ν :=
  ⟨d.entries.filter fun e => p e.1, d.nodupKeys.sublist List.filter_sublist⟩

theorem get_restrict (p : κ → Bool) : get (restrict p d) k = if p k then get d k else none := by
  refine Option.ext fun v => ?_
  rw [← mem_entries_iff, restrict, List.mem_filter, mem_entries_iff]
  by_cases hp : p k <;> simp [hp]

/-- The same keys with other values. -/
def mapValues {ν' : Type} (f : ν → ν') (d : FMap κ ν) : FMap κ ν' :=
  ⟨d.entries.map (Sigma.map id fun _ => f), d.nodupKeys.map₂ fun _ => f⟩

theorem get_mapValues {ν' : Type} (f : ν → ν') : get (mapValues f d) k = (get d k).map f :=
  List.dlookup_map₂ (f := fun _ => f) k

/-- `d.update(e)`. -/
def update (d e : FMap κ ν) : FMap κ ν := e ∪ d

theorem get_update : get (update d e) k = (get e k).or (get d k) := by
  unfold update get
  by_cases hk : k ∈ e
  · obtain ⟨v, hv⟩ := Option.isSome_iff_exists.mp (AList.lookup_isSome.mpr hk)
    rw [AList.lookup_union_left hk, hv, Option.some_or]
  · rw [AList.lookup_union_right hk, AList.lookup_eq_none.mpr hk, Option.none_or]

section Updates
variable {ι : Type} (f : ι → FMap κ ν)

/-- Several updates: what they give a key, or else what it had. -/
theorem get_foldl_update (l : List ι) (d : FMap κ ν) (k : κ) :
    get (l.foldl (fun d i => update d (f i)) d) k = (get (l.foldl (fun d i => update d (f i)) ∅) k).or (get d k) := by
  induction l generalizing d with
  | nil => rfl
  | cons i l ih =>
    rw [List.foldl_cons, List.foldl_cons, ih, ih (update ∅ (f i)), get_update, get_update, get_empty, Option.or_none,
      Option.or_assoc]

theorem get_foldl_update_eq_none {l : List ι} {k : κ} (h : get (l.foldl (fun d i => update d (f i)) ∅) k = none) {i : ι}
    (hi : i ∈ l) : get (f i) k = none := by
  induction l with
  | nil => cases hi
  | cons j l ih =>
    rw [List.foldl_cons, get_foldl_update, Option.or_eq_none_iff, get_update, Option.or_eq_none_iff] at h
    rcases List.mem_cons.mp hi with rfl | hi
    · exact h.2.1
    · exact ih h.1 hi

/-- Of repeated updates only the last ones count. -/
theorem get_foldl_update_dedup [DecidableEq ι] (l : List ι) (d : FMap κ ν) (k : κ) :
    get (l.dedup.foldl (fun d i => update d (f i)) d) k = get (l.foldl (fun d i => update d (f i)) d) k := by
  induction l generalizing d with
  | nil => rfl
  | cons i l ih =>
    by_cases hi : i ∈ l
    · rw [List.dedup_cons_of_mem hi, ih, List.foldl_cons, get_foldl_update, get_foldl_update f l (update d (f i))]
      cases hl : get (l.foldl (fun d i => update d (f i)) ∅) k with
      | some v => rfl
      | none => simp [get_update, get_foldl_update_eq_none f hl hi]
    · rw [List.dedup_cons_of_notMem hi, List.foldl_cons, List.foldl_cons, ih]

end Updates

/-- The value an entry list gives a key. -/
def find (es : List (Sigma fun _ : κ => ν)) (k : κ) : Option ν := es.dlookup k

@[simp] theorem find_nil : find ([] : List (Sigma fun _ : κ => ν)) k = none := rfl

theorem find_cons_self (v : ν) (es : List (Sigma fun _ : κ => ν)) :
    find (⟨k, v⟩ :: es) k = some v := List.dlookup_cons_eq es k v

theorem find_cons_of_ne {k j : κ} (h : k ≠ j) (v : ν) (es : List (Sigma fun _ : κ => ν)) :
    find (⟨j, v⟩ :: es) k = find es k := List.dlookup_cons_ne es ⟨j, v⟩ h

theorem find_eq_none {k : κ} {es : List (Sigma fun _ : κ => ν)} (h : k ∉ es.keys) :
    find es k = none := List.dlookup_eq_none.mpr h

/-- A fold over a map runs through an entry list whose keys are distinct. -/
theorem foldl_entries {δ : Type} (f : δ → κ → ν → δ) (x : δ) :
    ∃ es : List (Sigma fun _ : κ => ν), es.NodupKeys ∧ find es = get d ∧
      d.foldl f x = es.foldl (fun y e => f y e.1 e.2) x :=
  ⟨d.entries, d.nodupKeys, rfl, rfl⟩

end FMap

end AdkAerospike.Data
