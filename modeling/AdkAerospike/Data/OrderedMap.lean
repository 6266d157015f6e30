import Mathlib.Data.List.Sort
import Mathlib.Data.Int.Basic

/-! Finite maps kept in key order. The entry list carries its own sortedness, so
a map is determined by its lookups, overwriting an entry by an equal one gives
the same map back, and a key above all others goes to the end. -/

namespace AdkAerospike.Data

variable {κ ν : Type} [LinearOrder κ]

/-- A map with its entries strictly ascending by key. -/
@[ext] structure OMap (κ ν : Type) [LinearOrder κ] where
  entries : List (κ × ν)
  sorted : entries.Pairwise fun x y => x.1 < y.1

namespace OMap

instance [DecidableEq ν] : DecidableEq (OMap κ ν) := fun m m' =>
  decidable_of_iff (m.entries = m'.entries) OMap.ext_iff.symm

def empty : OMap κ ν := ⟨[], .nil⟩

instance : Inhabited (OMap κ ν) := ⟨empty⟩

def lookup (m : OMap κ ν) (k : κ) : Option ν := m.entries.lookup k

def keys (m : OMap κ ν) : List κ := m.entries.map Prod.fst

def size (m : OMap κ ν) : ℕ := m.entries.length

/-- Insertion into a sorted list, replacing the entry of an equal key. -/
def insertEntry (k : κ) (v : ν) : List (κ × ν) → List (κ × ν)
  | [] => [(k, v)]
  | (k', v') :: rest =>
    if k < k' then (k, v) :: (k', v') :: rest
    else if k = k' then (k, v) :: rest
    else (k', v') :: insertEntry k v rest

theorem mem_insertEntry {k : κ} {v : ν} {l : List (κ × ν)}
    (hl : l.Pairwise fun x y => x.1 < y.1) {x : κ × ν} :
    x ∈ insertEntry k v l ↔ x = (k, v) ∨ x ∈ l ∧ x.1 ≠ k := by
  induction l with
  | nil => simp [insertEntry]
  | cons y rest ih =>
    obtain ⟨k', v'⟩ := y
    rw [List.pairwise_cons] at hl
    have hrest : ∀ z ∈ rest, k ≤ k' → z.1 ≠ k := fun z hz hk => ((hk.trans_lt (hl.1 z hz)).ne').elim
    simp only [insertEntry]
    split_ifs with hlt heq
    · -- everything after `k` stays and differs from `k`
      simp only [List.mem_cons]
      constructor
      · rintro (rfl | rfl | hx)
        · exact .inl rfl
        · exact .inr ⟨.inl rfl, hlt.ne'⟩
        · exact .inr ⟨.inr hx, hrest x hx hlt.le⟩
      · rintro (rfl | ⟨rfl | hx, _⟩) <;> simp_all
    · subst heq
      simp only [List.mem_cons]
      constructor
      · rintro (rfl | hx)
        · exact .inl rfl
        · exact .inr ⟨.inr hx, hrest x hx le_rfl⟩
      · rintro (rfl | ⟨rfl | hx, hne⟩)
        · exact .inl rfl
        · exact absurd rfl hne
        · exact .inr hx
    · simp only [List.mem_cons, ih hl.2]
      constructor
      · rintro (rfl | rfl | ⟨hx, hne⟩)
        · exact .inr ⟨.inl rfl, Ne.symm heq⟩
        · exact .inl rfl
        · exact .inr ⟨.inr hx, hne⟩
      · rintro (rfl | ⟨rfl | hx, hne⟩) <;> simp_all

theorem insertEntry_sorted (k : κ) (v : ν) {l : List (κ × ν)}
    (hl : l.Pairwise fun x y => x.1 < y.1) :
    (insertEntry k v l).Pairwise fun x y => x.1 < y.1 := by
  induction l with
  | nil => simp [insertEntry]
  | cons y rest ih =>
    obtain ⟨k', v'⟩ := y
    have hl' := List.pairwise_cons.mp hl
    simp only [insertEntry]
    split_ifs with hlt heq
    · refine List.pairwise_cons.mpr ⟨fun z hz => ?_, hl⟩
      rcases List.mem_cons.mp hz with rfl | hz
      · exact hlt
      · exact hlt.trans (hl'.1 z hz)
    · subst heq
      exact List.pairwise_cons.mpr ⟨hl'.1, hl'.2⟩
    · refine List.pairwise_cons.mpr ⟨fun z hz => ?_, ih hl'.2⟩
      rcases (mem_insertEntry hl'.2).mp hz with rfl | ⟨hz, _⟩
      · exact lt_of_le_of_ne (not_lt.mp hlt) (Ne.symm heq)
      · exact hl'.1 z hz

def put (m : OMap κ ν) (k : κ) (v : ν) : OMap κ ν :=
  ⟨insertEntry k v m.entries, insertEntry_sorted k v m.sorted⟩

/-- The entries with `lo ≤ key < hi`. -/
def keyRange (m : OMap κ ν) (lo hi : κ) : List (κ × ν) :=
  m.entries.filter fun x => decide (lo ≤ x.1 ∧ x.1 < hi)

/-- `count` entries from position `index` on, a negative index counting from the
end; positions outside the map are skipped. -/
def indexRange (m : OMap κ ν) (index : ℤ) (count : ℕ) : List (κ × ν) :=
  let start := if index < 0 then m.size + index else index
  (m.entries.take (start + count).toNat).drop start.toNat

/-! ### Lookups -/

variable {m m' : OMap κ ν} {k k' : κ} {v : ν}

theorem lookup_eq_some_iff : m.lookup k = some v ↔ (k, v) ∈ m.entries := by
  obtain ⟨l, hl⟩ := m
  simp only [lookup]
  induction l with
  | nil => simp
  | cons y rest ih =>
    obtain ⟨k', v'⟩ := y
    rw [List.pairwise_cons] at hl
    by_cases h : k = k'
    · subst h
      have hnot : (k, v) ∉ rest := fun hm => (hl.1 _ hm).false
      simp [hnot, eq_comm]
    · have hb : (k == k') = false := by simpa using h
      simp [List.lookup_cons, hb, h, ih hl.2]

theorem mem_keys_iff : k ∈ m.keys ↔ ∃ v, m.lookup k = some v := by
  simp [keys, lookup_eq_some_iff]

theorem lookup_eq_none_iff : m.lookup k = none ↔ k ∉ m.keys := by
  rw [mem_keys_iff, not_exists, Option.eq_none_iff_forall_ne_some]

@[simp] theorem entries_empty : (empty : OMap κ ν).entries = [] := rfl

@[simp] theorem lookup_empty : (empty : OMap κ ν).lookup k = none := rfl

theorem mem_entries_put {x : κ × ν} :
    x ∈ (m.put k v).entries ↔ x = (k, v) ∨ x ∈ m.entries ∧ x.1 ≠ k :=
  mem_insertEntry m.sorted

@[simp] theorem lookup_put_self : (m.put k v).lookup k = some v := by
  rw [lookup_eq_some_iff, mem_entries_put]
  exact .inl rfl

@[simp] theorem lookup_put_of_ne (h : k' ≠ k) : (m.put k v).lookup k' = m.lookup k' := by
  ext u
  simp only [lookup_eq_some_iff, mem_entries_put, Prod.mk.injEq, h, false_and, false_or, ne_eq,
    not_false_eq_true, and_true]

/-- A key occurs at most once, with the value looked up. -/
theorem filter_entries_key (m : OMap κ ν) (k : κ) [∀ x : κ × ν, Decidable (x.1 = k)] :
    m.entries.filter (fun x => x.1 = k) = (m.lookup k).toList.map fun v => (k, v) := by
  obtain ⟨l, hl⟩ := m
  simp only [lookup]
  induction l with
  | nil => rfl
  | cons y rest ih =>
    obtain ⟨k', v'⟩ := y
    rw [List.pairwise_cons] at hl
    by_cases h : k' = k
    · subst h
      have hnone : rest.filter (fun x => x.1 = k') = [] :=
        List.filter_eq_nil_iff.mpr fun x hx => by simpa using (hl.1 x hx).ne'
      simp [hnone]
    · have hb : (k == k') = false := by simpa using Ne.symm h
      simp [List.lookup_cons, hb, h, ih hl.2]

/-- A map is determined by its lookups. -/
theorem ext_lookup (h : ∀ k, m.lookup k = m'.lookup k) : m = m' := by
  apply OMap.ext
  have hmem : ∀ x, x ∈ m.entries ↔ x ∈ m'.entries := fun ⟨k, v⟩ => by
    rw [← lookup_eq_some_iff, ← lookup_eq_some_iff, h]
  have hnodup : ∀ m : OMap κ ν, m.entries.Nodup := fun m =>
    m.sorted.imp fun {x y} hxy (heq : x = y) => (heq ▸ hxy).false
  have hperm : m.entries.Perm m'.entries :=
    (List.perm_ext_iff_of_nodup (hnodup m) (hnodup m')).mpr hmem
  exact hperm.eq_of_pairwise (fun x y _ _ hxy hyx => absurd hxy hyx.not_gt) m.sorted m'.sorted

/-- Overwriting an entry by an equal one changes nothing. -/
theorem put_eq_self (h : m.lookup k = some v) : m.put k v = m := by
  apply ext_lookup
  intro k'
  by_cases hk : k' = k
  · rw [hk, lookup_put_self, h]
  · rw [lookup_put_of_ne hk]

theorem put_entries_ne_nil : (m.put k v).entries ≠ [] := fun h => by
  have hm : (k, v) ∈ (m.put k v).entries := mem_entries_put.mpr (.inl rfl)
  simp [h] at hm

/-- A key above all others goes to the end. -/
theorem entries_put_of_forall_lt (h : ∀ x ∈ m.entries, x.1 < k) :
    (m.put k v).entries = m.entries ++ [(k, v)] := by
  obtain ⟨l, hl⟩ := m
  simp only [put] at h ⊢
  clear hl
  induction l with
  | nil => rfl
  | cons y rest ih =>
    have hy : y.1 < k := h y (by simp)
    simp only [insertEntry, hy.not_gt, hy.ne', if_false, List.cons_append]
    rw [ih fun x hx => h x (by simp [hx])]

/-! ### Ranges -/

theorem indexRange_zero {n : ℕ} (h : m.size ≤ n) : m.indexRange 0 n = m.entries := by
  have hsum : ((0 : ℤ) + n).toNat = n := by omega
  simp only [indexRange, lt_self_iff_false, if_false, hsum, Int.toNat_zero, List.drop_zero]
  exact List.take_of_length_le h

/-- `indexRange (-n) n` is the tail of the last `n` entries. -/
theorem indexRange_neg (n : ℕ) : m.indexRange (-n) n = m.entries.drop (m.entries.length - n) := by
  rcases Nat.eq_zero_or_pos n with rfl | hn
  · simp [indexRange]
  · have hneg : -(n : ℤ) < 0 := by omega
    have hsum : ((m.size : ℤ) + -n + n).toNat = m.entries.length := by simp only [size]; omega
    have hsub : ((m.size : ℤ) + -n).toNat = m.entries.length - n := by simp only [size]; omega
    simp only [indexRange, hneg, if_true, hsum, hsub, List.take_length]

end OMap

end AdkAerospike.Data
