import Mathlib.Data.Set.BooleanAlgebra
import Mathlib.Order.CompletePartialOrder
import AdkAerospike.Server

/-! A set of records shared by parties. A party has keys and values of the indexed
bin; it is well served if no record with one of its values lies under a key of
somebody else. Requests that stay with one party are then invisible to a party whose
keys and values are others, and cannot see what the others do. -/

namespace AdkAerospike.Server

open Data

variable {K R O X I ρ : Type}

structure Party (K I : Type) where
  keys : Set K
  values : Set I

/-- The parties have nothing in common. -/
structure Party.Apart (p q : Party K I) : Prop where
  keys : Disjoint p.keys q.keys
  values : Disjoint p.values q.values

/-- The indexed bin is put with the other bins and no operation changes it. -/
structure Table.Stable (T : Table R O X I) : Prop where
  blank : T.index T.blank = none
  merge : ∀ r bins, T.index (T.merge r bins) = T.index bins
  apply : ∀ op r, T.index (T.apply op r).1 = T.index r

/-- Operations one after the other leave the indexed bin alone if each of them does. -/
theorem index_foldl {Y P : Type} (index : R → Option I) {act : R × Y → P → R × Y}
    (h : ∀ x op, index (act x op).1 = index x.1) (ops : List P) (x : R × Y) :
    index (ops.foldl act x).1 = index x.1 := by
  induction ops generalizing x with
  | nil => rfl
  | cons op ops ih => exact (ih _).trans (h x op)

/-- The request names keys and values of the party only. -/
def Req.Within (T : Table R O X I) (p : Party K I) : Req K R O I → Prop
  | .create key bins => key ∈ p.keys ∧ ∀ i, T.index bins = some i → i ∈ p.values
  | .put key bins => key ∈ p.keys ∧ ∀ i, T.index bins = some i → i ∈ p.values
  | .get key => key ∈ p.keys
  | .remove key => key ∈ p.keys
  | .operate key _ => key ∈ p.keys
  | .batchRead keys => ∀ key ∈ keys, key ∈ p.keys
  | .query i => i ∈ p.values

/-- Records with a value of the party lie under its keys. -/
def Table.Filed (T : Table R O X I) (p : Party K I) (σ : Store K R) [DecidableEq K] : Prop :=
  ∀ key r i, σ.get key = some r → T.index r = some i → i ∈ p.values → key ∈ p.keys

/-! ### The indexed bin of a record that is left -/

section Keeps
variable {T : Table R O X I} {p : Party K I}

/-- The record has a value of the party, the value of the record that it replaces, or
none. -/
def Table.Keeps (T : Table R O X I) (p : Party K I) (old : Option R) (r : R) : Prop :=
  ∀ i, T.index r = some i → i ∈ p.values ∨ ∃ r₀, old = some r₀ ∧ T.index r₀ = some i

theorem keeps_of_leave {r r' : R} {x a : ρ} {old : Option R} (h : T.leave r x = .ok (a, some r'))
    (hr : T.Keeps p old r) : T.Keeps p old r' := by
  unfold Table.leave at h
  split_ifs at h
  cases h
  exact hr

theorem onOperate_keeps (hT : T.Stable) {op : O} {old : Option R} {a : X} {r : R}
    (h : T.onOperate op old = .ok (a, some r)) : T.Keeps p old r := by
  cases old with
  | none =>
    unfold Table.onOperate at h
    split_ifs at h
    refine keeps_of_leave h fun i hi => ?_
    rw [hT.apply, hT.blank] at hi
    cases hi
  | some r₀ =>
    refine keeps_of_leave h fun i hi => .inr ⟨r₀, rfl, ?_⟩
    rwa [hT.apply] at hi

theorem onPut_keeps (hT : T.Stable) {bins : R} (hbins : ∀ i, T.index bins = some i → i ∈ p.values)
    {old : Option R} {a : Unit} {r : R} (h : T.onPut bins old = .ok (a, some r)) : T.Keeps p old r := by
  refine keeps_of_leave h fun i hi => .inl (hbins i ?_)
  cases old with
  | none => exact hi
  | some r₀ =>
    rw [Option.elim_some, hT.merge] at hi
    exact hi

theorem onCreate_keeps {bins : R} (hbins : ∀ i, T.index bins = some i → i ∈ p.values) {old : Option R}
    {a : Unit} {r : R} (h : T.onCreate bins old = .ok (a, some r)) : T.Keeps p old r := by
  cases old with
  | none => exact keeps_of_leave h fun i hi => .inl (hbins i hi)
  | some r₀ => cases h

end Keeps

/-! ### What a party sees -/

section Parties
variable [DecidableEq K] [DecidableEq I] {T : Table R O X I} {p p' : Party K I} {σ σ' : Store K R}

/-- The entries whose indexed bin has the value. -/
def Table.entriesOf (T : Table R O X I) (i : I) (σ : Store K R) : List (Sigma fun _ : K => R) :=
  σ.entries.filter fun e => T.index e.2 = some i

/-- The stores look the same to the party. -/
structure Table.Alike (T : Table R O X I) (p : Party K I) (σ σ' : Store K R) : Prop where
  get : ∀ key ∈ p.keys, σ.get key = σ'.get key
  entries : ∀ i ∈ p.values, T.entriesOf i σ = T.entriesOf i σ'

theorem Table.Alike.refl (T : Table R O X I) (p : Party K I) (σ : Store K R) : T.Alike p σ σ :=
  ⟨fun _ _ => rfl, fun _ _ => rfl⟩

theorem Table.Alike.symm (h : T.Alike p σ σ') : T.Alike p σ' σ :=
  ⟨fun key hkey => (h.get key hkey).symm, fun i hi => (h.entries i hi).symm⟩

theorem Table.Alike.trans {σ'' : Store K R} (h : T.Alike p σ σ') (h' : T.Alike p σ' σ'') : T.Alike p σ σ'' :=
  ⟨fun key hkey => (h.get key hkey).trans (h'.get key hkey),
    fun i hi => (h.entries i hi).trans (h'.entries i hi)⟩

theorem kerase_eq_filter {key : K} {l : List (Sigma fun _ : K => R)} (h : l.NodupKeys) :
    l.kerase key = l.filter fun e => e.1 ≠ key := by
  induction l with
  | nil => rfl
  | cons e l ih =>
    obtain ⟨hnot, hl⟩ := List.nodupKeys_cons.mp h
    by_cases hk : key = e.1
    · have hrest : ∀ e' ∈ l, e'.1 ≠ key := fun e' he' heq =>
        hnot (hk ▸ heq ▸ List.mem_keys_of_mem he')
      rw [List.kerase_cons_eq hk, List.filter_cons_of_neg (by simpa using hk.symm),
        List.filter_eq_self.mpr fun e' he' => by simpa using hrest e' he']
    · rw [List.kerase_cons_ne hk, List.filter_cons_of_pos (by simpa using Ne.symm hk), ih hl]

/-- The entry under one key is replaced. -/
theorem entriesOf_set (key : K) (v : Option R) (i : I) (σ : Store K R) :
    T.entriesOf i (σ.set key v) =
      (v.toList.map fun r => ⟨key, r⟩).filter (fun e : Sigma fun _ : K => R => T.index e.2 = some i) ++
        (T.entriesOf i σ).filter fun e => e.1 ≠ key := by
  have hrest : (σ.entries.kerase key).filter (fun e => decide (T.index e.2 = some i)) =
      (T.entriesOf i σ).filter fun e => e.1 ≠ key := by
    rw [kerase_eq_filter σ.nodupKeys, Table.entriesOf, List.filter_filter, List.filter_filter]
    exact List.filter_congr fun e _ => Bool.and_comm _ _
  cases v with
  | none => exact hrest
  | some r =>
    rw [← hrest]
    change List.filter _ (⟨key, r⟩ :: σ.entries.kerase key) = _
    rw [← List.singleton_append, List.filter_append]
    rfl

/-! ### What a request writes -/

/-- The store is left alone, or one key of the party has got a new record. -/
def Table.Writes (T : Table R O X I) (p : Party K I) (σ σ' : Store K R) : Prop :=
  σ' = σ ∨ ∃ key ∈ p.keys, ∃ v, σ' = σ.set key v ∧ ∀ r, v = some r → T.Keeps p (σ.get key) r

omit [DecidableEq I] in
theorem writes_change {key : K} (hkey : key ∈ p.keys) {f : Option R → Except Err (ρ × Option R)}
    (hf : ∀ a r, f (σ.get key) = .ok (a, some r) → T.Keeps p (σ.get key) r) (x : Weather) :
    T.Writes p σ (under x σ (change key f σ)).2 := by
  rcases under_snd x σ (change key f σ) with hs | hs <;> rw [hs]
  · exact .inl rfl
  cases hres : f (σ.get key) with
  | error e =>
    rw [change_of_error hres]
    exact .inl rfl
  | ok out =>
    obtain ⟨a, v⟩ := out
    rw [change_of_ok hres]
    refine .inr ⟨key, hkey, v, rfl, fun r hr => hf a r ?_⟩
    rw [hres, hr]

/-- What a request of a party may write, in any weather. -/
theorem exec_writes (hT : T.Stable) (x : Weather) {q : Req K R O I} (hq : q.Within T p) (σ : Store K R) :
    T.Writes p σ (exec T x q σ).2 := by
  cases q with
  | create key bins => exact writes_change hq.1 (fun a r h => onCreate_keeps hq.2 h) x
  | put key bins => exact writes_change hq.1 (fun a r h => onPut_keeps hT hq.2 h) x
  | remove key =>
    refine writes_change hq (fun a r h => ?_) x
    cases hold : σ.get key <;> rw [hold] at h <;> cases h
  | operate key op => exact writes_change hq (fun a r h => onOperate_keeps hT h) x
  | get key => exact .inl (under_same x σ _)
  | batchRead keys => exact .inl (under_same x σ _)
  | query i => exact .inl (under_same x σ _)

/-! ### Requests of others -/

/-- Records stay where they belong, whoever makes the request. -/
theorem exec_filed (hT : T.Stable) (x : Weather) (h : T.Filed p σ) {q : Req K R O I} (hq : q.Within T p')
    (hp : p' = p ∨ p'.Apart p) : T.Filed p (exec T x q σ).2 := by
  rcases exec_writes hT x hq σ with hsame | ⟨key, hkey, v, hset, hkeeps⟩
  · rw [hsame]
    exact h
  · rw [hset]
    intro key' r i hr hi hip
    rw [FMap.get_set] at hr
    split_ifs at hr with hk
    · subst hk
      rcases hkeeps r hr i hi with hip' | ⟨r₀, hr₀, hi₀⟩
      · rcases hp with rfl | hp
        · exact hkey
        · exact absurd hip (hp.values.notMem_of_mem_left hip')
      · exact h key' r₀ i hr₀ hi₀ hip
    · exact h key' r i hr hi hip

/-- A party does not see what is written by others. -/
theorem Table.Writes.unseen (hw : T.Writes p' σ σ') (h : T.Filed p σ) (hp : p'.Apart p) : T.Alike p σ σ' := by
  rcases hw with rfl | ⟨key, hkey, v, rfl, hkeeps⟩
  · exact .refl T p _
  · refine ⟨fun key' hkey' => ?_, fun i hi => ?_⟩
    · have hne : key' ≠ key := fun heq => hp.keys.notMem_of_mem_left hkey (heq ▸ hkey')
      rw [FMap.get_set, if_neg hne]
    · -- neither the new record nor the one it replaces has a value of the party
      have hnew : (v.toList.map fun r => (⟨key, r⟩ : Sigma fun _ : K => R)).filter
          (fun e => T.index e.2 = some i) = [] := by
        rw [List.filter_eq_nil_iff]
        rintro e he
        obtain ⟨r, hr, rfl⟩ := List.mem_map.mp he
        rw [decide_eq_true_eq]
        intro hri
        rcases hkeeps r (by simpa using hr) i hri with hip' | ⟨r₀, hr₀, hi₀⟩
        · exact hp.values.notMem_of_mem_left hip' hi
        · exact hp.keys.notMem_of_mem_left hkey (h key r₀ i hr₀ hi₀ hi)
      have hold : (T.entriesOf i σ).filter (fun e => e.1 ≠ key) = T.entriesOf i σ := by
        rw [List.filter_eq_self]
        rintro ⟨key', r⟩ he
        obtain ⟨hmem, hri⟩ := List.mem_filter.mp he
        have hmine := h key' r i ((FMap.mem_entries_iff σ key').mp hmem) (by simpa using hri) hi
        have hne : key' ≠ key := fun heq => hp.keys.notMem_of_mem_left hkey (heq ▸ hmine)
        simpa using hne
      rw [entriesOf_set, hnew, hold, List.nil_append]

/-- A party does not see what others do. -/
theorem exec_unseen (hT : T.Stable) (x : Weather) (h : T.Filed p σ) {q : Req K R O I} (hq : q.Within T p')
    (hp : p'.Apart p) : T.Alike p σ (exec T x q σ).2 := (exec_writes hT x hq σ).unseen h hp

/-! ### Requests of the party -/

theorem Table.Alike.set (h : T.Alike p σ σ') (key : K) (v : Option R) :
    T.Alike p (σ.set key v) (σ'.set key v) := by
  refine ⟨fun key' hkey' => ?_, fun i hi => ?_⟩
  · rw [FMap.get_set, FMap.get_set, h.get key' hkey']
  · rw [entriesOf_set, entriesOf_set, h.entries i hi]

theorem Table.Alike.change (h : T.Alike p σ σ') {key : K} (hkey : key ∈ p.keys)
    (f : Option R → Except Err (ρ × Option R)) :
    (Server.change key f σ).1 = (Server.change key f σ').1 ∧
      T.Alike p (Server.change key f σ).2 (Server.change key f σ').2 := by
  unfold Server.change
  rw [h.get key hkey]
  split
  · exact ⟨rfl, h.set key _⟩
  · exact ⟨rfl, h⟩

theorem Table.Alike.under (h : T.Alike p σ σ') (x : Weather) {y y' : Except Err ρ × Store K R}
    (hy : y.1 = y'.1 ∧ T.Alike p y.2 y'.2) :
    (Server.under x σ y).1 = (Server.under x σ' y').1 ∧
      T.Alike p (Server.under x σ y).2 (Server.under x σ' y').2 := by
  cases x with
  | fair => exact hy
  | failed code applied =>
    cases applied with
    | true => exact ⟨rfl, hy.2⟩
    | false => exact ⟨rfl, h⟩

/-- Stores that look the same to a party answer its requests alike. -/
theorem Table.Alike.exec (h : T.Alike p σ σ') (x : Weather) {q : Req K R O I} (hq : q.Within T p) :
    (Server.exec T x q σ).1 = (Server.exec T x q σ').1 ∧
      T.Alike p (Server.exec T x q σ).2 (Server.exec T x q σ').2 := by
  cases q with
  | create key bins => exact h.under x (h.change hq.1 _)
  | put key bins => exact h.under x (h.change hq.1 _)
  | remove key => exact h.under x (h.change hq _)
  | operate key op => exact h.under x (h.change hq _)
  | get key =>
    refine h.under x ⟨?_, h⟩
    rw [fetch, fetch, h.get key hq]
  | batchRead keys =>
    refine h.under x ⟨congrArg Except.ok (List.map_congr_left fun key hkey => ?_), h⟩
    exact h.get key (hq key hkey)
  | query i =>
    refine h.under x ⟨congrArg Except.ok ?_, h⟩
    exact congrArg (fun es => T.arrange (es.map Sigma.snd)) (h.entries i hq)

end Parties

end AdkAerospike.Server
