import Mathlib.Data.List.Perm.Basic
import Mathlib.Data.Int.Notation
import AdkAerospike.Program.Basic
import AdkAerospike.Data.Dict

/-! A set of records on a server, with one secondary index, and single-record
requests that are atomic. What the records hold and what the operations on them do
is a parameter. A request may also fail, and may then have been carried out or not. -/

namespace AdkAerospike.Server

open Data

inductive Err where
  | recordTooBig | recordNotFound | recordExists
  | status (code : ℤ)
  deriving DecidableEq

/-- What a request meets. -/
inductive Weather where
  | fair
  | failed (code : ℤ) (applied : Bool)

/-- A kind of records: the record without bins, bins put over those of a record, the
indexed bin, the size limit, the operations, and the order in which a query returns
the records that match. -/
structure Table (R O X I : Type) where
  blank : R
  merge : R → R → R
  index : R → Option I
  fits : R → Bool
  creates : O → Bool
  apply : O → R → R × X
  arrange : List R → List R
  arrange_perm : ∀ l, (arrange l).Perm l

abbrev Store (K R : Type) := FMap K R

/-- `create` is a put that refuses to overwrite. -/
inductive Req (K R O I : Type) where
  | create (key : K) (bins : R)
  | put (key : K) (bins : R)
  | get (key : K)
  | remove (key : K)
  | operate (key : K) (op : O)
  | batchRead (keys : List K)
  | query (value : I)

variable {K R O X I ρ : Type}

abbrev Ans (X : Type) : Req K R O I → Type
  | .create _ _ => Except Err Unit
  | .put _ _ => Except Err Unit
  | .get _ => Except Err R
  | .remove _ => Except Err Unit
  | .operate _ _ => Except Err X
  | .batchRead _ => Except Err (List (Option R))
  | .query _ => Except Err (List R)

def failure {ρ : Type} : Except Err ρ → Option Err
  | .error e => some e
  | .ok _ => none

/-- The error that a request was answered with. -/
def errorOf : (q : Req K R O I) → Ans X q → Option Err
  | .create _ _, x => failure x
  | .put _ _, x => failure x
  | .get _, x => failure x
  | .remove _, x => failure x
  | .operate _ _, x => failure x
  | .batchRead _, x => failure x
  | .query _, x => failure x

/-! ### One record -/

namespace Table
variable (T : Table R O X I)

/-- Leave the record `r`, unless it is too big. -/
def leave (r : R) (x : ρ) : Except Err (ρ × Option R) :=
  if T.fits r then .ok (x, some r) else .error .recordTooBig

def onCreate (bins : R) : Option R → Except Err (Unit × Option R)
  | some _ => .error .recordExists
  | none => T.leave bins ()

def onPut (bins : R) (old : Option R) : Except Err (Unit × Option R) :=
  T.leave (old.elim bins fun r => T.merge r bins) ()

def onRemove : Option R → Except Err (Unit × Option R)
  | some _ => .ok ((), none)
  | none => .error .recordNotFound

def onOperate (op : O) : Option R → Except Err (X × Option R)
  | some r => T.leave (T.apply op r).1 (T.apply op r).2
  | none =>
    if T.creates op then T.leave (T.apply op T.blank).1 (T.apply op T.blank).2
    else .error .recordNotFound

end Table

/-! ### Weather -/

/-- An outcome under the weather. -/
def under (x : Weather) (σ : Store K R) (y : Except Err ρ × Store K R) : Except Err ρ × Store K R :=
  match x with
  | .fair => y
  | .failed code applied => (.error (.status code), if applied then y.2 else σ)

/-- Under every weather the store stays or is changed as in fair weather. -/
theorem under_snd (x : Weather) (σ : Store K R) (y : Except Err ρ × Store K R) :
    (under x σ y).2 = σ ∨ (under x σ y).2 = y.2 := by
  cases x with
  | fair => exact .inr rfl
  | failed code applied => cases applied <;> simp [under]

theorem under_same (x : Weather) (σ : Store K R) (y : Except Err ρ) : (under x σ (y, σ)).2 = σ := by
  rcases under_snd x σ (y, σ) with h | h <;> exact h

/-! ### Requests -/

section Exec
variable [DecidableEq K]

/-- Change the record under a key; an error changes nothing. -/
def change (key : K) (f : Option R → Except Err (ρ × Option R)) (σ : Store K R) :
    Except Err ρ × Store K R :=
  match f (σ.get key) with
  | .ok (x, r) => (.ok x, σ.set key r)
  | .error e => (.error e, σ)

def fetch (key : K) (σ : Store K R) : Except Err R :=
  match σ.get key with
  | some r => .ok r
  | none => .error .recordNotFound

/-- The records whose indexed bin has the value, in the order of the store. -/
def Table.found [DecidableEq I] (T : Table R O X I) (value : I) (σ : Store K R) : List R :=
  (σ.entries.filter fun e => T.index e.2 = some value).map Sigma.snd

def exec [DecidableEq I] (T : Table R O X I) (x : Weather) :
    (q : Req K R O I) → Store K R → Ans X q × Store K R
  | .create key bins, σ => under x σ (change key (T.onCreate bins) σ)
  | .put key bins, σ => under x σ (change key (T.onPut bins) σ)
  | .get key, σ => under x σ (fetch key σ, σ)
  | .remove key, σ => under x σ (change key Table.onRemove σ)
  | .operate key op, σ => under x σ (change key (T.onOperate op) σ)
  | .batchRead keys, σ => under x σ (.ok (keys.map fun key => σ.get key), σ)
  | .query value, σ => under x σ (.ok (T.arrange (T.found value σ)), σ)

/-- The keys whose records a request may write. -/
def Req.keys : Req K R O I → List K
  | .create key _ | .put key _ | .remove key | .operate key _ => [key]
  | _ => []

theorem mem_found [DecidableEq I] {T : Table R O X I} {value : I} {σ : Store K R} {r : R} :
    r ∈ T.found value σ ↔ ∃ key, σ.get key = some r ∧ T.index r = some value := by
  simp only [Table.found, List.mem_map, List.mem_filter, decide_eq_true_eq]
  constructor
  · rintro ⟨⟨key, r⟩, ⟨hmem, hindex⟩, rfl⟩
    exact ⟨key, (FMap.mem_entries_iff σ key).mp hmem, hindex⟩
  · rintro ⟨key, hget, hindex⟩
    exact ⟨⟨key, r⟩, ⟨(FMap.mem_entries_iff σ key).mpr hget, hindex⟩, rfl⟩

theorem change_get_of_ne {key key' : K} (h : key' ≠ key) (f : Option R → Except Err (ρ × Option R))
    (σ : Store K R) : (change key f σ).2.get key' = σ.get key' := by
  unfold change
  split
  · rw [FMap.get_set, if_neg h]
  · rfl

theorem change_of_error {key : K} {f : Option R → Except Err (ρ × Option R)} {σ : Store K R} {e : Err}
    (h : f (σ.get key) = .error e) : change key f σ = (.error e, σ) := by rw [change, h]

theorem change_of_ok {key : K} {f : Option R → Except Err (ρ × Option R)} {σ : Store K R} {a : ρ}
    {r : Option R} (h : f (σ.get key) = .ok (a, r)) : change key f σ = (.ok a, σ.set key r) := by
  rw [change, h]

/-- A record is what it was, or it is the one that was changed. -/
theorem change_get_cases (key key' : K) (f : Option R → Except Err (ρ × Option R)) (σ : Store K R) :
    (change key f σ).2.get key' = σ.get key' ∨
      key' = key ∧ ∃ a, f (σ.get key) = .ok (a, (change key f σ).2.get key') := by
  cases hf : f (σ.get key) with
  | error e =>
    rw [change_of_error hf]
    exact .inl rfl
  | ok x =>
    rw [change_of_ok hf, FMap.get_set]
    by_cases hk : key' = key
    · rw [if_pos hk]
      exact .inr ⟨hk, x.1, rfl⟩
    · rw [if_neg hk]
      exact .inl rfl

theorem Table.leave_eq_ok {T : Table R O X I} {r : R} {x a : ρ} {s : Option R} (h : T.leave r x = .ok (a, s)) :
    s = some r := by
  unfold leave at h
  split_ifs at h
  cases h
  rfl

/-- A change that is refused leaves the store alone in every weather. -/
theorem under_change_error {key : K} {f : Option R → Except Err (ρ × Option R)} {σ : Store K R} {e : Err}
    (h : f (σ.get key) = .error e) (x : Weather) :
    (under x σ (change key f σ)).2 = σ ∧ ∃ e', (under x σ (change key f σ)).1 = .error e' ∧
      (e' = e ∨ ∃ code, e' = .status code) := by
  rw [change_of_error h]
  refine ⟨under_same x σ _, ?_⟩
  cases x with
  | fair => exact ⟨e, rfl, .inl rfl⟩
  | failed code applied => exact ⟨.status code, rfl, .inr ⟨code, rfl⟩⟩

/-- A change that leaves a record is made, or fails and may have been made as well. -/
theorem under_change_leave {T : Table R O X I} {key : K} {f : Option R → Except Err (ρ × Option R)}
    {σ : Store K R} {r : R} {a : ρ} (h : f (σ.get key) = T.leave r a) (x : Weather) :
    (under x σ (change key f σ)).1 = .ok a ∧ (under x σ (change key f σ)).2 = σ.set key (some r) ∨
      ∃ e, (under x σ (change key f σ)).1 = .error e ∧ e ≠ .recordExists ∧ e ≠ .recordNotFound ∧
        ((under x σ (change key f σ)).2 = σ ∨ (under x σ (change key f σ)).2 = σ.set key (some r)) := by
  unfold Table.leave at h
  split_ifs at h with hfits
  · rw [change_of_ok h]
    cases x with
    | fair => exact .inl ⟨rfl, rfl⟩
    | failed code applied =>
      refine .inr ⟨.status code, rfl, by simp, by simp, ?_⟩
      cases applied with
      | true => exact .inr rfl
      | false => exact .inl rfl
  · obtain ⟨hsame, e', hans, he⟩ := under_change_error h x
    refine .inr ⟨e', hans, ?_, ?_, .inl hsame⟩ <;> rcases he with rfl | ⟨code, rfl⟩ <;> simp

variable [DecidableEq I] {T : Table R O X I}

/-- A removal in fair weather, whether or not there was a record. -/
theorem exec_remove_get (key key' : K) (σ : Store K R) :
    (exec T .fair (.remove key : Req K R O I) σ).2.get key' = if key' = key then none else σ.get key' := by
  change (change key Table.onRemove σ).2.get key' = _
  cases hr : σ.get key with
  | none =>
    have hrefused : Table.onRemove (σ.get key) = .error .recordNotFound := by rw [hr]; rfl
    rw [change_of_error hrefused]
    by_cases hk : key' = key
    · rw [if_pos hk, hk, hr]
    · rw [if_neg hk]
  | some r =>
    have hdone : Table.onRemove (σ.get key) = .ok ((), none) := by rw [hr]; rfl
    rw [change_of_ok hdone]
    exact FMap.get_set σ key key' none

theorem exec_get_of_notMem (x : Weather) {q : Req K R O I} {key : K} (h : key ∉ q.keys) (σ : Store K R) :
    (exec T x q σ).2.get key = σ.get key := by
  have hchange : ∀ {ρ : Type} (key' : K) (f : Option R → Except Err (ρ × Option R)), key ≠ key' →
      (under x σ (change key' f σ)).2.get key = σ.get key := fun key' f hne => by
    rcases under_snd x σ (change key' f σ) with hs | hs <;> rw [hs]
    exact change_get_of_ne hne f σ
  cases q with
  | create key' bins => exact hchange key' _ fun hk => h (by simp [Req.keys, hk])
  | put key' bins => exact hchange key' _ fun hk => h (by simp [Req.keys, hk])
  | remove key' => exact hchange key' _ fun hk => h (by simp [Req.keys, hk])
  | operate key' op => exact hchange key' _ fun hk => h (by simp [Req.keys, hk])
  | get key' => rw [exec, under_same]
  | batchRead keys => rw [exec, under_same]
  | query value => rw [exec, under_same]

/-- A request that writes no key leaves the store alone. -/
theorem exec_of_keys (x : Weather) {q : Req K R O I} (hq : q.keys = []) (σ : Store K R) : (exec T x q σ).2 = σ := by
  cases q with
  | create key bins => cases hq
  | put key bins => cases hq
  | remove key => cases hq
  | operate key op => cases hq
  | get key => exact under_same x σ _
  | batchRead keys => exact under_same x σ _
  | query value => exact under_same x σ _

/-! ### Failing requests -/

/-- A request that fails tells so, and has been carried out or not. -/
theorem errorOf_failed (T : Table R O X I) (code : ℤ) (applied : Bool) (q : Req K R O I) (σ : Store K R) :
    errorOf q (exec T (.failed code applied) q σ).1 = some (.status code) := by
  cases q <;> rfl

theorem exec_failed_snd (T : Table R O X I) (code : ℤ) (applied : Bool) (q : Req K R O I) (σ : Store K R) :
    (exec T (.failed code applied) q σ).2 = if applied then (exec T .fair q σ).2 else σ := by
  cases q <;> rfl

/-! ### Without a size limit -/

/-- The same records without a limit on their size. -/
def Table.ample (T : Table R O X I) : Table R O X I := { T with fits := fun _ => true }

/-- The limit shows in refusals only. -/
theorem exec_ample (T : Table R O X I) (q : Req K R O I) (σ : Store K R) :
    exec T .fair q σ = exec T.ample .fair q σ ∨ errorOf q (exec T .fair q σ).1 = some .recordTooBig := by
  have hleave : ∀ {ρ : Type} {key : K} {r : R} {x : ρ} {f f' : Option R → Except Err (ρ × Option R)},
      f (σ.get key) = T.leave r x → f' (σ.get key) = T.ample.leave r x →
      change key f σ = change key f' σ ∨ failure (change key f σ).1 = some .recordTooBig :=
    fun {ρ key r x f f'} hf hf' => by
      have hroom : f' (σ.get key) = .ok (x, some r) := hf'
      unfold Table.leave at hf
      split_ifs at hf
      · exact .inl (by rw [change_of_ok hf, change_of_ok hroom])
      · exact .inr (by rw [change_of_error hf]; rfl)
  have hsame : ∀ {ρ : Type} {key : K} {f f' : Option R → Except Err (ρ × Option R)},
      f (σ.get key) = f' (σ.get key) → change key f σ = change key f' σ := fun heq => by
    rw [change, change, heq]
  cases q with
  | create key bins =>
    cases hr : σ.get key with
    | some r => exact .inl (hsame (by rw [hr]; rfl))
    | none => exact hleave (r := bins) (x := ()) (by rw [hr]; rfl) (by rw [hr]; rfl)
  | put key bins =>
    show change key (T.onPut bins) σ = change key (T.ample.onPut bins) σ ∨
      failure (change key (T.onPut bins) σ).1 = some .recordTooBig
    exact hleave rfl rfl
  | operate key op =>
    cases hr : σ.get key with
    | some r => exact hleave (r := (T.apply op r).1) (x := (T.apply op r).2) (by rw [hr]; rfl) (by rw [hr]; rfl)
    | none =>
      by_cases hc : T.creates op
      · exact hleave (r := (T.apply op T.blank).1) (x := (T.apply op T.blank).2)
          (by rw [hr]; exact if_pos hc) (by rw [hr]; exact if_pos hc)
      · exact .inl (hsame (by rw [hr]; exact (if_neg hc).trans (if_neg hc).symm))
  | get key => exact .inl rfl
  | remove key => exact .inl rfl
  | batchRead keys => exact .inl rfl
  | query value => exact .inl rfl

end Exec

end AdkAerospike.Server
