import AdkAerospike.Codec

/-! The scopes of session state (`_merge_state` and `_partition_state` of
`sessions/service.py`): which of three maps a key of a delta goes to, and what
the merged map shows under each key. -/

namespace AdkAerospike.Sessions

open Data Codec

variable {V : Type}

namespace StateScope

def app : Str := ['a', 'p', 'p', ':']

def user : Str := ['u', 's', 'e', 'r', ':']

def temp : Str := ['t', 'e', 'm', 'p', ':']

end StateScope

/-- The three maps a delta is split into. -/
structure Deltas (V : Type) where
  session : Dict V
  app : Dict V
  user : Dict V

def partitionStep (d : Deltas V) (k : Str) (v : V) : Deltas V :=
  if StateScope.temp.isPrefixOf k then d
  else if StateScope.app.isPrefixOf k then
    { d with app := d.app.insert (k.drop StateScope.app.length) v }
  else if StateScope.user.isPrefixOf k then
    { d with user := d.user.insert (k.drop StateScope.user.length) v }
  else { d with session := d.session.insert k v }

def partitionState (state : Dict V) : Deltas V := state.foldl partitionStep ⟨∅, ∅, ∅⟩

/-- `for k, v in d.items(): merged[f"{scope}{k}"] = v`. -/
def putScoped (scope : Str) (merged d : Dict V) : Dict V :=
  d.foldl (fun m k v => m.insert (scope ++ k) v) merged

def mergeState (appState userState sessionState : Dict V) : Dict V :=
  FMap.update (putScoped StateScope.user (putScoped StateScope.app ∅ appState) userState) sessionState

/-! ### Lookups -/

theorem get_putScoped (scope : Str) (merged d : Dict V) (k : Str) :
    (putScoped scope merged d).get k =
      if scope.isPrefixOf k then (d.get (k.drop scope.length)).or (merged.get k)
      else merged.get k := by
  obtain ⟨es, hes, hfind, hfold⟩ := d.foldl_entries (fun m k v => m.insert (scope ++ k) v) merged
  rw [putScoped, hfold, ← hfind]
  clear hfind hfold
  -- the entries are put one by one; keys of one dict are distinct, so their order is immaterial
  induction es generalizing merged with
  | nil => simp
  | cons e es ih =>
    obtain ⟨j, v⟩ := e
    rw [List.nodupKeys_cons] at hes
    rw [List.foldl_cons, ih _ hes.2]
    by_cases hp : scope.isPrefixOf k
    · obtain ⟨t, rfl⟩ := List.isPrefixOf_iff_prefix.mp hp
      simp only [hp, if_true, List.drop_left]
      by_cases ht : t = j
      · subst ht
        rw [FMap.find_cons_self, FMap.get_insert_self, FMap.find_eq_none hes.1, Option.none_or,
          Option.some_or]
      · rw [FMap.find_cons_of_ne ht, FMap.get_insert_of_ne _ _ (by simpa using ht)]
    · have hne : k ≠ scope ++ j := by
        rintro rfl
        exact hp (List.isPrefixOf_iff_prefix.mpr (List.prefix_append _ _))
      simp only [hp, if_false, Bool.false_eq_true]
      rw [FMap.get_insert_of_ne _ _ hne]

/-- The merged map shows session keys bare and the shared maps under their prefixes. -/
theorem get_mergeState (a u s : Dict V) (k : Str) :
    (mergeState a u s).get k = (s.get k).or
      (if StateScope.user.isPrefixOf k then u.get (k.drop StateScope.user.length)
        else if StateScope.app.isPrefixOf k then a.get (k.drop StateScope.app.length)
        else none) := by
  rw [mergeState, FMap.get_update, get_putScoped, get_putScoped]
  by_cases hu : StateScope.user.isPrefixOf k
  · have ha : StateScope.app.isPrefixOf k = false := by
      obtain ⟨t, rfl⟩ := List.isPrefixOf_iff_prefix.mp hu
      rfl
    simp [hu, ha]
  · simp [hu]

/-- Where a delta's key goes. -/
inductive Scope where
  | session | app | user | temp
  deriving DecidableEq

def scopeOf (k : Str) : Scope :=
  if StateScope.temp.isPrefixOf k then .temp
  else if StateScope.app.isPrefixOf k then .app
  else if StateScope.user.isPrefixOf k then .user
  else .session

theorem scopeOf_app (k : Str) : scopeOf (StateScope.app ++ k) = .app := rfl

theorem scopeOf_user (k : Str) : scopeOf (StateScope.user ++ k) = .user := rfl

theorem scopeOf_eq_app {k : Str} (h : scopeOf k = .app) : ∃ t, k = StateScope.app ++ t := by
  unfold scopeOf at h
  split_ifs at h with h₁ h₂ h₃
  obtain ⟨t, rfl⟩ := List.isPrefixOf_iff_prefix.mp h₂
  exact ⟨t, rfl⟩

theorem scopeOf_eq_user {k : Str} (h : scopeOf k = .user) : ∃ t, k = StateScope.user ++ t := by
  unfold scopeOf at h
  split_ifs at h with h₁ h₂ h₃
  obtain ⟨t, rfl⟩ := List.isPrefixOf_iff_prefix.mp h₃
  exact ⟨t, rfl⟩

theorem scopeOf_eq_temp {k : Str} (h : scopeOf k = .temp) : ∃ t, k = StateScope.temp ++ t := by
  unfold scopeOf at h
  split_ifs at h with h₁ h₂ h₃
  obtain ⟨t, rfl⟩ := List.isPrefixOf_iff_prefix.mp h₁
  exact ⟨t, rfl⟩

theorem partitionStep_eq (d : Deltas V) (k : Str) (v : V) :
    partitionStep d k v = match scopeOf k with
      | .temp => d
      | .app => { d with app := d.app.insert (k.drop StateScope.app.length) v }
      | .user => { d with user := d.user.insert (k.drop StateScope.user.length) v }
      | .session => { d with session := d.session.insert k v } := by
  unfold partitionStep scopeOf
  split_ifs <;> rfl

/-- One lemma for the three parts of a split delta: `part` is the map that scope
`sc` collects, in which the key `k` of the delta shows as `k'`. -/
theorem get_partition_aux (sc : Scope) (part : Deltas V → Dict V) (k k' : Str)
    (hself : ∀ d v, scopeOf k = sc → (part (partitionStep d k v)).get k' = some v)
    (hother : ∀ d v j, (scopeOf k = sc → j ≠ k) →
      (part (partitionStep d j v)).get k' = (part d).get k')
    (hnil : (part ⟨∅, ∅, ∅⟩).get k' = none) (state : Dict V) :
    (part (partitionState state)).get k' = if scopeOf k = sc then state.get k else none := by
  obtain ⟨es, hes, hfind, hfold⟩ := state.foldl_entries partitionStep ⟨∅, ∅, ∅⟩
  rw [partitionState, hfold, ← hfind]
  clear hfind hfold
  suffices ∀ d, (part (es.foldl (fun y e => partitionStep y e.1 e.2) d)).get k' =
      if scopeOf k = sc then (FMap.find es k).or ((part d).get k') else (part d).get k' by
    simpa [hnil] using this ⟨∅, ∅, ∅⟩
  induction es with
  | nil => simp
  | cons e es ih =>
    obtain ⟨j, v⟩ := e
    intro d
    rw [List.nodupKeys_cons] at hes
    rw [List.foldl_cons, ih hes.2]
    by_cases hsc : scopeOf k = sc
    · simp only [hsc, if_true]
      by_cases hj : k = j
      · subst hj
        rw [FMap.find_eq_none hes.1, FMap.find_cons_self, Option.none_or, Option.some_or]
        exact hself d v hsc
      · rw [FMap.find_cons_of_ne hj, hother d v j fun _ => Ne.symm hj]
    · simp only [hsc, if_false]
      exact hother d v j fun h => absurd h hsc

theorem get_partition_session (state : Dict V) (k : Str) :
    (partitionState state).session.get k =
      if scopeOf k = .session then state.get k else none := by
  refine get_partition_aux .session (·.session) k k (fun d v hk => ?_) (fun d v j hj => ?_) rfl state
  · rw [partitionStep_eq, hk]
    exact FMap.get_insert_self _ _ _
  · rw [partitionStep_eq]
    split
    all_goals try rfl
    next hs =>
      refine FMap.get_insert_of_ne _ _ ?_
      rintro rfl
      exact hj hs rfl

/-- The part of a scope with a prefix holds the scope's keys without it. -/
theorem get_partition_prefixed {sc : Scope} {pre : Str} (part : Deltas V → Dict V)
    (hstep : ∀ d k v, part (partitionStep d k v) =
      if scopeOf k = sc then (part d).insert (k.drop pre.length) v else part d)
    (hpre : ∀ k, scopeOf (pre ++ k) = sc) (hof : ∀ k, scopeOf k = sc → ∃ t, k = pre ++ t)
    (hnil : part ⟨∅, ∅, ∅⟩ = ∅) (state : Dict V) (k : Str) :
    (part (partitionState state)).get k = state.get (pre ++ k) := by
  have h := get_partition_aux sc part (pre ++ k) k (fun d v hk => ?_) (fun d v j hj => ?_)
    (by rw [hnil, FMap.get_empty]) state
  · rw [h, if_pos (hpre k)]
  · rw [hstep, if_pos hk, List.drop_left]
    exact FMap.get_insert_self _ _ _
  · rw [hstep]
    split_ifs with hs
    · obtain ⟨t, rfl⟩ := hof j hs
      refine FMap.get_insert_of_ne _ _ ?_
      rintro rfl
      exact hj (hpre _) (by rw [List.drop_left])
    · rfl

theorem get_partition_app (state : Dict V) (k : Str) :
    (partitionState state).app.get k = state.get (StateScope.app ++ k) :=
  get_partition_prefixed (·.app) (fun d k v => by rw [partitionStep_eq]; cases scopeOf k <;> rfl) scopeOf_app
    (fun _ => scopeOf_eq_app) rfl state k

theorem get_partition_user (state : Dict V) (k : Str) :
    (partitionState state).user.get k = state.get (StateScope.user ++ k) :=
  get_partition_prefixed (·.user) (fun d k v => by rw [partitionStep_eq]; cases scopeOf k <;> rfl) scopeOf_user
    (fun _ => scopeOf_eq_user) rfl state k

/-! ### Deltas, scope by scope -/

/-- No key has a prefix that stands for a scope. -/
def Unprefixed (d : Dict V) : Prop :=
  ∀ k, d.get k ≠ none → ¬ StateScope.app <+: k ∧ ¬ StateScope.user <+: k ∧ ¬ StateScope.temp <+: k

/-- A delta without its `temp:` keys. -/
def withoutTemp (delta : Dict V) : Dict V := FMap.restrict (fun k => !StateScope.temp.isPrefixOf k) delta

theorem scopeOf_eq_session_iff {k : Str} :
    scopeOf k = .session ↔ ¬ StateScope.app <+: k ∧ ¬ StateScope.user <+: k ∧ ¬ StateScope.temp <+: k := by
  simp only [← List.isPrefixOf_iff_prefix]
  unfold scopeOf
  split_ifs <;> simp_all

theorem get_withoutTemp (delta : Dict V) (k : Str) :
    (withoutTemp delta).get k = if scopeOf k = .temp then none else delta.get k := by
  rw [withoutTemp, FMap.get_restrict]
  by_cases ht : StateScope.temp.isPrefixOf k
  · simp [scopeOf, ht]
  · have hscope : scopeOf k ≠ .temp := by
      unfold scopeOf
      split_ifs <;> simp
    simp [hscope, ht]

theorem Unprefixed.get_eq_none {s : Dict V} (hs : Unprefixed s) {k : Str} (hk : scopeOf k ≠ .session) : s.get k = none := by
  by_contra h
  exact hk (scopeOf_eq_session_iff.mpr (hs k h))

/-- Every key of the merged map comes from the map of its scope. -/
theorem get_mergeState_of_unprefixed (a u : Dict V) {s : Dict V} (hs : Unprefixed s) (k : Str) :
    (mergeState a u s).get k = match scopeOf k with
      | .temp => none
      | .app => a.get (k.drop StateScope.app.length)
      | .user => u.get (k.drop StateScope.user.length)
      | .session => s.get k := by
  rw [get_mergeState]
  cases hk : scopeOf k with
  | session =>
    obtain ⟨happ, huser, -⟩ := scopeOf_eq_session_iff.mp hk
    rw [← List.isPrefixOf_iff_prefix] at happ huser
    simp [happ, huser]
  | app =>
    obtain ⟨t, rfl⟩ := scopeOf_eq_app hk
    rw [hs.get_eq_none (by simp [hk])]
    rfl
  | user =>
    obtain ⟨t, rfl⟩ := scopeOf_eq_user hk
    rw [hs.get_eq_none (by simp [hk])]
    rfl
  | temp =>
    obtain ⟨t, rfl⟩ := scopeOf_eq_temp hk
    rw [hs.get_eq_none (by simp [hk])]
    rfl

theorem unprefixed_partition (delta : Dict V) : Unprefixed (partitionState delta).session := by
  intro k hk
  rw [get_partition_session] at hk
  split_ifs at hk with hscope
  · exact scopeOf_eq_session_iff.mp hscope
  · exact absurd rfl hk

theorem Unprefixed.update {s d : Dict V} (hs : Unprefixed s) (hd : Unprefixed d) : Unprefixed (FMap.update s d) := by
  intro k hk
  rw [FMap.get_update] at hk
  cases hget : d.get k with
  | some v => exact hd k (by simp [hget])
  | none =>
    rw [hget, Option.none_or] at hk
    exact hs k hk

/-- What is split and merged again is as it was. -/
theorem get_mergeState_partition (delta : Dict V) (k : Str) :
    (mergeState (partitionState delta).app (partitionState delta).user (partitionState delta).session).get k =
      (withoutTemp delta).get k := by
  rw [get_mergeState_of_unprefixed _ _ (unprefixed_partition delta), get_withoutTemp]
  cases hk : scopeOf k with
  | session => simp [get_partition_session, hk]
  | app =>
    obtain ⟨t, rfl⟩ := scopeOf_eq_app hk
    simp [get_partition_app]
  | user =>
    obtain ⟨t, rfl⟩ := scopeOf_eq_user hk
    simp [get_partition_user]
  | temp => simp

/-- A delta that is applied to each of the three maps shows in the merged map as if it
had been applied there. -/
theorem merge_of_scopes (a u s delta : Dict V) (hs : Unprefixed s) :
    let d := partitionState delta
    (∀ k, (mergeState (FMap.update a d.app) (FMap.update u d.user) (FMap.update s d.session)).get k =
        (FMap.update (mergeState a u s) (withoutTemp delta)).get k) ∧
      (∀ k, (mergeState d.app d.user d.session).get k = (withoutTemp delta).get k) ∧
      Unprefixed (FMap.update s d.session) := by
  intro d
  have hupdate : Unprefixed (FMap.update s d.session) := hs.update (unprefixed_partition delta)
  refine ⟨fun k => ?_, get_mergeState_partition delta, hupdate⟩
  have hdelta : (mergeState d.app d.user d.session).get k = (withoutTemp delta).get k := get_mergeState_partition delta k
  rw [FMap.get_update, ← hdelta, get_mergeState_of_unprefixed _ _ hupdate, get_mergeState_of_unprefixed _ _ hs,
    get_mergeState_of_unprefixed _ _ (unprefixed_partition delta)]
  cases scopeOf k <;> simp [d, FMap.get_update]

/-- Prefixes that are nested or bare. -/
theorem merge_of_scopes_nested :
    let s : Dict ℕ := FMap.set ∅ ['k'] (some 1)
    let delta : Dict ℕ := FMap.set (FMap.set (FMap.set ∅ "app:".toList (some 2)) "app:user:x".toList (some 3))
      "user:temp:y".toList (some 4)
    let d := partitionState delta
    (∀ k, (mergeState (FMap.update s d.app) (FMap.update s d.user) (FMap.update s d.session)).get k =
        (FMap.update (mergeState s s s) (withoutTemp delta)).get k) ∧
      (∀ k, (mergeState d.app d.user d.session).get k = (withoutTemp delta).get k) ∧
      Unprefixed (FMap.update s d.session) := by
  intro s delta
  refine merge_of_scopes s s s delta fun k hk => ?_
  rw [FMap.get_set] at hk
  split_ifs at hk with hkey
  · subst hkey
    decide
  · exact absurd rfl hk

end AdkAerospike.Sessions
