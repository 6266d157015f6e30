import AdkAerospike.Sessions.Alone.Read
import AdkAerospike.Sessions.Footprint

/-! `get_session` when its batch reports a status for each of the three records it
reads. A record that was not read looks like one that is not there, so the session,
its app state or its user state may be missing from what is returned. -/

namespace AdkAerospike.Sessions

open Program Data Codec Keys

variable {V P : Type}

/-! ### Session objects -/

/-- The same session object; states count by their lookups. -/
structure Session.Same (s s' : Session V) : Prop where
  addr : s.addr = s'.addr
  state : ∀ k, s.state.get k = s'.state.get k
  events : s.events = s'.events
  lastUpdateTime : s.lastUpdateTime = s'.lastUpdateTime

/-- A read raised, or it returned what the other read returned. -/
def RaisedOrSame (out other : Except Err (Option (Session V))) : Prop :=
  (∃ e, out = .error e) ∨ ∃ s s', out = .ok s ∧ other = .ok s' ∧ Option.Rel Session.Same s s'

theorem raisedOrSame_ok {s s' : Option (Session V)} :
    RaisedOrSame (.ok s) (.ok s') ↔ Option.Rel Session.Same s s' := by
  constructor
  · rintro (⟨e, he⟩ | ⟨t, t', ht, ht', hsame⟩)
    · cases he
    · cases ht
      cases ht'
      exact hsame
  · exact fun hsame => .inr ⟨s, s', rfl, rfl, hsame⟩

/-! ### Merging without a part -/

/-- Every key of the map, under its scope, is a key of the session's own state, which
goes before it in the merged state. -/
def Shadowed (scope : Str) (d s : Dict V) : Prop := ∀ k, s.get (scope ++ k) = none → d.get k = none

theorem mergeState_same_iff (a a' u u' s : Dict V) :
    (∀ k, (mergeState a' u' s).get k = (mergeState a u s).get k) ↔
      (∀ k, s.get (StateScope.app ++ k) = none → a'.get k = a.get k) ∧
        ∀ k, s.get (StateScope.user ++ k) = none → u'.get k = u.get k := by
  have hshown : ∀ (a u : Dict V) k, s.get (StateScope.app ++ k) = none →
      (mergeState a u s).get (StateScope.app ++ k) = a.get k := fun a u k hk => by
    have huser : StateScope.user.isPrefixOf (StateScope.app ++ k) = false := rfl
    have happ : StateScope.app.isPrefixOf (StateScope.app ++ k) = true :=
      List.isPrefixOf_iff_prefix.mpr (List.prefix_append _ _)
    rw [get_mergeState, hk, huser, happ, List.drop_left]
    rfl
  have hshown' : ∀ (a u : Dict V) k, s.get (StateScope.user ++ k) = none →
      (mergeState a u s).get (StateScope.user ++ k) = u.get k := fun a u k hk => by
    have huser : StateScope.user.isPrefixOf (StateScope.user ++ k) = true :=
      List.isPrefixOf_iff_prefix.mpr (List.prefix_append _ _)
    rw [get_mergeState, hk, huser, List.drop_left]
    rfl
  constructor
  · intro h
    refine ⟨fun k hk => ?_, fun k hk => ?_⟩
    · rw [← hshown a' u' k hk, h, hshown a u k hk]
    · rw [← hshown' a' u' k hk, h, hshown' a u k hk]
  · rintro ⟨happ, huser⟩ k
    rw [get_mergeState, get_mergeState]
    cases hk : s.get k with
    | some v => rfl
    | none =>
      split_ifs with hu ha
      · obtain ⟨t, rfl⟩ := List.isPrefixOf_iff_prefix.mp hu
        rw [List.drop_left, huser t hk]
      · obtain ⟨t, rfl⟩ := List.isPrefixOf_iff_prefix.mp ha
        rw [List.drop_left, happ t hk]
      · rfl

/-! ### Reading under faults -/

/-- A record as the batch shows it under a fault of its read. -/
def shownUnder (f : Fault) (r : Option (Record V P)) : Option (Record V P) :=
  match f.error with
  | none => r
  | some _ => none

theorem foldStatus_readStatus_under (f : Fault) (r : Option (Record V P)) :
    foldStatus (ServerConfig.readStatus f r) = shownUnder f r := by
  unfold foldStatus ServerConfig.readStatus shownUnder
  cases r with
  | none => cases f.error <;> rfl
  | some r =>
    cases f with
    | none => rfl
    | overload => rfl
    | errorRate => rfl
    | timeout b => rfl
    | other c => exact if_neg c.2

/-- A map that was not read is missing no key that shows, exactly if all its keys are
shadowed. -/
theorem stateOf_shownUnder_iff (f : Fault) (r : Option (Record V P)) (scope : Str) (s : Dict V) :
    (∀ k, s.get (scope ++ k) = none → (stateOf (shownUnder f r)).get k = (stateOf r).get k) ↔
      f.error = none ∨ Shadowed scope (stateOf r) s := by
  unfold shownUnder
  cases f.error with
  | none => simp
  | some e =>
    simp only [reduceCtorEq, false_or]
    exact forall₂_congr fun k _ => ⟨fun h => h.symm, fun h => h.symm⟩

section Reading
variable {env : Env V P} {cfg : ServerConfig V P} {inst : ℕ} {a : Addr}

/-- The segments are read without a batch, whatever they hold. -/
theorem alone_readSegmentEntries_ok (g : ℕ) (wantLastN : Option ℕ) (afterTs : Option ℚ) (w : World V P) :
    ∃ l, alone cfg inst (readSegmentEntries env a g wantLastN afterTs) w = (.ok l, w) := by
  have hop : alone cfg inst (operate (a.segmentPk g) [readOp env wantLastN afterTs]) w = _ :=
    alone_operate _ _ none w
  unfold readSegmentEntries
  simp only [Prog.bind_eq, Prog.pure_eq]
  rcases hr : w.store.get (a.segmentPk g) with _ | r
  · rw [ServerConfig.operate_of_missing hr (by simp)] at hop
    exact ⟨[], alone_catching_caught (alone_bind_error hop)⟩
  · rw [ServerConfig.operate_of_reads hr (by simp)] at hop
    exact ⟨_, alone_catching_ok (alone_bind_ok hop)⟩

theorem alone_loadEvents_ok (env : Env V P) (cfg : ServerConfig V P) (inst : ℕ) (a : Addr) (cur : ℕ)
    (config : GetSessionConfig) (w : World V P) :
    ∃ l, alone cfg inst (loadEvents env a cur config) w = (.ok l, w) := by
  have hloop : ∀ N T n c, ∃ l, alone cfg inst (loadLoop env a N T n c) w = (.ok l, w) := fun N T n => by
    induction n with
    | zero => exact fun c => ⟨c, rfl⟩
    | succ g ih =>
      intro c
      obtain ⟨entries, hread⟩ := @alone_readSegmentEntries_ok V P env cfg inst a g (N.map (· - c.length)) T w
      rw [loadLoop]
      simp only [Prog.bind_eq]
      rw [alone_bind_ok hread]
      split_ifs
      · exact ⟨_, rfl⟩
      · exact ⟨_, rfl⟩
      · exact ih _
  unfold loadEvents
  split_ifs
  · exact ⟨[], rfl⟩
  · obtain ⟨l, hl⟩ := hloop config.numRecentEvents config.afterTimestamp (cur + 1) []
    simp only [Prog.bind_eq, Prog.pure_eq]
    exact ⟨_, alone_bind_ok hl⟩

/-- What a batch of the three records makes known under faults. -/
theorem run_batchRead_records (faults : ℕ → Fault) (w : World V P) :
    ∃ out, (batchRead [a.sessionPk, appPk a.app, userPk a.app a.user]).run
        (exec cfg inst ⟨.none, faults⟩) w = (.ok out, w) ∧
      bins out a.sessionPk = shownUnder (faults 0) (row a w) ∧
      bins out (appPk a.app) = shownUnder (faults 1) (w.store.get (appPk a.app)) ∧
      bins out (userPk a.app a.user) = shownUnder (faults 2) (w.store.get (userPk a.app a.user)) := by
  refine ⟨_, rfl, ?_, ?_, ?_⟩
  · refine (bins_byKey_last (i := 0) rfl rfl rfl fun j hj => ?_).trans (foldStatus_readStatus_under _ _)
    match j with
    | 1 => simp [appPk, Addr.sessionPk]
    | 2 => simp [userPk, Addr.sessionPk]
    | j + 3 => simp
  · refine (bins_byKey_last (i := 1) rfl rfl rfl fun j hj => ?_).trans (foldStatus_readStatus_under _ _)
    match j with
    | 2 => simp [userPk, appPk]
    | j + 3 => simp
  · refine (bins_byKey_last (i := 2) rfl rfl rfl fun j hj => ?_).trans (foldStatus_readStatus_under _ _)
    match j with
    | j + 3 => simp

/-- `get_session` under faults of the three records: the events are those of the row,
if that is read, whatever becomes of the other two. -/
theorem run_getSession_under (env : Env V P) (cfg : ServerConfig V P) (inst : ℕ) (a : Addr)
    (config : GetSessionConfig) (w : World V P) :
    ∃ events : ℕ → List (Str × Event V), ∀ faults,
      ((getSession env a config).run (exec cfg inst ⟨.none, faults⟩) w).1 =
        .ok ((shownUnder (faults 0) (row a w)).map fun r =>
          ⟨a, mergeState (stateOf (shownUnder (faults 1) (w.store.get (appPk a.app))))
              (stateOf (shownUnder (faults 2) (w.store.get (userPk a.app a.user)))) (stateOf (some r)),
            events (r.cur.getD 0), lastUpdate (r.ts.getD 0) (events (r.cur.getD 0))⟩) := by
  choose events hevents using fun cur =>
    alone_loadEvents_ok env cfg inst a cur config (w.setCache inst a.pkStr (some cur))
  refine ⟨events, fun faults => ?_⟩
  obtain ⟨out, hout, hrow, happ, huser⟩ := @run_batchRead_records V P cfg inst a faults w
  unfold getSession
  simp only [Prog.bind_eq, Prog.pure_eq]
  rw [Prog.run_bind_ok _ hout, hrow, happ, huser]
  cases shownUnder (faults 0) (row a w) with
  | none => rfl
  | some r =>
    -- the segments are read one by one, so faults of a batch do not concern them
    have hcalm : (loadEvents env a (r.cur.getD 0) config).run (exec cfg inst ⟨.none, faults⟩)
        (w.setCache inst a.pkStr (some (r.cur.getD 0))) = _ :=
      ((uses_loadEvents env a _ config).run_congr (by rintro q w ⟨g, N, T, rfl⟩; rfl) _).trans
        (hevents (r.cur.getD 0))
    have hcache : (cacheSet a.pkStr (r.cur.getD 0) : Service V P Unit).run (exec cfg inst ⟨.none, faults⟩) w =
        (.ok (), w.setCache inst a.pkStr (some (r.cur.getD 0))) := rfl
    dsimp only
    rw [Prog.run_bind_ok _ hcache, Prog.run_bind_ok _ hcalm]
    rfl

/-- `get_session` raises or returns what it returns when every record is read, exactly
if the row is read, should there be one, and then the app and the user record as well,
unless the session's own state shadows all they hold. -/
theorem read_faults_told_iff (env : Env V P) (cfg : ServerConfig V P) (inst : ℕ) (a : Addr)
    (config : GetSessionConfig) (w : World V P) (faults : ℕ → Fault) :
    RaisedOrSame ((getSession env a config).run (exec cfg inst ⟨.none, faults⟩) w).1
        ((getSession env a config).run (exec cfg inst .calm) w).1 ↔
      ∀ r, row a w = some r → (faults 0).error = none ∧
        ((faults 1).error = none ∨
          Shadowed StateScope.app (stateOf (w.store.get (appPk a.app))) (stateOf (some r))) ∧
        ((faults 2).error = none ∨
          Shadowed StateScope.user (stateOf (w.store.get (userPk a.app a.user))) (stateOf (some r))) := by
  obtain ⟨events, hrun⟩ := run_getSession_under env cfg inst a config w
  have hcalm := hrun fun _ => .none
  rw [hrun faults, Weather.calm, hcalm]
  rw [raisedOrSame_ok]
  have hkept : ∀ r : Option (Record V P), shownUnder (.none) r = r := fun _ => rfl
  simp only [hkept]
  rcases hrow : row a w with _ | r
  · have hnone : shownUnder (faults 0) (none : Option (Record V P)) = none := by
      unfold shownUnder
      split <;> rfl
    simp only [hnone, Option.map_none, reduceCtorEq, false_implies, implies_true, iff_true]
    exact .none
  · simp only [Option.some.injEq, forall_eq', ← stateOf_shownUnder_iff]
    rw [← mergeState_same_iff]
    cases hf : (faults 0).error with
    | some e =>
      have hlost : shownUnder (faults 0) (some r) = none := by rw [shownUnder, hf]
      simp only [hlost, Option.map_none, Option.map_some, reduceCtorEq, false_and, iff_false]
      rintro ⟨⟩
    | none =>
      have hread : shownUnder (faults 0) (some r) = some r := by rw [shownUnder, hf]
      simp only [hread, Option.map_some, true_and]
      constructor
      · rintro ⟨hsame⟩
        exact hsame.state
      · exact fun hstate => .some ⟨rfl, hstate, rfl, rfl⟩

end Reading

namespace Small

/-- One session, created with a key of the app's state. -/
def shared : World ℕ (Event ℕ) :=
  after env cfg ⟨0, .create ['a'] ['u'] (AList.singleton "app:k".toList 1) (some ['s']) [] 1⟩ .empty

/-- The read of one of the three records times out. -/
def timeoutAt (i : ℕ) (j : ℕ) : Fault := if j = i then .timeout false else .none

/-- What `get_session` tells under such a timeout. -/
def readShared (i : ℕ) : Except Err (Option (Session ℕ)) :=
  ((getSession env ⟨['a'], ['u'], ['s']⟩ {}).run (exec cfg 0 ⟨.none, timeoutAt i⟩) shared).1

end Small

open Sessions.Small in
/-- A session whose row exists is reported as absent, and a stored app key is left out. -/
theorem unread_records_look_absent :
    (row ⟨['a'], ['u'], ['s']⟩ shared).isSome ∧
    (∃ s, ((getSession env ⟨['a'], ['u'], ['s']⟩ {}).run (exec cfg 0 .calm) shared).1 = .ok (some s) ∧
      s.state.get "app:k".toList = some 1) ∧
    readShared 0 = .ok none ∧
    (∃ s, readShared 1 = .ok (some s) ∧ s.state.get "app:k".toList = none) ∧
    ¬ RaisedOrSame (readShared 0) ((getSession env ⟨['a'], ['u'], ['s']⟩ {}).run (exec cfg 0 .calm) shared).1 ∧
    ¬ RaisedOrSame (readShared 1) ((getSession env ⟨['a'], ['u'], ['s']⟩ {}).run (exec cfg 0 .calm) shared).1 := by
  have hstored : ∃ s, ((getSession env ⟨['a'], ['u'], ['s']⟩ {}).run (exec cfg 0 .calm) shared).1 = .ok (some s) ∧
      s.state.get "app:k".toList = some 1 := ⟨_, rfl, by decide +kernel⟩
  have hrow : readShared 0 = .ok none := rfl
  have happ : ∃ s, readShared 1 = .ok (some s) ∧ s.state.get "app:k".toList = none :=
    ⟨_, rfl, by decide +kernel⟩
  refine ⟨by decide +kernel, hstored, hrow, happ, ?_, ?_⟩
  · obtain ⟨s, hs, -⟩ := hstored
    rw [hrow, hs, raisedOrSame_ok]
    exact nofun
  · obtain ⟨s, hs, hkey⟩ := hstored
    obtain ⟨s', hs', hkey'⟩ := happ
    rw [hs', hs, raisedOrSame_ok]
    rintro ⟨hsame⟩
    have := hsame.state "app:k".toList
    rw [hkey, hkey'] at this
    cases this

end AdkAerospike.Sessions
