import AdkAerospike.Sessions.Alone.Basic
import AdkAerospike.Sessions.Footprint

/-! Calls of one user and what another user reads. Every record that a call of a
user writes carries the user's id in its key, apart from the app's shared state; two
users' keys differ when their ids hold no separator, for then the joined key tells
where the id ends. A read asks for the records of its own user and for the app's
state, so it notices nothing but the latter. -/

namespace AdkAerospike.Sessions

open Program Data Codec Keys

variable {V P : Type}

/-! ### Whose keys a call writes -/

/-- The call creates, appends to or deletes a session of the user. -/
def Call.madeFor (app user : Str) : Call V → Prop
  | .create app' user' _ _ _ _ => app' = app ∧ user' = user
  | .append a _ _ => a.app = app ∧ a.user = user
  | .delete a => a.app = app ∧ a.user = user
  | _ => False

/-- The keys that calls for a user write to: the app's state, the user's state, and
everything that is laid out like a session of the user. -/
inductive KeyFor (app user : Str) : Key → Prop
  | app : KeyFor app user (appPk app)
  | user : KeyFor app user (userPk app user)
  | session (id : Str) : KeyFor app user ⟨.sessions, sessionKey app user id⟩

/-- The records that calls on a session write to. -/
inductive RecordOf (a : Addr) : Key → Prop
  | row : RecordOf a a.sessionPk
  | segment (g : ℕ) : RecordOf a (a.segmentPk g)
  | manifest : RecordOf a (manifestPk a.app a.user)
  | app : RecordOf a (appPk a.app)
  | user : RecordOf a (userPk a.app a.user)

/-- The request writes under keys of the user only. -/
def WritesFor (app user : Str) (q : Req V P) : Prop := ∀ key ∈ q.keys, KeyFor app user key

section Writes
variable {a : Addr} {k : Str} {v : InlineEvent V P} {q : Req V P} {key : Key}

theorem RecordOf.keyFor (h : RecordOf a key) : KeyFor a.app a.user key := by
  cases h with
  | row => exact .session a.id
  | segment g => exact .session _
  | manifest => exact .session _
  | app => exact .app
  | user => exact .user

theorem AppendRequest.recordOf (h : AppendRequest a k v q) (hkey : key ∈ q.keys) : RecordOf a key := by
  cases h with
  | put g =>
    rw [List.mem_singleton.mp hkey]
    exact .segment g
  | size g =>
    rw [List.mem_singleton.mp hkey]
    exact .segment g
  | bump n =>
    rw [List.mem_singleton.mp hkey]
    exact .row
  | batch g d now =>
    obtain ⟨x, hx, rfl⟩ := List.mem_map.mp hkey
    rcases List.mem_cons.mp hx with rfl | hx
    · exact .segment g
    · rcases mem_stateWrites.mp hx with ⟨-, rfl⟩ | ⟨-, rfl⟩ | ⟨-, rfl⟩
      · exact .row
      · exact .app
      · exact .user
  | selectCur => cases hkey
  | cacheGet => cases hkey
  | cacheSet n => cases hkey

theorem CreateRequest.recordOf (h : CreateRequest a q) (hkey : key ∈ q.keys) : RecordOf a key := by
  cases h with
  | row d now =>
    rw [List.mem_singleton.mp hkey]
    exact .row
  | cacheSet => cases hkey
  | follow h =>
    cases h with
    | app d =>
      rw [List.mem_singleton.mp hkey]
      exact .app
    | user d =>
      rw [List.mem_singleton.mp hkey]
      exact .user
    | manifest =>
      rw [List.mem_singleton.mp hkey]
      exact .manifest
    | read keys => cases hkey

theorem DeleteRequest.recordOf (h : DeleteRequest a q) (hkey : key ∈ q.keys) : RecordOf a key := by
  cases h with
  | get => cases hkey
  | segment g =>
    rw [List.mem_singleton.mp hkey]
    exact .segment g
  | row =>
    rw [List.mem_singleton.mp hkey]
    exact .row
  | cachePop => cases hkey
  | manifest =>
    rw [List.mem_singleton.mp hkey]
    exact .manifest

/-- A call for a user writes under the user's keys only, whatever it is answered. -/
theorem Call.madeFor.uses (env : Env V P) {app user : Str} {c : Call V} (hc : c.madeFor app user) :
    (c.body env).Uses (WritesFor app user) := by
  cases c with
  | create app' user' state sessionId fresh now =>
    obtain ⟨rfl, rfl⟩ := hc
    exact ((uses_createSession _ _ state sessionId fresh now).mono fun _ hq _ hkey => (hq.recordOf hkey).keyFor).bind
      fun _ => trivial
  | append a e clock =>
    obtain ⟨rfl, rfl⟩ := hc
    exact ((uses_persistEvent env a e clock).mono fun _ hq _ hkey => (hq.recordOf hkey).keyFor).bind fun _ => trivial
  | delete a =>
    obtain ⟨rfl, rfl⟩ := hc
    exact ((uses_deleteSession a).mono fun _ hq _ hkey => (hq.recordOf hkey).keyFor).bind fun _ => trivial
  | get a config => cases hc
  | listForUser app' user' => cases hc
  | listForApp app' => cases hc

end Writes

/-! ### What a read notices -/

/-- The worlds agree on the records of one session and its user. -/
structure SameFor (a : Addr) (w w' : World V P) : Prop where
  row : w.store.get a.sessionPk = w'.store.get a.sessionPk
  segs : ∀ g, w.store.get (a.segmentPk g) = w'.store.get (a.segmentPk g)
  user : w.store.get (userPk a.app a.user) = w'.store.get (userPk a.app a.user)

/-- Worlds that agree outside the keys of one user agree on the sessions of another. -/
theorem SameFor.of_keyFor {app u v : Str} (hne : u ≠ v) (hu : Plain u) (hv : Plain v)
    {w w' : World V P} (h : ∀ key, ¬ KeyFor app u key → w.store.get key = w'.store.get key)
    (id : Str) : SameFor ⟨app, v, id⟩ w w' := by
  have hsession : ∀ id', ¬ KeyFor app u ⟨.sessions, sessionKey app v id'⟩ := fun id' hkey => by
    generalize hk : (⟨.sessions, sessionKey app v id'⟩ : Key) = key at hkey
    cases hkey with
    | app => cases hk
    | user => cases hk
    | session id'' => exact hne (sessionKey_user_inj hu hv (congrArg Key.key hk).symm)
  refine ⟨h _ (hsession id), fun g => h _ (hsession _), h _ fun hkey => ?_⟩
  generalize hk : userPk app v = key at hkey
  cases hkey with
  | app => cases hk
  | user =>
    have hkeys : app ++ sep :: v = app ++ sep :: u := congrArg Key.key hk
    exact hne (by simpa using hkeys.symm)
  | session id'' => cases hk

/-- The sessions agree, apart from the app's part of the state. -/
structure Session.AgreesOffApp (s s' : Session V) : Prop where
  addr : s.addr = s'.addr
  events : s.events = s'.events
  lastUpdateTime : s.lastUpdateTime = s'.lastUpdateTime
  state : ∀ k, StateScope.app.isPrefixOf k = false → s.state.get k = s'.state.get k

/-- The outcomes of two reads agree in the same sense: they fail alike, or both find
nothing, or find sessions that agree. -/
def AgreeOffApp : Except Err (Option (Session V)) → Except Err (Option (Session V)) → Prop
  | .ok (some s), .ok (some s') => s.AgreesOffApp s'
  | r, r' => r = r'

section Read
variable {env : Env V P} {cfg : ServerConfig V P} {inst : ℕ} {a : Addr} {w w' : World V P}

theorem SameFor.loadEvents (h : SameFor a w w') (x : Weather) (cur : ℕ) (config : GetSessionConfig) :
    ((loadEvents env a cur config).run (exec cfg inst x) w).1 =
      ((loadEvents env a cur config).run (exec cfg inst x) w').1 := by
  refine ((uses_loadEvents env a cur config).run_alike (R := SameFor a) ?_ h).1
  rintro q w w' ⟨g, N, T, rfl⟩ h
  have hread : ∀ w : World V P, (exec cfg inst x (.operate (a.segmentPk g) [readOp env N T] none) w).2 = w :=
    fun w => exec_readOnly (by simp) (by simp) w
  refine ⟨?_, by rw [hread, hread]; exact h⟩
  have hans : (cfg.operate (a.segmentPk g) [readOp env N T] none w.store).1 =
      (cfg.operate (a.segmentPk g) [readOp env N T] none w'.store).1 := by
    rw [ServerConfig.operate_fst, ServerConfig.operate_fst, h.segs g]
  change (under x.whole _ w.store).1 = (under x.whole _ w'.store).1
  unfold under
  cases x.whole.error with
  | none => exact hans
  | some e => rfl

/-- What `get_session` makes of its batch of three records is the same for all of
them but the app's. -/
theorem SameFor.batchRead (h : SameFor a w w') (cfg : ServerConfig V P) (inst : ℕ) (x : Weather) :
    (∃ e, (batchRead [a.sessionPk, appPk a.app, userPk a.app a.user]).run (exec cfg inst x) w =
          (.error e, w) ∧
        (batchRead [a.sessionPk, appPk a.app, userPk a.app a.user]).run (exec cfg inst x) w' =
          (.error e, w')) ∨
      ∃ out out', (batchRead [a.sessionPk, appPk a.app, userPk a.app a.user]).run (exec cfg inst x) w =
          (.ok out, w) ∧
        (batchRead [a.sessionPk, appPk a.app, userPk a.app a.user]).run (exec cfg inst x) w' =
          (.ok out', w') ∧
        bins out a.sessionPk = bins out' a.sessionPk ∧
        bins out (userPk a.app a.user) = bins out' (userPk a.app a.user) := by
  generalize hkeys : [a.sessionPk, appPk a.app, userPk a.app a.user] = keys
  have hd : keys.Nodup := by
    rw [← hkeys]
    simp [Addr.sessionPk, appPk, userPk]
  have hlast : ∀ i key, keys[i]? = some key → ∀ j, i < j → keys[j]? ≠ some key := fun i key hi j hij hj =>
    hij.ne ((List.getElem?_inj (List.getElem?_eq_some_iff.mp hi).1 hd).mp (hi.trans hj.symm))
  have hrun : ∀ w : World V P, (Sessions.batchRead keys).run (exec cfg inst x) w =
      (x.whole.error.elim (.ok (byKey keys (ServerConfig.batchRead x.record keys w.store))) .error, w) := fun w => by
    subst hkeys
    unfold Sessions.batchRead exec World.reading
    simp only [reduceCtorEq, if_false]
    cases x.whole.error <;> rfl
  have hbins : ∀ (w : World V P) i key, keys[i]? = some key →
      bins (byKey keys (ServerConfig.batchRead x.record keys w.store)) key =
        foldStatus (ServerConfig.readStatus (x.record i) (w.store.get key)) := fun w i key hk =>
    bins_byKey_last (by simp [ServerConfig.batchRead]) hk (by simp [ServerConfig.batchRead, hk])
      (hlast i key hk)
  rw [hrun, hrun]
  cases x.whole.error with
  | some e => exact .inl ⟨e, rfl, rfl⟩
  | none =>
    refine .inr ⟨_, _, rfl, rfl, ?_, ?_⟩
    · rw [hbins w 0 _ (by rw [← hkeys]; rfl), hbins w' 0 _ (by rw [← hkeys]; rfl), h.row]
    · rw [hbins w 2 _ (by rw [← hkeys]; rfl), hbins w' 2 _ (by rw [← hkeys]; rfl), h.user]

/-- Under every key that is not the app's, the merged state does not depend on the
app's map. -/
theorem get_mergeState_offApp (d d' u s : Dict V) {k : Str} (hk : StateScope.app.isPrefixOf k = false) :
    (mergeState d u s).get k = (mergeState d' u s).get k := by
  simp only [get_mergeState, hk, Bool.false_eq_true, if_false]

/-- A read in a world that is the same for its session finds the same, in any weather. -/
theorem SameFor.get (h : SameFor a w w') (env : Env V P) (cfg : ServerConfig V P) (x : Weather)
    (inst : ℕ) (config : GetSessionConfig) :
    AgreeOffApp ((getSession env a config).run (exec cfg inst x) w).1
      ((getSession env a config).run (exec cfg inst x) w').1 := by
  unfold getSession
  simp only [Prog.bind_eq, Prog.pure_eq]
  rcases h.batchRead cfg inst x with ⟨e, hw, hw'⟩ | ⟨out, out', hw, hw', hrow, huser⟩
  · rw [Prog.run_bind_error _ hw, Prog.run_bind_error _ hw']
    rfl
  rw [Prog.run_bind_ok _ hw, Prog.run_bind_ok _ hw', ← hrow, ← huser]
  cases bins out a.sessionPk with
  | none => rfl
  | some r =>
    have hloaded := @SameFor.loadEvents V P env cfg inst a
      (w.setCache inst a.pkStr (some (r.cur.getD 0))) (w'.setCache inst a.pkStr (some (r.cur.getD 0)))
      ⟨h.row, h.segs, h.user⟩ x (r.cur.getD 0) config
    have hset : ∀ w : World V P, (cacheSet a.pkStr (r.cur.getD 0) : Service V P Unit).run (exec cfg inst x) w =
        (.ok (), w.setCache inst a.pkStr (some (r.cur.getD 0))) := fun _ => rfl
    dsimp only
    rw [Prog.run_bind_ok _ (hset w), Prog.run_bind_ok _ (hset w'), Prog.run_bind, Prog.run_bind]
    generalize (Sessions.loadEvents env a (r.cur.getD 0) config).run (exec cfg inst x)
      (w.setCache inst a.pkStr (some (r.cur.getD 0))) = got at hloaded ⊢
    generalize (Sessions.loadEvents env a (r.cur.getD 0) config).run (exec cfg inst x)
      (w'.setCache inst a.pkStr (some (r.cur.getD 0))) = got' at hloaded ⊢
    obtain ⟨g, v⟩ := got
    obtain ⟨g', v'⟩ := got'
    obtain rfl : g = g' := hloaded
    cases g with
    | error e => rfl
    | ok events => exact ⟨rfl, rfl, rfl, fun k hk => get_mergeState_offApp _ _ _ _ hk⟩

end Read

/-! ### Isolation -/

/-- The calls started are made for the user; they are answered in any order and in
any weather. -/
def Serves (app user : Str) (_ : Pool (Req V P) Ans Err (Reply V) (World V P) (Issued V)) :
    Action (Issued V) Weather → Prop
  | .spawn l => l.call.madeFor app user
  | .step _ _ => True

/-- Whatever calls are made for one user, a read of another user's session finds
what it found before, apart from the app's shared state. -/
theorem get_unaffected_by_other_user (env : Env V P) (cfg : ServerConfig V P) (app u v : Str)
    (hne : u ≠ v) (hu : Plain u) (hv : Plain v) (w₀ : World V P)
    (s : Pool (Req V P) Ans Err (Reply V) (World V P) (Issued V))
    (hs : (service env cfg).Reach (Serves app u) ⟨w₀, []⟩ s)
    (inst : ℕ) (id : Str) (config : GetSessionConfig) (x : Weather) :
    AgreeOffApp ((getSession env ⟨app, v, id⟩ config).run (exec cfg inst x) s.world).1
      ((getSession env ⟨app, v, id⟩ config).run (exec cfg inst x) w₀).1 := by
  obtain ⟨hframe, -⟩ := hs.uses (F := fun _ => WritesFor app u)
    (I := fun w => ∀ key, ¬ KeyFor app u key → w.store.get key = w₀.store.get key)
    (fun _ _ hl => Call.madeFor.uses env hl)
    (fun s i c l q _ _ hq hI key hkey =>
      (exec_get_of_notMem cfg l.inst c (fun hmem => hkey (hq key hmem)) s.world).trans (hI key hkey))
    (fun _ _ => rfl) rfl
  exact (SameFor.of_keyFor hne hu hv hframe id).get env cfg x inst config

namespace Small

/-- User `a` creates a session called `b:c`. -/
def crafted : Pool (Req ℕ (Event ℕ)) Ans Err (Reply ℕ) (World ℕ (Event ℕ)) (Issued ℕ) :=
  (service env cfg).run (System.turns .calm 8 0 [⟨0, .create ['p'] ['a'] ∅ (some ['b', ':', 'c']) [] 1⟩])
    ⟨.empty, []⟩

theorem reach_crafted : (service env cfg).Reach (Serves ['p'] ['a']) ⟨.empty, []⟩ crafted := by
  refine System.reach_run (System.permitted_of_forall fun a ha s => ?_)
  rcases System.mem_turns ha with ⟨l, hl, rfl⟩ | ⟨j, rfl⟩
  · rw [List.mem_singleton.mp hl]
    exact ⟨rfl, rfl⟩
  · trivial

end Small

open Sessions.Small in
theorem get_unaffected_by_other_user_small :
    AgreeOffApp (alone cfg 0 (getSession env ⟨['p'], ['b'], ['c']⟩ {}) crafted.world).1
      (alone cfg 0 (getSession env ⟨['p'], ['b'], ['c']⟩ {}) .empty).1 :=
  get_unaffected_by_other_user env cfg ['p'] ['a'] ['b'] (by decide) (by decide) (by decide) .empty
    crafted reach_crafted 0 ['c'] {} .calm

open Sessions.Small in
/-- User `a:b` then finds that session under the name `c`. -/
theorem other_user_reads_crafted :
    (['a'] : Str) ≠ ['a', ':', 'b'] ∧
    (service env cfg).Reach (Serves ['p'] ['a']) ⟨.empty, []⟩ crafted ∧
    ¬ AgreeOffApp (alone cfg 0 (getSession env ⟨['p'], ['a', ':', 'b'], ['c']⟩ {}) crafted.world).1
      (alone cfg 0 (getSession env ⟨['p'], ['a', ':', 'b'], ['c']⟩ {}) .empty).1 := by
  refine ⟨by decide, reach_crafted, fun h => ?_⟩
  have hnone : (alone cfg 0 (getSession env ⟨['p'], ['a', ':', 'b'], ['c']⟩ {}) .empty).1 =
      .ok none := rfl
  have hsome : ∃ s, (alone cfg 0 (getSession env ⟨['p'], ['a', ':', 'b'], ['c']⟩ {}) crafted.world).1 =
      .ok (some s) := ⟨_, rfl⟩
  obtain ⟨s, hsome⟩ := hsome
  rw [hnone, hsome] at h
  cases h

end AdkAerospike.Sessions
