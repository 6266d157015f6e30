import Mathlib.Algebra.Order.Ring.Unbundled.Rat
import AdkAerospike.Sessions.Manifest.Consistent
import AdkAerospike.Sessions.Sequential.Ledger

/-! The update time of a session. `get_session` takes it from the last event it
lists, and from the row where that event has none or nothing is listed; listing
takes it from the row, which only a write of session state brings up to date. The
three agree on the time of the newest event in no more states than is said here. -/

namespace AdkAerospike.Sessions

open Program Data Codec Keys

variable {V P : Type}

/-! ### The last event of a filtered read -/

section Last
variable {env : Env V P} {L : Log Str (InlineEvent V P)}

/-- All keys lie below the upper end of the ranges that reads ask for. -/
def Bounded (L : Log Str (InlineEvent V P)) : Prop := ∀ g, ∀ x ∈ (L.seg g).entries, x.1 < [':']

theorem getLast?_recent {ε : Type} (N : Option ℕ) (l : List ε) :
    Log.recent N l = [] ∨ (Log.recent N l).getLast? = l.getLast? := by
  cases N with
  | none => exact .inr rfl
  | some n =>
    by_cases hn : l.length ≤ l.length - n
    · exact .inl (List.drop_eq_nil_of_le hn)
    · exact .inr (List.getLast?_drop.trans (if_neg hn))

/-- A range of keys that reaches to the end keeps the last entry, or nothing. -/
theorem getLast?_filter_inRange (m : OMap Str (InlineEvent V P)) (hm : ∀ x ∈ m.entries, x.1 < [':'])
    (t : ℚ) :
    m.entries.filter (fun x => inRange env t x.1) = [] ∨
      (m.entries.filter fun x => inRange env t x.1).getLast? = m.entries.getLast? := by
  rcases List.eq_nil_or_concat m.entries with hnil | ⟨l, y, hl⟩
  · exact .inl (by rw [hnil]; rfl)
  · rw [List.concat_eq_append] at hl
    by_cases hy : inRange env t y.1
    · right
      have hkept : [y].filter (fun x => inRange env t x.1) = [y] := List.filter_cons_of_pos hy
      rw [hl, List.filter_append, hkept, List.getLast?_concat, List.getLast?_concat]
    · left
      -- what an earlier key reaches, the last one reaches too
      rw [List.filter_eq_nil_iff]
      intro x hx hkeep
      have hlast : y ∈ m.entries := by simp [hl]
      have hxy : x.1 ≤ y.1 := by
        have hsorted := m.sorted
        rw [hl, List.pairwise_append] at hsorted
        rw [hl, List.mem_append, List.mem_singleton] at hx
        rcases hx with hx | rfl
        · exact (hsorted.2.2 x hx y (List.mem_singleton_self y)).le
        · exact le_rfl
      simp only [inRange, decide_eq_true_eq] at hkeep hy
      exact hy ⟨hkeep.1.trans hxy, hm y hlast⟩

theorem getLast?_scan (hL : Bounded L) (T : Option ℚ) (n : ℕ) :
    L.scan (keepOf env T) n = [] ∨ (L.scan (keepOf env T) n).getLast? = (L.below n).getLast? := by
  cases T with
  | none => exact .inr rfl
  | some t =>
    cases n with
    | zero => exact .inl rfl
    | succ g =>
      change L.walk (inRange env t) (g + 1) = [] ∨ (L.walk (inRange env t) (g + 1)).getLast? = _
      rw [Log.walk, Log.below]
      split_ifs with hnil
      · exact .inl rfl
      · right
        have hlast := (getLast?_filter_inRange (L.seg g) (hL g) t).resolve_left hnil
        have hne : (L.seg g).entries ≠ [] := fun h => hnil (by rw [h]; rfl)
        rw [List.getLast?_append_of_ne_nil _ hnil, List.getLast?_append_of_ne_nil _ hne, hlast]

/-- Whatever a read is limited to, it lists nothing or the last event of all. -/
theorem getLast?_eventsOf (hL : Bounded L) (config : GetSessionConfig) :
    eventsOf env config L = [] ∨ (eventsOf env config L).getLast? = (eventsOf env {} L).getLast? := by
  unfold eventsOf
  rcases getLast?_recent config.numRecentEvents
    (L.scan (keepOf env config.afterTimestamp) (L.cur + 1)) with h | h
  · exact .inl (by rw [h]; rfl)
  · rcases getLast?_scan hL config.afterTimestamp (L.cur + 1) with hs | hs
    · rw [hs] at h ⊢
      exact .inl (by cases config.numRecentEvents <;> simp [Log.recent])
    · right
      rw [List.getLast?_map, List.getLast?_map, h, hs]
      rfl

end Last

/-! ### What is reported -/

section Report
variable {env : Env V P} {cfg : ServerConfig V P} {a : Addr} {w : World V P}

/-- The latest of a time and the timestamps of the session's events. -/
def latest (env : Env V P) (a : Addr) (w : World V P) (created : ℚ) : ℚ :=
  ((eventsOf env {} (logOf a w)).map fun x => x.2.timestamp).foldl max created

/-- Every read and every listing gives the session the update time `t`. -/
structure Reports (env : Env V P) (cfg : ServerConfig V P) (a : Addr) (w : World V P) (t : ℚ) : Prop where
  get : ∀ inst config, ∃ session w',
    perform env cfg ⟨inst, .get a config⟩ w = (.ok (.found (some session)), w') ∧
      session.lastUpdateTime = t
  user : ∀ inst, ∃ l w', perform env cfg ⟨inst, .listForUser a.app a.user⟩ w = (.ok (.sessions l), w') ∧
    ∀ s ∈ l, s.addr = a → s.lastUpdateTime = t
  app : ∀ inst, ∃ l w', perform env cfg ⟨inst, .listForApp a.app⟩ w = (.ok (.sessions l), w') ∧
    ∀ s ∈ l, s.addr = a → s.lastUpdateTime = t

/-- The row has the time `t`, and so has the last event unless it has no time. -/
structure UpToDate (env : Env V P) (a : Addr) (w : World V P) (t : ℚ) : Prop where
  row : ∀ r, row a w = some r → r.ts.getD 0 = t
  last : ∀ x, (eventsOf env {} (logOf a w)).getLast? = some x → x.2.timestamp = 0 ∨ x.2.timestamp = t

/-- Records with an `app` bin are rows of the sessions that they name. -/
def OwnRow (key : Key) (r : Record V P) : Prop :=
  key.set = .sessions → ∀ app, r.app = some app → ∃ a : Addr, True ∧ key = a.sessionPk ∧ Tagged a r

/-- The keys of an event map lie below the upper end of all ranges. -/
def BoundedKeys (r : Record V P) : Prop := ∀ m, r.events = some m → ∀ x ∈ m.entries, x.1 < [':']

/-- What the calls that create and append leave of every record. -/
def Kept (key : Key) (r : Record V P) : Prop := OwnRow key r ∧ BoundedKeys r

theorem bounded_logOf (h : Each Kept w.store) : Bounded (logOf a w) := by
  intro g x hx
  change x ∈ (segment a w g).entries at hx
  unfold segment at hx
  cases hr : w.store.get (a.segmentPk g) with
  | none => rw [hr] at hx; cases hx
  | some r =>
    cases hm : r.events with
    | none => rw [hr, Option.bind_some, hm] at hx; cases hx
    | some m =>
      rw [hr, Option.bind_some, hm] at hx
      exact (h _ r hr).2 m hm x hx

/-- The record that a listing takes for the row of the session is its row. -/
theorem row_of_tags (h : Each Kept w.store) {key : Key} {r : Record V P} (hr : w.store.get key = some r)
    (hset : key.set = .sessions) (happ : r.app = some a.app) (huid : r.uid = some a.user)
    (hsid : r.sid.getD a.id = a.id) : row a w = some r := by
  obtain ⟨b, -, hkey, htag⟩ := (h key r hr).1 hset a.app happ
  have hb : b = a := by
    have h₁ := htag.app.symm.trans happ
    have h₂ := htag.uid.symm.trans huid
    rw [htag.sid, Option.getD_some] at hsid
    cases a
    cases b
    simp_all
  rw [row, ← hb, ← hkey]
  exact hr

theorem lastUpdate_eq_of_last {recorded t : ℚ} {events : List (Str × Event V)} (hrec : recorded = t)
    (hlast : ∀ x, events.getLast? = some x → x.2.timestamp = 0 ∨ x.2.timestamp = t) :
    lastUpdate recorded events = t := by
  unfold lastUpdate
  cases hl : events.getLast? with
  | none => exact hrec
  | some x =>
    dsimp only
    split_ifs with hzero
    · exact hrec
    · exact (hlast x hl).resolve_left hzero

/-- What a read reports of a session that exists. -/
theorem perform_get_time (env : Env V P) (hfit : cfg.Fitting w.store) {r : Record V P} (hr : row a w = some r) (inst : ℕ)
    (config : GetSessionConfig) :
    ∃ session w', perform env cfg ⟨inst, .get a config⟩ w = (.ok (.found (some session)), w') ∧
      session.lastUpdateTime = lastUpdate (r.ts.getD 0) (eventsOf env config (logOf a w)) := by
  have hread : Readable a w := hfit.readable
  rw [perform_get, alone_getSession hread, view, hr]
  exact ⟨_, _, rfl, rfl⟩

theorem UpToDate.get {t : ℚ} (h : UpToDate env a w t) (hfit : cfg.Fitting w.store)
    (hkept : Each Kept w.store) (hlive : (Sessions.row a w).isSome) (inst : ℕ) (config : GetSessionConfig) :
    ∃ session w', perform env cfg ⟨inst, .get a config⟩ w = (.ok (.found (some session)), w') ∧
      session.lastUpdateTime = t := by
  obtain ⟨r, hr⟩ := Option.isSome_iff_exists.mp hlive
  obtain ⟨session, w', hget, htime⟩ := perform_get_time env hfit hr inst config
  refine ⟨session, w', hget, htime.trans (lastUpdate_eq_of_last (h.row r hr) fun x hx => ?_)⟩
  rcases getLast?_eventsOf (bounded_logOf hkept) config with hnil | hlast
  · rw [hnil] at hx
    cases hx
  · exact h.last x (hlast ▸ hx)

theorem UpToDate.listForUser {t : ℚ} (h : UpToDate env a w t) (hfit : cfg.Fitting w.store)
    (hkept : Each Kept w.store) (inst : ℕ) :
    ∃ l w', perform env cfg ⟨inst, .listForUser a.app a.user⟩ w = (.ok (.sessions l), w') ∧
      ∀ s ∈ l, s.addr = a → s.lastUpdateTime = t := by
  obtain ⟨w', hrun, -⟩ := perform_list hfit env inst a.app a.user
  refine ⟨_, w', hrun, fun s hs hsa => ?_⟩
  obtain ⟨id, -, hshow⟩ := List.mem_filterMap.mp hs
  unfold showing at hshow
  cases hr : Sessions.row ⟨a.app, a.user, id⟩ w with
  | none => rw [hr] at hshow; cases hshow
  | some r =>
    rw [hr] at hshow
    dsimp only at hshow
    split_ifs at hshow with htags
    cases hshow
    obtain ⟨b, -, hkey, htag⟩ := (hkept _ r hr).1 rfl a.app htags.1
    have hsid : r.sid.getD a.id = a.id := by
      rw [htag.sid, Option.getD_some]
      have hid := congrArg Addr.id hsa
      simpa [htag.sid] using hid
    exact h.row r (row_of_tags hkept hr rfl htags.1 htags.2 hsid)

theorem UpToDate.listForApp {t : ℚ} (h : UpToDate env a w t) (hkept : Each Kept w.store) (inst : ℕ) :
    ∃ l w', perform env cfg ⟨inst, .listForApp a.app⟩ w = (.ok (.sessions l), w') ∧
      ∀ s ∈ l, s.addr = a → s.lastUpdateTime = t := by
  refine ⟨_, _, rfl, fun s hs hsa => ?_⟩
  obtain ⟨r, hr, rfl⟩ := List.mem_map.mp hs
  obtain ⟨hr, -⟩ := List.mem_filter.mp hr
  obtain ⟨⟨key, r'⟩, hentry, hquery⟩ := List.mem_filterMap.mp hr
  dsimp only at hquery
  split_ifs at hquery with hsel
  cases hquery
  have hget : w.store.get key = some r := AList.mem_lookup_iff.mpr hentry
  obtain ⟨b, -, hkey, htag⟩ := (hkept _ r hget).1 hsel.1 a.app hsel.2
  have huser := congrArg Addr.user hsa
  have hid := congrArg Addr.id hsa
  simp only [htag.uid, htag.sid, Option.getD_some] at huser hid
  refine h.row r (row_of_tags hkept hget hsel.1 hsel.2 ?_ ?_)
  · rw [htag.uid, huser]
  · rw [htag.sid, Option.getD_some, hid]

/-- The reports agree exactly where row and last event do. -/
theorem reports_iff_upToDate (hfit : cfg.Fitting w.store) (hkept : Each Kept w.store)
    (hlive : (row a w).isSome) (t : ℚ) : Reports env cfg a w t ↔ UpToDate env a w t := by
  constructor
  · intro h
    refine ⟨fun r hr => ?_, fun x hx => ?_⟩
    · -- a read for no events shows the row's time
      obtain ⟨s, w', hget, htime⟩ := h.get 0 ⟨some 0, none⟩
      obtain ⟨s', w'', hget', htime'⟩ := perform_get_time env hfit hr 0 ⟨some 0, none⟩
      rw [hget] at hget'
      cases hget'
      rw [← htime, htime']
      simp [eventsOf, Log.recent, lastUpdate]
    · obtain ⟨r, hr⟩ := Option.isSome_iff_exists.mp hlive
      obtain ⟨s, w', hget, htime⟩ := h.get 0 {}
      obtain ⟨s', w'', hget', htime'⟩ := perform_get_time env hfit hr 0 {}
      rw [hget] at hget'
      cases hget'
      rw [htime'] at htime
      simp only [lastUpdate, hx] at htime
      split_ifs at htime with hzero
      · exact .inl hzero
      · exact .inr htime
  · exact fun h => ⟨h.get hfit hkept hlive, h.listForUser hfit hkept, h.listForApp hkept⟩

end Report

/-! ### Runs -/

/-- The calls that create sessions and append to them. -/
def Feeds (_ : World V P) (l : Issued V) : Prop :=
  match l.call with
  | .create .. => True
  | .append .. => True
  | _ => False

/-- The time at which the session was created, once it has been. -/
def creation (env : Env V P) (cfg : ServerConfig V P) (a : Addr) (w : World V P) (l : Issued V)
    (created : Option ℚ) : Option ℚ :=
  match l.call with
  | .create app user _ sessionId fresh now =>
    if a = ⟨app, user, chooseId sessionId fresh⟩ ∧ row a w = none ∧ (row a (after env cfg l w)).isSome
    then some now else created
  | _ => created

section Runs
variable {env : Env V P} {cfg : ServerConfig V P} {a : Addr} {w : World V P}

theorem kept_apply {ops : List (Op V P)}
    (hops : ∀ op ∈ ops, ∀ k v, op = .mapPut k v → k < [':']) {key : Key} {old : Option (Record V P)}
    (h : ∀ r, old = some r → Kept key r) : Kept key (Op.apply ops (old.getD {})).1 := by
  refine ⟨fun hset => tagged_apply ops fun r hr => (h r hr).1 hset, ?_⟩
  have hold : BoundedKeys (old.getD {}) := by
    cases old with
    | none => exact fun m hm => nomatch hm
    | some r => exact (h r rfl).2
  unfold Op.apply
  generalize (old.getD {} : Record V P) = r at hold
  generalize ({} : OpResult V P) = y
  induction ops generalizing r y with
  | nil => exact hold
  | cons op ops ih =>
    rw [List.foldl_cons]
    refine ih (fun o ho => hops o (List.mem_cons_of_mem _ ho)) _ ?_ _
    cases op with
    | mapPut k v =>
      have hk : k < [':'] := hops _ (List.mem_cons_self ..) k v rfl
      rintro m ⟨⟩ x hx
      rcases OMap.mem_entries_put.mp hx with rfl | ⟨hx, -⟩
      · exact hk
      · cases hm : r.events with
        | none => rw [hm] at hx; cases hx
        | some m => rw [hm] at hx; exact hold m hm x hx
    | _ => exact hold

theorem AppendRequest.stores_kept {m : ℤ} {id : Str} {v : InlineEvent V P} {q : Req V P}
    (h : AppendRequest a (microsKey m id) v q) : q.Stores cfg Kept := by
  have hput : ∀ op ∈ [Op.mapPut (microsKey m id) v], ∀ k u, op = .mapPut k u → k < [':'] := by
    intro op hop k u hk
    rw [List.mem_singleton.mp hop] at hk
    cases hk
    exact microsKey_lt_colon m id
  cases h with
  | put g => exact fun old hold _ => kept_apply hput hold
  | size g => exact fun old hold _ => kept_apply (by simp) hold
  | bump n => exact fun old hold _ => kept_apply (by simp) hold
  | batch g d now =>
    intro x hx old hold _
    rcases List.mem_cons.mp hx with rfl | hx
    · exact kept_apply hput hold
    · refine kept_apply (fun op hop k u hk => ?_) hold
      have hstate := stateWrites_stateOnly hx op hop
      rw [hk] at hstate
      cases hstate
  | selectCur => trivial
  | cacheGet => trivial
  | cacheSet n => trivial

theorem CreateRequest.stores_kept {q : Req V P} (h : CreateRequest a q) : q.Stores cfg Kept := by
  cases h with
  | row d now => exact fun _ => ⟨fun _ _ _ => ⟨a, trivial, rfl, tagged_newRow a d now⟩, fun m hm => nomatch hm⟩
  | cacheSet => trivial
  | follow h =>
    cases h with
    | app d => exact fun old hold _ => kept_apply (by simp) hold
    | user d => exact fun old hold _ => kept_apply (by simp) hold
    | manifest => exact fun old hold _ => kept_apply (by simp) hold
    | read keys => trivial

theorem kept_after (env : Env V P) (cfg : ServerConfig V P) {l : Issued V} (hl : Feeds w l)
    (h : Each Kept w.store) : Each Kept (after env cfg l w).store := by
  obtain ⟨inst, c⟩ := l
  have hbody : (c.body env).Uses fun q => q.Stores cfg Kept := by
    cases c with
    | create app user state sessionId fresh now =>
      exact ((uses_createSession app user state sessionId fresh now).mono fun _ => (·.stores_kept)).bind
        fun _ => trivial
    | append b e clock =>
      exact ((uses_persistEvent env b e clock).mono fun _ => (·.stores_kept)).bind fun _ => trivial
    | _ => exact hl.elim
  exact hbody.run_invariant (I := fun w : World V P => Each Kept w.store)
    (fun q w hq hw => hw.exec hq inst .calm) h

theorem kept_of_ran {created : Option ℚ}
    (hrun : Ran (after env cfg) Feeds (creation env cfg a) .empty none w created) :
    cfg.Fitting w.store ∧ Each Kept w.store :=
  hrun.invariant (I := fun w _ => cfg.Fitting w.store ∧ Each Kept w.store)
    ⟨fun _ _ h => (nomatch h), fun _ _ h => (nomatch h)⟩
    fun _ _ _ h hl => ⟨fitting_after h.1, kept_after env cfg hl h.2⟩

end Runs

/-- In every state that calls of `create_session` and `append_event` lead to, every
read and every listing reports the latest of the creation time and the timestamps of
the session's events, exactly if the row carries that time and the last event carries
it too or none. -/
theorem last_update_time_iff (env : Env V P) (cfg : ServerConfig V P) (a : Addr) (w : World V P)
    (created : ℚ)
    (hrun : Ran (after env cfg) Feeds (creation env cfg a) .empty none w (some created))
    (hlive : (row a w).isSome) :
    Reports env cfg a w (latest env a w created) ↔ UpToDate env a w (latest env a w created) := by
  obtain ⟨hfit, hkept⟩ := kept_of_ran hrun
  exact reports_iff_upToDate hfit hkept hlive _

namespace Small

/-- An event at time five that writes session state. -/
def stamped : Event ℕ := { event ['p'] 5 with stateDelta := (∅ : Dict ℕ).insert ['k'] 1 }

theorem ran_append (e : Event ℕ) :
    Ran (after env cfg) Feeds (creation env cfg addr) .empty none
      (after env cfg ⟨0, .append addr e 0⟩ (after env cfg opening .empty)) (some 1) :=
  .next ⟨0, .append addr e 0⟩ (.next opening .init trivial) trivial

end Small

open Sessions.Small in
theorem last_update_time_iff_small :
    Reports env cfg addr (after env cfg ⟨0, .append addr stamped 0⟩ (after env cfg opening .empty)) 5 := by
  have h := (last_update_time_iff env cfg addr _ 1 (ran_append stamped) rfl).mpr
  have hlatest : latest env addr
      (after env cfg ⟨0, .append addr stamped 0⟩ (after env cfg opening .empty)) 1 = 5 := by decide +kernel
  rw [hlatest] at h
  refine h ⟨fun r hr => ?_, fun x hx => ?_⟩
  · cases hr
    decide +kernel
  · cases hx
    exact .inr rfl

open Sessions.Small in
/-- An event that writes no session state leaves the row at the time of creation:
reading and listing disagree. -/
theorem last_update_time_stale :
    Ran (after env cfg) Feeds (creation env cfg addr) .empty none
      (after env cfg firstAppend (after env cfg opening .empty)) (some 1) ∧
    ¬ Reports env cfg addr (after env cfg firstAppend (after env cfg opening .empty))
      (latest env addr (after env cfg firstAppend (after env cfg opening .empty)) 1) ∧
    (∃ s w', perform env cfg ⟨0, .get addr {}⟩
        (after env cfg firstAppend (after env cfg opening .empty)) = (.ok (.found (some s)), w') ∧
      s.lastUpdateTime = 5) ∧
    ∃ s w', perform env cfg ⟨0, .listForUser ['a'] ['u']⟩
        (after env cfg firstAppend (after env cfg opening .empty)) = (.ok (.sessions [s]), w') ∧
      s.addr = addr ∧ s.lastUpdateTime = 1 := by
  have hrun := ran_append (event ['p'] 5)
  obtain ⟨hfit, hkept⟩ := kept_of_ran hrun
  refine ⟨hrun, fun h => ?_, ⟨_, _, rfl, rfl⟩, _, _, rfl, rfl, rfl⟩
  have hup := (reports_iff_upToDate hfit hkept rfl _).mp h
  have hrow := hup.row _ rfl
  revert hrow
  decide +kernel

end AdkAerospike.Sessions
