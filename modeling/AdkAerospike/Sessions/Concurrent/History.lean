import AdkAerospike.Sessions.Concurrent.ExactlyOnce
import AdkAerospike.Sessions.Alone.Oversized

/-! The log of a session along every run of creates, appends and reads of it, with
any event keys: one request leaves the log as it is, advances `cur` by one, or puts
one event into one segment. What a read with a cutoff shows, and in which order an
unfiltered read lists the events, are statements about the logs so reached. -/

namespace AdkAerospike.Sessions

open Program Data Codec Keys

variable {V P : Type}

/-! ### One request -/

/-- The request puts the event `v` into segment `g` under `k`. -/
def Puts (a : Addr) (g : ℕ) (k : Str) (v : InlineEvent V P) (q : Req V P) : Prop :=
  q = .operate (a.segmentPk g) [.mapPut k v] none ∨
    ∃ d now, q = .batchWrite ((a.segmentPk g, [.mapPut k v]) :: stateWrites a d now)

/-- What one request may do to the log. -/
def Advances (cfg : ServerConfig V P) (a : Addr) (q : Req V P) (w w' : World V P) : Prop :=
  logOf a w' = logOf a w ∨ logOf a w' = { logOf a w with cur := (logOf a w).cur + 1 } ∨
    ∃ g k v, Puts a g k v q ∧ PutDone cfg a g k v w w'

/-- The requests of calls that create, append to or read the session. -/
inductive SessionRequest (env : Env V P) (a : Addr) (q : Req V P) : Prop
  | create (h : CreateRequest a q)
  | append (k : Str) (v : InlineEvent V P) (h : AppendRequest a k v q)
  | get (h : GetRequest env a q)

section Step
variable {env : Env V P} {cfg : ServerConfig V P} {a : Addr} {w : World V P} {inst : ℕ} {x : Weather}

theorem Sound.step_append (h : Sound cfg a w) {q : Req V P} {k : Str} {v : InlineEvent V P}
    (hq : AppendRequest a k v q) (hx : Admissible q x) :
    Sound cfg a (exec cfg inst x q w).2 ∧ Advances cfg a q w (exec cfg inst x q w).2 := by
  cases hq with
  | put g =>
    obtain ⟨hs, -, hres⟩ := h.exec_put (g := g) (k := k) (v := v) inst hx.1
    refine ⟨hs, ?_⟩
    rcases hres with ⟨-, hput⟩ | ⟨-, -, hlog⟩ | ⟨e, -, -, hlog | hput⟩
    · exact .inr (.inr ⟨g, k, v, .inl rfl, hput⟩)
    · exact .inl hlog
    · exact .inl hlog
    · exact .inr (.inr ⟨g, k, v, .inl rfl, hput⟩)
  | size g =>
    have hsame : (exec cfg inst x (.operate (a.segmentPk g) [.mapSize] none) w).2 = w :=
      exec_readOnly rfl rfl w
    rw [hsame]
    exact ⟨h, .inl rfl⟩
  | bump n =>
    obtain ⟨hs, -, hres⟩ := h.exec_bump (n := n) inst hx.1
    refine ⟨hs, ?_⟩
    rcases hres with ⟨-, hn, hlog⟩ | ⟨-, -, hlog⟩ | ⟨e, -, -, hlog | ⟨hn, hlog⟩⟩
    · exact .inr (.inl (hn ▸ hlog))
    · exact .inl hlog
    · exact .inl hlog
    · exact .inr (.inl (hn ▸ hlog))
  | batch g d now =>
    obtain ⟨hs, -, hres⟩ := h.exec_batch (g := g) (k := k) (v := v) inst (hx.2.1 0) d now
    refine ⟨hs, ?_⟩
    have hputs : Puts a g k v (.batchWrite ((a.segmentPk g, [.mapPut k v]) :: stateWrites a d now)) :=
      .inr ⟨d, now, rfl⟩
    rcases hres with ⟨s, rest, -, ⟨-, hput⟩ | ⟨-, -, hlog⟩ | ⟨-, -, hlog | hput⟩⟩ | ⟨e, -, hlog | hput⟩
    · exact .inr (.inr ⟨g, k, v, hputs, hput⟩)
    · exact .inl hlog
    · exact .inl hlog
    · exact .inr (.inr ⟨g, k, v, hputs, hput⟩)
    · exact .inl hlog
    · exact .inr (.inr ⟨g, k, v, hputs, hput⟩)
  | selectCur =>
    have hsame : (exec cfg inst x (.selectCur a.sessionPk) w).2 = w := reading_snd _ _ w
    rw [hsame]
    exact ⟨h, .inl rfl⟩
  | cacheGet => exact ⟨h, .inl rfl⟩
  | cacheSet n => exact ⟨h.congr rfl fun _ => rfl, .inl rfl⟩

theorem Sound.step_get (h : Sound cfg a w) {q : Req V P} (hq : GetRequest env a q)
    (hx : Admissible q x) :
    Sound cfg a (exec cfg inst x q w).2 ∧ logOf a (exec cfg inst x q w).2 = logOf a w := by
  cases hq with
  | records =>
    have hsame : (exec cfg inst x (.batchRead [a.sessionPk, appPk a.app, userPk a.app a.user]) w).2 = w :=
      reading_snd _ _ w
    rw [hsame]
    exact ⟨h, rfl⟩
  | cacheSet n => exact ⟨h.congr rfl fun _ => rfl, rfl⟩
  | segment hseg =>
    obtain ⟨g, N, T, rfl⟩ := hseg
    rw [(h.exec_readSegment env inst hx.1 g N T).1]
    exact ⟨h, rfl⟩

/-- An operation on a record of another set keeps the log. -/
theorem Sound.step_other (h : Sound cfg a w) (key : Key) (hkey : key.set ≠ .sessions)
    (ops : List (Op V P)) :
    Sound cfg a (exec cfg inst x (.operate key ops none) w).2 ∧
      logOf a (exec cfg inst x (.operate key ops none) w).2 = logOf a w := by
  have hsame : ∀ key' : Key, key'.set = .sessions →
      (exec cfg inst x (.operate key ops none) w).2.store.get key' = w.store.get key' := by
    intro key' hset
    have hne : key' ≠ key := fun heq => hkey (heq ▸ hset)
    rcases under_get x.whole (cfg.operate key ops none) w.store key' with hget | hget
    · exact hget
    · exact hget.trans (ServerConfig.operate_get_of_ne hne)
  exact ⟨h.congr (hsame _ rfl) fun g => hsame _ rfl, logOf_congr (hsame _ rfl) fun g => hsame _ rfl⟩

theorem Sound.step_create (h : Sound cfg a w) {q : Req V P} (hq : CreateRequest a q) :
    Sound cfg a (exec cfg inst x q w).2 ∧ logOf a (exec cfg inst x q w).2 = logOf a w := by
  obtain ⟨r, hr, -⟩ := h.live
  cases hq with
  | row d now =>
    -- the row exists, so the put is refused
    have hput : (cfg.put a.sessionPk (newRow a d now) w.store).2 = w.store :=
      congrArg Prod.snd (ServerConfig.put_of_exists hr _)
    have hsame : ∀ key, (exec cfg inst x (.put a.sessionPk (newRow a d now)) w).2.store.get key =
        w.store.get key := fun key => by
      rcases under_get x.whole (cfg.put a.sessionPk (newRow a d now)) w.store key with hget | hget
      · exact hget
      · exact hget.trans (by rw [hput])
    exact ⟨h.congr (hsame _) fun g => hsame _, logOf_congr (hsame _) fun g => hsame _⟩
  | cacheSet => exact ⟨h.congr rfl fun _ => rfl, rfl⟩
  | follow hf =>
    cases hf with
    | app d => exact h.step_other (appPk a.app) (by simp [appPk]) _
    | user d => exact h.step_other (userPk a.app a.user) (by simp [userPk]) _
    | read keys =>
      have hsame : (exec cfg inst x (.batchRead keys) w).2 = w := reading_snd _ _ w
      rw [hsame]
      exact ⟨h, rfl⟩
    | manifest =>
      have hget := under_get x.whole
        (cfg.operate (manifestPk a.app a.user) [.listAppend a.id] none) w.store
      have hsegs : ∀ g, (exec cfg inst x (.operate (manifestPk a.app a.user) [.listAppend a.id] none)
          w).2.store.get (a.segmentPk g) = w.store.get (a.segmentPk g) := fun g => by
        rcases hget (a.segmentPk g) with hg | hg
        · exact hg
        · exact hg.trans (ServerConfig.operate_get_of_ne (manifestPk_ne_segmentPk a g).symm)
      obtain ⟨m, hm⟩ : ∃ m, row a (exec cfg inst x (.operate (manifestPk a.app a.user)
          [.listAppend a.id] none) w).2 = some { r with sman := m } := by
        rcases hget a.sessionPk with hg | hg
        · exact ⟨r.sman, hg.trans hr⟩
        · by_cases hm : manifestPk a.app a.user = a.sessionPk
          · obtain ⟨m, hrow⟩ := onRecord_listAppend cfg a.id r
            refine ⟨m, hg.trans ?_⟩
            rw [hm, ServerConfig.operate_get_self, show w.store.get a.sessionPk = some r from hr, hrow]
          · exact ⟨r.sman, hg.trans ((ServerConfig.operate_get_of_ne (Ne.symm hm)).trans hr)⟩
      obtain ⟨hlog, hs⟩ := h.restate _ hr hm rfl hsegs
      exact ⟨hs, hlog⟩

/-- Every request of such a call keeps the session sound and advances its log. -/
theorem Sound.step (h : Sound cfg a w) (inst : ℕ) {q : Req V P} (hq : SessionRequest env a q)
    (hx : Admissible q x) :
    Sound cfg a (exec cfg inst x q w).2 ∧ Advances cfg a q w (exec cfg inst x q w).2 := by
  cases hq with
  | create hq => exact ⟨(h.step_create hq).1, .inl (h.step_create hq).2⟩
  | append k v hq => exact h.step_append hq hx
  | get hq => exact ⟨(h.step_get hq hx).1, .inl (h.step_get hq hx).2⟩

end Step

/-! ### Whole runs -/

/-- All calls are on the session `a`, and each request meets admissible weather. -/
def OnSession (a : Addr) (s : Calls V P) : Action (Issued V) Weather → Prop
  | .spawn l => l.call.on a
  | .step i x => ∀ q, System.next s i = some q → Admissible q x

section Run
variable {env : Env V P} {cfg : ServerConfig V P} {a : Addr} {w w₀ : World V P} {s : Calls V P}

theorem uses_call {c : Call V} (hc : c.on a) : (c.body env).Uses (SessionRequest env a) := by
  cases c with
  | create app user state sessionId fresh now =>
    cases hc
    exact ((uses_createSession app user state sessionId fresh now).mono fun _ => .create).bind
      fun _ => trivial
  | append b e clock =>
    cases hc
    exact ((uses_persistEvent env a e clock).mono fun _ => .append _ _).bind fun _ => trivial
  | get b config =>
    cases hc
    exact ((uses_getSession env a config).mono fun _ => .get).bind fun _ => trivial
  | _ => cases hc

/-- What every advance of the log preserves holds along every run. -/
theorem log_invariant {ok : Calls V P → Action (Issued V) Weather → Prop}
    {J : Log Str (InlineEvent V P) → Prop} (hok : ∀ s x, ok s x → OnSession a s x)
    (hw₀ : Created env cfg a w₀) (h₀ : J (logOf a w₀))
    (hstep : ∀ s i x q w', ok s (.step i x) → System.next s i = some q →
      Advances cfg a q s.world w' → J (logOf a s.world) → J (logOf a w'))
    (hs : (service env cfg).Reach ok ⟨w₀, []⟩ s) : Sound cfg a s.world ∧ J (logOf a s.world) := by
  refine (hs.uses (F := fun _ => SessionRequest env a)
    (I := fun w => Sound cfg a w ∧ J (logOf a w)) (fun s l hl => uses_call (hok s _ hl)) ?_
    ⟨hw₀.good.toSound, h₀⟩ rfl).1
  rintro s i x l q hx hq hreq ⟨hsound, hJ⟩
  obtain ⟨hsound', hadv⟩ := hsound.step l.inst hreq (hok s _ hx q hq)
  exact ⟨hsound', hstep s i x q _ hx hq hadv hJ⟩

theorem sound_of_reach (hw₀ : Created env cfg a w₀)
    (hs : (service env cfg).Reach (OnSession a) ⟨w₀, []⟩ s) : Sound cfg a s.world :=
  (log_invariant (J := fun _ => True) (fun _ _ h => h) hw₀ trivial
    (fun _ _ _ _ _ _ _ _ _ => trivial) hs).1

end Run

/-! ### The cutoff -/

/-- The microseconds of the key reach the cutoff. -/
def reaches (env : Env V P) (T : ℚ) (key : Str) : Bool := decide (env.micros T ≤ keyMicros key)

section Cutoff
variable {env : Env V P}

theorem eventsOf_cut (T : ℚ) (L : Log Str (InlineEvent V P)) :
    eventsOf env { afterTimestamp := some T } L =
      (L.walk (inRange env T) (L.cur + 1)).map fun x => (x.1, eventFromInlineDict env.model x.2) := rfl

theorem eventsOf_cut_eq_filter_iff (T : ℚ) (L : Log Str (InlineEvent V P)) :
    eventsOf env { afterTimestamp := some T } L =
        (eventsOf env {} L).filter (fun x => reaches env T x.1) ↔
      L.ShowsExactly (inRange env T) (reaches env T) (L.cur + 1) := by
  have hfilter : (eventsOf env {} L).filter (fun x => reaches env T x.1) =
      (L.history.filter fun x => reaches env T x.1).map
        fun x => (x.1, eventFromInlineDict env.model x.2) := by
    rw [eventsOf_full, List.filter_map]
    rfl
  rw [hfilter, eventsOf_cut]
  constructor
  · intro h
    have hkeys := congrArg (List.map Prod.fst) h
    rw [List.map_map, List.map_map] at hkeys
    exact Log.showsExactly_of_keys_eq hkeys
  · intro h
    rw [Log.walk_eq_filter h]
    rfl

end Cutoff

/-- In every state reached by creates and appends, a read with a cutoff shows the
filtered history exactly when no event to show lies below a segment that has none,
and the server's key range agrees with the cutoff on the keys it reaches. -/
theorem cutoff_filters_history_iff (env : Env V P) (cfg : ServerConfig V P) (a : Addr)
    (w₀ : World V P) (hw₀ : Created env cfg a w₀) (s : Calls V P)
    (hs : (service env cfg).Reach (OnSession a) ⟨w₀, []⟩ s) (inst : ℕ) (T : ℚ) :
    ∃ full cut w₁ w₂,
      perform env cfg ⟨inst, .get a {}⟩ s.world = (.ok (.found (some full)), w₁) ∧
      perform env cfg ⟨inst, .get a { afterTimestamp := some T }⟩ s.world =
        (.ok (.found (some cut)), w₂) ∧
      (cut.events = full.events.filter (fun x => env.micros T ≤ keyMicros x.1) ↔
        ∀ g ≤ (logOf a s.world).cur, ∀ x ∈ (segment a s.world g).entries,
          env.micros T ≤ keyMicros x.1 ↔
            inRange env T x.1 ∧ ∀ g', g < g' → g' ≤ (logOf a s.world).cur →
              ∃ y ∈ (segment a s.world g').entries, inRange env T y.1) := by
  have hsound := sound_of_reach hw₀ hs
  obtain ⟨full, w₁, hfull, hevents⟩ := hsound.perform_get env inst {}
  obtain ⟨cut, w₂, hcut, hshown⟩ := hsound.perform_get env inst { afterTimestamp := some T }
  refine ⟨full, cut, w₁, w₂, hfull, hcut, ?_⟩
  rw [hevents, hshown]
  refine (eventsOf_cut_eq_filter_iff T (logOf a s.world)).trans ?_
  simp only [Log.ShowsExactly, Log.Passes, reaches, decide_eq_true_eq, Nat.lt_succ_iff]
  rfl

namespace Small

/-- An append, and one that fails with `RecordTooBig` after it has advanced `cur`. -/
def stranded : Calls ℕ (Event ℕ) := (service env cfg).run
  (System.turns .calm 6 0 [⟨0, .append addr first 0⟩, ⟨0, .append addr oversized 0⟩]) ⟨created, []⟩

theorem onSession_turns {n : ℕ} {ls : List (Issued ℕ)} (h : ∀ l ∈ ls, l.call.on addr) :
    ∀ x ∈ System.turns .calm n 0 ls, ∀ s : Calls ℕ (Event ℕ), OnSession addr s x := fun x hx s => by
  rcases System.mem_turns hx with ⟨l, hl, rfl⟩ | ⟨j, rfl⟩
  · exact h l hl
  · exact fun q _ => admissible_calm q

theorem reach_turns {n : ℕ} {ls : List (Issued ℕ)} (h : ∀ l ∈ ls, l.call.on addr) :
    (service env cfg).Reach (OnSession addr) ⟨created, []⟩
      ((service env cfg).run (System.turns .calm n 0 ls) ⟨created, []⟩) :=
  System.reach_run (System.permitted_of_forall (onSession_turns h))

/-- Three appends on two instances, the last of which finds the first segment full. -/
def rising : Calls ℕ (Event ℕ) := (service env cfg).run (System.turns .calm 7 0
  [⟨0, .append addr (event ['p'] 5) 0⟩, ⟨1, .append addr (event ['q'] 6) 0⟩, ⟨0, .append addr (event ['r'] 7) 0⟩])
    ⟨created, []⟩

theorem reach_rising : (service env cfg).Reach (OnSession addr) ⟨created, []⟩ rising := reach_turns (by simp [Call.on])

theorem cur_rising : (logOf addr rising.world).cur = 1 := by decide +kernel

theorem reach_stranded : (service env cfg).Reach (OnSession addr) ⟨created, []⟩ stranded :=
  reach_turns (by simp [Call.on])

end Small

open Sessions.Small in
/-- The cutoff lies between the events of the first of two segments. -/
theorem cutoff_filters_history_iff_small :
    ∃ full cut w₁ w₂,
      perform env cfg ⟨1, .get addr {}⟩ rising.world = (.ok (.found (some full)), w₁) ∧
      perform env cfg ⟨1, .get addr { afterTimestamp := some 6 }⟩ rising.world =
        (.ok (.found (some cut)), w₂) ∧
      cut.events = full.events.filter (fun x => env.micros 6 ≤ keyMicros x.1) ∧
      full.events.length = 3 ∧ cut.events.length = 2 := by
  obtain ⟨full, cut, w₁, w₂, hfull, hcut, hiff⟩ :=
    cutoff_filters_history_iff env cfg addr created created_created rising reach_rising 1 6
  obtain ⟨full', w₁', hfull', hevents⟩ := (sound_of_reach created_created reach_rising).perform_get env 1 {}
  obtain ⟨rfl, rfl⟩ : full = full' ∧ w₁ = w₁' := by simpa using hfull.symm.trans hfull'
  have hcond : ∀ g ≤ 1, ∀ x ∈ (segment addr rising.world g).entries, env.micros 6 ≤ keyMicros x.1 ↔
      inRange env 6 x.1 ∧ (g = 0 → ∃ y ∈ (segment addr rising.world 1).entries, inRange env 6 y.1) := by
    decide +kernel
  have hsplit : cut.events = full.events.filter (fun x => env.micros 6 ≤ keyMicros x.1) := by
    refine hiff.mpr fun g hg x hx => ?_
    rw [cur_rising] at hg ⊢
    refine (hcond g hg x hx).trans (and_congr_right fun _ => ⟨fun h g' hlt hle => ?_, fun h hzero => h 1 (by omega) le_rfl⟩)
    obtain rfl : g' = 1 := by omega
    exact h (by omega)
  refine ⟨full, cut, w₁, w₂, hfull, hcut, hsplit, ?_, ?_⟩
  · rw [hevents]
    decide +kernel
  · rw [hsplit, hevents]
    decide +kernel

open Sessions.Small in
/-- After an append that failed behind an advanced `cur`, a cutoff hides everything. -/
theorem cutoff_hides_history :
    Created env cfg addr created ∧
    (service env cfg).Reach (OnSession addr) ⟨created, []⟩ stranded ∧
    ∃ full cut w₁ w₂,
      perform env cfg ⟨0, .get addr {}⟩ stranded.world = (.ok (.found (some full)), w₁) ∧
      perform env cfg ⟨0, .get addr { afterTimestamp := some 0 }⟩ stranded.world =
        (.ok (.found (some cut)), w₂) ∧
      cut.events ≠ full.events.filter (fun x => env.micros 0 ≤ keyMicros x.1) := by
  have hsound := sound_of_reach created_created reach_stranded
  obtain ⟨full, w₁, hfull, hevents⟩ := hsound.perform_get env 0 {}
  obtain ⟨cut, w₂, hcut, hshown⟩ := hsound.perform_get env 0 { afterTimestamp := some 0 }
  refine ⟨created_created, reach_stranded, full, cut, w₁, w₂, hfull, hcut, fun heq => ?_⟩
  rw [hevents, hshown] at heq
  have hkeys : ((eventsOf env { afterTimestamp := some 0 } (logOf addr stranded.world)).map Prod.fst) ≠
      ((eventsOf env {} (logOf addr stranded.world)).filter
        (fun x => env.micros 0 ≤ keyMicros x.1)).map Prod.fst := by
    decide +kernel
  exact hkeys (congrArg (List.map Prod.fst) heq)

/-! ### Chronology -/

/-- As before, and an event that is about to go into a segment goes there in the
order of the keys: not before one of an older segment, nor after one of a newer. -/
def InSequence (cfg : ServerConfig V P) (a : Addr) (s : Calls V P) (x : Action (Issued V) Weather) :
    Prop :=
  OnSession a s x ∧ match x with
    | .spawn _ => True
    | .step i _ => ∀ q g k v, System.next s i = some q → Puts a g k v q →
        cfg.SegFits ((segment a s.world g).put k v) → (logOf a s.world).InOrder g k

theorem chronological_of_reach {env : Env V P} {cfg : ServerConfig V P} {a : Addr} {w₀ : World V P}
    {s : Calls V P} (hw₀ : Created env cfg a w₀)
    (hs : (service env cfg).Reach (InSequence cfg a) ⟨w₀, []⟩ s) :
    Sound cfg a s.world ∧ (logOf a s.world).Chronological := by
  refine log_invariant (fun _ _ h => h.1) hw₀ ?_ ?_ hs
  · have hempty : ∀ g, segment a w₀ g = .empty := fun g => by simp [segment, hw₀.blank.1.segs g]
    intro g g' _ y hy
    rw [show (logOf a w₀).seg g = .empty from hempty g] at hy
    cases hy
  · rintro s i x q w' ⟨-, hseq⟩ hq (hlog | hlog | ⟨g, k, v, hputs, hfits, hlog⟩) hchron
    · rw [hlog]
      exact hchron
    · rw [hlog]
      exact hchron
    · rw [hlog]
      exact hchron.put (hseq q g k v hq hputs hfits)

/-- Where every event goes to its segment in the order of the keys, the history is
chronological in every state reached, and the last `N` events are those with the
greatest keys. -/
theorem history_chronological (env : Env V P) (cfg : ServerConfig V P) (a : Addr) (w₀ : World V P)
    (hw₀ : Created env cfg a w₀) (s : Calls V P)
    (hs : (service env cfg).Reach (InSequence cfg a) ⟨w₀, []⟩ s) (inst : ℕ) :
    ∃ full w₁, perform env cfg ⟨inst, .get a {}⟩ s.world = (.ok (.found (some full)), w₁) ∧
      full.events.Pairwise (fun x y => x.1 ≤ y.1) ∧
      ∀ N, ∃ last w₂ older,
        perform env cfg ⟨inst, .get a { numRecentEvents := some N }⟩ s.world =
          (.ok (.found (some last)), w₂) ∧
        full.events = older ++ last.events ∧ last.events.length = min full.events.length N ∧
        ∀ x ∈ older, ∀ y ∈ last.events, x.1 ≤ y.1 := by
  obtain ⟨hsound, hchron⟩ := chronological_of_reach hw₀ hs
  obtain ⟨full, w₁, hfull, hevents⟩ := hsound.perform_get env inst {}
  have hsorted : full.events.Pairwise (fun x y => x.1 ≤ y.1) := by
    rw [hevents, eventsOf_full, List.pairwise_map]
    exact hchron.below_sorted _
  refine ⟨full, w₁, hfull, hsorted, fun N => ?_⟩
  obtain ⟨last, w₂, hlast, hrecent⟩ := hsound.perform_get env inst { numRecentEvents := some N }
  have hdrop : last.events = full.events.drop (full.events.length - N) := by
    rw [hrecent, hevents, eventsOf_full]
    change (Log.recent (some N) (logOf a s.world).history).map _ = _
    rw [Log.recent, List.map_drop, List.length_map]
  have hsplit : full.events = full.events.take (full.events.length - N) ++ last.events := by
    rw [hdrop, List.take_append_drop]
  refine ⟨last, w₂, _, hlast, hsplit, ?_, ?_⟩
  · rw [hdrop, List.length_drop]
    omega
  · rw [hsplit] at hsorted
    exact (List.pairwise_append.mp hsorted).2.2

namespace Small

/-- The records with events are the first two segments. -/
def spansTwo (w : World ℕ (Event ℕ)) : Bool :=
  w.store.entries.all fun x => x.2.events.isNone || [0, 1].any fun g => x.1 = addr.segmentPk g

theorem segment_of_spansTwo {w : World ℕ (Event ℕ)} (h : spansTwo w) {g : ℕ} (hg : 2 ≤ g) :
    segment addr w g = .empty := by
  unfold segment
  cases hr : w.store.get (addr.segmentPk g) with
  | none => rfl
  | some r =>
    have hentry := List.all_eq_true.mp h ⟨_, r⟩ ((FMap.mem_entries_iff _ _).mpr hr)
    simp only [List.any_cons, List.any_nil, segmentPk_inj, Bool.or_eq_true, decide_eq_true_eq, Option.isNone_iff_eq_none,
      Bool.or_false] at hentry
    rcases hentry with hnone | rfl | rfl
    · simp [hnone]
    · omega
    · omega

/-- The record that a request puts an event into, and its key there. -/
def placed : Req ℕ (Event ℕ) → Option (Key × Str)
  | .operate key [.mapPut k _] none => some (key, k)
  | .batchWrite ((key, [.mapPut k _]) :: _) => some (key, k)
  | _ => none

/-- The key does not come before one of an older segment, nor after one of a newer. -/
def ordered (w : World ℕ (Event ℕ)) (g : ℕ) (k : Str) : Bool :=
  [0, 1].all fun g' => (segment addr w g').entries.all fun x => (g' < g → x.1 ≤ k) ∧ (g < g' → k ≤ x.1)

theorem inOrder_of_ordered {w : World ℕ (Event ℕ)} (hw : spansTwo w) {g : ℕ} {k : Str} (h : ordered w g k) :
    (logOf addr w).InOrder g k := by
  have hall : ∀ g', ∀ x ∈ ((logOf addr w).seg g').entries, (g' < g → x.1 ≤ k) ∧ (g < g' → k ≤ x.1) := fun g' x hx => by
    change x ∈ (segment addr w g').entries at hx
    by_cases hg' : 2 ≤ g'
    · rw [segment_of_spansTwo hw hg'] at hx
      cases hx
    · have hmem : g' ∈ [0, 1] := by
        rw [List.mem_pair]
        omega
      exact of_decide_eq_true (List.all_eq_true.mp (List.all_eq_true.mp h g' hmem) x hx)
  exact ⟨fun g' hg x hx => (hall g' x hx).1 hg, fun g' hg x hx => (hall g' x hx).2 hg⟩

/-- The event that is put next goes to one of the first two segments, in the order of the keys. -/
def inSequence (s : Calls ℕ (Event ℕ)) : Action (Issued ℕ) Weather → Bool
  | .spawn _ => true
  | .step i _ => spansTwo s.world && (System.next s i).all fun q => (placed q).all fun x =>
      [0, 1].any fun g => x.1 = addr.segmentPk g && ordered s.world g x.2

theorem inSequence_of_test {s : Calls ℕ (Event ℕ)} {x : Action (Issued ℕ) Weather} (hon : OnSession addr s x)
    (h : inSequence s x) : InSequence cfg addr s x := by
  refine ⟨hon, ?_⟩
  cases x with
  | spawn l => trivial
  | step i x =>
    intro q g k v hq hputs _
    obtain ⟨hw, hnext⟩ := (Bool.and_eq_true _ _).mp h
    have hplaced : placed q = some (addr.segmentPk g, k) := by
      rcases hputs with rfl | ⟨d, now, rfl⟩ <;> rfl
    rw [hq, Option.all_some, hplaced, Option.all_some] at hnext
    obtain ⟨g', -, hg'⟩ := List.any_eq_true.mp hnext
    obtain ⟨hkey, hordered⟩ := (Bool.and_eq_true _ _).mp hg'
    obtain rfl := (segmentPk_inj addr).mp (of_decide_eq_true hkey)
    exact inOrder_of_ordered hw hordered

theorem inSequence_rising : (service env cfg).Reach (InSequence cfg addr) ⟨created, []⟩ rising := by
  refine System.reach_run (System.permitted_of_passes (fun x hx s h => inSequence_of_test ?_ h) (by decide +kernel))
  exact onSession_turns (by simp [Call.on]) x hx s

/-- Events with timestamps 5, 6 and 7, the last of which opens a second segment,
and a late one with timestamp 1. -/
def late : Calls ℕ (Event ℕ) := (service env cfg).run
  (System.turns .calm 7 0 [⟨0, .append addr (event ['p'] 5) 0⟩, ⟨0, .append addr (event ['q'] 6) 0⟩,
    ⟨0, .append addr (event ['r'] 7) 0⟩, ⟨0, .append addr (event ['s'] 1) 0⟩]) ⟨created, []⟩

theorem reach_late : (service env cfg).Reach (OnSession addr) ⟨created, []⟩ late :=
  reach_turns (by simp [Call.on])

end Small

open Sessions.Small in
/-- The third event opens the second segment, and the last two events are those of both segments
with the greatest keys. -/
theorem history_chronological_small :
    (logOf addr rising.world).cur = 1 ∧
    ∃ full last w₁ w₂ older, perform env cfg ⟨0, .get addr {}⟩ rising.world = (.ok (.found (some full)), w₁) ∧
      full.events.length = 3 ∧ full.events.Pairwise (fun x y => x.1 ≤ y.1) ∧
      perform env cfg ⟨0, .get addr { numRecentEvents := some 2 }⟩ rising.world = (.ok (.found (some last)), w₂) ∧
      full.events = older ++ last.events ∧ last.events.length = 2 ∧ ∀ x ∈ older, ∀ y ∈ last.events, x.1 ≤ y.1 := by
  obtain ⟨full, w₁, hfull, hsorted, hrecent⟩ := history_chronological env cfg addr created created_created rising inSequence_rising 0
  obtain ⟨last, w₂, older, hlast, hsplit, hlen, hle⟩ := hrecent 2
  obtain ⟨full', w₁', hfull', hevents⟩ := (sound_of_reach created_created reach_rising).perform_get env 0 {}
  obtain ⟨rfl, rfl⟩ : full = full' ∧ w₁ = w₁' := by simpa using hfull.symm.trans hfull'
  have hthree : full.events.length = 3 := by
    rw [hevents]
    decide +kernel
  rw [hthree] at hlen
  exact ⟨cur_rising, full, last, w₁, w₂, older, hfull, hthree, hsorted, hlast, hsplit, hlen, hle⟩

open Sessions.Small in
/-- A late event goes to the current segment, behind events that are newer. -/
theorem late_event_out_of_order :
    Created env cfg addr created ∧
    (service env cfg).Reach (OnSession addr) ⟨created, []⟩ late ∧
    ∃ full w₁, perform env cfg ⟨0, .get addr {}⟩ late.world = (.ok (.found (some full)), w₁) ∧
      ¬ full.events.Pairwise (fun x y => x.1 ≤ y.1) := by
  have hsound := sound_of_reach created_created reach_late
  obtain ⟨full, w₁, hfull, hevents⟩ := hsound.perform_get env 0 {}
  refine ⟨created_created, reach_late, full, w₁, hfull, fun hsorted => ?_⟩
  rw [hevents, ← List.pairwise_map (f := Prod.fst) (R := (· ≤ ·))] at hsorted
  have hkeys : ¬ ((eventsOf env {} (logOf addr late.world)).map Prod.fst).Pairwise (· ≤ ·) := by
    decide +kernel
  exact hkeys hsorted

end AdkAerospike.Sessions
