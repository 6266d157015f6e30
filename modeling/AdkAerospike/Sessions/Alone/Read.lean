import AdkAerospike.Sessions.Alone.Basic

/-! `get_session` run alone reads the log: all of it, the walk under a cutoff, and
of either the last entries asked for. It writes nothing but the cached index. -/

namespace AdkAerospike.Sessions

open Program Data Codec Keys

variable {V P : Type}

section Reading
variable {cfg : ServerConfig V P} {inst : ℕ} {env : Env V P} {a : Addr} {w : World V P}

/-- The range of keys that a cutoff asks the server for. -/
def inRange (env : Env V P) (t : ℚ) (key : Str) : Bool :=
  decide (padInt 20 (env.micros t) ++ [':'] ≤ key ∧ key < [':'])

/-! ### One segment -/

/-- What one segment read returns of the segment's map. -/
def readRange (env : Env V P) (wantLastN : Option ℕ) (afterTs : Option ℚ)
    (m : OMap Str (InlineEvent V P)) : List (Str × InlineEvent V P) :=
  match afterTs with
  | some t => m.entries.filter fun x => inRange env t x.1
  | none => Log.recent wantLastN m.entries

theorem read_readOp (wantLastN : Option ℕ) (afterTs : Option ℚ) (r : Record V P)
    (hsize : ∀ m, r.events = some m → m.size ≤ 2 ^ 31 - 1) :
    ((readOp env wantLastN afterTs).read r {}).entries =
      r.events.map (readRange env wantLastN afterTs) := by
  rcases hm : r.events with _ | m
  · cases afterTs <;> cases wantLastN <;> simp [readOp, Op.read, hm]
  · rcases afterTs with _ | t
    · rcases wantLastN with _ | n
      · have hall : m.indexRange 0 (2 ^ 31 - 1) = m.entries := OMap.indexRange_zero (hsize m hm)
        simpa [readOp, Op.read, hm, readRange, Log.recent] using hall
      · simp [readOp, Op.read, hm, readRange, Log.recent, OMap.indexRange_neg]
    · simp [readOp, Op.read, hm, readRange, OMap.keyRange, inRange]

/-- No segment holds more events than one read can return. -/
def Readable (a : Addr) (w : World V P) : Prop := ∀ g, (segment a w g).size ≤ 2 ^ 31 - 1

theorem Sound.readable (h : Sound cfg a w) : Readable a w := fun g => by
  rcases h.segment_cases g with ⟨-, hempty⟩ | ⟨-, hfits⟩
  · rw [hempty]
    exact Nat.zero_le _
  · exact cfg.capacity _ _ rfl hfits

theorem ServerConfig.Fitting.readable (h : cfg.Fitting w.store) : Readable a w := fun g => by
  unfold segment
  cases hr : w.store.get (a.segmentPk g) with
  | none => exact Nat.zero_le _
  | some r =>
    cases hm : r.events with
    | none =>
      simp only [Option.bind_some, hm, Option.getD_none]
      exact Nat.zero_le _
    | some m =>
      simp only [Option.bind_some, hm, Option.getD_some]
      exact cfg.capacity r m hm (h _ r hr)

theorem alone_readSegmentEntries (hw : Readable a w) (g : ℕ) (wantLastN : Option ℕ)
    (afterTs : Option ℚ) :
    alone cfg inst (readSegmentEntries env a g wantLastN afterTs) w =
      (.ok (readRange env wantLastN afterTs (segment a w g)), w) := by
  have hempty : readRange env wantLastN afterTs (.empty : OMap Str (InlineEvent V P)) = [] := by
    cases afterTs <;> cases wantLastN <;> simp [readRange, Log.recent]
  have hsize := hw g
  unfold readSegmentEntries
  simp only [Prog.bind_eq, Prog.pure_eq]
  have hop : alone cfg inst (operate (a.segmentPk g) [readOp env wantLastN afterTs]) w = _ :=
    alone_operate _ _ none w
  rcases hr : w.store.get (a.segmentPk g) with _ | r
  · have hseg : segment a w g = .empty := by simp [segment, hr]
    rw [ServerConfig.operate_of_missing hr (by simp)] at hop
    rw [alone_catching_caught (alone_bind_error hop), hseg, hempty]
    rfl
  · have hseg : segment a w g = r.events.getD .empty := by simp [segment, hr]
    have hok : cfg.operate (a.segmentPk g) [readOp env wantLastN afterTs] none w.store =
        (.ok ((readOp env wantLastN afterTs).read r {}), w.store) := ServerConfig.operate_of_reads hr (by simp)
    rw [hok] at hop
    have hread : ((readOp env wantLastN afterTs).read r {}).entries = _ :=
      read_readOp wantLastN afterTs r fun m hm => by
        rw [hseg, hm] at hsize
        exact hsize
    rw [alone_catching_ok (alone_bind_ok hop), hseg, hread]
    cases r.events with
    | none => simp [hempty, World.withStore]
    | some m => rfl

/-! ### The walk -/

/-- The inner loop keeps the most recent entries and stops once it has enough. -/
theorem collect_eq {ε : Type} (N : Option ℕ) (r c : List ε) (hc : ∀ n, N = some n → c.length < n) :
    collect N r c =
      (Log.recent N (r.reverse ++ c), N.any fun n => decide (n ≤ r.length + c.length)) := by
  induction r generalizing c with
  | nil =>
    have hany : (N.any fun n => decide (n ≤ c.length)) = false := by
      cases N with
      | none => rfl
      | some n => simpa using hc n rfl
    simp [collect, hany, Log.recent_of_le fun n hn => (hc n hn).le]
  | cons x r ih =>
    rw [collect]
    cases N with
    | none => simpa using ih (x :: c) (by simp)
    | some n =>
      have hlt := hc n rfl
      by_cases hn : n ≤ c.length + 1
      · have hle : n ≤ (x :: c).length := by simpa using hn
        have hall : n ≤ r.length + 1 + c.length := by omega
        simp only [Option.any_some, hn, decide_true, if_true, List.reverse_cons, List.append_assoc,
          List.singleton_append, List.length_cons, hall, Log.recent_append_of_le hle]
        rw [Log.recent_of_le]
        rintro m ⟨⟩
        simp only [List.length_cons]
        omega
      · have hstep := ih (x :: c) (fun m hm => by cases hm; simp only [List.length_cons]; omega)
        simp only [Option.any_some, hn, decide_false, Bool.false_eq_true, if_false, hstep,
          List.reverse_cons, List.append_assoc, List.singleton_append, List.length_cons]
        simp only [Prod.mk.injEq, true_and, decide_eq_decide]
        omega

/-- The filter of a read, if it has a cutoff. -/
def keepOf (env : Env V P) (afterTs : Option ℚ) : Option (Str → Bool) := afterTs.map (inRange env)

/-- Asking a segment for no more than is needed collects the same. -/
theorem collect_limited {N : Option ℕ} {m : OMap Str (InlineEvent V P)}
    {c : List (Str × InlineEvent V P)} (hc : ∀ n, N = some n → c.length < n) :
    collect N (readRange env (N.map (· - c.length)) none m).reverse c =
      collect N m.entries.reverse c := by
  cases N with
  | none => rfl
  | some n =>
    have hle := (hc n rfl).le
    rw [collect_eq _ _ _ hc, collect_eq _ _ _ hc]
    simp only [readRange, Option.map_some, List.reverse_reverse, List.length_reverse,
      Option.any_some, Log.recent_recent_append hle, Log.length_recent, Prod.mk.injEq, true_and,
      decide_eq_decide]
    omega

/-- What is collected from one more segment, and whether the walk then stops. -/
theorem collect_entries {N : Option ℕ} {l c : List (Str × InlineEvent V P)}
    (hc : ∀ n, N = some n → c.length < n) :
    (collect N l.reverse c).2 = true ∧ l ≠ [] ∧
      (∀ l', (collect N l.reverse c).1 = Log.recent N (l' ++ l ++ c)) ∨
    (collect N l.reverse c).2 = false ∧ (collect N l.reverse c).1 = l ++ c ∧
      (∀ n, N = some n → (l ++ c).length < n) := by
  rw [collect_eq _ _ _ hc]
  simp only [List.reverse_reverse, List.length_reverse]
  cases N with
  | none => exact .inr ⟨rfl, rfl, fun n hn => by cases hn⟩
  | some n =>
    have hlt := hc n rfl
    by_cases hn : n ≤ l.length + c.length
    · have hne : l ≠ [] := by
        rintro rfl
        simp only [List.length_nil] at hn
        omega
      have hlen : n ≤ (l ++ c).length := by simpa using hn
      refine .inl ⟨by simpa using hn, hne, fun l' => ?_⟩
      rw [List.append_assoc, Log.recent_append_of_le hlen]
    · have hlen : (l ++ c).length < n := by
        rw [List.length_append]
        omega
      refine .inr ⟨by simpa using hn, Log.recent_of_le ?_, ?_⟩
      · rintro m ⟨⟩
        exact hlen.le
      · rintro m ⟨⟩
        exact hlen

theorem alone_loadLoop (hw : Readable a w) (N : Option ℕ) (T : Option ℚ) (n : ℕ)
    (c : List (Str × InlineEvent V P)) (hc : ∀ n, N = some n → c.length < n) :
    alone cfg inst (loadLoop env a N T n c) w =
      (.ok (Log.recent N ((logOf a w).scan (keepOf env T) n ++ c)), w) := by
  induction n generalizing c with
  | zero =>
    have hrec : Log.recent N c = c := Log.recent_of_le fun n hn => (hc n hn).le
    cases T <;> simp [loadLoop, keepOf, Log.scan, Log.below, Log.walk, hrec]
  | succ g ih =>
    rw [loadLoop]
    simp only [Prog.bind_eq]
    rw [alone_bind_ok (alone_readSegmentEntries hw g _ T)]
    cases T with
    | none =>
      simp only [Option.isSome_none, Bool.false_and, Bool.false_eq_true, if_false,
        collect_limited hc]
      have hbelow : (logOf a w).scan (keepOf env none) (g + 1) =
          (logOf a w).scan (keepOf env none) g ++ (segment a w g).entries := rfl
      rcases collect_entries (l := (segment a w g).entries) hc with
        ⟨hstop, -, hres⟩ | ⟨hgo, hres, hlt⟩
      · rw [if_pos hstop, hbelow, hres]
        rfl
      · rw [if_neg (by simp [hgo]), hres, ih _ hlt, hbelow, List.append_assoc]
    | some t =>
      simp only [readRange, Option.isSome_some, Bool.true_and]
      generalize hE : ((segment a w g).entries.filter fun x => inRange env t x.1) = E
      have hwalk : (logOf a w).scan (keepOf env (some t)) (g + 1) =
          if E = [] then [] else (logOf a w).scan (keepOf env (some t)) g ++ E := by
        rw [← hE]
        rfl
      rcases collect_entries (l := E) hc with ⟨hstop, hne, hres⟩ | ⟨hgo, hres, hlt⟩
      · rw [if_pos hstop, hwalk, if_neg hne, hres]
        rfl
      · rw [if_neg (by simp [hgo]), hres]
        by_cases hnil : E = []
        · have hrec : Log.recent N c = c := Log.recent_of_le fun n hn => (hc n hn).le
          simp [hwalk, hnil, hrec]
        · rw [if_neg (by simpa using hnil), ih _ hlt, hwalk, if_neg hnil, List.append_assoc]

/-- Loading run alone: the most recent entries of what the cutoff lets through. -/
theorem alone_loadEvents (hw : Readable a w) (cur : ℕ) (config : GetSessionConfig) :
    alone cfg inst (loadEvents env a cur config) w =
      (.ok ((Log.recent config.numRecentEvents
          ((logOf a w).scan (keepOf env config.afterTimestamp) (cur + 1))).map
        fun x => (x.1, eventFromInlineDict env.model x.2)), w) := by
  rw [loadEvents]
  split_ifs with hzero
  · simp [hzero, Log.recent]
  · simp only [Prog.bind_eq, Prog.pure_eq]
    rw [alone_bind_ok (alone_loadLoop hw _ _ (cur + 1) [] ?_)]
    · simp
    · intro n hn
      simp only [List.length_nil]
      rw [hn, Option.some.injEq] at hzero
      omega

/-! ### The session -/

/-- `last_update_time` of the session that `get_session` returns. -/
def lastUpdate (recorded : ℚ) (events : List (Str × Event V)) : ℚ :=
  match events.getLast? with
  | some x => if x.2.timestamp = 0 then recorded else x.2.timestamp
  | none => recorded

/-- The events that a read of the log returns. -/
def eventsOf (env : Env V P) (config : GetSessionConfig) (L : Log Str (InlineEvent V P)) :
    List (Str × Event V) :=
  (Log.recent config.numRecentEvents
      (L.scan (keepOf env config.afterTimestamp) (L.cur + 1))).map
    fun x => (x.1, eventFromInlineDict env.model x.2)

/-- The session as the store shows it to a read with the given configuration. -/
def view (env : Env V P) (a : Addr) (config : GetSessionConfig) (w : World V P) :
    Option (Session V) :=
  (row a w).map fun r =>
    let events := eventsOf env config (logOf a w)
    ⟨a, mergeState (stateOf (w.store.get (appPk a.app))) (stateOf (w.store.get (userPk a.app a.user)))
      (stateOf (some r)), events, lastUpdate (r.ts.getD 0) events⟩

theorem alone_getSession (hw : Readable a w) (config : GetSessionConfig) :
    alone cfg inst (getSession env a config) w =
      (.ok (view env a config w), match row a w with
        | none => w
        | some r => w.setCache inst a.pkStr (some (r.cur.getD 0))) := by
  have hne : [a.sessionPk, appPk a.app, userPk a.app a.user] ≠ [] := by simp
  obtain ⟨out, hout, hbins⟩ := @alone_batchRead V P cfg inst _ hne w
  unfold getSession
  simp only [Prog.bind_eq, Prog.pure_eq]
  rw [alone_bind_ok hout, hbins a.sessionPk (by simp), hbins (appPk a.app) (by simp),
    hbins (userPk a.app a.user) (by simp)]
  rcases hr : w.store.get a.sessionPk with _ | r
  · simp [view, row, hr]
  · have hcur : (logOf a w).cur = r.cur.getD 0 := by simp [logOf, row, hr]
    have hread : Readable a (w.setCache inst a.pkStr (some (r.cur.getD 0))) := hw
    simp only [row, hr]
    rw [alone_bind_ok (alone_cacheSet _ _ w), alone_bind_ok (alone_loadEvents hread _ config)]
    simp only [view, row, hr, Option.map_some, eventsOf, hcur]
    rfl

theorem eventsOf_full (L : Log Str (InlineEvent V P)) :
    eventsOf env {} L = L.history.map fun x => (x.1, eventFromInlineDict env.model x.2) := rfl

/-- A read of a session that exists finds it and lists what its log shows. -/
theorem perform_get_found (hread : Readable a w) (hr : (row a w).isSome) (env : Env V P)
    (cfg : ServerConfig V P) (inst : ℕ) (config : GetSessionConfig) :
    ∃ session w', perform env cfg ⟨inst, .get a config⟩ w = (.ok (.found (some session)), w') ∧
      session.events = eventsOf env config (logOf a w) := by
  obtain ⟨r, hr⟩ := Option.isSome_iff_exists.mp hr
  rw [perform_get, alone_getSession hread, view, hr]
  exact ⟨_, _, rfl, rfl⟩

/-- Asking for the last `n` events cuts the list that the same read without a limit
returns. -/
theorem eventsOf_limited (n : ℕ) (T : Option ℚ) (L : Log Str (InlineEvent V P)) :
    eventsOf env ⟨some n, T⟩ L =
      (eventsOf env ⟨none, T⟩ L).drop ((eventsOf env ⟨none, T⟩ L).length - n) := by
  simp only [eventsOf, Log.recent, List.map_drop, List.length_map]

theorem Sound.isSome (h : Sound cfg a w) : (row a w).isSome := by
  obtain ⟨r, hr, -⟩ := h.live
  rw [hr]
  rfl

theorem Sound.perform_get (h : Sound cfg a w) (env : Env V P) (inst : ℕ) (config : GetSessionConfig) :
    ∃ session w', perform env cfg ⟨inst, .get a config⟩ w = (.ok (.found (some session)), w') ∧
      session.events = eventsOf env config (logOf a w) :=
  perform_get_found h.readable h.isSome env cfg inst config

end Reading

/-- A limit on the number of events keeps the end of the list, under every cutoff
and whatever the records of the session hold. -/
theorem get_numRecentEvents_suffix (env : Env V P) (cfg : ServerConfig V P) (a : Addr)
    (w : World V P) (hw : cfg.Fitting w.store) (inst n : ℕ) (T : Option ℚ) :
    (∃ w₁ w₂, perform env cfg ⟨inst, .get a ⟨none, T⟩⟩ w = (.ok (.found none), w₁) ∧
      perform env cfg ⟨inst, .get a ⟨some n, T⟩⟩ w = (.ok (.found none), w₂)) ∨
    ∃ all last w₁ w₂, perform env cfg ⟨inst, .get a ⟨none, T⟩⟩ w = (.ok (.found (some all)), w₁) ∧
      perform env cfg ⟨inst, .get a ⟨some n, T⟩⟩ w = (.ok (.found (some last)), w₂) ∧
      last.events <:+ all.events ∧ last.events.length = min n all.events.length := by
  have hread : Readable a w := hw.readable
  cases hr : row a w with
  | none =>
    have hnone : ∀ config, perform env cfg ⟨inst, .get a config⟩ w = (.ok (.found none), w) :=
      fun config => by
        rw [perform_get, alone_getSession hread, view, hr]
        rfl
    exact .inl ⟨w, w, hnone _, hnone _⟩
  | some r =>
    have hsome : (row a w).isSome := by rw [hr]; rfl
    obtain ⟨all, w₁, hall, hevents⟩ := perform_get_found hread hsome env cfg inst ⟨none, T⟩
    obtain ⟨last, w₂, hlast, hevents'⟩ := perform_get_found hread hsome env cfg inst ⟨some n, T⟩
    refine .inr ⟨all, last, w₁, w₂, hall, hlast, ?_, ?_⟩ <;>
      rw [hevents', eventsOf_limited, ← hevents]
    · exact List.drop_suffix _ _
    · rw [List.length_drop]
      omega

namespace Small

/-- A session with a full segment and one event in the next. -/
def filled : World ℕ (Event ℕ) :=
  [⟨0, .create ['a'] ['u'] ∅ (some ['s']) [] 1⟩, ⟨0, .append ⟨['a'], ['u'], ['s']⟩ (event ['p'] 5) 0⟩,
    ⟨0, .append ⟨['a'], ['u'], ['s']⟩ (event ['q'] 6) 0⟩,
    ⟨0, .append ⟨['a'], ['u'], ['s']⟩ (event ['r'] 7) 0⟩].foldl (fun w l => after env cfg l w) .empty

theorem fitting_filled : cfg.Fitting filled.store :=
  fitting_after (fitting_after (fitting_after (fitting_after fun _ _ h => nomatch h)))

end Small

open Sessions.Small in
theorem get_numRecentEvents_suffix_small :
    ∃ all last w₁ w₂,
      perform env cfg ⟨1, .get ⟨['a'], ['u'], ['s']⟩ ⟨none, some 5⟩⟩ filled = (.ok (.found (some all)), w₁) ∧
      perform env cfg ⟨1, .get ⟨['a'], ['u'], ['s']⟩ ⟨some 2, some 5⟩⟩ filled =
        (.ok (.found (some last)), w₂) ∧
      last.events <:+ all.events ∧ last.events.length = min 2 all.events.length := by
  refine (get_numRecentEvents_suffix env cfg _ filled fitting_filled 1 2 (some 5)).resolve_left ?_
  rintro ⟨w₁, -, hnone, -⟩
  have hrow : (row ⟨['a'], ['u'], ['s']⟩ filled).isSome := by decide +kernel
  obtain ⟨all, w', hall, -⟩ := perform_get_found fitting_filled.readable hrow env cfg 1 ⟨none, some 5⟩
  cases hnone.symm.trans hall

end AdkAerospike.Sessions
