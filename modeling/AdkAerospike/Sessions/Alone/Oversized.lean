import AdkAerospike.Sessions.Alone.Append
import AdkAerospike.Sessions.Alone.Read
import AdkAerospike.Sessions.Footprint

/-! `append_event` of an event that no record can hold. The segments keep their
records whatever the store looks like; what stays behind is the state delta, which
the batch commits beside the refused put, and an index that the search for room has
advanced. The session object has been updated before any of this. -/

namespace AdkAerospike.Sessions

open Program Data Codec Keys

variable {V P : Type}

/-- The event alone is over the limit: no record that holds it is within it. -/
def Oversized (cfg : ServerConfig V P) (k : Str) (v : InlineEvent V P) : Prop :=
  ∀ (r : Record V P) (m : OMap Str (InlineEvent V P)), r.events = some (m.put k v) → ¬ cfg.Fits r

/-- Nothing but the index of the session differs, and it has not gone back. -/
structure OnlyCur (a : Addr) (w w' : World V P) : Prop where
  other : ∀ key, key ≠ a.sessionPk → w'.store.get key = w.store.get key
  row : row a w' = row a w ∨
    ∃ n, (logOf a w).cur < n ∧ row a w' = some { (row a w).getD {} with cur := some n }

section Oversized
variable {cfg : ServerConfig V P} {inst : ℕ} {a : Addr} {w w' w'' : World V P} {k : Str}
  {v : InlineEvent V P} {d : Deltas V} {now : ℚ}

namespace OnlyCur

theorem refl (w : World V P) : OnlyCur a w w := ⟨fun _ _ => rfl, .inl rfl⟩

theorem of_store (h : OnlyCur a w w') (hstore : w''.store = w'.store) : OnlyCur a w w'' := by
  refine ⟨fun key hkey => ?_, ?_⟩
  · rw [hstore]
    exact h.other key hkey
  · have hrow : Sessions.row a w'' = Sessions.row a w' := by
      unfold Sessions.row
      rw [hstore]
    rw [hrow]
    exact h.row

theorem cur_le (h : OnlyCur a w w') : (logOf a w).cur ≤ (logOf a w').cur := by
  rcases h.row with hrow | ⟨n, hn, hrow⟩
  · simp only [logOf, hrow, le_refl]
  · have hcur : (logOf a w').cur = n := by simp [logOf, hrow]
    omega

theorem bins (h : OnlyCur a w w') : stateOf (Sessions.row a w') = stateOf (Sessions.row a w) ∧
    (Sessions.row a w').bind (·.ts) = (Sessions.row a w).bind (·.ts) := by
  rcases h.row with hrow | ⟨n, -, hrow⟩
  · rw [hrow]
    exact ⟨rfl, rfl⟩
  · rw [hrow]
    cases Sessions.row a w <;> exact ⟨rfl, rfl⟩

/-- The guarded increment. -/
theorem bump (h : OnlyCur a w w') (n : ℕ) :
    OnlyCur a w (w'.withStore (cfg.operate a.sessionPk [.incrementCur, .readCur] (some n) w'.store).2) := by
  refine ⟨fun key hkey => ?_, ?_⟩
  · rw [World.withStore_store, ServerConfig.operate_get_of_ne hkey]
    exact h.other key hkey
  · have hrow : Sessions.row a (w'.withStore
        (cfg.operate a.sessionPk [.incrementCur, .readCur] (some n) w'.store).2) =
        (cfg.onRecord [.incrementCur, .readCur] (some n) (Sessions.row a w')).2 :=
      ServerConfig.operate_get_self
    rw [hrow]
    rcases cfg.onRecord_snd [.incrementCur, .readCur] (some n) (Sessions.row a w') with hsame | ⟨-, hnew, -⟩
    · rw [hsame]
      exact h.row
    · have happly : (Op.apply [.incrementCur, .readCur] ((Sessions.row a w').getD {})).1 =
          { (Sessions.row a w').getD {} with cur := some ((logOf a w').cur + 1) } := by
        cases hr : Sessions.row a w' <;> simp [Op.apply, Op.write, logOf, hr]
      refine .inr ⟨(logOf a w').cur + 1, Nat.lt_succ_of_le h.cur_le, ?_⟩
      rw [hnew, happly]
      rcases h.row with hrow' | ⟨m, -, hrow'⟩ <;> rw [hrow']
      rfl

end OnlyCur

theorem Oversized.operate (h : Oversized cfg k v) (key : Key) (σ : Store V P) :
    cfg.operate key [.mapPut k v] none σ = (.error .recordTooBig, σ) := by
  have hno : ∀ r : Record V P, ¬ cfg.Fits (Op.apply [.mapPut k v] r).1 := fun r =>
    h _ (r.events.getD .empty) rfl
  unfold ServerConfig.operate ServerConfig.commit
  cases σ.get key <;> simp [Op.creates, Op.writes, hno]

/-- Whatever an append does beside its batch changes the index only. -/
theorem Oversized.step (h : Oversized cfg k v) {q : Req V P} (hq : PlaceRequest a k v q)
    (hw : OnlyCur a w w') : OnlyCur a w (exec cfg inst .calm q w').2 := by
  cases hq with
  | put g =>
    refine hw.of_store ?_
    change (cfg.operate (a.segmentPk g) [.mapPut k v] none w'.store).2 = w'.store
    rw [h.operate]
  | size g =>
    have hsame : (exec cfg inst .calm (.operate (a.segmentPk g) [.mapSize] none) w').2 = w' :=
      exec_readOnly rfl rfl w'
    rw [hsame]
    exact hw
  | bump n => exact hw.bump n
  | selectCur => exact hw
  | cacheGet => exact hw
  | cacheSet n => exact hw.of_store rfl

theorem Oversized.onlyCur {α : Type} (h : Oversized cfg k v) {p : Service V P α}
    (hp : p.Uses (PlaceRequest a k v)) (hw : OnlyCur a w w') : OnlyCur a w (alone cfg inst p w').2 :=
  hp.run_invariant (fun _ _ hq hw => h.step hq hw) hw

/-- The loop of `_place_event` never gets the event placed. -/
theorem Oversized.raises_placeLoop (h : Oversized cfg k v) (n g : ℕ) (w : World V P) :
    ∃ e, (alone cfg inst (placeLoop a k v n g) w).1 = .error e := by
  induction n generalizing g w with
  | zero => exact ⟨_, rfl⟩
  | succ n ih =>
    have hput : alone cfg inst (writeRetryingOverload (Sessions.operate (a.segmentPk g) [.mapPut k v]) true
        overloadMaxRetries) w = (.error .recordTooBig, w.withStore w.store) := by
      rw [alone_retried_operate, h.operate]
    have hplaced := alone_catching_caught (h := (.ret false : Service V P Bool))
      (alone_bind_error (f := fun _ => .ret true) hput)
    rw [placeLoop]
    simp only [Prog.bind_eq, Prog.pure_eq]
    rw [alone_bind_ok hplaced, if_neg Bool.false_ne_true]
    rcases hsize : alone cfg inst (segmentSize (a.segmentPk g)) (w.withStore w.store) with ⟨e | m, w₁⟩
    · exact ⟨e, by rw [alone_bind_error hsize]⟩
    · rw [alone_bind_ok hsize]
      split_ifs with hzero
      · exact ⟨_, rfl⟩
      · rcases hroll : alone cfg inst (rollOver a g) w₁ with ⟨e | cur, w₂⟩
        · exact ⟨e, by rw [alone_bind_error hroll]⟩
        · rw [alone_bind_ok hroll]
          exact ih cur w₂

theorem Oversized.raises_placeEvent (h : Oversized cfg k v) (g : ℕ) (afterOverflow : Bool)
    (w : World V P) : ∃ e, (alone cfg inst (placeEvent a g k v afterOverflow) w).1 = .error e := by
  cases afterOverflow with
  | false => exact h.raises_placeLoop _ g w
  | true =>
    rw [placeEvent]
    simp only [Prog.bind_eq, if_true]
    rcases hroll : alone cfg inst (rollOver a g) w with ⟨e | cur, w₁⟩
    · exact ⟨e, by rw [alone_bind_error hroll]⟩
    · rw [alone_bind_ok hroll]
      exact h.raises_placeLoop _ cur w₁

/-! ### The whole append -/

/-- `_current_segment` finds some index and stores nothing. -/
theorem alone_currentSegment (w : World V P) :
    ∃ g w₁, alone cfg inst (currentSegment a) w = (.ok g, w₁) ∧ w₁.store = w.store := by
  unfold currentSegment
  simp only [Prog.bind_eq, Prog.pure_eq]
  rw [alone_bind_ok (alone_cacheGet _ w)]
  cases w.cache inst a.pkStr with
  | some n => exact ⟨n, w, rfl, rfl⟩
  | none =>
    have hsel : alone cfg inst (selectCur a.sessionPk) w = _ := alone_selectCur _ w
    dsimp only
    cases hr : w.store.get a.sessionPk with
    | none =>
      rw [ServerConfig.fetch, hr] at hsel
      rw [alone_bind_ok (alone_catching_caught (alone_bind_error hsel)),
        alone_bind_ok (alone_cacheSet _ _ _)]
      exact ⟨_, _, rfl, rfl⟩
    | some r =>
      rw [ServerConfig.fetch, hr] at hsel
      rw [alone_bind_ok (alone_catching_ok (alone_bind_ok hsel)), alone_bind_ok (alone_cacheSet _ _ _)]
      exact ⟨_, _, rfl, rfl⟩

/-- The call raises and leaves the state writes and the index behind, nothing else. -/
theorem Oversized.append (h : Oversized cfg k v) (inst : ℕ) (a : Addr) (d : Deltas V) (now : ℚ)
    (w : World V P) :
    OnlyCur a (stated cfg a d now w) (alone cfg inst (appendEventRecord a k v d now) w).2 ∧
      ∃ e, (alone cfg inst (appendEventRecord a k v d now) w).1 = .error e := by
  obtain ⟨g, w₁, hcur, hstore⟩ := @alone_currentSegment V P cfg inst a w
  rw [appendEventRecord]
  simp only [Prog.bind_eq]
  rw [alone_bind_ok hcur]
  cases hd : d.writes with
  | false =>
    rw [Deltas.writes, Bool.not_eq_false'] at hd
    have hsame : OnlyCur a (stated cfg a d now w) w₁ := by
      rw [stated_of_not_writes (by rw [Deltas.writes, hd]; rfl)]
      exact (OnlyCur.refl w).of_store hstore
    rw [if_pos hd]
    exact ⟨h.onlyCur (uses_placeEvent g false) hsame, h.raises_placeEvent g false w₁⟩
  | true =>
    rw [Deltas.writes, Bool.not_eq_true'] at hd
    -- the put of the batch is refused, its state writes go through as they would alone
    have hbatch : cfg.batchWrite (fun _ => .none)
        ((a.segmentPk g, [.mapPut k v]) :: stateWrites a d now) w₁.store =
        (Err.recordTooBig.code :: (cfg.batchWrite (fun _ => .none) (stateWrites a d now) w₁.store).1,
          (cfg.batchWrite (fun _ => .none) (stateWrites a d now) w₁.store).2) := by
      have hput : under Fault.none (cfg.operate (a.segmentPk g) [.mapPut k v] none) w₁.store =
          (.error .recordTooBig, w₁.store) := h.operate _ _
      rw [ServerConfig.batchWrite, hput]
      rfl
    have hrun := @alone_batchWriteWithRetry V P cfg inst
      ((a.segmentPk g, [.mapPut k v]) :: stateWrites a d now) overloadMaxRetries w₁
    rw [hbatch] at hrun
    rw [hd, if_neg Bool.false_ne_true, alone_bind_ok hrun]
    generalize hw₂ : w₁.withStore (cfg.batchWrite (fun _ => .none) (stateWrites a d now) w₁.store).2 = w₂
    have hsame : OnlyCur a (stated cfg a d now w) w₂ := by
      refine (OnlyCur.refl _).of_store ?_
      rw [← hw₂, World.withStore_store, hstore]
      rfl
    refine ⟨h.onlyCur (uses_finishBatch g _) hsame, ?_⟩
    rw [finishBatch]
    cases (cfg.batchWrite (fun _ => .none) (stateWrites a d now) w₁.store).1.find? (· ≠ 0) with
    | some r => exact ⟨_, rfl⟩
    | none =>
      rw [if_neg (by decide), if_pos rfl]
      exact h.raises_placeEvent g true w₂

/-! ### The state writes -/

/-- A state write that is not refused leaves the record updated. -/
theorem StateFits.get (hfits : StateFits cfg a d now w) {x : Key × List (Op V P)}
    (hx : x ∈ stateWrites a d now) :
    (stated cfg a d now w).store.get x.1 = some (Op.apply x.2 ((w.store.get x.1).getD {})).1 := by
  have hget : (stated cfg a d now w).store.get x.1 = (cfg.onRecord x.2 none (w.store.get x.1)).2 :=
    ServerConfig.batchWrite_get (stateWrites_nodup a d now) hx
  have hcreates : x.2.any Op.creates := by
    rcases mem_stateWrites.mp hx with ⟨-, rfl⟩ | ⟨-, rfl⟩ | ⟨-, rfl⟩ <;> rfl
  have hok := hfits x hx
  rw [hget]
  unfold ServerConfig.onRecord ServerConfig.commitRecord at hok ⊢
  have hwrites : x.2.any Op.writes := by
    rcases mem_stateWrites.mp hx with ⟨-, rfl⟩ | ⟨-, rfl⟩ | ⟨-, rfl⟩ <;> rfl
  cases hr : w.store.get x.1 with
  | none =>
    rw [hr] at hok
    simp only [hcreates, if_true, Option.isSome_none, Bool.false_and, Bool.false_eq_true,
      if_false] at hok ⊢
    split_ifs at hok ⊢ with hfit
    · rfl
    · exact absurd rfl hok
  | some r =>
    rw [hr] at hok
    simp only [Option.all_none, if_true, hwrites] at hok ⊢
    split_ifs at hok ⊢ with hfit
    · rfl
    · exact absurd rfl hok

/-- The state writes leave the index alone. -/
theorem cur_stated : (logOf a (stated cfg a d now w)).cur = (logOf a w).cur := by
  by_cases hmem : a.sessionPk ∈ (stateWrites a d now : List (Key × List (Op V P))).map Prod.fst
  · obtain ⟨⟨key, ops⟩, hx, rfl : key = a.sessionPk⟩ := List.mem_map.mp hmem
    have hrow : row a (stated cfg a d now w) = (cfg.onRecord ops none (row a w)).2 :=
      ServerConfig.batchWrite_get (stateWrites_nodup a d now) hx
    rcases cfg.onRecord_snd ops none (row a w) with hsame | ⟨-, hnew, -⟩
    · simp only [logOf, hrow, hsame]
    · obtain ⟨s, t, happly⟩ := apply_stateOnly (stateWrites_stateOnly hx) ((row a w).getD {})
      simp only [logOf, hrow, hnew, happly]
      cases row a w <;> rfl
  · have hrow : row a (stated cfg a d now w) = row a w := ServerConfig.batchWrite_get_of_notMem _ hmem
    simp only [logOf, hrow]

theorem update_of_isEmpty {delta : Dict V} (h : delta.entries.isEmpty) (m : Dict V) :
    FMap.update m delta = m := by
  have hempty : delta = ∅ := AList.ext (List.isEmpty_iff.mp h)
  rw [hempty, FMap.update, AList.empty_union]

/-- The state maps after the state writes, and the time of the row. -/
theorem StateFits.states (hfits : StateFits cfg a d now w) :
    stateOf (row a (stated cfg a d now w)) = FMap.update (stateOf (row a w)) d.session ∧
    (row a (stated cfg a d now w)).bind (·.ts) =
      (if d.session.entries.isEmpty then (row a w).bind (·.ts) else some now) ∧
    stateOf ((stated cfg a d now w).store.get (appPk a.app)) =
      FMap.update (stateOf (w.store.get (appPk a.app))) d.app ∧
    stateOf ((stated cfg a d now w).store.get (userPk a.app a.user)) =
      FMap.update (stateOf (w.store.get (userPk a.app a.user))) d.user := by
  have h₁ : a.sessionPk ≠ appPk a.app := fun h => by cases congrArg Key.set h
  have h₂ : a.sessionPk ≠ userPk a.app a.user := fun h => by cases congrArg Key.set h
  have h₃ : appPk a.app ≠ userPk a.app a.user := fun h => by cases congrArg Key.set h
  have hkeep : ∀ key, key ∉ (stateWrites a d now : List (Key × List (Op V P))).map Prod.fst →
      (stated cfg a d now w).store.get key = w.store.get key := fun key hkey =>
    ServerConfig.batchWrite_get_of_notMem _ hkey
  have hstate : ∀ (r : Option (Record V P)) (delta : Dict V),
      stateOf (some (Op.apply [.mapPutItems delta] (r.getD {})).1) = FMap.update (stateOf r) delta := by
    intro r delta
    cases r <;> rfl
  refine ⟨?_, ?_, ?_, ?_⟩
  · by_cases he : d.session.entries.isEmpty
    · rw [row, hkeep _ (by unfold stateWrites; split_ifs <;> simp [h₁, h₂]), update_of_isEmpty he]
      rfl
    · rw [row, hfits.get (mem_stateWrites.mpr (.inl ⟨by simpa using he, rfl⟩))]
      unfold row
      cases w.store.get a.sessionPk <;> rfl
  · split_ifs with he
    · rw [row, hkeep _ (by unfold stateWrites; split_ifs <;> simp [h₁, h₂])]
      rfl
    · rw [row, hfits.get (mem_stateWrites.mpr (.inl ⟨by simpa using he, rfl⟩))]
      rfl
  · by_cases he : d.app.entries.isEmpty
    · rw [hkeep _ (by unfold stateWrites; split_ifs <;> simp [h₁.symm, h₃]), update_of_isEmpty he]
    · rw [hfits.get (mem_stateWrites.mpr (.inr (.inl ⟨by simpa using he, rfl⟩)))]
      exact hstate _ _
  · by_cases he : d.user.entries.isEmpty
    · rw [hkeep _ (by unfold stateWrites; split_ifs <;> simp [h₂.symm, h₃.symm]), update_of_isEmpty he]
    · rw [hfits.get (mem_stateWrites.mpr (.inr (.inr ⟨by simpa using he, rfl⟩)))]
      exact hstate _ _

/-- Where nothing is stored past the index, it advances once at most. -/
theorem Oversized.cur_le (h : Oversized cfg k v) (hs : Sound cfg a w) (hL : (logOf a w).Topped)
    (inst : ℕ) (hfits : StateFits cfg a d now w) :
    (logOf a (alone cfg inst (appendEventRecord a k v d now) w).2).cur ≤ (logOf a w).cur + 1 := by
  obtain ⟨r, hr, -⟩ := (hs.keeps_stated d now).2.live
  have halone : ¬ cfg.SegFits (OMap.empty.put k v) := h _ OMap.empty rfl
  rw [(hs.alone_append inst hfits hr).log]
  exact Log.append_cur_le halone hL _ _ _

end Oversized

/-- What the service relies on: the base class hands a whole event on as such, after
it has applied its delta, temporary keys included, to the state of the session object
and appended the event to the events there. -/
structure BaseSessionService.Applies (base : BaseSessionService V) : Prop where
  whole : ∀ e, e.isPartial = false → (base.event e).isPartial = false
  state : ∀ s e, e.isPartial = false →
    (base.session s e).state = FMap.update s.state e.stateDelta
  events : ∀ s e, e.isPartial = false →
    (base.session s e).events.map Prod.snd = s.events.map Prod.snd ++ [base.event e]

/-- `append_event` of an event that no record can hold, on any store whose state
records have room: the call raises and the segments are as before. What it leaves is
the delta in the three state maps, the event's time in the row if the delta is the
session's, an index that has not gone back (and where nothing is stored past it, has
advanced once at most), and the session object as the base class updated it. -/
theorem oversized_append_leaves_segments (env : Env V P) (cfg : ServerConfig V P)
    (base : BaseSessionService V) (hbase : base.Applies) (s : Session V) (e : Event V) (clock : ℚ)
    (hwhole : e.isPartial = false) (inst : ℕ) (w : World V P)
    (hbig : Oversized cfg (eventKey env (base.event e) clock) (eventToInlineDict env.model (base.event e)))
    (hroom : StateFits cfg s.addr (partitionState (base.event e).stateDelta)
      (eventTime (base.event e) clock) w) :
    let out := alone cfg inst (appendEvent env base s e clock).2 w
    let d := partitionState (base.event e).stateDelta
    (∃ err, out.1 = .error err) ∧
    (∀ g, out.2.store.get (s.addr.segmentPk g) = w.store.get (s.addr.segmentPk g)) ∧
    ((logOf s.addr w).cur ≤ (logOf s.addr out.2).cur ∧
      (Sound cfg s.addr w → (logOf s.addr w).Topped →
        (logOf s.addr out.2).cur ≤ (logOf s.addr w).cur + 1)) ∧
    (stateOf (row s.addr out.2) = FMap.update (stateOf (row s.addr w)) d.session ∧
      stateOf (out.2.store.get (appPk s.addr.app)) =
        FMap.update (stateOf (w.store.get (appPk s.addr.app))) d.app ∧
      stateOf (out.2.store.get (userPk s.addr.app s.addr.user)) =
        FMap.update (stateOf (w.store.get (userPk s.addr.app s.addr.user))) d.user) ∧
    (row s.addr out.2).bind (·.ts) =
      (if d.session.entries.isEmpty then (row s.addr w).bind (·.ts)
        else some (eventTime (base.event e) clock)) ∧
    (appendEvent env base s e clock).1.state = FMap.update s.state e.stateDelta ∧
    (appendEvent env base s e clock).1.events.map Prod.snd = s.events.map Prod.snd ++ [base.event e] := by
  intro out d
  have hpersist : persistEvent env s.addr (base.event e) clock =
      appendEventRecord s.addr (eventKey env (base.event e) clock)
        (eventToInlineDict env.model (base.event e)) d (eventTime (base.event e) clock) := by
    simp [persistEvent, hbase.whole e hwhole, d]
  obtain ⟨honly, err, herr⟩ := hbig.append inst s.addr d (eventTime (base.event e) clock) w
  have hcurle := fun hs hL => hbig.cur_le (a := s.addr) hs hL inst hroom
  rw [← hpersist] at honly herr
  have hout : out = (.error err, (alone cfg inst (persistEvent env s.addr (base.event e) clock) w).2) :=
    alone_bind_error (Prod.ext herr rfl)
  have hstated := hroom.states
  have hcur := @cur_stated V P cfg s.addr w d (eventTime (base.event e) clock)
  rw [hout]
  refine ⟨⟨err, rfl⟩, fun g => ?_, ⟨?_, ?_⟩, ⟨?_, ?_, ?_⟩, ?_, hbase.state s e hwhole, hbase.events s e hwhole⟩
  · rw [honly.other _ (segmentPk_ne_sessionPk _ g)]
    exact ServerConfig.batchWrite_get_of_notMem _ (segmentPk_notMem_stateWrites _ _ g)
  · rw [← hcur]
    exact honly.cur_le
  · rw [hpersist]
    exact hcurle
  · rw [honly.bins.1, hstated.1]
  · rw [honly.other _ (fun h => by cases congrArg Key.set h), hstated.2.2.1]
  · rw [honly.other _ (fun h => by cases congrArg Key.set h), hstated.2.2.2]
  · rw [honly.bins.2, hstated.2.1]

namespace Small

/-- An event too big for any segment, with a state delta. -/
def oversized : Event ℕ := { event ['y'] 6 5 with stateDelta := (∅ : Dict ℕ).insert ['k'] 1 }

/-- The base class, with no key known for the event it appends. -/
def base : BaseSessionService ℕ where
  session s e :=
    { s with state := FMap.update s.state e.stateDelta, events := s.events ++ [([], e)] }
  event e := e

theorem base_applies : base.Applies := ⟨fun _ h => h, fun _ _ _ => rfl, fun _ _ _ => by simp [base]⟩

theorem weight_le_foldr {x : Str × InlineEvent ℕ (Event ℕ)} {l : List (Str × InlineEvent ℕ (Event ℕ))}
    (hx : x ∈ l) : weight x ≤ l.foldr (fun x n => weight x + n) 0 := by
  induction l with
  | nil => cases hx
  | cons y l ih =>
    rw [List.foldr_cons]
    rcases List.mem_cons.mp hx with rfl | hx
    · exact Nat.le_add_right _ _
    · exact (ih hx).trans (Nat.le_add_left _ _)

theorem oversized_oversized (k : Str) : Oversized cfg k (eventToInlineDict env.model oversized) := by
  intro r m hm hfits
  have hle : weight (k, eventToInlineDict env.model oversized) ≤ size r := by
    rw [size, hm]
    exact weight_le_foldr (OMap.mem_entries_put.mpr (.inl rfl))
  have hweight : weight (k, eventToInlineDict env.model oversized) = 6 := rfl
  have hsize : size r ≤ 2 := hfits
  omega

/-- The session object of a client that has seen no event. -/
def client : Session ℕ := ⟨⟨['a'], ['u'], ['s']⟩, ∅, [], 1⟩

theorem stateFits_filled : StateFits cfg client.addr (partitionState oversized.stateDelta)
    (eventTime oversized 0) filled := by
  intro x hx
  rcases mem_stateWrites.mp hx with ⟨-, rfl⟩ | ⟨hne, -⟩ | ⟨hne, -⟩
  · exact fun h => by cases h
  · exact absurd rfl hne
  · exact absurd rfl hne

end Small

open Sessions.Small in
theorem oversized_append_leaves_segments_small :
    let out := alone cfg 0 (appendEvent env base client oversized 0).2 filled
    (∃ err, out.1 = .error err) ∧
    (∀ g, out.2.store.get (client.addr.segmentPk g) = filled.store.get (client.addr.segmentPk g)) ∧
    (logOf client.addr filled).cur ≤ (logOf client.addr out.2).cur := by
  obtain ⟨herr, hsegs, ⟨hcur, -⟩, -⟩ := oversized_append_leaves_segments env cfg base base_applies
    client oversized 0 rfl 0 filled (oversized_oversized _) stateFits_filled
  exact ⟨herr, hsegs, hcur⟩

open Sessions.Small in
/-- The rejected event leaves an advanced index, its delta in the stored state, its
time in the row, and itself in the session object. -/
theorem oversized_append_leaves_traces :
    let out := alone cfg 0 (appendEvent env base client oversized 0).2 filled
    Oversized cfg (eventKey env oversized 0) (eventToInlineDict env.model oversized) ∧
    out.1.map (fun _ => ()) = .error .recordTooBig ∧
    (logOf client.addr out.2).cur ≠ (logOf client.addr filled).cur ∧
    (stateOf (row client.addr out.2)).get ['k'] ≠ (stateOf (row client.addr filled)).get ['k'] ∧
    (row client.addr out.2).bind (·.ts) ≠ (row client.addr filled).bind (·.ts) ∧
    (appendEvent env base client oversized 0).1.events ≠ client.events := by
  refine ⟨oversized_oversized _, ?_, ?_, ?_, ?_, ?_⟩
  · rfl
  · decide +kernel
  · decide +kernel
  · decide +kernel
  · simp [appendEvent, base, client]

end AdkAerospike.Sessions
