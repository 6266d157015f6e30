import AdkAerospike.Sessions.Alone.Basic

/-! `append_event` run alone simulates `Log.append` on the session's log. The
state writes of the event go to the row and to the shared state records beside it;
if one of them is refused, the call raises after the batch has been applied. -/

namespace AdkAerospike.Sessions

open Program Data Codec Keys

variable {V P : Type} {cfg : ServerConfig V P} {inst : ℕ} {a : Addr} {w w' : World V P}
  {k : Str} {v : InlineEvent V P} {g n : ℕ} {r : Record V P}

/-- What placing an event leaves alone: all records but the session's, the row but
for its index, and what is cached for other sessions or by other instances. -/
structure Touched (a : Addr) (inst : ℕ) (w w' : World V P) : Prop where
  other : ∀ key, key ≠ a.sessionPk → (∀ g, key ≠ a.segmentPk g) →
    w'.store.get key = w.store.get key
  row : row a w' = (row a w).map fun r => { r with cur := some (logOf a w').cur }
  cache : ∀ i pk, i ≠ inst ∨ pk ≠ a.pkStr → w'.cache i pk = w.cache i pk

/-- The row with the index `n` is within the size limit. -/
def Grows (cfg : ServerConfig V P) (r : Record V P) (n : ℕ) : Prop :=
  cfg.Fits { r with cur := some n }

instance (cfg : ServerConfig V P) (r : Record V P) : DecidablePred (Grows cfg r) := fun n =>
  inferInstanceAs (Decidable (cfg.Fits { r with cur := some n }))

theorem Sound.row_self (h : Sound cfg a w) :
    row a w = (row a w).map fun r => { r with cur := some (logOf a w).cur } := by
  obtain ⟨r, hr, hc⟩ := h.live
  rw [hr, Option.map_some, ← hc]

theorem Touched.trans {w₁ w₂ w₃ : World V P} (h₁ : Touched a inst w₁ w₂) (h₂ : Touched a inst w₂ w₃) :
    Touched a inst w₁ w₃ where
  other key hrow hseg := (h₂.other key hrow hseg).trans (h₁.other key hrow hseg)
  row := by
    rw [h₂.row, h₁.row, Option.map_map]
    rfl
  cache i pk hne := (h₂.cache i pk hne).trans (h₁.cache i pk hne)

theorem Touched.setCache (h : Touched a inst w w') (m : Option ℕ) :
    Touched a inst w (w'.setCache inst a.pkStr m) where
  other := h.other
  row := h.row
  cache i pk hne := (World.setCache_of_ne w' m hne).trans (h.cache i pk hne)

theorem Sound.touched (h : Sound cfg a w) : Touched a inst w w := ⟨fun _ _ _ => rfl, h.row_self, fun _ _ _ => rfl⟩

/-! ### One attempt -/

theorem operate_store_of_error {key : Key} {ops : List (Op V P)} {guard : Option ℕ} {σ : Store V P}
    {e : Err} (h : (cfg.operate key ops guard σ).1 = .error e) :
    (cfg.operate key ops guard σ).2 = σ := by
  unfold ServerConfig.operate ServerConfig.commit at h ⊢
  split at h
  · split_ifs at h ⊢ <;> rfl
  · split_ifs at h ⊢ <;> rfl

/-- The put of `_place_event`: it goes through, or it changes nothing. -/
theorem Sound.alone_put (h : Sound cfg a w) (inst : ℕ) :
    let out := alone cfg inst (writeRetryingOverload (operate (a.segmentPk g) [.mapPut k v]) true
      overloadMaxRetries) w
    (cfg.SegFits ((segment a w g).put k v) → out.1 = .ok {} ∧ logOf a out.2 = (logOf a w).put g k v ∧
      Sound cfg a out.2 ∧ Touched a inst w out.2 ∧ out.2.cache = w.cache) ∧
    (¬ cfg.SegFits ((segment a w g).put k v) → out = (.error .recordTooBig, w)) := by
  intro out
  have hout : out = _ := alone_retried_operate _ _ none _ _ w
  obtain ⟨hres, hsound⟩ := h.store_put (g := g) (k := k) (v := v)
  rw [hout]
  refine ⟨fun hfits => ?_, fun hfits => ?_⟩
  · obtain ⟨hans, hput⟩ := hres.resolve_right fun hno => hno.2.1 hfits
    have hrow : row a (w.withStore (cfg.operate (a.segmentPk g) [.mapPut k v] none w.store).2) = row a w :=
      ServerConfig.operate_get_of_ne (segmentPk_ne_sessionPk a g).symm
    refine ⟨hans, hput.2, hsound, ⟨fun key _ hseg => ?_, ?_, fun _ _ _ => rfl⟩, rfl⟩
    · exact ServerConfig.operate_get_of_ne (hseg g)
    · rw [hput.2, Log.put_cur, hrow]
      exact h.row_self
  · obtain ⟨hans, -, -⟩ := hres.resolve_left fun hyes => hfits hyes.2.1
    rw [hans, operate_store_of_error hans]
    rfl

theorem Sound.alone_segmentSize (h : Sound cfg a w) (g : ℕ) :
    alone cfg inst (segmentSize (a.segmentPk g)) w = (.ok (segment a w g).size, w) := by
  unfold segmentSize
  simp only [Prog.bind_eq, Prog.pure_eq]
  have hop : alone cfg inst (operate (a.segmentPk g) [.mapSize]) w = _ := alone_operate _ _ none w
  rcases h.operate_size g with ⟨herr, hseg⟩ | hok
  · rw [herr] at hop
    rw [alone_catching_caught (alone_bind_error hop), hseg]
    rfl
  · rw [hok] at hop
    rw [alone_catching_ok (alone_bind_ok hop)]
    rfl

/-- The guarded increment where the guard holds and the row takes the next index. -/
theorem Sound.operate_bump (h : Sound cfg a w) (inst : ℕ) (hr : row a w = some r) {n : ℕ} (hcur : (logOf a w).cur = n)
    (hfits : Grows cfg r (n + 1)) :
    ∃ σ, cfg.operate a.sessionPk [.incrementCur, .readCur] (some n) w.store = (.ok { cur := some (n + 1) }, σ) ∧
      logOf a (w.withStore σ) = { logOf a w with cur := n + 1 } ∧ Sound cfg a (w.withStore σ) ∧
      Touched a inst w (w.withStore σ) := by
  obtain ⟨r', hr', hc⟩ := h.live
  rw [hr, Option.some.injEq] at hr'
  subst hr'
  have hrecord : cfg.onRecord [.incrementCur, .readCur] (some n) (w.store.get a.sessionPk) =
      (.ok { cur := some (n + 1) }, some { r with cur := some (n + 1) }) := by
    rw [show w.store.get a.sessionPk = some r from hr, onRecord_bump r hc, if_pos hcur]
    exact if_pos hfits
  obtain ⟨hres, hsound⟩ := h.store_bump (n := n)
  have hans : (cfg.operate a.sessionPk [.incrementCur, .readCur] (some n) w.store).1 = .ok { cur := some (n + 1) } := by
    rw [ServerConfig.operate_fst, hrecord]
  have hlog : logOf a (w.withStore (cfg.operate a.sessionPk [.incrementCur, .readCur] (some n) w.store).2) =
      { logOf a w with cur := n + 1 } := by
    rcases hres with ⟨-, -, hlog⟩ | ⟨-, hno, -⟩ | ⟨hno, -⟩
    · exact hlog
    · exact absurd hcur hno
    · rw [hans] at hno
      cases hno
  refine ⟨_, Prod.ext hans rfl, hlog, hsound, fun key hkey _ => ?_, ?_, fun _ _ _ => rfl⟩
  · rw [World.withStore_store]
    exact ServerConfig.operate_get_of_ne hkey
  · rw [hr, hlog]
    change (cfg.operate a.sessionPk [.incrementCur, .readCur] (some n) w.store).2.get a.sessionPk = _
    rw [ServerConfig.operate_get_self, hrecord]
    rfl

/-- `_roll_over` advances the index, or finds it advanced, or fails because the row
cannot take another index. -/
theorem Sound.alone_rollOver (h : Sound cfg a w) (inst : ℕ) (hr : row a w = some r) (n : ℕ) :
    ((logOf a w).cur = n ∧ ¬ Grows cfg r (n + 1) →
      alone cfg inst (rollOver a n) w = (.error .recordTooBig, w)) ∧
    (¬ ((logOf a w).cur = n ∧ ¬ Grows cfg r (n + 1)) →
      ∃ w', alone cfg inst (rollOver a n) w = (.ok (logOf a w').cur, w') ∧
        logOf a w' = (logOf a w).rollOver n ∧ Sound cfg a w' ∧ Touched a inst w w' ∧
        w'.cache inst a.pkStr = some (logOf a w').cur) := by
  obtain ⟨r', hr', hc⟩ := h.live
  rw [hr, Option.some.injEq] at hr'
  subst hr'
  have hget : w.store.get a.sessionPk = some r := hr
  have hop : alone cfg inst (writeRetryingOverload
      (operate a.sessionPk [.incrementCur, .readCur] (some n)) true overloadMaxRetries) w = _ :=
    alone_retried_operate _ _ _ _ _ w
  have hans : (cfg.operate a.sessionPk [.incrementCur, .readCur] (some n) w.store).1 = _ :=
    ServerConfig.operate_fst
  rw [hget, onRecord_bump r hc] at hans
  unfold rollOver
  simp only [Prog.bind_eq, Prog.pure_eq]
  refine ⟨fun hstuck => ?_, fun hgo => ?_⟩
  · rw [if_pos hstuck.1, if_neg (show ¬ cfg.Fits { r with cur := some (n + 1) } from hstuck.2)] at hans
    rw [hans, operate_store_of_error hans] at hop
    exact alone_bind_error (alone_catching_error (alone_bind_error hop) (by decide))
  · by_cases hcur : (logOf a w).cur = n
    · obtain ⟨σ, hdone, hlog, hsound, htouched⟩ :=
        h.operate_bump inst hr hcur (not_not.mp fun hno => hgo ⟨hcur, hno⟩)
      rw [hdone] at hop
      refine ⟨(w.withStore σ).setCache inst a.pkStr (some (n + 1)), ?_, ?_, ?_, htouched.setCache _, ?_⟩
      · rw [alone_bind_ok (alone_catching_ok (alone_bind_ok hop)), alone_bind_ok (alone_cacheSet _ _ _)]
        change (Except.ok (n + 1), _) = (Except.ok (logOf a (w.withStore σ)).cur, _)
        rw [hlog]
        rfl
      · change logOf a (w.withStore σ) = _
        rw [hlog, Log.rollOver, if_pos hcur]
      · exact hsound.congr rfl fun _ => rfl
      · change _ = some (logOf a (w.withStore σ)).cur
        rw [hlog, World.setCache_self]
    · rw [if_neg hcur] at hans
      rw [hans, operate_store_of_error hans] at hop
      have hsel : alone cfg inst (selectCur a.sessionPk) w = (.ok (some (logOf a w).cur), w) := by
        rw [alone_selectCur, ServerConfig.fetch, hget, ← hc]
        rfl
      refine ⟨w.setCache inst a.pkStr (some (logOf a w).cur), ?_, ?_, ?_, ?_, ?_⟩
      · rw [alone_bind_ok ((alone_catching_caught (alone_bind_error hop)).trans (alone_bind_ok hsel)),
          alone_bind_ok (alone_cacheSet _ _ _)]
        rfl
      · rw [Log.rollOver, if_neg hcur]
        rfl
      · exact h.congr rfl fun _ => rfl
      · exact h.touched.setCache _
      · exact World.setCache_self _ _ _ _

/-! ### Placing an event -/

/-- The outcome of an append as its abstract counterpart `res` tells it: the log it
leaves, the index it caches, and whether it returns. -/
structure Appends (cfg : ServerConfig V P) (a : Addr) (inst : ℕ) (w : World V P)
    (res : Except Bool ℕ × Log Str (InlineEvent V P)) (out : Except Err Unit × World V P) : Prop where
  log : logOf a out.2 = res.2
  sound : Sound cfg a out.2
  touched : Touched a inst w out.2
  ok : ∀ j, res.1 = .ok j → out.1 = .ok () ∧ out.2.cache inst a.pkStr = some j
  error : ∀ b, res.1 = .error b → (∃ e, out.1 = .error e) ∧
    (out.2.cache inst a.pkStr = some res.2.cur ∨
      out.2.cache inst a.pkStr = w.cache inst a.pkStr ∧ res.2.cur = (logOf a w).cur)

section Appends
variable {res : Except Bool ℕ × Log Str (InlineEvent V P)} {out : Except Err Unit × World V P}

/-- What comes before an append and caches the current index changes nothing else. -/
theorem Appends.after (ht : Touched a inst w w') (hc : w'.cache inst a.pkStr = some (logOf a w').cur)
    (h : Appends cfg a inst w' res out) : Appends cfg a inst w res out where
  log := h.log
  sound := h.sound
  touched := ht.trans h.touched
  ok := h.ok
  error b hb := by
    obtain ⟨hraised, hcache⟩ := h.error b hb
    refine ⟨hraised, .inl ?_⟩
    rcases hcache with hcache | ⟨hcache, hcur⟩
    · exact hcache
    · rw [hcache, hc, hcur]

theorem Appends.failed (h : Sound cfg a w) (b : Bool) (e : Err) :
    Appends cfg a inst w (.error b, logOf a w) (.error e, w) where
  log := rfl
  sound := h
  touched := h.touched
  ok j hj := by cases hj
  error b hb := ⟨⟨e, rfl⟩, .inr ⟨rfl, rfl⟩⟩

end Appends

/-- The loop of `_place_event`, by induction on the attempts left. Between two of
them the row changes in its index only. -/
theorem alone_placeLoop (n : ℕ) (w : World V P) (g : ℕ) (h : Sound cfg a w)
    (hr : ∃ c, row a w = some { r with cur := c }) :
    Appends cfg a inst w (Log.place cfg.SegFits (Grows cfg r) k v n (logOf a w) g)
      (alone cfg inst (placeLoop a k v n g) w) := by
  induction n generalizing w g with
  | zero => exact .failed h false _
  | succ n ih =>
    obtain ⟨hfit, hrefuse⟩ := h.alone_put (g := g) (k := k) (v := v) inst
    rw [placeLoop, Log.place]
    simp only [Prog.bind_eq, Prog.pure_eq]
    by_cases hfits : cfg.SegFits ((segment a w g).put k v)
    · obtain ⟨hans, hlog, hsound, htouched, hcache⟩ := hfit hfits
      have hput := alone_catching_ok (e := .recordTooBig) (h := (.ret false : Service V P Bool))
        (alone_bind_ok (f := fun _ => .ret true) (Prod.ext hans rfl))
      rw [if_pos (show cfg.SegFits (((logOf a w).seg g).put k v) from hfits), alone_bind_ok hput,
        if_pos rfl, alone_cacheSet]
      refine ⟨hlog, hsound.congr rfl fun _ => rfl, htouched.setCache _, fun j hj => ?_, fun b hb => by cases hb⟩
      cases hj
      exact ⟨rfl, World.setCache_self _ _ _ _⟩
    · have hput := alone_catching_caught (h := (.ret false : Service V P Bool))
        (alone_bind_error (f := fun _ => .ret true) (hrefuse hfits))
      rw [if_neg (show ¬ cfg.SegFits (((logOf a w).seg g).put k v) from hfits), alone_bind_ok hput,
        if_neg Bool.false_ne_true, alone_bind_ok (h.alone_segmentSize g)]
      change Appends cfg a inst w (if (segment a w g).size = 0 then _ else _) _
      split_ifs with hzero hstuck
      · exact .failed h true _
      · obtain ⟨c, hc⟩ := hr
        rw [alone_bind_error ((h.alone_rollOver inst hc g).1 hstuck)]
        exact .failed h true _
      · obtain ⟨c, hc⟩ := hr
        obtain ⟨w', hroll, hlog, hsound, htouched, hcache⟩ := (h.alone_rollOver inst hc g).2 hstuck
        have hrow : row a w' = some { r with cur := some (logOf a w').cur } := by
          rw [htouched.row, hc]
          rfl
        rw [alone_bind_ok hroll, ← hlog]
        exact (ih w' _ hsound ⟨_, hrow⟩).after htouched hcache

/-! ### The batch -/

section Batch
variable {d : Deltas V} {now : ℚ}

/-- The world after the state writes of an event. -/
def stated (cfg : ServerConfig V P) (a : Addr) (d : Deltas V) (now : ℚ) (w : World V P) : World V P :=
  w.withStore (cfg.batchWrite (fun _ => .none) (stateWrites a d now) w.store).2

/-- No state write of the event is refused. -/
def StateFits (cfg : ServerConfig V P) (a : Addr) (d : Deltas V) (now : ℚ) (w : World V P) : Prop :=
  ∀ x ∈ stateWrites a d now, (cfg.onRecord x.2 none (w.store.get x.1)).1 ≠ .error .recordTooBig

/-- The records that the state writes leave depend on what each finds only. -/
theorem get_stateWrites {σ σ' : Store V P} {key : Key} (h : σ'.get key = σ.get key) :
    (cfg.batchWrite (fun _ => .none) (stateWrites a d now) σ').2.get key =
      (cfg.batchWrite (fun _ => .none) (stateWrites a d now) σ).2.get key := by
  by_cases hmem : key ∈ (stateWrites a d now : List (Key × List (Op V P))).map Prod.fst
  · obtain ⟨⟨key', ops⟩, hx, rfl⟩ := List.mem_map.mp hmem
    rw [ServerConfig.batchWrite_get (stateWrites_nodup a d now) hx,
      ServerConfig.batchWrite_get (stateWrites_nodup a d now) hx, h]
  · rw [ServerConfig.batchWrite_get_of_notMem _ hmem, ServerConfig.batchWrite_get_of_notMem _ hmem, h]

/-- The state writes keep the log. -/
theorem Sound.keeps_stated (h : Sound cfg a w) (d : Deltas V) (now : ℚ) :
    logOf a (stated cfg a d now w) = logOf a w ∧ Sound cfg a (stated cfg a d now w) := by
  obtain ⟨r, hr, -⟩ := h.live
  obtain ⟨s, t, hrow⟩ : ∃ s t, row a (stated cfg a d now w) = some { r with state := s, ts := t } :=
    row_batchWrite_stateWrites hr (fun _ => .none) d now
  refine h.restate _ hr hrow rfl fun g => ?_
  exact ServerConfig.batchWrite_get_of_notMem _ (segmentPk_notMem_stateWrites d now g)

/-- A state write makes the record if there is none. -/
theorem onRecord_stateWrite_eq (cfg : ServerConfig V P) {x : Key × List (Op V P)} (hx : x ∈ stateWrites a d now)
    (old : Option (Record V P)) :
    cfg.onRecord x.2 none old =
      cfg.commitRecord (Op.apply x.2 (old.getD {})).1 (Op.apply x.2 (old.getD {})).2 old := by
  have hcreates : x.2.any Op.creates := by
    rcases mem_stateWrites.mp hx with ⟨-, rfl⟩ | ⟨-, rfl⟩ | ⟨-, rfl⟩ <;> rfl
  have hwrites : x.2.any Op.writes := by
    rcases mem_stateWrites.mp hx with ⟨-, rfl⟩ | ⟨-, rfl⟩ | ⟨-, rfl⟩ <;> rfl
  cases old <;> simp [ServerConfig.onRecord, hcreates, hwrites]

/-- A state write is applied or refused with `RecordTooBig`. -/
theorem onRecord_stateWrite (cfg : ServerConfig V P) {x : Key × List (Op V P)} (hx : x ∈ stateWrites a d now)
    (old : Option (Record V P)) :
    (∃ y, (cfg.onRecord x.2 none old).1 = .ok y) ∨ (cfg.onRecord x.2 none old).1 = .error .recordTooBig := by
  rw [onRecord_stateWrite_eq cfg hx, ServerConfig.commitRecord]
  split_ifs
  · exact .inl ⟨_, rfl⟩
  · exact .inr rfl

/-- The statuses of the state writes: success throughout, or `RecordTooBig` somewhere. -/
theorem find_stateStatus {σ : Store V P}
    (hσ : ∀ x ∈ (stateWrites a d now : List (Key × List (Op V P))), σ.get x.1 = w.store.get x.1) :
    (StateFits cfg a d now w →
      (cfg.batchWrite (fun _ => .none) (stateWrites a d now) σ).1.find? (· ≠ 0) = none) ∧
    (¬ StateFits cfg a d now w →
      (cfg.batchWrite (fun _ => .none) (stateWrites a d now) σ).1.find? (· ≠ 0) =
        some Err.recordTooBig.code) := by
  rw [ServerConfig.batchWrite_status (stateWrites_nodup a d now)]
  have hstatus : ∀ x ∈ (stateWrites a d now : List (Key × List (Op V P))),
      (cfg.onRecord x.2 none (w.store.get x.1)).1 ≠ .error .recordTooBig ∧
          ServerConfig.statusOf (cfg.onRecord x.2 none (σ.get x.1)).1 = 0 ∨
        (cfg.onRecord x.2 none (w.store.get x.1)).1 = .error .recordTooBig ∧
          ServerConfig.statusOf (cfg.onRecord x.2 none (σ.get x.1)).1 = Err.recordTooBig.code := by
    intro x hx
    rw [hσ x hx]
    rcases onRecord_stateWrite cfg hx (w.store.get x.1) with ⟨y, hy⟩ | hbig
    · exact .inl ⟨by simp [hy], by simp [hy, ServerConfig.statusOf]⟩
    · exact .inr ⟨hbig, by simp [hbig, ServerConfig.statusOf]⟩
  constructor
  · intro hfits
    rw [List.find?_eq_none]
    intro s hs
    obtain ⟨x, hx, rfl⟩ := List.mem_map.mp hs
    rcases hstatus x hx with ⟨-, hzero⟩ | ⟨hbig, -⟩
    · simp [hzero]
    · exact absurd hbig (hfits x hx)
  · intro hfits
    unfold StateFits at hfits
    push Not at hfits
    obtain ⟨x, hx, hbig⟩ := hfits
    rcases hfound : ((stateWrites a d now).map fun x =>
      ServerConfig.statusOf (cfg.onRecord x.2 none (σ.get x.1)).1).find? (· ≠ 0) with _ | s
    · rw [List.find?_eq_none] at hfound
      have hzero := hfound _ (List.mem_map_of_mem hx)
      rcases hstatus x hx with ⟨hok, -⟩ | ⟨-, hcode⟩
      · exact absurd hbig hok
      · rw [hcode] at hzero
        exact absurd rfl hzero
    · obtain ⟨y, hy, hys⟩ := List.mem_map.mp (List.mem_of_find?_eq_some hfound)
      have hne : s ≠ 0 := by simpa using List.find?_some hfound
      rcases hstatus y hy with ⟨-, hzero⟩ | ⟨-, hcode⟩
      · exact absurd (hys.symm.trans hzero) hne
      · rw [hfound, ← hys, hcode]

theorem status_operate_ne_overload {key : Key} {ops : List (Op V P)} {σ : Store V P} :
    ServerConfig.statusOf (cfg.operate key ops none σ).1 ≠ Err.deviceOverload.code := by
  unfold ServerConfig.operate ServerConfig.commit
  cases σ.get key with
  | none =>
    dsimp only
    split_ifs <;> simp [ServerConfig.statusOf, Err.code]
  | some r =>
    dsimp only
    split_ifs <;> simp [ServerConfig.statusOf, Err.code]

/-- Nothing overloads the server in calm weather. -/
theorem status_batchWrite_ne_overload {writes : List (Key × List (Op V P))} {σ : Store V P} {s : ℤ}
    (hs : s ∈ (cfg.batchWrite (fun _ => .none) writes σ).1) : s ≠ Err.deviceOverload.code := by
  induction writes generalizing σ with
  | nil => cases hs
  | cons x rest ih =>
    rcases List.mem_cons.mp hs with rfl | hs
    · exact status_operate_ne_overload
    · exact ih hs

theorem alone_batchWriteWithRetry (writes : List (Key × List (Op V P))) (n : ℕ) (w : World V P) :
    alone cfg inst (batchWriteWithRetry writes n) w =
      (.ok (cfg.batchWrite (fun _ => .none) writes w.store).1,
        w.withStore (cfg.batchWrite (fun _ => .none) writes w.store).2) := by
  cases n with
  | zero => rfl
  | succ n =>
    have hcalm : (cfg.batchWrite (fun _ => .none) writes w.store).1.any
        (· = Err.deviceOverload.code) = false := by
      rw [List.any_eq_false]
      exact fun s hs => by simpa using status_batchWrite_ne_overload hs
    change alone cfg inst (batchOutcome _ (.ok (cfg.batchWrite (fun _ => .none) writes w.store).1)) _ = _
    rw [batchOutcome, hcalm]
    rfl

/-- The batch of `_append_event_record`: the put of the event, then its state
writes as they would go alone. -/
theorem Sound.alone_batch (h : Sound cfg a w) (inst : ℕ) (d : Deltas V) (now : ℚ) :
    ∃ s others w₂, alone cfg inst (batchWriteWithRetry
        ((a.segmentPk g, [.mapPut k v]) :: stateWrites a d now) overloadMaxRetries) w =
          (.ok (s :: others), w₂) ∧
      (cfg.SegFits ((segment a w g).put k v) → s = 0 ∧ logOf a w₂ = (logOf a w).put g k v ∧
        Sound cfg a w₂ ∧ Touched a inst (stated cfg a d now w) w₂ ∧ w₂.cache = w.cache) ∧
      (¬ cfg.SegFits ((segment a w g).put k v) →
        s = Err.recordTooBig.code ∧ w₂ = stated cfg a d now w) ∧
      (StateFits cfg a d now w → others.find? (· ≠ 0) = none) ∧
      (¬ StateFits cfg a d now w → others.find? (· ≠ 0) = some Err.recordTooBig.code) := by
  obtain ⟨hres, hsound⟩ := h.store_put (g := g) (k := k) (v := v)
  have hrun : alone cfg inst (batchWriteWithRetry
      ((a.segmentPk g, [.mapPut k v]) :: stateWrites a d now) overloadMaxRetries) w = _ :=
    alone_batchWriteWithRetry _ _ w
  have hother : ∀ key, key ≠ a.segmentPk g →
      (cfg.operate (a.segmentPk g) [.mapPut k v] none w.store).2.get key = w.store.get key :=
    fun key hne => ServerConfig.operate_get_of_ne hne
  have hbatch : cfg.batchWrite (fun _ => .none)
      ((a.segmentPk g, [.mapPut k v]) :: stateWrites a d now) w.store =
        (ServerConfig.statusOf (cfg.operate (a.segmentPk g) [.mapPut k v] none w.store).1 ::
          (cfg.batchWrite (fun _ => .none) (stateWrites a d now)
            (cfg.operate (a.segmentPk g) [.mapPut k v] none w.store).2).1,
        (cfg.batchWrite (fun _ => .none) (stateWrites a d now)
            (cfg.operate (a.segmentPk g) [.mapPut k v] none w.store).2).2) := rfl
  rw [hbatch] at hrun
  have herror : ∀ e, (cfg.operate (a.segmentPk g) [.mapPut k v] none w.store).1 = .error e →
      (cfg.operate (a.segmentPk g) [.mapPut k v] none w.store).2 = w.store :=
    fun e he => operate_store_of_error he
  generalize cfg.operate (a.segmentPk g) [.mapPut k v] none w.store = first at hres hsound hrun hother herror
  refine ⟨_, _, stated cfg a d now (w.withStore first.2), hrun, fun hfits => ?_, fun hfits => ?_, ?_⟩
  · obtain ⟨hans, -, hlog⟩ := hres.resolve_right fun hno => hno.2.1 hfits
    obtain ⟨hlog₂, hsound₂⟩ := hsound.keeps_stated d now
    refine ⟨by rw [hans]; rfl, hlog₂.trans hlog, hsound₂, ⟨fun key _ hseg => ?_, ?_, fun _ _ _ => rfl⟩, rfl⟩
    · exact get_stateWrites (hother key (hseg g))
    · have hrow : row a (stated cfg a d now (w.withStore first.2)) = row a (stated cfg a d now w) :=
        get_stateWrites (hother a.sessionPk (segmentPk_ne_sessionPk a g).symm)
      rw [← hrow]
      exact hsound₂.row_self
  · obtain ⟨hans, -, -⟩ := hres.resolve_left fun hyes => hfits hyes.2.1
    rw [hans, herror _ hans]
    exact ⟨rfl, rfl⟩
  · refine find_stateStatus fun x hx => hother x.1 fun heq => ?_
    have hmem : x.1 ∈ (stateWrites a d now : List (Key × List (Op V P))).map Prod.fst :=
      List.mem_map_of_mem hx
    rw [heq] at hmem
    exact segmentPk_notMem_stateWrites d now g hmem

end Batch

/-! ### The whole append -/

section Whole
variable {d : Deltas V} {now : ℚ}

/-- The segment that an append of instance `inst` tries first. -/
def target (a : Addr) (inst : ℕ) (w : World V P) : ℕ :=
  (w.cache inst a.pkStr).getD (logOf a w).cur

/-- `_current_segment` of a live session. -/
theorem Sound.alone_currentSegment (h : Sound cfg a w) (inst : ℕ) :
    alone cfg inst (currentSegment a) w =
      (.ok (target a inst w), w.setCache inst a.pkStr (some (target a inst w))) := by
  obtain ⟨r, hr, hc⟩ := h.live
  unfold currentSegment
  simp only [Prog.bind_eq, Prog.pure_eq]
  rw [alone_bind_ok (alone_cacheGet _ w)]
  cases hcache : w.cache inst a.pkStr with
  | some n =>
    have hself : w.setCache inst a.pkStr (some n) = w := by
      simp only [World.setCache, ← hcache, Function.update_eq_self]
    simp only [target, hcache, Option.getD_some, hself]
    rfl
  | none =>
    have hsel : alone cfg inst (selectCur a.sessionPk) w = (.ok (some (logOf a w).cur), w) := by
      rw [alone_selectCur, ServerConfig.fetch, show w.store.get a.sessionPk = some r from hr, ← hc]
      rfl
    simp only [target, hcache, Option.getD_none]
    rw [alone_bind_ok (alone_catching_ok (alone_bind_ok hsel)), alone_bind_ok (alone_cacheSet _ _ _)]
    rfl

/-- The event writes some state. -/
def Deltas.writes (d : Deltas V) : Bool :=
  !(d.session.entries.isEmpty && d.app.entries.isEmpty && d.user.entries.isEmpty)

theorem stated_of_not_writes (hd : d.writes = false) : stated cfg a d now w = w := by
  have hnil : (stateWrites a d now : List (Key × List (Op V P))) = [] := by
    simp only [Deltas.writes, Bool.not_eq_eq_eq_not, Bool.not_false, Bool.and_eq_true] at hd
    simp [stateWrites, hd.1.1, hd.1.2, hd.2]
  rw [stated, hnil]
  rfl

/-- The first segment tried is cached before anything else happens. -/
theorem Appends.start {res : Except Bool ℕ × Log Str (InlineEvent V P)}
    {out : Except Err Unit × World V P} {w₁ : World V P} (hs : Sound cfg a w)
    (h : Appends cfg a inst w₁ res out) (hlog : logOf a w₁ = logOf a w) (hrow : row a w₁ = row a w)
    (hother : ∀ key, w₁.store.get key = w.store.get key)
    (hcache : ∀ i pk, i ≠ inst ∨ pk ≠ a.pkStr → w₁.cache i pk = w.cache i pk)
    (htarget : w₁.cache inst a.pkStr = some (target a inst w)) : Appends cfg a inst w res out where
  log := h.log
  sound := h.sound
  touched := by
    refine Touched.trans ⟨fun key _ _ => hother key, ?_, hcache⟩ h.touched
    rw [hlog, hrow]
    exact hs.row_self
  ok := h.ok
  error b hb := by
    obtain ⟨hraised, hcase⟩ := h.error b hb
    refine ⟨hraised, ?_⟩
    rcases hcase with hcur | ⟨hsame, hcur⟩
    · exact .inl hcur
    · rw [htarget] at hsame
      rw [hlog] at hcur
      cases hold : w.cache inst a.pkStr with
      | none =>
        rw [target, hold, Option.getD_none] at hsame
        exact .inl (by rw [hsame, hcur])
      | some n =>
        rw [target, hold, Option.getD_some] at hsame
        exact .inr ⟨hsame, hcur⟩

/-- The batch of the event's write and the state writes, run alone where no state write is
refused, and what its results lead to. -/
theorem Sound.alone_batched (h : Sound cfg a w) (inst g : ℕ) (hfits : StateFits cfg a d now w)
    (hr : row a (stated cfg a d now w) = some r) :
    Appends cfg a inst (stated cfg a d now w)
      (Log.append cfg.SegFits (Grows cfg r) k v maxAttempts true (logOf a w) g)
      (alone cfg inst ((batchWriteWithRetry ((a.segmentPk g, [.mapPut k v]) :: stateWrites a d now)
        overloadMaxRetries).bind (finishBatch a g k v)) w) := by
  obtain ⟨s, others, w₂, hbatch, hput, hrefuse, hothers, -⟩ := h.alone_batch (g := g) (k := k) (v := v) inst d now
  rw [Log.append, if_pos rfl, alone_bind_ok hbatch]
  simp only [finishBatch, hothers hfits]
  by_cases hfit : cfg.SegFits (((logOf a w).seg g).put k v)
  · obtain ⟨rfl, hlog₂, hs₂, htouched, -⟩ := hput hfit
    rw [if_pos hfit, if_pos rfl, alone_cacheSet]
    refine ⟨hlog₂, hs₂.congr rfl fun _ => rfl, htouched.setCache _, fun j hj => ?_, fun b hb => by cases hb⟩
    cases hj
    exact ⟨rfl, World.setCache_self _ _ _ _⟩
  · obtain ⟨rfl, hw₂⟩ := hrefuse hfit
    obtain ⟨hlog₂, hs₂⟩ := h.keeps_stated d now
    have hroll := hs₂.alone_rollOver inst hr g
    rw [hlog₂] at hroll
    rw [hw₂, if_neg hfit, if_neg (show Err.recordTooBig.code ≠ 0 by decide), if_pos rfl, placeEvent, if_pos rfl]
    simp only [Prog.bind_eq]
    by_cases hstuck : (logOf a w).cur = g ∧ ¬ Grows cfg r (g + 1)
    · rw [if_pos hstuck, alone_bind_error (hroll.1 hstuck), ← hlog₂]
      exact .failed hs₂ true _
    · obtain ⟨w₃, hok, hlog₃, hs₃, htouched, hcache⟩ := hroll.2 hstuck
      have hrow₃ : row a w₃ = some { r with cur := some (logOf a w₃).cur } := by
        rw [htouched.row, hr]
        rfl
      rw [if_neg hstuck, alone_bind_ok hok, ← hlog₃]
      exact (alone_placeLoop maxAttempts w₃ _ hs₃ ⟨_, hrow₃⟩).after htouched hcache

/-- `_append_event_record` run alone, where no state write is refused: the state
writes, and `Log.append` from the segment the instance has cached. -/
theorem Sound.alone_append (h : Sound cfg a w) (inst : ℕ) (hfits : StateFits cfg a d now w)
    (hr : row a (stated cfg a d now w) = some r) :
    Appends cfg a inst (stated cfg a d now w)
      (Log.append cfg.SegFits (Grows cfg r) k v maxAttempts d.writes (logOf a w) (target a inst w))
      (alone cfg inst (appendEventRecord a k v d now) w) := by
  obtain ⟨hlogS, hsoundS⟩ := h.keeps_stated d now
  generalize hw₁ : w.setCache inst a.pkStr (some (target a inst w)) = w₁
  have hs₁ : Sound cfg a w₁ := hw₁ ▸ h.congr rfl fun _ => rfl
  have hlog₁ : logOf a w₁ = logOf a w := by rw [← hw₁]; rfl
  have hstore₁ : w₁.store = w.store := by rw [← hw₁]; rfl
  have htarget : w₁.cache inst a.pkStr = some (target a inst w) := by
    rw [← hw₁, World.setCache_self]
  have hcache₁ : ∀ i pk, i ≠ inst ∨ pk ≠ a.pkStr → w₁.cache i pk = w.cache i pk := fun i pk hne => by
    rw [← hw₁, World.setCache_of_ne _ _ hne]
  have hrow : row a (stated cfg a d now w₁) = some r := by
    unfold row stated at hr ⊢
    rw [hstore₁]
    exact hr
  have hstart : alone cfg inst (currentSegment a) w = (.ok (target a inst w), w₁) := by
    rw [h.alone_currentSegment, hw₁]
  -- it is enough to look at the run from the world in which the index is cached
  suffices Appends cfg a inst (stated cfg a d now w₁)
      (Log.append cfg.SegFits (Grows cfg r) k v maxAttempts d.writes (logOf a w) (target a inst w))
      (alone cfg inst (appendEventRecord a k v d now) w) by
    refine this.start hsoundS ?_ ?_ ?_ ?_ ?_
    · rw [hlogS, (hs₁.keeps_stated d now).1, hlog₁]
    · rw [hrow, hr]
    · intro key
      simp only [stated, World.withStore_store, hstore₁]
    · exact hcache₁
    · rw [target, hlogS]
      exact htarget
  rw [appendEventRecord]
  simp only [Prog.bind_eq]
  rw [alone_bind_ok hstart, ← hlog₁]
  cases hd : d.writes with
  | false =>
    have hnone : (d.session.entries.isEmpty && d.app.entries.isEmpty && d.user.entries.isEmpty) = true := by
      rw [Deltas.writes, Bool.not_eq_false'] at hd
      exact hd
    rw [stated_of_not_writes hd] at hrow ⊢
    rw [if_pos hnone, Log.append, if_neg Bool.false_ne_true]
    exact alone_placeLoop maxAttempts w₁ _ hs₁ ⟨r.cur, hrow⟩
  | true =>
    have hsome : (d.session.entries.isEmpty && d.app.entries.isEmpty && d.user.entries.isEmpty) = false := by
      rw [Deltas.writes, Bool.not_eq_true'] at hd
      exact hd
    have hfits₁ : StateFits cfg a d now w₁ := by
      unfold StateFits
      rw [hstore₁]
      exact hfits
    rw [hsome, if_neg Bool.false_ne_true]
    exact hs₁.alone_batched inst (target a inst w) hfits₁ hrow

/-- Where a state write is refused, the call raises; the event may have gone to
the segment tried first. -/
theorem Sound.alone_append_refused (h : Sound cfg a w) (inst : ℕ)
    (hfits : ¬ StateFits cfg a d now w) :
    let out := alone cfg inst (appendEventRecord a k v d now) w
    out.1 = .error .recordTooBig ∧ Sound cfg a out.2 ∧
      out.2.cache inst a.pkStr = some (target a inst w) ∧
      logOf a out.2 = if cfg.SegFits ((segment a w (target a inst w)).put k v)
        then (logOf a w).put (target a inst w) k v else logOf a w := by
  intro out
  generalize hw₁ : w.setCache inst a.pkStr (some (target a inst w)) = w₁
  have hs₁ : Sound cfg a w₁ := hw₁ ▸ h.congr rfl fun _ => rfl
  have hlog₁ : logOf a w₁ = logOf a w := by rw [← hw₁]; rfl
  have htarget : w₁.cache inst a.pkStr = some (target a inst w) := by
    rw [← hw₁, World.setCache_self]
  have hstart : alone cfg inst (currentSegment a) w = (.ok (target a inst w), w₁) := by
    rw [h.alone_currentSegment, hw₁]
  have hfits₁ : ¬ StateFits cfg a d now w₁ := by
    rw [← hw₁]
    exact hfits
  have hwrites : (d.session.entries.isEmpty && d.app.entries.isEmpty && d.user.entries.isEmpty) = false := by
    by_contra hall
    simp only [Bool.not_eq_false, Bool.and_eq_true] at hall
    refine hfits fun x hx => ?_
    simp [stateWrites, hall.1.1, hall.1.2, hall.2] at hx
  obtain ⟨s, others, w₂, hbatch, hput, hrefuse, -, hothers⟩ :=
    hs₁.alone_batch (g := target a inst w) (k := k) (v := v) inst d now
  have hout : out = (.error .recordTooBig, w₂) := by
    change alone cfg inst (appendEventRecord a k v d now) w = _
    rw [appendEventRecord]
    simp only [Prog.bind_eq]
    rw [alone_bind_ok hstart, hwrites, if_neg Bool.false_ne_true, alone_bind_ok hbatch]
    simp only [finishBatch, hothers hfits₁]
    rfl
  have hseg : segment a w₁ = segment a w := congrArg Log.seg hlog₁
  rw [hseg] at hput hrefuse
  rw [hout]
  split_ifs with hfit
  · obtain ⟨-, hlog₂, hs₂, -, hcache⟩ := hput hfit
    exact ⟨rfl, hs₂, by rw [hcache, htarget], by rw [hlog₂, hlog₁]⟩
  · obtain ⟨-, rfl⟩ := hrefuse hfit
    obtain ⟨hlog₂, hs₂⟩ := hs₁.keeps_stated d now
    exact ⟨rfl, hs₂, htarget, hlog₂.trans hlog₁⟩

section Event
variable {env : Env V P} {e : Event V} {clock : ℚ}

/-- A complete append of an event that is not partial. -/
theorem perform_append_whole (hwhole : e.isPartial = false) (w : World V P) :
    perform env cfg ⟨inst, .append a e clock⟩ w =
      ((alone cfg inst (appendEventRecord a (eventKey env e clock) (eventToInlineDict env.model e)
          (partitionState e.stateDelta) (eventTime e clock)) w).1.map fun _ => .done,
        (alone cfg inst (appendEventRecord a (eventKey env e clock) (eventToInlineDict env.model e)
          (partitionState e.stateDelta) (eventTime e clock)) w).2) := by
  have hbody : persistEvent env a e clock = appendEventRecord a (eventKey env e clock)
      (eventToInlineDict env.model e) (partitionState e.stateDelta) (eventTime e clock) := by
    simp [persistEvent, hwhole]
  rw [perform_append, hbody]

theorem perform_append_fragment (hp : e.isPartial = true) (w : World V P) :
    (perform env cfg ⟨inst, .append a e clock⟩ w).2 = w := by
  have hbody : persistEvent env a e clock = .ret () := by simp [persistEvent, hp]
  rw [perform_append, hbody]
  rfl

end Event

end Whole

end AdkAerospike.Sessions
