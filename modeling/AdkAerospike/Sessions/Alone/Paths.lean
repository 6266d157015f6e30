import AdkAerospike.Sessions.Alone.Append
import AdkAerospike.Sessions.Segments

/-! The two ways an append takes. With a state delta the event goes out in one batch with
the state writes, and only if it finds no room there does the call look for another
segment; without one it looks from the start. The events end up in the same place, as
long as the second way meets a segment with room within its attempts. -/

namespace AdkAerospike.Sessions

open Program Data Codec Keys

section Paths
variable {V P : Type} {cfg : ServerConfig V P} {inst : ℕ} {a : Addr} {w w' : World V P}
  {k : Str} {v : InlineEvent V P} {d : Deltas V} {now : ℚ}

/-- An integer bin takes the same space whatever its value. -/
def ServerConfig.IndexSized (cfg : ServerConfig V P) : Prop :=
  ∀ (r : Record V P) m n, cfg.size { r with cur := some m } = cfg.size { r with cur := some n }

/-- A record after the delta for it has been put into its state map; the row is given a new
update time with it. -/
def Deltas.written (a : Addr) (d : Deltas V) (now : ℚ) (key : Key) (old : Option (Record V P)) : Option (Record V P) :=
  if (d.at a key).entries.isEmpty then old
  else some { old.getD {} with
    state := some (FMap.update ((old.getD {}).state.getD ∅) (d.at a key))
    ts := if key = a.sessionPk then some now else (old.getD {}).ts }

def noDelta : Deltas V := ⟨∅, ∅, ∅⟩

/-! ### State writes that go through -/

section Stated

/-- The write of `key`, if there is one. -/
theorem at_entries_iff (P : Type) (now : ℚ) {key : Key} : (d.at a key).entries.isEmpty = false ↔
    ∃ ops : List (Op V P), (key, ops) ∈ stateWrites a d now := by
  have happ : appPk a.app ≠ a.sessionPk := ne_of_set nofun
  have huser : userPk a.app a.user ≠ a.sessionPk := ne_of_set nofun
  have huser' : userPk a.app a.user ≠ appPk a.app := ne_of_set nofun
  simp only [mem_stateWrites, Prod.mk.injEq, Deltas.at]
  constructor
  · intro h
    split_ifs at h with h₁ h₂ h₃
    · exact ⟨_, .inl ⟨by simpa using h, h₁, rfl⟩⟩
    · exact ⟨_, .inr (.inl ⟨by simpa using h, h₂, rfl⟩)⟩
    · exact ⟨_, .inr (.inr ⟨by simpa using h, h₃, rfl⟩)⟩
    · simp at h
  · rintro ⟨ops, ⟨h, rfl, -⟩ | ⟨h, rfl, -⟩ | ⟨h, rfl, -⟩⟩ <;> simp [happ, huser, huser', h]

/-- A state write that is not refused leaves the record with its items. -/
theorem onRecord_of_fits {x : Key × List (Op V P)} (hx : x ∈ stateWrites a d now) {old : Option (Record V P)}
    (hfits : (cfg.onRecord x.2 none old).1 ≠ .error .recordTooBig) :
    (cfg.onRecord x.2 none old).2 = some (Op.apply x.2 (old.getD {})).1 := by
  rw [onRecord_stateWrite_eq cfg hx, ServerConfig.commitRecord] at hfits ⊢
  split_ifs at hfits ⊢
  · rfl
  · exact absurd rfl hfits

theorem stateFits_noDelta (cfg : ServerConfig V P) (a : Addr) (now : ℚ) (w : World V P) :
    StateFits cfg a noDelta now w := fun x hx => by simp [mem_stateWrites, noDelta] at hx

/-- State writes that go through leave each record with the delta for it. -/
theorem get_stated (hfits : StateFits cfg a d now w) (key : Key) :
    (stated cfg a d now w).store.get key = d.written a now key (w.store.get key) := by
  have happ : appPk a.app ≠ a.sessionPk := ne_of_set nofun
  have huser : userPk a.app a.user ≠ a.sessionPk := ne_of_set nofun
  have huser' : userPk a.app a.user ≠ appPk a.app := ne_of_set nofun
  unfold Deltas.written
  cases hempty : (d.at a key).entries.isEmpty with
  | true =>
    rw [if_pos rfl]
    refine ServerConfig.batchWrite_get_of_notMem _ fun hmem => ?_
    obtain ⟨⟨key', ops⟩, hx, rfl⟩ := List.mem_map.mp hmem
    rw [(at_entries_iff P now).mpr ⟨ops, hx⟩] at hempty
    cases hempty
  | false =>
    obtain ⟨ops, hx⟩ := (at_entries_iff P now).mp hempty
    have hget : (stated cfg a d now w).store.get key = _ :=
      (ServerConfig.batchWrite_get (stateWrites_nodup a d now) hx).trans (onRecord_of_fits hx (hfits _ hx))
    rw [hget, if_neg Bool.false_ne_true]
    simp only [mem_stateWrites, Prod.mk.injEq] at hx
    rcases hx with ⟨-, rfl, rfl⟩ | ⟨-, rfl, rfl⟩ | ⟨-, rfl, rfl⟩
    · simp [Op.apply, Op.write, Deltas.at]
    · simp [Op.apply, Op.write, Deltas.at, happ]
    · simp [Op.apply, Op.write, Deltas.at, huser, huser']

end Stated

/-! ### Both ways -/

section Both
variable {r : Record V P}

/-- A row within the limit can take any index. -/
theorem grows_of_fits (hsized : cfg.IndexSized) {c : ℕ} (hc : r.cur = some c) (hr : cfg.Fits r) (n : ℕ) :
    Grows cfg r n := by
  have hself : { r with cur := some c } = r := by rw [← hc]
  show cfg.size { r with cur := some n } ≤ cfg.maxSize
  rw [hsized r n c, hself]
  exact hr

/-- The record of a segment is given by the log. -/
theorem Sound.get_segment (h : Sound cfg a w) (g : ℕ) : w.store.get (a.segmentPk g) =
    if ((logOf a w).seg g).entries = [] then none else some { events := some ((logOf a w).seg g) } := by
  cases hr : w.store.get (a.segmentPk g) with
  | none => simp [logOf, segment, hr, OMap.empty]
  | some s =>
    obtain ⟨heq, -, hne⟩ := h.segs g s hr
    change ((logOf a w).seg g).entries ≠ [] at hne
    rw [if_neg hne, heq]
    rfl

theorem fitting_stated (h : cfg.Fitting w.store) (d : Deltas V) (now : ℚ) : cfg.Fitting (stated cfg a d now w).store :=
  fitting_exec 0 .calm (.batchWrite (stateWrites a d now)) w h

/-- An append whose state writes go through, as the log tells it. -/
theorem Sound.appends_sized (h : Sound cfg a w) (hfit : cfg.Fitting w.store) (hsized : cfg.IndexSized) (inst : ℕ)
    (k : Str) (v : InlineEvent V P) (hstate : StateFits cfg a d now w) :
    ∃ r, (∀ n, Grows cfg r n) ∧ Appends cfg a inst (stated cfg a d now w)
      (Log.append cfg.SegFits (Grows cfg r) k v maxAttempts d.writes (logOf a w) (target a inst w))
      (alone cfg inst (appendEventRecord a k v d now) w) := by
  obtain ⟨r, hr, hc⟩ := (h.keeps_stated d now).2.live
  exact ⟨r, grows_of_fits hsized hc (fitting_stated hfit d now _ r hr), h.alone_append inst hstate hr⟩

/-- An append that meets a segment with room, with or without a delta. -/
theorem Sound.append_reaches (h : Sound cfg a w) (hfit : cfg.Fitting w.store) (hsized : cfg.IndexSized)
    (htarget : target a inst w ≤ (logOf a w).cur) (halone : cfg.SegFits (OMap.empty.put k v))
    (hreach : (logOf a w).Reaches cfg.SegFits k v maxAttempts (target a inst w)) :
    ∃ j c, ∀ d now, StateFits cfg a d now w → ∃ w', alone cfg inst (appendEventRecord a k v d now) w = (.ok (), w') ∧
      logOf a w' = Log.put { logOf a w with cur := c } j k v ∧ Sound cfg a w' ∧
      Touched a inst (stated cfg a d now w) w' ∧ w'.cache inst a.pkStr = some j := by
  obtain ⟨j, c, happend⟩ := hreach.append_eq htarget (by decide) halone
  refine ⟨j, c, fun d now hstate => ?_⟩
  obtain ⟨r, hgrows, happ⟩ := h.appends_sized hfit hsized inst k v hstate
  rw [happend (Grows cfg r) hgrows] at happ
  obtain ⟨hok, hcache⟩ := happ.ok j rfl
  exact ⟨_, Prod.ext hok rfl, happ.log, happ.sound, happ.touched, hcache⟩

/-- No delta goes to a segment. -/
theorem written_segmentPk (d : Deltas V) (now : ℚ) (g : ℕ) (old : Option (Record V P)) :
    d.written a now (a.segmentPk g) old = old := by
  have happ : a.segmentPk g ≠ appPk a.app := ne_of_set nofun
  have huser : a.segmentPk g ≠ userPk a.app a.user := ne_of_set nofun
  simp [Deltas.written, Deltas.at, happ, huser]

/-- The delta for the row is put beside its index. -/
theorem written_row (d : Deltas V) (now : ℚ) (c : ℕ) (r : Record V P) :
    d.written a now a.sessionPk (some { r with cur := some c }) =
      (d.written a now a.sessionPk (some r)).map fun r => { r with cur := some c } := by
  unfold Deltas.written
  split_ifs <;> rfl

end Both

/-- An append with a delta and one without it leave the event in the same segment and the
same indices in the row and in the cache; the delta goes to the state bins. -/
theorem append_places_alike {env : Env V P} {s : Calls V P} {r : Record V P} {c : ℕ}
    (hs : (service env cfg).Reach (AnyCall a) ⟨.empty, []⟩ s) (hstore : w.store = s.world.store)
    (hr : row a w = some r) (hc : r.cur = some c) (hcache : ∀ n, w.cache inst a.pkStr = some n → n ≤ c)
    (hsized : cfg.IndexSized) (halone : cfg.SegFits (OMap.empty.put k v)) (hstate : StateFits cfg a d now w)
    (hreach : (logOf a w).Reaches cfg.SegFits k v maxAttempts (target a inst w)) :
    let plain := alone cfg inst (appendEventRecord a k v noDelta now) w
    let batch := alone cfg inst (appendEventRecord a k v d now) w
    plain.1 = .ok () ∧ batch.1 = .ok () ∧ logOf a batch.2 = logOf a plain.2 ∧ batch.2.cache = plain.2.cache ∧
      ∀ key, batch.2.store.get key = d.written a now key (plain.2.store.get key) := by
  intro plain batch
  obtain ⟨hsegs, hfit⟩ := segmentRecords_of_reach hs
  have hsound : Sound cfg a w := SegmentRecords.sound (fun g => hstore ▸ hsegs g) hr hc
  have hcur : (logOf a w).cur = c := by simp [logOf, hr, hc]
  have htarget : target a inst w ≤ (logOf a w).cur := by
    unfold target
    cases hn : w.cache inst a.pkStr with
    | none => exact le_rfl
    | some n => exact hcur ▸ hcache n hn
  obtain ⟨j, c', happend⟩ := hsound.append_reaches (hstore ▸ hfit) hsized htarget halone hreach
  have hnone : (noDelta : Deltas V).writes = false := rfl
  obtain ⟨w₁, hplain, hlog₁, hs₁, ht₁, hcache₁⟩ := happend noDelta now (stateFits_noDelta cfg a now w)
  obtain ⟨w₂, hbatch, hlog₂, hs₂, ht₂, hcache₂⟩ := happend d now hstate
  rw [stated_of_not_writes hnone] at ht₁
  have hlog : logOf a w₂ = logOf a w₁ := hlog₂.trans hlog₁.symm
  simp only [plain, batch, hplain, hbatch]
  refine ⟨trivial, trivial, hlog, ?_, fun key => ?_⟩
  · funext i pk
    by_cases hne : i ≠ inst ∨ pk ≠ a.pkStr
    · rw [ht₂.cache i pk hne, ht₁.cache i pk hne]
      rfl
    · push Not at hne
      rw [hne.1, hne.2, hcache₂, hcache₁]
  · by_cases hrow : key = a.sessionPk
    · have hr' : w.store.get a.sessionPk = some r := hr
      have h₁ : w₁.store.get a.sessionPk = _ := ht₁.row
      have h₂ : w₂.store.get a.sessionPk = _ := ht₂.row
      have hst : row a (stated cfg a d now w) = _ := get_stated hstate a.sessionPk
      rw [hrow, h₁, h₂, hst, hr', hr, hlog]
      exact (written_row d now _ r).symm
    · by_cases hseg : ∃ g, key = a.segmentPk g
      · obtain ⟨g, rfl⟩ := hseg
        rw [written_segmentPk, hs₂.get_segment, hs₁.get_segment, hlog]
      · have hother : ∀ g, key ≠ a.segmentPk g := fun g hg => hseg ⟨g, hg⟩
        rw [ht₁.other key hrow hother, ht₂.other key hrow hother, get_stated hstate]

end Paths

/-! ### Segments that a deleted session leaves behind -/

namespace Small

/-- Events that each fill a segment; two in a row have different keys. -/
def stuffing (g : ℕ) : Event ℕ := event (if g % 2 = 0 then ['p'] else ['q']) 5 1

def stuffKey (g : ℕ) : Str := eventKey env (stuffing g) 0

def stuffValue (g : ℕ) : InlineEvent ℕ (Event ℕ) := eventToInlineDict env.model (stuffing g)

/-- The log after they were appended up to number `n`. -/
def stuffed (n : ℕ) : Log Str (InlineEvent ℕ (Event ℕ)) :=
  ⟨n, fun g => if g ≤ n then OMap.empty.put (stuffKey g) (stuffValue g) else .empty⟩

/-- What the stuffing is depends on the parity only. -/
theorem stuffing_cases (g : ℕ) : stuffing g = stuffing 0 ∧ stuffing (g + 1) = stuffing 1 ∨
    stuffing g = stuffing 1 ∧ stuffing (g + 1) = stuffing 0 := by
  unfold stuffing
  rcases Nat.mod_two_eq_zero_or_one g with h | h
  · exact .inl (by simp [h, Nat.add_mod])
  · exact .inr (by simp [h, Nat.add_mod])

theorem segFits_stuffing (g : ℕ) : cfg.SegFits (OMap.empty.put (stuffKey g) (stuffValue g)) := by
  unfold stuffKey stuffValue
  rcases stuffing_cases g with ⟨h, -⟩ | ⟨h, -⟩ <;> rw [h] <;> decide +kernel

theorem full_stuffing (g : ℕ) : ¬ cfg.SegFits
    ((OMap.empty.put (stuffKey g) (stuffValue g)).put (stuffKey (g + 1)) (stuffValue (g + 1))) := by
  unfold stuffKey stuffValue
  rcases stuffing_cases g with ⟨h, h'⟩ | ⟨h, h'⟩ <;> rw [h, h'] <;> decide +kernel

/-- The next event goes to a new segment. -/
theorem append_stuffed (n : ℕ) {grows : ℕ → Prop} [DecidablePred grows] (hgrows : ∀ i, grows i) :
    Log.append cfg.SegFits grows (stuffKey (n + 1)) (stuffValue (n + 1)) maxAttempts false (stuffed n) n =
      (.ok (n + 1), stuffed (n + 1)) := by
  have htopped : (stuffed n).Topped := fun g hg => if_neg (by simpa [stuffed] using hg)
  have hlast : (stuffed n).seg n = OMap.empty.put (stuffKey n) (stuffValue n) := if_pos le_rfl
  have hroom : ¬ cfg.SegFits (((stuffed n).seg n).put (stuffKey (n + 1)) (stuffValue (n + 1))) := by
    rw [hlast]
    exact full_stuffing n
  have happ := (Log.append_at_cur htopped (segFits_stuffing (n + 1)) (fun _ => hgrows _) 62 false).resolve_left
    fun h => hroom h.1
  rw [show maxAttempts = 62 + 2 from rfl]
  refine happ.2.2.trans (congrArg (Prod.mk _) (Log.ext Log.rollOver_self_cur (funext fun g => ?_)))
  change (Log.put _ (n + 1) _ _).seg g = _
  by_cases hg : g = n + 1
  · have hempty : (stuffed n).seg (n + 1) = .empty := htopped _ (Nat.lt_succ_self n)
    rw [hg, Log.put_seg_self, Log.rollOver_seg, hempty]
    exact (if_pos le_rfl).symm
  · have hle : g ≤ n ↔ g ≤ n + 1 := by omega
    rw [Log.put_seg_of_ne _ hg, Log.rollOver_seg]
    simp only [stuffed, hle]

/-- The session holds the stuffing, and instance 0 has appended it. -/
structure Stuffed (n : ℕ) (w : World ℕ (Event ℕ)) : Prop where
  log : logOf addr w = stuffed n
  row : ∃ r, row addr w = some r ∧ r.cur = some n
  cache : w.cache 0 addr.pkStr = some n

theorem indexSized : cfg.IndexSized := fun _ _ _ => rfl

theorem sound_of_anyCall {s : Calls ℕ (Event ℕ)} (hs : (service env cfg).Reach (AnyCall addr) ⟨.empty, []⟩ s)
    (hrow : ∃ r c, row addr s.world = some r ∧ r.cur = some c) :
    Sound cfg addr s.world ∧ cfg.Fitting s.world.store := by
  obtain ⟨r, c, hr, hc⟩ := hrow
  obtain ⟨hsegs, hfit⟩ := segmentRecords_of_reach hs
  exact ⟨hsegs.sound hr hc, hfit⟩

/-- Another complete append. -/
theorem stuff {s : Calls ℕ (Event ℕ)} (hs : (service env cfg).Reach (AnyCall addr) ⟨.empty, []⟩ s)
    (hrow : ∃ r c, row addr s.world = some r ∧ r.cur = some c) {n : ℕ}
    (happend : ∀ {grows : ℕ → Prop} [DecidablePred grows], (∀ i, grows i) →
      Log.append cfg.SegFits grows (stuffKey n) (stuffValue n) maxAttempts false (logOf addr s.world)
        (target addr 0 s.world) = (.ok n, stuffed n)) :
    ∃ s', (service env cfg).Reach (AnyCall addr) ⟨.empty, []⟩ s' ∧ Stuffed n s'.world ∧
      ∀ j < s.procs.length, s'.procs[j]? = s.procs[j]? := by
  obtain ⟨hsound, hfit⟩ := sound_of_anyCall hs hrow
  have hok : AnyCall addr s (.spawn ⟨0, .append addr (stuffing n) 0⟩) := fun b hb => .inl (hb.resolve_right nofun).symm
  obtain ⟨s', hs', hworld, hprocs⟩ := hs.call (c := .calm) hok fun _ _ => trivial
  obtain ⟨r, hgrows, happ⟩ := hsound.appends_sized hfit indexSized 0 (stuffKey n) (stuffValue n)
    (stateFits_noDelta cfg addr (eventTime (stuffing n) 0) s.world)
  rw [show (noDelta : Deltas ℕ).writes = false from rfl, happend hgrows] at happ
  have hafter : s'.world = (perform env cfg ⟨0, .append addr (stuffing n) 0⟩ s.world).2 := hworld
  rw [perform_append_whole rfl] at hafter
  refine ⟨s', hs', ?_, hprocs⟩
  rw [hafter]
  obtain ⟨r', hr', hc'⟩ := happ.sound.live
  rw [happ.log] at hc'
  exact ⟨happ.log, ⟨r', hr', hc'⟩, (happ.ok n rfl).2⟩

def beginning : Issued ℕ := ⟨0, .create ['a'] ['u'] ∅ (some ['s']) [] 1⟩

/-- Instance 1 has filled the first segment, and instance 0 has gone on to the second. -/
def advanced : Calls ℕ (Event ℕ) := (service env cfg).run (System.turns .calm 8 0
  [beginning, ⟨1, .append addr (event ['p'] 5) 0⟩, ⟨1, .append addr (event ['q'] 6) 0⟩, ⟨0, .append addr (event ['s'] 7) 0⟩])
    ⟨.empty, []⟩

theorem reach_advanced : (service env cfg).Reach (AnyCall addr) ⟨.empty, []⟩ advanced := by
  refine System.reach_run (System.permitted_of_forall fun x hx s => ?_)
  rcases System.mem_turns hx with ⟨l, hl, rfl⟩ | ⟨j, rfl⟩
  · simp only [List.mem_cons, List.not_mem_nil, or_false] at hl
    rcases hl with rfl | rfl | rfl | rfl
    · exact fun b hb => .inl (hb.resolve_right nofun)
    all_goals exact fun b hb => .inl (hb.resolve_right nofun).symm
  · trivial

/-- The session has been created, and a call that deletes it has come to the row. -/
def torn : Calls ℕ (Event ℕ) :=
  (service env cfg).run (.spawn beginning :: List.replicate 8 (.step 0 .calm) ++
    .spawn ⟨0, .delete addr⟩ :: List.replicate 3 (.step 1 .calm)) ⟨.empty, []⟩

/-- What is left of that call. -/
def dropRow : Service ℕ (Event ℕ) Unit := do
  catching .recordNotFound (remove addr.sessionPk) (return ())
  cachePop addr.pkStr
  manifestRemove addr.app addr.user addr.id

theorem torn_world : torn.world = created := rfl

theorem torn_procs : torn.procs[1]? = some ⟨⟨0, .delete addr⟩, dropRow.bind fun _ => .ret .done⟩ := rfl

/-- The session can be filled to any index while the call waits. -/
theorem reach_stuffed (n : ℕ) : ∃ s, (service env cfg).Reach (AnyCall addr) ⟨.empty, []⟩ s ∧ Stuffed n s.world ∧
    s.procs[1]? = some ⟨⟨0, .delete addr⟩, dropRow.bind fun _ => .ret .done⟩ := by
  induction n with
  | zero =>
    have hreach : (service env cfg).Reach (AnyCall addr) ⟨.empty, []⟩ torn := by
      refine System.reach_run (System.permitted_of_forall fun x hx s => ?_)
      simp only [List.cons_append, List.mem_cons, List.mem_append, List.mem_replicate] at hx
      rcases hx with rfl | ⟨-, rfl⟩ | rfl | ⟨-, rfl⟩
      · exact fun b hb => .inl (hb.resolve_right nofun)
      · trivial
      · rintro b (hb | hb)
        · cases hb
        · cases hb
          exact .inl rfl
      · trivial
    have hblank : Blank addr torn.world := torn_world ▸ created_created.blank.1
    obtain ⟨r, hr, hc⟩ := hblank.row
    have hlog : logOf addr torn.world = ⟨0, fun _ => .empty⟩ := by
      obtain ⟨-, hcur, hempty⟩ := hblank.sound cfg
      exact Log.ext hcur (funext hempty)
    have htarget : target addr 0 torn.world = 0 := rfl
    obtain ⟨s, hs, hstuffed, hprocs⟩ := @stuff torn hreach ⟨r, 0, hr, hc⟩ 0 fun {grows} _ hgrows => by
      have happ := Log.append_at_cur (L := ⟨0, fun _ => .empty⟩) (fun _ _ => rfl) (segFits_stuffing 0)
        (fun _ => hgrows _) 62 false
      rw [hlog, htarget]
      refine (happ.resolve_right fun h => h.1 rfl).2.trans (congrArg (Prod.mk _) (Log.ext rfl (funext fun g => ?_)))
      by_cases hg : g = 0
      · rw [hg, Log.put_seg_self]
        rfl
      · rw [Log.put_seg_of_ne _ hg]
        exact (if_neg fun hle => hg (Nat.le_zero.mp hle)).symm
    exact ⟨s, hs, hstuffed, (hprocs 1 (by decide)).trans torn_procs⟩
  | succ n ih =>
    obtain ⟨s, hs, hstuffed, hp⟩ := ih
    obtain ⟨r, hr, hc⟩ := hstuffed.row
    have htarget : target addr 0 s.world = n := by rw [target, hstuffed.cache]; rfl
    obtain ⟨s', hs', hstuffed', hprocs⟩ := @stuff s hs ⟨r, n, hr, hc⟩ (n + 1) fun {grows} _ hgrows => by
      rw [hstuffed.log, htarget]
      exact append_stuffed n hgrows
    exact ⟨s', hs', hstuffed', (hprocs 1 (List.getElem?_eq_some_iff.mp hp).1).trans hp⟩

/-- The rest of the call takes the row and leaves the segments. -/
theorem alone_dropRow (w : World ℕ (Event ℕ)) :
    row addr (alone cfg 0 dropRow w).2 = none ∧
      ∀ g, (alone cfg 0 dropRow w).2.store.get (addr.segmentPk g) = w.store.get (addr.segmentPk g) := by
  unfold dropRow
  simp only [Prog.bind_eq, Prog.pure_eq]
  rw [alone_bind_ok (alone_removeQuietly _ w), alone_bind_ok (alone_cachePop _ _), (alone_manifestRemove _ _ _ _).1]
  refine ⟨?_, fun g => ?_⟩
  · refine (ServerConfig.operate_get_of_ne (show addr.sessionPk ≠ manifestPk addr.app addr.user by decide)).trans ?_
    exact (ServerConfig.remove_get ..).trans (if_pos rfl)
  · refine (ServerConfig.operate_get_of_ne (manifestPk_ne_segmentPk addr g).symm).trans ?_
    exact (ServerConfig.remove_get ..).trans (if_neg (segmentPk_ne_sessionPk addr g))

/-- A creation in a world without the row leaves the segments, and starts again at index 0. -/
theorem perform_beginning {w : World ℕ (Event ℕ)} (hw : row addr w = none) :
    let w' := (perform env cfg beginning w).2
    (∃ r, row addr w' = some r ∧ r.cur = some 0) ∧ w'.cache 0 addr.pkStr = some 0 ∧
      ∀ g, w'.store.get (addr.segmentPk g) = w.store.get (addr.segmentPk g) := by
  intro w'
  have hrun := @alone_createSession ℕ (Event ℕ) cfg 0 ['a'] ['u'] ∅ (some ['s']) [] 1 w
  have hnone : row ⟨['a'], ['u'], chooseId (some ['s']) []⟩ w = none := hw
  simp only [hnone] at hrun
  rw [if_pos (by decide)] at hrun
  have hw' : w' = (alone cfg 0 (createSession ['a'] ['u'] ∅ (some ['s']) [] 1) w).2 :=
    congrArg Prod.snd (perform_create ..)
  have hsessions : ∀ key : Key, key.set = .sessions → key ≠ manifestPk addr.app addr.user →
      ∀ q : Req ℕ (Event ℕ), FollowRequest addr q → key ∉ q.keys := by
    intro key hset hman q hq hmem
    cases hq with
    | app d => exact absurd (List.mem_singleton.mp hmem) fun heq => by rw [heq] at hset; cases hset
    | user d => exact absurd (List.mem_singleton.mp hmem) fun heq => by rw [heq] at hset; cases hset
    | manifest => exact hman (List.mem_singleton.mp hmem)
    | read keys => cases hmem
  rw [hw', hrun]
  refine ⟨⟨_, (get_createRest cfg 0 _ _ _ (hsessions _ rfl (by decide))).trans (FMap.get_insert_self _ _ _), rfl⟩, ?_,
    fun g => ?_⟩
  · rw [cache_createRest]
    exact World.setCache_self _ _ _ _
  · refine (get_createRest cfg 0 _ _ _ (hsessions _ rfl (manifestPk_ne_segmentPk addr g).symm)).trans ?_
    exact FMap.get_insert_of_ne _ _ (segmentPk_ne_sessionPk addr g)

/-- A session that was created again where a deletion had left full segments. -/
theorem reach_strays (n : ℕ) : ∃ s, (service env cfg).Reach (AnyCall addr) ⟨.empty, []⟩ s ∧
    logOf addr s.world = { stuffed n with cur := 0 } ∧ (∃ r, row addr s.world = some r ∧ r.cur = some 0) ∧
    s.world.cache 0 addr.pkStr = some 0 := by
  obtain ⟨s, hs, hstuffed, hp⟩ := reach_stuffed n
  obtain ⟨s₁, hs₁, hworld₁, -⟩ := hs.finish hp (c := .calm) fun _ => trivial
  obtain ⟨s₂, hs₂, hworld₂, -⟩ := hs₁.call (l := beginning) (c := .calm) (fun b hb => .inl (hb.resolve_right nofun))
    fun _ _ => trivial
  have hw₁ : s₁.world = (alone cfg 0 dropRow s.world).2 := by
    rw [hworld₁]
    exact congrArg Prod.snd (alone_bind_ret dropRow _ s.world)
  obtain ⟨hnone, hsegs₁⟩ := alone_dropRow s.world
  rw [← hw₁] at hnone hsegs₁
  have hw₂ : s₂.world = (perform env cfg beginning s₁.world).2 := hworld₂
  obtain ⟨⟨r, hr, hc⟩, hcache, hsegs₂⟩ := perform_beginning hnone
  rw [← hw₂] at hr hcache hsegs₂
  refine ⟨s₂, hs₂, Log.ext (by simp [logOf, hr, hc]) (funext fun g => ?_), ⟨r, hr, hc⟩, hcache⟩
  have hseg : segment addr s₂.world g = segment addr s.world g := segment_congr ((hsegs₂ g).trans (hsegs₁ g))
  exact hseg.trans (congrFun (congrArg Log.seg hstuffed.log) g)

/-- A state delta for the session, the app and the user. -/
def delta : Deltas ℕ := ⟨FMap.set ∅ ['k'] (some 1), FMap.set ∅ ['l'] (some 2), FMap.set ∅ ['m'] (some 3)⟩

/-- An event that fills a segment, under a key of its own. -/
def surplus : Event ℕ := event ['r'] 5 1

/-- State takes no room here. -/
theorem stateFits_of_fitting {w : World ℕ (Event ℕ)} (h : cfg.Fitting w.store) (d : Deltas ℕ) (now : ℚ) :
    StateFits cfg addr d now w := by
  intro x hx
  have hevents : (Op.apply x.2 ((w.store.get x.1).getD {})).1.events = ((w.store.get x.1).getD {}).events := by
    rcases mem_stateWrites.mp hx with ⟨-, rfl⟩ | ⟨-, rfl⟩ | ⟨-, rfl⟩ <;> rfl
  have hfits : cfg.Fits (Op.apply x.2 ((w.store.get x.1).getD {})).1 := by
    change size _ ≤ 2
    rw [size, hevents]
    cases hr : w.store.get x.1 with
    | none => exact Nat.zero_le _
    | some r => exact h _ r hr
  rw [onRecord_stateWrite_eq cfg hx, ServerConfig.commitRecord, if_pos hfits]
  rintro ⟨⟩

theorem full_surplus (g : ℕ) : ¬ cfg.SegFits ((OMap.empty.put (stuffKey g) (stuffValue g)).put (eventKey env surplus 0)
    (eventToInlineDict env.model surplus)) := by
  unfold stuffKey stuffValue
  rcases stuffing_cases g with ⟨h, -⟩ | ⟨h, -⟩ <;> rw [h] <;> decide +kernel

end Small

open Sessions.Small in
/-- The segment of the cached index is full, and so is the stored one: both appends roll over. -/
theorem append_places_alike_stale :
    let plain := alone cfg 1 (appendEventRecord addr (eventKey env surplus 0) (eventToInlineDict env.model surplus) noDelta 5)
      advanced.world
    let batch := alone cfg 1 (appendEventRecord addr (eventKey env surplus 0) (eventToInlineDict env.model surplus) delta 5)
      advanced.world
    advanced.world.cache 1 addr.pkStr = some 0 ∧ (logOf addr advanced.world).cur = 1 ∧ (logOf addr plain.2).cur = 2 ∧
    plain.1 = .ok () ∧ batch.1 = .ok () ∧ logOf addr batch.2 = logOf addr plain.2 ∧ batch.2.cache = plain.2.cache ∧
      ∀ key, batch.2.store.get key = delta.written addr 5 key (plain.2.store.get key) := by
  have hcached : advanced.world.cache 1 addr.pkStr = some 0 := by decide +kernel
  have hcur : (row addr advanced.world).bind (·.cur) = some 1 := by decide +kernel
  have hroom : cfg.SegFits (((logOf addr advanced.world).seg 2).put (eventKey env surplus 0)
      (eventToInlineDict env.model surplus)) := by decide +kernel
  obtain ⟨r, hr, hc⟩ := Option.bind_eq_some_iff.mp hcur
  have hfit := (segmentRecords_of_reach reach_advanced).2
  refine ⟨hcached, by decide +kernel, by decide +kernel, append_places_alike reach_advanced rfl hr hc (fun n hn => ?_) indexSized
    (by decide +kernel) (stateFits_of_fitting hfit delta 5) (.inr ⟨2, by decide +kernel, by decide +kernel, hroom⟩)⟩
  obtain rfl := Option.some.inj (hcached.symm.trans hn)
  exact Nat.zero_le _

open Sessions.Small in
/-- With 64 full segments from the stored index on, the append without a delta gives up
and the one with a delta finds room in the next segment. -/
theorem plain_append_gives_up :
    ∃ (s : Calls ℕ (Event ℕ)) (r : Record ℕ (Event ℕ)), (service env cfg).Reach (AnyCall addr) ⟨.empty, []⟩ s ∧
      row addr s.world = some r ∧ r.cur = some 0 ∧ s.world.cache 0 addr.pkStr = some 0 ∧ cfg.IndexSized ∧
      cfg.SegFits (OMap.empty.put (eventKey env surplus 0) (eventToInlineDict env.model surplus)) ∧
      delta.writes ∧ StateFits cfg addr delta 5 s.world ∧
      (alone cfg 0 (appendEventRecord addr (eventKey env surplus 0) (eventToInlineDict env.model surplus) delta 5)
        s.world).1 = .ok () ∧
      ∃ e, (alone cfg 0 (appendEventRecord addr (eventKey env surplus 0) (eventToInlineDict env.model surplus) noDelta 5)
        s.world).1 = .error e := by
  obtain ⟨s, hs, hlog, ⟨r, hr, hc⟩, hcache⟩ := reach_strays 63
  obtain ⟨hsound, hfit⟩ := sound_of_anyCall hs ⟨r, 0, hr, hc⟩
  have halone : cfg.SegFits (OMap.empty.put (eventKey env surplus 0) (eventToInlineDict env.model surplus)) := by decide +kernel
  have hfull : ∀ g ≤ 63, ¬ cfg.SegFits (((stuffed 63).seg g).put (eventKey env surplus 0) (eventToInlineDict env.model surplus)) :=
    fun g hg => by
      rw [show (stuffed 63).seg g = _ from if_pos hg]
      exact full_surplus g
  have hroom : cfg.SegFits (((stuffed 63).seg 64).put (eventKey env surplus 0) (eventToInlineDict env.model surplus)) := halone
  have htarget : target addr 0 s.world = 0 := by rw [target, hcache]; rfl
  have hstate := stateFits_of_fitting hfit delta 5
  refine ⟨s, r, hs, hr, hc, hcache, indexSized, halone, by decide, hstate, ?_, ?_⟩
  · obtain ⟨r', hgrows, happ⟩ := hsound.appends_sized hfit indexSized 0 (eventKey env surplus 0)
      (eventToInlineDict env.model surplus) hstate
    have hreached := Log.place_first (L := { stuffed 63 with cur := 1 }) halone hgrows (m := 64) (by decide) hroom
      (fun j _ hj => hfull j (by omega)) (n := maxAttempts) (by decide)
    rw [hlog, htarget, show delta.writes = true from rfl, Log.append, if_pos rfl,
      if_neg (show ¬ cfg.SegFits (((stuffed 63).seg 0).put _ _) from hfull 0 (by omega)),
      if_neg fun hstuck => hstuck.2 (hgrows _)] at happ
    exact (happ.ok 64 (congrArg Prod.fst hreached)).1
  · obtain ⟨r', hgrows, happ⟩ := hsound.appends_sized hfit indexSized 0 (eventKey env surplus 0)
      (eventToInlineDict env.model surplus) (stateFits_noDelta cfg addr 5 s.world)
    have hstuck := Log.place_full (L := { stuffed 63 with cur := 0 }) (n := maxAttempts) halone hgrows
      fun j _ hj => hfull j (by simp [maxAttempts] at hj; omega)
    rw [hlog, htarget, show (noDelta : Deltas ℕ).writes = false from rfl, Log.append, if_neg Bool.false_ne_true] at happ
    exact (happ.error false (congrArg Prod.fst hstuck)).1

end AdkAerospike.Sessions
