import AdkAerospike.Sessions.View

/-! What each request of an append does to the session's log, in any weather. The
answer of a request tells what happened up to the ambiguity of a timeout: a
success was applied, `RecordTooBig` and `FilteredOut` were not, and after any other
error the write may or may not have been applied. -/

namespace AdkAerospike.Sessions

open Program Data Codec Keys

variable {V P : Type} {cfg : ServerConfig V P} {x : Weather} {a : Addr}
  {w : World V P}

/-- A fault that the retry loops know of. -/
def Fault.Transient : Fault → Prop
  | .other _ => False
  | _ => True

/-- The errors that the retry loops react to. -/
def Err.transient : Err → Bool
  | .deviceOverload | .maxErrorRate | .timeout => true
  | _ => false

theorem Fault.Transient.error {f : Fault} (hf : f.Transient) {e : Err} (he : f.error = some e) :
    e.transient := by
  cases f <;> cases he <;> first | rfl | cases hf

theorem Err.transient_code {e : Err} (he : e.transient) :
    e.code ≠ 0 ∧ e.code ≠ Err.recordTooBig.code := by
  cases e <;> first | exact ⟨by decide, by decide⟩ | cases he

/-- A request that acts on the store does so through `under`. -/
theorem onStore_eq {ρ : Type} (w : World V P) (act : Store V P → ρ × Store V P) :
    w.onStore act = ((act w.store).1, w.withStore (act w.store).2) := rfl

/-! ### An event into a segment -/

section Put
variable {g : ℕ} {k : Str} {v : InlineEvent V P}

/-- The event went into the segment, where it fits. -/
def PutDone (cfg : ServerConfig V P) (a : Addr) (g : ℕ) (k : Str) (v : InlineEvent V P)
    (w w' : World V P) : Prop :=
  cfg.SegFits ((segment a w g).put k v) ∧ logOf a w' = (logOf a w).put g k v

theorem Sound.store_put (h : Sound cfg a w) :
    let done := cfg.operate (a.segmentPk g) [.mapPut k v] none w.store
    (done.1 = .ok {} ∧ PutDone cfg a g k v w (w.withStore done.2) ∨
      done.1 = .error .recordTooBig ∧ ¬ cfg.SegFits ((segment a w g).put k v) ∧
        logOf a (w.withStore done.2) = logOf a w) ∧ Sound cfg a (w.withStore done.2) := by
  intro done
  have hans : done.1 = _ := ServerConfig.operate_fst
  have hself : done.2.get (a.segmentPk g) = _ := ServerConfig.operate_get_self
  have hrow : row a (w.withStore done.2) = row a w :=
    ServerConfig.operate_get_of_ne (segmentPk_ne_sessionPk a g).symm
  have hother : ∀ g' ≠ g, done.2.get (a.segmentPk g') = w.store.get (a.segmentPk g') :=
    fun g' hg => ServerConfig.operate_get_of_ne (by simpa using hg)
  rw [h.onRecord_mapPut] at hans hself
  by_cases hfits : cfg.SegFits ((segment a w g).put k v)
  · rw [if_pos hfits] at hans hself
    obtain ⟨hlog, hsound⟩ := h.put (w.withStore done.2) hfits hrow hself hother
    exact ⟨.inl ⟨hans, hfits, hlog⟩, hsound⟩
  · rw [if_neg hfits] at hans hself
    have hall : ∀ g', (w.withStore done.2).store.get (a.segmentPk g') =
        w.store.get (a.segmentPk g') := fun g' => by
      by_cases hg : g' = g
      · rw [hg]
        exact hself
      · exact hother g' hg
    exact ⟨.inr ⟨hans, hfits, logOf_congr hrow hall⟩, h.congr hrow hall⟩

/-- The same under a fault. -/
theorem Sound.put_under (h : Sound cfg a w) {f : Fault} (hf : f.Transient) :
    let done := under f (cfg.operate (a.segmentPk g) [.mapPut k v] none) w.store
    Sound cfg a (w.withStore done.2) ∧
      (done.1 = .ok {} ∧ PutDone cfg a g k v w (w.withStore done.2) ∨
        done.1 = .error .recordTooBig ∧ ¬ cfg.SegFits ((segment a w g).put k v) ∧
          logOf a (w.withStore done.2) = logOf a w ∨
        ∃ e, done.1 = .error e ∧ e.transient ∧
          (logOf a (w.withStore done.2) = logOf a w ∨
            PutDone cfg a g k v w (w.withStore done.2))) := by
  intro done
  obtain ⟨hres, hsound⟩ := h.store_put (g := g) (k := k) (v := v)
  rcases under_cases f (cfg.operate (a.segmentPk g) [.mapPut k v] none) w.store with
    ⟨-, hdone⟩ | ⟨e, he, hans, hσ | hσ⟩
  · rw [show done = _ from hdone]
    exact ⟨hsound, hres.imp id .inl⟩
  · rw [show done.2 = w.store from hσ]
    exact ⟨h, .inr (.inr ⟨e, hans, hf.error he, .inl rfl⟩)⟩
  · rw [show done.2 = _ from hσ]
    refine ⟨hsound, .inr (.inr ⟨e, hans, hf.error he, ?_⟩)⟩
    exact hres.elim (fun h => .inr h.2) fun h => .inl h.2.2

/-- `operate` of `_place_event`. -/
theorem Sound.exec_put (h : Sound cfg a w) (inst : ℕ) (hx : x.whole.Transient) :
    let done := exec cfg inst x (.operate (a.segmentPk g) [.mapPut k v] none) w
    Sound cfg a done.2 ∧ done.2.cache = w.cache ∧
      (done.1 = .ok {} ∧ PutDone cfg a g k v w done.2 ∨
        done.1 = .error .recordTooBig ∧ ¬ cfg.SegFits ((segment a w g).put k v) ∧
          logOf a done.2 = logOf a w ∨
        ∃ e, done.1 = .error e ∧ e.transient ∧
          (logOf a done.2 = logOf a w ∨ PutDone cfg a g k v w done.2)) :=
  ⟨(h.put_under hx).1, rfl, (h.put_under hx).2⟩

/-- The size read of `_segment_size`. -/
theorem Sound.operate_size (h : Sound cfg a w) (g : ℕ) :
    cfg.operate (a.segmentPk g) [.mapSize] none w.store = (.error .recordNotFound, w.store) ∧
        segment a w g = .empty ∨
      cfg.operate (a.segmentPk g) [.mapSize] none w.store =
        (.ok { size := some (segment a w g).size }, w.store) := by
  rcases h.segment_cases g with ⟨hr, hseg⟩ | ⟨hr, -⟩
  · exact .inl ⟨ServerConfig.operate_of_missing hr rfl, hseg⟩
  · exact .inr (ServerConfig.operate_of_reads hr rfl)

end Put

/-! ### The guarded increment -/

section Bump
variable {n : ℕ}

theorem Sound.store_bump (h : Sound cfg a w) :
    let done := cfg.operate a.sessionPk [.incrementCur, .readCur] (some n) w.store
    (done.1 = .ok { cur := some (n + 1) } ∧ (logOf a w).cur = n ∧
        logOf a (w.withStore done.2) = { logOf a w with cur := n + 1 } ∨
      done.1 = .error .filteredOut ∧ (logOf a w).cur ≠ n ∧ logOf a (w.withStore done.2) = logOf a w ∨
      done.1 = .error .recordTooBig ∧ logOf a (w.withStore done.2) = logOf a w) ∧
    Sound cfg a (w.withStore done.2) := by
  intro done
  obtain ⟨r, hr, hc⟩ := h.live
  have hans : done.1 = _ := ServerConfig.operate_fst
  have hself : done.2.get a.sessionPk = _ := ServerConfig.operate_get_self
  have hother : ∀ g, done.2.get (a.segmentPk g) = w.store.get (a.segmentPk g) :=
    fun g => ServerConfig.operate_get_of_ne (segmentPk_ne_sessionPk a g)
  rw [show w.store.get a.sessionPk = some r from hr, onRecord_bump r hc] at hans hself
  split_ifs at hans hself with hcur hfits
  · obtain ⟨hlog, hsound⟩ := h.bump (w.withStore done.2) hself hother
    exact ⟨.inl ⟨hans, hcur, hlog⟩, hsound⟩
  · have hrow : row a (w.withStore done.2) = row a w := hself.trans hr.symm
    exact ⟨.inr (.inr ⟨hans, logOf_congr hrow hother⟩), h.congr hrow hother⟩
  · have hrow : row a (w.withStore done.2) = row a w := hself.trans hr.symm
    exact ⟨.inr (.inl ⟨hans, hcur, logOf_congr hrow hother⟩), h.congr hrow hother⟩

/-- `operate` of `_roll_over`. -/
theorem Sound.exec_bump (h : Sound cfg a w) (inst : ℕ) (hx : x.whole.Transient) :
    let done := exec cfg inst x (.operate a.sessionPk [.incrementCur, .readCur] (some n)) w
    Sound cfg a done.2 ∧ done.2.cache = w.cache ∧
      (done.1 = .ok { cur := some (n + 1) } ∧ (logOf a w).cur = n ∧
          logOf a done.2 = { logOf a w with cur := n + 1 } ∨
        done.1 = .error .filteredOut ∧ (logOf a w).cur ≠ n ∧ logOf a done.2 = logOf a w ∨
        ∃ e, done.1 = .error e ∧ e ≠ .filteredOut ∧
          (logOf a done.2 = logOf a w ∨
            (logOf a w).cur = n ∧ logOf a done.2 = { logOf a w with cur := n + 1 })) := by
  intro done
  obtain ⟨hres, hsound⟩ := h.store_bump (n := n)
  rcases under_cases x.whole (cfg.operate a.sessionPk [.incrementCur, .readCur] (some n)) w.store
    with ⟨-, hu⟩ | ⟨e, he, hans, hσ | hσ⟩
  · have hdone : done = _ := (onStore_eq w _).trans (by rw [hu])
    rw [hdone]
    refine ⟨hsound, rfl, ?_⟩
    rcases hres with h₁ | h₁ | h₁
    · exact .inl h₁
    · exact .inr (.inl h₁)
    · exact .inr (.inr ⟨_, h₁.1, by decide, .inl h₁.2⟩)
  all_goals
    have hne : e ≠ .filteredOut := by
      rintro rfl
      cases hx.error he
    have hdone : done.2 = w.withStore _ := rfl
    rw [hdone, hσ]
  · exact ⟨h, rfl, .inr (.inr ⟨e, hans, hne, .inl rfl⟩)⟩
  · refine ⟨hsound, rfl, .inr (.inr ⟨e, hans, hne, ?_⟩)⟩
    rcases hres with h₁ | h₁ | h₁
    · exact .inr h₁.2
    · exact .inl h₁.2.2
    · exact .inl h₁.2

end Bump

/-! ### The batch -/

section Batch
variable {g : ℕ} {k : Str} {v : InlineEvent V P}

/-- The event's write and the state writes, each under its own fault. -/
theorem Sound.store_batch (h : Sound cfg a w) {faults : ℕ → Fault} (hf : (faults 0).Transient)
    (d : Deltas V) (now : ℚ) :
    let done := cfg.batchWrite faults ((a.segmentPk g, [.mapPut k v]) :: stateWrites a d now) w.store
    Sound cfg a (w.withStore done.2) ∧ ∃ s rest, done.1 = s :: rest ∧
      (s = 0 ∧ PutDone cfg a g k v w (w.withStore done.2) ∨
        s = Err.recordTooBig.code ∧ ¬ cfg.SegFits ((segment a w g).put k v) ∧
          logOf a (w.withStore done.2) = logOf a w ∨
        s ≠ 0 ∧ s ≠ Err.recordTooBig.code ∧
          (logOf a (w.withStore done.2) = logOf a w ∨
            PutDone cfg a g k v w (w.withStore done.2))) := by
  intro done
  -- the segment's write comes first; the state writes keep the log it leaves
  obtain ⟨hsound, hres⟩ := h.put_under (g := g) (k := k) (v := v) hf
  generalize hfirst : under (faults 0) (cfg.operate (a.segmentPk g) [.mapPut k v] none) w.store =
    first at hsound hres
  generalize hrest : cfg.batchWrite (fun i => faults (i + 1)) (stateWrites a d now) first.2 = rest
  have hdone : done = (ServerConfig.statusOf first.1 :: rest.1, rest.2) := by
    rw [← hrest, ← hfirst]
    rfl
  obtain ⟨r, hr, -⟩ := hsound.live
  obtain ⟨s, t, hrow⟩ : ∃ s t, rest.2.get a.sessionPk = some { r with state := s, ts := t } := by
    rw [← hrest]
    exact row_batchWrite_stateWrites hr _ d now
  have hsegs : ∀ g', rest.2.get (a.segmentPk g') = first.2.get (a.segmentPk g') := fun g' => by
    rw [← hrest]
    exact ServerConfig.batchWrite_get_of_notMem _ (segmentPk_notMem_stateWrites d now g')
  obtain ⟨hlog, hsound'⟩ := hsound.restate (w.withStore rest.2) hr hrow rfl hsegs
  rw [hdone]
  refine ⟨hsound', _, _, rfl, ?_⟩
  unfold PutDone at hres ⊢
  rw [hlog]
  rcases hres with ⟨hans, hput⟩ | ⟨hans, hbig⟩ | ⟨e, hans, he, hres⟩ <;> rw [hans]
  · exact .inl ⟨rfl, hput⟩
  · exact .inr (.inl ⟨rfl, hbig⟩)
  · exact .inr (.inr ⟨(Err.transient_code he).1, (Err.transient_code he).2, hres⟩)

/-- `batch_write` of `_append_event_record`. -/
theorem Sound.exec_batch (h : Sound cfg a w) (inst : ℕ) (hf : (x.record 0).Transient) (d : Deltas V) (now : ℚ) :
    let done := exec cfg inst x
      (.batchWrite ((a.segmentPk g, [.mapPut k v]) :: stateWrites a d now)) w
    Sound cfg a done.2 ∧ done.2.cache = w.cache ∧
      ((∃ s rest, done.1 = .ok (s :: rest) ∧
        (s = 0 ∧ PutDone cfg a g k v w done.2 ∨
          s = Err.recordTooBig.code ∧ ¬ cfg.SegFits ((segment a w g).put k v) ∧
            logOf a done.2 = logOf a w ∨
          s ≠ 0 ∧ s ≠ Err.recordTooBig.code ∧
            (logOf a done.2 = logOf a w ∨ PutDone cfg a g k v w done.2))) ∨
        ∃ e, done.1 = .error e ∧ (logOf a done.2 = logOf a w ∨ PutDone cfg a g k v w done.2)) := by
  intro done
  obtain ⟨hsound, s, rest, hs, hres⟩ := h.store_batch (g := g) (k := k) (v := v) hf d now
  generalize hb : cfg.batchWrite x.record ((a.segmentPk g, [.mapPut k v]) :: stateWrites a d now)
    w.store = batch at hsound hs hres
  rcases under_cases x.whole (fun σ =>
      ((.ok (cfg.batchWrite x.record ((a.segmentPk g, [.mapPut k v]) :: stateWrites a d now) σ).1 :
          Except Err (List ℤ)),
        (cfg.batchWrite x.record ((a.segmentPk g, [.mapPut k v]) :: stateWrites a d now) σ).2))
      w.store with
    ⟨-, hu⟩ | ⟨e, -, hans, hσ | hσ⟩
  · have hdone : done = (.ok batch.1, w.withStore batch.2) := by
      rw [← hb]
      exact (onStore_eq w _).trans (by rw [hu])
    rw [hdone]
    exact ⟨hsound, rfl, .inl ⟨s, rest, congrArg Except.ok hs, hres⟩⟩
  · have hdone : done.2 = w.withStore _ := rfl
    rw [hdone, hσ]
    exact ⟨h, rfl, .inr ⟨e, hans, .inl rfl⟩⟩
  · have hdone : done.2 = w.withStore _ := rfl
    rw [hdone, hσ, hb]
    refine ⟨hsound, rfl, .inr ⟨e, hans, ?_⟩⟩
    rcases hres with ⟨-, hput⟩ | ⟨-, -, hlog⟩ | ⟨-, -, hres⟩
    · exact .inr hput
    · exact .inl hlog
    · exact hres

end Batch

end AdkAerospike.Sessions
