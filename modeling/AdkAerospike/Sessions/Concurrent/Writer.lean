import AdkAerospike.Sessions.Concurrent.Setting

/-! `append_event` among others. As long as the append runs its key sits in no
segment but the one being tried; a refusal with `RecordTooBig` proves that it does
not sit there either, since overwriting the entry by itself would have fitted. So
when the append returns the key sits in exactly one segment. -/

namespace AdkAerospike.Sessions

open Program Data Codec Keys

variable {V P : Type} {cfg : ServerConfig V P} {a : Addr} {inst : ℕ} {k : Str}
  {v : InlineEvent V P} {g : ℕ} {w w' : World V P}

/-- The key is in no segment. -/
def Absent (a : Addr) (k : Str) (w : World V P) : Prop :=
  ∀ g, ((logOf a w).seg g).lookup k = none

/-- The key is in segment `g`, with this value, and in no other. -/
def At (a : Addr) (k : Str) (v : InlineEvent V P) (g : ℕ) (w : World V P) : Prop :=
  ((logOf a w).seg g).lookup k = some v ∧ ∀ g' ≠ g, ((logOf a w).seg g').lookup k = none

/-- An append that may go on at segment `g`. -/
structure Ready (cfg : ServerConfig V P) (a : Addr) (k : Str) (g : ℕ) (w : World V P) : Prop where
  good : Good cfg a w
  le : g ≤ (logOf a w).cur
  absent : Absent a k w

/-- An append whose write to segment `g` may have been applied. -/
structure Trying (cfg : ServerConfig V P) (a : Addr) (k : Str) (v : InlineEvent V P) (g : ℕ)
    (w : World V P) : Prop where
  good : Good cfg a w
  le : g ≤ (logOf a w).cur
  here : Absent a k w ∨ At a k v g w

/-- An append that has taken effect at segment `g`. -/
structure Stored (cfg : ServerConfig V P) (a : Addr) (k : Str) (v : InlineEvent V P) (g : ℕ)
    (w : World V P) : Prop where
  good : Good cfg a w
  le : g ≤ (logOf a w).cur
  here : At a k v g w

/-! ### Stability -/

theorem At.keep {R : Set Str} (hw : Keeps cfg a R w w') (h : At a k v g w) (hg : Good cfg a w)
    (hk : k ∈ R) : At a k v g w' := by
  refine ⟨?_, fun g' hne => ?_⟩
  · rw [(hw hg).2.2 k hk g]
    exact h.1
  · rw [(hw hg).2.2 k hk g']
    exact h.2 g' hne

section Stability
variable (hw : Keeps cfg a {k} w w')
include hw

theorem Absent.keep (h : Absent a k w) (hg : Good cfg a w) : Absent a k w' := fun g => by
  rw [(hw hg).2.2 k (Set.mem_singleton k) g]
  exact h g

theorem Ready.keep (h : Ready cfg a k g w) : Ready cfg a k g w' :=
  ⟨(hw h.good).1, h.le.trans (hw h.good).2.1, h.absent.keep hw h.good⟩

theorem Trying.keep (h : Trying cfg a k v g w) : Trying cfg a k v g w' :=
  ⟨(hw h.good).1, h.le.trans (hw h.good).2.1,
    h.here.imp (·.keep hw h.good) (·.keep hw h.good (Set.mem_singleton k))⟩

theorem Stored.keep (h : Stored cfg a k v g w) : Stored cfg a k v g w' :=
  ⟨(hw h.good).1, h.le.trans (hw h.good).2.1, h.here.keep hw h.good (Set.mem_singleton k)⟩

end Stability

theorem Ready.trying (h : Ready cfg a k g w) : Trying cfg a k v g w := ⟨h.good, h.le, .inl h.absent⟩

theorem Stored.trying (h : Stored cfg a k v g w) : Trying cfg a k v g w := ⟨h.good, h.le, .inr h.here⟩

theorem Absent.of_log (h : Absent a k w) (hlog : logOf a w' = logOf a w) : Absent a k w' := fun g => by
  rw [hlog]
  exact h g

/-! ### Writing the event -/

/-- Once the write is applied the key is in its segment and nowhere else. -/
theorem Trying.at_put (h : Trying cfg a k v g w) (hlog : logOf a w' = (logOf a w).put g k v) :
    At a k v g w' := by
  have hothers : ∀ g' ≠ g, ((logOf a w).seg g').lookup k = none := fun g' hne =>
    h.here.elim (fun h => h g') fun h => h.2 g' hne
  refine ⟨?_, fun g' hne => ?_⟩
  · rw [hlog, Log.put_seg_self, OMap.lookup_put_self]
  · rw [hlog, Log.put_seg_of_ne _ hne]
    exact hothers g' hne

/-- A segment that refuses the event does not hold it. -/
theorem Trying.absent_of_refused (h : Trying cfg a k v g w)
    (hbig : ¬ cfg.SegFits ((segment a w g).put k v)) : Absent a k w := by
  refine h.here.elim id fun hat => ?_
  have hself : (segment a w g).put k v = segment a w g := OMap.put_eq_self hat.1
  rcases h.good.segment_cases g with ⟨-, hempty⟩ | ⟨-, hfits⟩
  · have hlook : (segment a w g).lookup k = some v := hat.1
    rw [hempty] at hlook
    cases hlook
  · rw [hself] at hbig
    exact absurd hfits hbig

/-- What is known when a write of the event has been answered. -/
def Written (cfg : ServerConfig V P) (a : Addr) (k : Str) (v : InlineEvent V P) (g : ℕ) {ρ : Type} :
    Except Err ρ → World V P → Prop
  | .ok _, w => Stored cfg a k v g w
  | .error e, w => Trying cfg a k v g w ∧ (e = .recordTooBig → Ready cfg a k g w)

/-- The append's place among the others: nobody else touches its key, and it
touches no other key. -/
abbrev writer (cfg : ServerConfig V P) (a : Addr) (inst : ℕ) (k : Str) :
    Setting (Req V P) Ans (World V P) Weather := party cfg a inst {k} {k}ᶜ

theorem written_stable {ρ : Type} :
    Safe.Stable (writer cfg a inst k) (Written cfg a k v g : Except Err ρ → World V P → Prop) := by
  intro r w w' h hw
  rcases r with e | y
  · exact ⟨h.1.keep hw, fun he => (h.2 he).keep hw⟩
  · exact Stored.keep hw h

/-- Keeping the guarantee and the log leaves an append where it was. -/
theorem Trying.step_of_log (h : Trying cfg a k v g w) (hs : Sound cfg a w') (hc : w'.cache = w.cache)
    (hlog : logOf a w' = logOf a w) : Keeps cfg a {k}ᶜ w w' ∧ Trying cfg a k v g w' := by
  have hkeep : ∀ K, Keeps cfg a K w w' := h.good.keeps_of_log hs hc hlog
  exact ⟨hkeep _, h.keep (hkeep _)⟩

theorem Trying.step_of_put (h : Trying cfg a k v g w) (hs : Sound cfg a w') (hc : w'.cache = w.cache)
    (hlog : logOf a w' = (logOf a w).put g k v) :
    Keeps cfg a {k}ᶜ w w' ∧ Stored cfg a k v g w' := by
  have hkeep := h.good.keeps_put hs hc h.le hlog
  exact ⟨hkeep, (hkeep h.good).1, h.le.trans (hkeep h.good).2.1, h.at_put hlog⟩

/-- Every answer to a write of the event, and what is known then. -/
theorem Trying.exec_put (h : Trying cfg a k v g w) (inst : ℕ) {x : Weather} (hx : x.whole.Transient) :
    let done := exec cfg inst x (.operate (a.segmentPk g) [.mapPut k v] none) w
    Keeps cfg a {k}ᶜ w done.2 ∧ Written cfg a k v g done.1 done.2 := by
  intro done
  obtain ⟨hs, hc, hres⟩ := h.good.exec_put inst (g := g) (k := k) (v := v) hx
  rcases hres with ⟨hans, -, hlog⟩ | ⟨hans, hbig, hlog⟩ | ⟨e, hans, he, hlog⟩
  · obtain ⟨hkeep, hst⟩ := h.step_of_put hs hc hlog
    rw [show done.1 = _ from hans]
    exact ⟨hkeep, hst⟩
  · obtain ⟨hkeep, htry⟩ := h.step_of_log hs hc hlog
    have habs := (h.absent_of_refused hbig).of_log hlog
    rw [show done.1 = _ from hans]
    exact ⟨hkeep, htry, fun _ => ⟨htry.good, htry.le, habs⟩⟩
  · have hne : e ≠ .recordTooBig := by
      rintro rfl
      cases he
    rw [show done.1 = _ from hans]
    rcases hlog with hlog | ⟨-, hlog⟩
    · obtain ⟨hkeep, htry⟩ := h.step_of_log hs hc hlog
      exact ⟨hkeep, htry, fun h => absurd h hne⟩
    · obtain ⟨hkeep, hst⟩ := h.step_of_put hs hc hlog
      exact ⟨hkeep, hst.trying, fun h => absurd h hne⟩

theorem safe_put (h : Trying cfg a k v g w) (n : ℕ) :
    Safe (writer cfg a inst k) (Written cfg a k v g)
      (writeRetryingOverload (operate (a.segmentPk g) [.mapPut k v]) true n) w := by
  refine safe_writeRetryingOverload written_stable true ?_ (fun e w _ h => h.1) n h
  intro w₀ h₀ w₁ hw₁ x hx
  obtain ⟨hkeep, hwritten⟩ := (h₀.keep hw₁).exec_put inst hx.1
  exact ⟨hkeep, safe_ofExcept written_stable hwritten⟩

/-! ### Rolling over -/

/-- Where an append that knows its key to be absent may go on. -/
def Onward (cfg : ServerConfig V P) (a : Addr) (k : Str) : Except Err ℕ → World V P → Prop
  | .ok n, w => Ready cfg a k n w
  | .error _, _ => True

theorem onward_stable : Safe.Stable (writer cfg a inst k) (Onward cfg a k) := by
  intro r w w' h hw
  cases r with
  | ok n => exact Ready.keep hw h
  | error e => trivial

/-- What is known when the guarded increment of `cur` has been answered. -/
def Bumped (cfg : ServerConfig V P) (a : Addr) (k : Str) (n : ℕ) :
    Except Err (OpResult V P) → World V P → Prop
  | .ok y, w => Ready cfg a k (y.cur.getD (n + 1)) w
  | .error _, w => Ready cfg a k n w

theorem bumped_stable {n : ℕ} : Safe.Stable (writer cfg a inst k) (Bumped cfg a k n) := by
  intro r w w' h hw
  cases r with
  | ok y => exact Ready.keep hw h
  | error e => exact Ready.keep hw h

theorem Ready.exec_bump {n : ℕ} (h : Ready cfg a k n w) (inst : ℕ) {x : Weather}
    (hx : x.whole.Transient) :
    let done := exec cfg inst x (.operate a.sessionPk [.incrementCur, .readCur] (some n)) w
    Keeps cfg a {k}ᶜ w done.2 ∧ Bumped cfg a k n done.1 done.2 := by
  intro done
  obtain ⟨hs, hc, hres⟩ := h.good.exec_bump inst (n := n) hx
  have hsame : logOf a done.2 = logOf a w → Keeps cfg a {k}ᶜ w done.2 ∧ Ready cfg a k n done.2 :=
    fun hlog =>
      have hkeep : ∀ K, Keeps cfg a K w done.2 := h.good.keeps_of_log hs hc hlog
      ⟨hkeep _, h.keep (hkeep _)⟩
  have hbump : (logOf a w).cur = n → logOf a done.2 = { logOf a w with cur := n + 1 } →
      Keeps cfg a {k}ᶜ w done.2 ∧ Ready cfg a k n done.2 ∧ Ready cfg a k (n + 1) done.2 := by
    intro hn hlog
    have hkeep : ∀ K, Keeps cfg a K w done.2 := h.good.keeps_bump hs hc (by rw [hlog, hn])
    have hready := h.keep (hkeep _)
    exact ⟨hkeep _, hready, hready.good, by rw [hlog], hready.absent⟩
  rcases hres with ⟨hans, hn, hlog⟩ | ⟨hans, -, hlog⟩ | ⟨e, hans, -, hlog | ⟨hn, hlog⟩⟩ <;>
    rw [show done.1 = _ from hans]
  · exact ⟨(hbump hn hlog).1, (hbump hn hlog).2.2⟩
  · exact hsame hlog
  · exact hsame hlog
  · exact ⟨(hbump hn hlog).1, (hbump hn hlog).2.1⟩

theorem safe_bump {n : ℕ} (h : Ready cfg a k n w) (m : ℕ) :
    Safe (writer cfg a inst k) (Bumped cfg a k n)
      (writeRetryingOverload (operate a.sessionPk [.incrementCur, .readCur] (some n)) true m) w := by
  refine safe_writeRetryingOverload bumped_stable true ?_ (fun e w _ h => h) m h
  intro w₀ h₀ w₁ hw₁ x hx
  obtain ⟨hkeep, hbumped⟩ := (h₀.keep hw₁).exec_bump inst hx.1
  exact ⟨hkeep, safe_ofExcept bumped_stable hbumped⟩

/-- The row of a sound session answers with the stored index, or the request fails. -/
theorem Sound.exec_selectCur (h : Sound cfg a w) (inst : ℕ) (x : Weather) :
    (exec cfg inst x (.selectCur a.sessionPk) w).2 = w ∧
      ((exec cfg inst x (.selectCur a.sessionPk) w).1 = .ok (some (logOf a w).cur) ∨
        ∃ e, x.whole.error = some e ∧ (exec cfg inst x (.selectCur a.sessionPk) w).1 = .error e) := by
  obtain ⟨r, hr, hc⟩ := h.live
  have hfetch : (ServerConfig.fetch a.sessionPk w.store).map (·.cur) = .ok (some (logOf a w).cur) := by
    simp [ServerConfig.fetch, show w.store.get a.sessionPk = some r from hr, hc, Except.map]
  refine ⟨reading_snd _ _ _, ?_⟩
  simp only [exec, World.reading, hfetch]
  cases x.whole.error with
  | none => exact .inl rfl
  | some e => exact .inr ⟨e, rfl, rfl⟩

/-- What is known when the row's index has been read. -/
def Selected (cfg : ServerConfig V P) (a : Addr) (k : Str) (n : ℕ) :
    Except Err (Option ℕ) → World V P → Prop
  | .ok c, w => ∃ m, c = some m ∧ Ready cfg a k m w
  | .error _, w => Ready cfg a k n w

theorem selected_stable {n : ℕ} : Safe.Stable (writer cfg a inst k) (Selected cfg a k n) := by
  intro r w w' h hw
  cases r with
  | ok c =>
    obtain ⟨m, hm, hready⟩ := h
    exact ⟨m, hm, hready.keep hw⟩
  | error e => exact Ready.keep hw h

theorem safe_selectCur {n : ℕ} (h : Ready cfg a k n w) :
    Safe (writer cfg a inst k) (Selected cfg a k n) (selectCur a.sessionPk) w := by
  intro w₁ hw₁ x hx
  have h₁ := h.keep hw₁
  obtain ⟨hw, hans⟩ := h₁.good.exec_selectCur inst x
  refine ⟨?_, safe_ofExcept selected_stable ?_⟩
  · change Keeps cfg a {k}ᶜ w₁ (exec cfg inst x (.selectCur a.sessionPk) w₁).2
    rw [hw]
    exact Keeps.refl w₁
  · change Selected cfg a k n (exec cfg inst x (.selectCur a.sessionPk) w₁).1
      (exec cfg inst x (.selectCur a.sessionPk) w₁).2
    rw [hw]
    rcases hans with hans | ⟨e, -, hans⟩ <;> rw [hans]
    · exact ⟨_, rfl, h₁.good, le_rfl, h₁.absent⟩
    · exact h₁

/-- The increment and, if the guard failed, the re-read of `cur` in its place. -/
theorem safe_advance {n : ℕ} (h : Ready cfg a k n w) :
    Safe (writer cfg a inst k) (Onward cfg a k)
      (catching .filteredOut
        ((writeRetryingOverload (operate a.sessionPk [.incrementCur, .readCur] (some n)) true
          overloadMaxRetries).bind fun y => .ret (y.cur.getD (n + 1)))
        ((selectCur a.sessionPk).bind fun c => .ret (c.getD (n + 1)))) w := by
  refine safe_catching_ret onward_stable bumped_stable (safe_bump h _) (fun y v hy => hy) (fun v hv => ?_)
    fun _ _ _ _ => trivial
  refine Safe.seq _ (safe_selectCur hv) (fun c v hc => ?_) fun _ _ _ => trivial
  obtain ⟨m, rfl, hm⟩ := hc
  exact Safe.ret onward_stable hm

theorem safe_rollOver {n : ℕ} (h : Ready cfg a k n w) :
    Safe (writer cfg a inst k) (Onward cfg a k) (rollOver a n) w := by
  refine Safe.seq _ (safe_advance h) (fun m v hm => ?_) fun _ _ _ => trivial
  refine Safe.seq _ (safe_cacheSet (fun v v' hv hk => Ready.keep hk hv) (fun v hv => hv.le) hm)
    (fun _ v hv => Safe.ret onward_stable hv) fun _ _ _ => trivial

/-! ### Placing the event -/

/-- What is known when the append has ended. -/
def Appended (cfg : ServerConfig V P) (a : Addr) (k : Str) (v : InlineEvent V P) {ρ : Type} :
    Except Err ρ → World V P → Prop
  | .ok _, w => ∃ g, Stored cfg a k v g w
  | .error _, _ => True

theorem appended_stable {ρ : Type} :
    Safe.Stable (writer cfg a inst k) (Appended cfg a k v : Except Err ρ → World V P → Prop) := by
  intro r w w' h hw
  cases r with
  | ok y =>
    obtain ⟨g, hg⟩ := h
    exact ⟨g, hg.keep hw⟩
  | error e => trivial

theorem safe_segmentSize (h : Ready cfg a k g w) :
    Safe (writer cfg a inst k) (fun _ w => Ready cfg a k g w) (segmentSize (a.segmentPk g)) w := by
  refine Safe.of_uses (P := fun q => q = .operate (a.segmentPk g) [.mapSize] none) ?_
    (fun v v' hv hk => Ready.keep hk hv) ?_ h
  · exact Prog.Uses.tryCatch ⟨rfl, fun y => by cases y <;> exact trivial⟩
      fun e => by split_ifs <;> exact trivial
  · rintro q x v rfl - hv
    have hsame : (exec cfg inst x (.operate (a.segmentPk g) [.mapSize] none) v).2 = v :=
      exec_readOnly rfl rfl v
    change Keeps cfg a _ v (exec cfg inst x (.operate (a.segmentPk g) [.mapSize] none) v).2 ∧
      Ready cfg a k g (exec cfg inst x (.operate (a.segmentPk g) [.mapSize] none) v).2
    rw [hsame]
    exact ⟨Keeps.refl v, hv⟩

/-- What is known when one attempt has been made, with a refusal turned into a flag. -/
def Attempted (cfg : ServerConfig V P) (a : Addr) (k : Str) (v : InlineEvent V P) (g : ℕ) :
    Except Err Bool → World V P → Prop
  | .ok true, w => Stored cfg a k v g w
  | .ok false, w => Ready cfg a k g w
  | .error _, _ => True

theorem attempted_stable : Safe.Stable (writer cfg a inst k) (Attempted cfg a k v g) := by
  intro r w w' h hw
  rcases r with e | _ | _
  · trivial
  · exact Ready.keep hw h
  · exact Stored.keep hw h

theorem safe_attempt (h : Ready cfg a k g w) :
    Safe (writer cfg a inst k) (Attempted cfg a k v g)
      (catching .recordTooBig
        ((writeRetryingOverload (operate (a.segmentPk g) [.mapPut k v]) true
          overloadMaxRetries).bind fun _ => .ret true)
        (.ret false)) w := by
  exact safe_catching_ret attempted_stable written_stable (safe_put h.trying _) (fun _ v hv => hv)
    (fun v hv => Safe.ret attempted_stable (hv.2 rfl)) fun _ _ _ _ => trivial

/-- The loop of `_place_event`, by induction on the attempts left. -/
theorem safe_placeLoop (n : ℕ) (h : Ready cfg a k g w) :
    Safe (writer cfg a inst k) (Appended cfg a k v) (placeLoop a k v n g) w := by
  induction n generalizing g w with
  | zero => exact Safe.raise appended_stable trivial
  | succ n ih =>
    refine Safe.seq _ (safe_attempt h) (fun placed w₁ h₁ => ?_) fun _ _ _ => trivial
    cases placed with
    | true =>
      exact (safe_cacheSet (fun v v' hv hk => Stored.keep hk hv) (fun v hv => hv.le) h₁).mono
        fun r v hv => by
          cases r with
          | ok _ => exact ⟨g, hv⟩
          | error _ => trivial
    | false =>
      refine Safe.seq _ (safe_segmentSize h₁) (fun size w₂ h₂ => ?_) fun _ _ _ => trivial
      split_ifs
      · exact Safe.raise appended_stable trivial
      · exact Safe.seq _ (safe_rollOver h₂) (fun cur w₃ h₃ => ih h₃) fun _ _ _ => trivial

theorem safe_placeEvent (afterOverflow : Bool) (h : Ready cfg a k g w) :
    Safe (writer cfg a inst k) (Appended cfg a k v) (placeEvent a g k v afterOverflow) w := by
  cases afterOverflow with
  | false => exact safe_placeLoop maxAttempts h
  | true =>
    exact Safe.seq _ (safe_rollOver h) (fun cur w₁ h₁ => safe_placeLoop maxAttempts h₁)
      fun _ _ _ => trivial

/-! ### The current segment -/

/-- The stored index, read when nothing is cached. -/
theorem safe_readCur (h : Ready cfg a k 0 w) :
    Safe (writer cfg a inst k) (Onward cfg a k)
      (catching .recordNotFound ((selectCur a.sessionPk).bind fun c => .ret (c.getD 0)) (.ret 0))
      w := by
  refine safe_catching_ret onward_stable selected_stable (safe_selectCur h) (fun c v hc => ?_)
    (fun v hv => Safe.ret onward_stable hv) fun _ _ _ _ => trivial
  obtain ⟨m, rfl, hm⟩ := hc
  exact hm

theorem safe_currentSegment (h : Ready cfg a k 0 w) :
    Safe (writer cfg a inst k) (Onward cfg a k) (currentSegment a) w := by
  intro w₁ hw₁ x hx
  have h₁ := h.keep hw₁
  refine ⟨Keeps.refl w₁, ?_⟩
  change Safe _ _ (Prog.bind (.ret (w₁.cache inst a.pkStr)) _) w₁
  rcases hc : w₁.cache inst a.pkStr with _ | n
  · change Safe _ _ (Prog.bind (catching _ _ _) _) w₁
    refine Safe.seq _ (safe_readCur h₁) (fun m v hm => ?_) fun _ _ _ => trivial
    exact Safe.seq _ (safe_cacheSet (fun v v' hv hk => Ready.keep hk hv) (fun v hv => hv.le) hm)
      (fun _ v hv => Safe.ret onward_stable hv) fun _ _ _ => trivial
  · exact Safe.ret onward_stable ⟨h₁.good, h₁.good.cached inst n hc, h₁.absent⟩

/-! ### The batch -/

/-- What is known when a batch with the event's write has been answered. -/
def Batched (cfg : ServerConfig V P) (a : Addr) (k : Str) (v : InlineEvent V P) (g : ℕ) :
    Except Err (List ℤ) → World V P → Prop
  | .ok results, w => Trying cfg a k v g w ∧ ∃ s rest, results = s :: rest ∧
      (s = 0 → Stored cfg a k v g w) ∧ (s = Err.recordTooBig.code → Ready cfg a k g w)
  | .error _, w => Trying cfg a k v g w

theorem batched_stable : Safe.Stable (writer cfg a inst k) (Batched cfg a k v g) := by
  intro r w w' h hw
  cases r with
  | ok results =>
    obtain ⟨htry, s, rest, hres, hzero, hbig⟩ := h
    exact ⟨htry.keep hw, s, rest, hres, fun hs => (hzero hs).keep hw, fun hs => (hbig hs).keep hw⟩
  | error e => exact Trying.keep hw h

theorem Trying.exec_batch (h : Trying cfg a k v g w) (inst : ℕ) {x : Weather}
    (hx : (x.record 0).Transient) (d : Deltas V) (now : ℚ) :
    let done := exec cfg inst x
      (.batchWrite ((a.segmentPk g, [.mapPut k v]) :: stateWrites a d now)) w
    Keeps cfg a {k}ᶜ w done.2 ∧ Batched cfg a k v g done.1 done.2 := by
  intro done
  obtain ⟨hs, hc, hres⟩ := h.good.exec_batch inst (g := g) (k := k) (v := v) hx d now
  have heither : logOf a done.2 = logOf a w ∨ PutDone cfg a g k v w done.2 →
      Keeps cfg a {k}ᶜ w done.2 ∧ Trying cfg a k v g done.2 := by
    rintro (hlog | ⟨-, hlog⟩)
    · exact h.step_of_log hs hc hlog
    · obtain ⟨hkeep, hst⟩ := h.step_of_put hs hc hlog
      exact ⟨hkeep, hst.trying⟩
  rcases hres with ⟨s, rest, hans, hres⟩ | ⟨e, hans, hlog⟩
  · rw [show done.1 = _ from hans]
    rcases hres with ⟨hs0, -, hlog⟩ | ⟨hs0, hbig, hlog⟩ | ⟨hne, hne', hlog⟩
    · obtain ⟨hkeep, hst⟩ := h.step_of_put hs hc hlog
      refine ⟨hkeep, hst.trying, s, rest, rfl, fun _ => hst, fun h13 => ?_⟩
      rw [hs0] at h13
      cases h13
    · obtain ⟨hkeep, htry⟩ := h.step_of_log hs hc hlog
      have habs := (h.absent_of_refused hbig).of_log hlog
      refine ⟨hkeep, htry, s, rest, rfl, fun h0 => ?_, fun _ => ⟨htry.good, htry.le, habs⟩⟩
      rw [hs0] at h0
      cases h0
    · obtain ⟨hkeep, htry⟩ := heither hlog
      exact ⟨hkeep, htry, s, rest, rfl, fun h0 => absurd h0 hne, fun h13 => absurd h13 hne'⟩
  · rw [show done.1 = _ from hans]
    exact heither hlog

theorem safe_batchOutcome {again : Service V P (List ℤ)} {y : Except Err (List ℤ)}
    (hagain : Trying cfg a k v g w → Safe (writer cfg a inst k) (Batched cfg a k v g) again w)
    (h : Batched cfg a k v g y w) :
    Safe (writer cfg a inst k) (Batched cfg a k v g) (batchOutcome again y) w := by
  rcases y with e | results
  · cases e with
    | deviceOverload => exact hagain h
    | maxErrorRate => exact hagain h
    | timeout => exact hagain h
    | _ => exact Safe.raise batched_stable h
  · simp only [batchOutcome]
    split_ifs
    · exact hagain h.1
    · exact Safe.ret batched_stable h

theorem safe_batchWriteWithRetry (d : Deltas V) (now : ℚ) (n : ℕ) (h : Trying cfg a k v g w) :
    Safe (writer cfg a inst k) (Batched cfg a k v g)
      (batchWriteWithRetry ((a.segmentPk g, [.mapPut k v]) :: stateWrites a d now) n) w := by
  induction n generalizing w with
  | zero =>
    intro w₁ hw₁ x hx
    obtain ⟨hkeep, hbatch⟩ := (h.keep hw₁).exec_batch inst (hx.2.1 0) d now
    exact ⟨hkeep, safe_ofExcept batched_stable hbatch⟩
  | succ n ih =>
    intro w₁ hw₁ x hx
    obtain ⟨hkeep, hbatch⟩ := (h.keep hw₁).exec_batch inst (hx.2.1 0) d now
    exact ⟨hkeep, safe_batchOutcome (fun htry => ih htry) hbatch⟩

theorem safe_finishBatch {results : List ℤ} (h : Batched cfg a k v g (.ok results) w) :
    Safe (writer cfg a inst k) (Appended cfg a k v) (finishBatch a g k v results) w := by
  obtain ⟨-, s, rest, rfl, hzero, hbig⟩ := h
  simp only [finishBatch]
  cases rest.find? (· ≠ 0) with
  | some r => exact Safe.raise appended_stable trivial
  | none =>
    dsimp only
    split_ifs with hs hs'
    · refine (safe_cacheSet (fun v v' hv hk => Stored.keep hk hv) (fun v hv => hv.le)
        (hzero hs)).mono fun r v hv => ?_
      cases r with
      | ok _ => exact ⟨g, hv⟩
      | error _ => trivial
    · exact safe_placeEvent true (hbig hs')
    · exact Safe.raise appended_stable trivial

/-! ### The whole append -/

theorem safe_appendEventRecord (d : Deltas V) (now : ℚ) (h : Ready cfg a k 0 w) :
    Safe (writer cfg a inst k) (Appended cfg a k v) (appendEventRecord a k v d now) w := by
  refine Safe.seq _ (safe_currentSegment h) (fun cur w₁ h₁ => ?_) fun _ _ _ => trivial
  split_ifs
  · exact safe_placeEvent false h₁
  · exact Safe.seq _ (safe_batchWriteWithRetry d now _ (Ready.trying h₁))
      (fun results w₂ h₂ => safe_finishBatch h₂) fun _ _ _ => trivial

/-- A session is good and the event's key is new: then the append is safe, and when
it returns the key is in exactly one segment. -/
theorem safe_append (env : Env V P) {e : Event V} {clock : ℚ} (hwhole : e.isPartial = false)
    (hg : Good cfg a w) (hnew : Absent a (eventKey env e clock) w) :
    Safe (writer cfg a inst (eventKey env e clock))
      (Appended cfg a (eventKey env e clock) (eventToInlineDict env.model e))
      ((Call.append a e clock).body env) w := by
  have hready : Ready cfg a (eventKey env e clock) 0 w := ⟨hg, Nat.zero_le _, hnew⟩
  have hpersist : persistEvent env a e clock = appendEventRecord a (eventKey env e clock)
      (eventToInlineDict env.model e) (partitionState e.stateDelta) (eventTime e clock) := by
    simp [persistEvent, hwhole]
  refine Safe.seq _ (hpersist ▸ safe_appendEventRecord _ _ hready)
    (fun _ w₁ h₁ => Safe.ret appended_stable h₁) fun _ _ _ => trivial

end AdkAerospike.Sessions
