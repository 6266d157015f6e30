import AdkAerospike.Sessions.Sequential.Ledger

/-! Appending an event again. One instance that works on a session alone always
tries the current segment first. There a second append of the same event overwrites
the entry by itself, which changes nothing and always fits; in an older segment the
entry is out of reach, and a second append stores a second copy. -/

namespace AdkAerospike.Sessions

open Program Data Codec Keys

variable {V P : Type}

/-- The instance `inst` creates, appends to and reads the session `a`. -/
def Works (a : Addr) (inst : ℕ) (_ : World V P) (l : Issued V) : Prop := l.inst = inst ∧ l.call.on a

/-- The session is live, and the instance caches the stored index if any. -/
structure Settled (cfg : ServerConfig V P) (a : Addr) (inst : ℕ) (w : World V P) : Prop
    extends Live cfg a w where
  cached : ∀ n, w.cache inst a.pkStr = some n → n = (logOf a w).cur

section Settled
variable {env : Env V P} {cfg : ServerConfig V P} {a : Addr} {w : World V P} {inst : ℕ} {e : Event V}
  {clock : ℚ}

theorem Settled.target (h : Settled cfg a inst w) : target a inst w = (logOf a w).cur := by
  unfold Sessions.target
  cases hc : w.cache inst a.pkStr with
  | none => rfl
  | some n => exact h.cached n hc

/-- Appends keep the instance settled, those that fail included. -/
theorem Settled.append (h : Settled cfg a inst w) :
    Settled cfg a inst (perform env cfg ⟨inst, .append a e clock⟩ w).2 := by
  cases hp : e.isPartial with
  | true =>
    rw [perform_append_fragment hp]
    exact h
  | false =>
    rw [perform_append_whole hp]
    by_cases hfits : StateFits cfg a (partitionState e.stateDelta) (eventTime e clock) w
    · obtain ⟨hlogS, hsoundS⟩ := h.keeps_stated (partitionState e.stateDelta) (eventTime e clock)
      obtain ⟨r, hr, -⟩ := hsoundS.live
      have happ := h.alone_append (k := eventKey env e clock) (v := eventToInlineDict env.model e) inst
        hfits hr
      rw [h.target] at happ
      have hplaced : Log.Placed (logOf a w) (eventKey env e clock) (eventToInlineDict env.model e)
          (Log.append cfg.SegFits (Grows cfg r) (eventKey env e clock) (eventToInlineDict env.model e)
            maxAttempts (partitionState e.stateDelta).writes (logOf a w) (logOf a w).cur) :=
        Log.append_placed _ _ _ _ le_rfl
      refine ⟨⟨happ.sound, happ.log ▸ hplaced.topped h.topped⟩, fun n hn => ?_⟩
      rw [happ.log]
      rcases hres : (Log.append cfg.SegFits (Grows cfg r) (eventKey env e clock)
        (eventToInlineDict env.model e) maxAttempts (partitionState e.stateDelta).writes (logOf a w)
        (logOf a w).cur).1 with b | j
      · rcases (happ.error b hres).2 with hc | ⟨hc, hcur⟩
        · rw [hc, Option.some.injEq] at hn
          exact hn.symm
        · rw [hc] at hn
          rw [hcur, hlogS]
          exact h.cached n hn
      · rw [(happ.ok j hres).2, Option.some.injEq] at hn
        rw [← hn]
        exact Log.append_self _ _ _ hres
    · obtain ⟨-, hsound, hcache, hlog⟩ := h.alone_append_refused (k := eventKey env e clock)
        (v := eventToInlineDict env.model e) inst hfits
      rw [h.target] at hcache hlog
      have hplaced : Log.Placed (logOf a w) (eventKey env e clock) (eventToInlineDict env.model e)
          (.ok (logOf a w).cur, (logOf a w).put (logOf a w).cur (eventKey env e clock)
            (eventToInlineDict env.model e)) := .here le_rfl
      split_ifs at hlog
      · refine ⟨⟨hsound, hlog ▸ hplaced.topped h.topped⟩, fun n hn => ?_⟩
        rw [hcache, Option.some.injEq] at hn
        rw [hlog, Log.put_cur, hn]
      · refine ⟨⟨hsound, hlog ▸ h.topped⟩, fun n hn => ?_⟩
        rw [hcache, Option.some.injEq] at hn
        rw [hlog, hn]

theorem Settled.step (h : Settled cfg a inst w) {l : Issued V} (hl : Works a inst w l) :
    Settled cfg a inst (perform env cfg l w).2 := by
  obtain ⟨i, c⟩ := l
  obtain ⟨rfl, hon⟩ := hl
  cases c with
  | create app user state sessionId fresh now =>
    rw [perform_create_of_row hon h.toSound.isSome]
    exact h
  | append b e clock =>
    obtain rfl : b = a := hon
    exact h.append
  | get b config =>
    obtain rfl : b = a := hon
    rcases perform_get_snd env cfg i h.toSound.readable config with hw | ⟨r, hr, hw⟩ <;> rw [hw]
    · exact h
    · refine ⟨⟨h.toSound.congr rfl fun _ => rfl, h.topped⟩, fun n hn => ?_⟩
      rw [World.setCache_self, Option.some.injEq] at hn
      change n = (logOf b w).cur
      simp [← hn, logOf, hr]
  | _ => cases hon

/-- The event is in the current segment under the key it would get now. -/
def InCurrent (env : Env V P) (a : Addr) (e : Event V) (clock : ℚ) (w : World V P) : Prop :=
  (segment a w (logOf a w).cur).lookup (eventKey env e clock) = some (eventToInlineDict env.model e)

/-- A second append of an event in the current segment leaves the log as it is,
whether or not its state writes go through. -/
theorem Settled.reappend (h : Settled cfg a inst w) (hin : InCurrent env a e clock w) :
    logOf a (perform env cfg ⟨inst, .append a e clock⟩ w).2 = logOf a w := by
  cases hp : e.isPartial with
  | true => rw [perform_append_fragment hp]
  | false =>
    have hself : (segment a w (logOf a w).cur).put (eventKey env e clock)
        (eventToInlineDict env.model e) = segment a w (logOf a w).cur := OMap.put_eq_self hin
    have hput : (logOf a w).put (logOf a w).cur (eventKey env e clock)
        (eventToInlineDict env.model e) = logOf a w := by
      refine Log.ext rfl (funext fun g => ?_)
      by_cases hg : g = (logOf a w).cur
      · rw [hg, Log.put_seg_self]
        exact hself
      · rw [Log.put_seg_of_ne _ hg]
    have hfit : cfg.SegFits ((segment a w (logOf a w).cur).put (eventKey env e clock)
        (eventToInlineDict env.model e)) := by
      rw [hself]
      rcases h.segment_cases (logOf a w).cur with ⟨-, hempty⟩ | ⟨-, hfit⟩
      · rw [InCurrent, hempty] at hin
        cases hin
      · exact hfit
    rw [perform_append_whole hp]
    by_cases hfits : StateFits cfg a (partitionState e.stateDelta) (eventTime e clock) w
    · obtain ⟨r, hr, -⟩ := (h.keeps_stated (partitionState e.stateDelta) (eventTime e clock)).2.live
      have happ := h.alone_append (k := eventKey env e clock) (v := eventToInlineDict env.model e) inst
        hfits hr
      rw [h.target] at happ
      rw [happ.log]
      have hres : Log.append cfg.SegFits (Grows cfg r) (eventKey env e clock)
          (eventToInlineDict env.model e) maxAttempts (partitionState e.stateDelta).writes (logOf a w)
          (logOf a w).cur = (.ok (logOf a w).cur, (logOf a w).put (logOf a w).cur
            (eventKey env e clock) (eventToInlineDict env.model e)) := by
        have hfit' : cfg.SegFits (((logOf a w).seg (logOf a w).cur).put (eventKey env e clock)
          (eventToInlineDict env.model e)) := hfit
        cases (partitionState e.stateDelta).writes <;> simp [Log.append, maxAttempts, Log.place, hfit']
      rw [hres, hput]
    · obtain ⟨-, -, -, hlog⟩ := h.alone_append_refused (k := eventKey env e clock)
        (v := eventToInlineDict env.model e) inst hfits
      rw [h.target, if_pos hfit, hput] at hlog
      exact hlog

/-- Any number of further appends of the event, each at its own time. -/
def reappends (env : Env V P) (cfg : ServerConfig V P) (a : Addr) (inst : ℕ) (e : Event V)
    (clocks : List ℚ) (w : World V P) : World V P :=
  clocks.foldl (fun w clock => (perform env cfg ⟨inst, .append a e clock⟩ w).2) w

theorem Settled.reappends (h : Settled cfg a inst w) {clocks : List ℚ}
    (hin : ∀ clock ∈ clocks, InCurrent env a e clock w) :
    Settled cfg a inst (reappends env cfg a inst e clocks w) ∧
      logOf a (Sessions.reappends env cfg a inst e clocks w) = logOf a w := by
  induction clocks generalizing w with
  | nil => exact ⟨h, rfl⟩
  | cons clock clocks ih =>
    have hlog := h.reappend (hin clock (by simp))
    have hnext : ∀ c ∈ clocks, InCurrent env a e c (perform env cfg ⟨inst, .append a e clock⟩ w).2 := by
      intro c hc
      have hseg := congrArg Log.seg hlog
      unfold InCurrent
      rw [hlog, show segment a _ = segment a w from hseg]
      exact hin c (by simp [hc])
    obtain ⟨hs, hrest⟩ := ih h.append hnext
    exact ⟨hs, hrest.trans hlog⟩

theorem settled_of_ran {w₀ : World V P} (hw₀ : Created env cfg a w₀)
    (hrun : Ran (after env cfg) (Works a inst) (fun _ _ u => u) w₀ () w ()) : Settled cfg a inst w := by
  refine hrun.invariant (I := fun w _ => Settled cfg a inst w) ?_ fun w _ l h hl => h.step hl
  obtain ⟨hblank, hcache⟩ := hw₀.blank
  obtain ⟨hsound, hcur, hempty⟩ := hblank.sound cfg
  exact ⟨⟨hsound, fun g _ => hempty g⟩, fun n hn => (hcache inst n hn).trans hcur.symm⟩

end Settled

/-- In every run of one instance on a session, appending an event of the current
segment again, any number of times, leaves the events that are listed as they are. -/
theorem reappend_keeps_events (env : Env V P) (cfg : ServerConfig V P) (a : Addr) (w₀ : World V P)
    (hw₀ : Created env cfg a w₀) (inst : ℕ) (w : World V P)
    (hrun : Ran (after env cfg) (Works a inst) (fun _ _ u => u) w₀ () w ()) (e : Event V) (clocks : List ℚ)
    (hin : ∀ clock ∈ clocks, InCurrent env a e clock w) :
    ∃ before after w₁ w₂,
      perform env cfg ⟨inst, .get a {}⟩ w = (.ok (.found (some before)), w₁) ∧
      perform env cfg ⟨inst, .get a {}⟩ (reappends env cfg a inst e clocks w) =
        (.ok (.found (some after)), w₂) ∧
      after.events = before.events := by
  have hsettled := settled_of_ran hw₀ hrun
  obtain ⟨hsettled', hlog⟩ := hsettled.reappends hin
  obtain ⟨before, w₁, hbefore, hevents⟩ := hsettled.toSound.perform_get env inst {}
  obtain ⟨after, w₂, hafter, hevents'⟩ := hsettled'.toSound.perform_get env inst {}
  refine ⟨before, after, w₁, w₂, hbefore, hafter, ?_⟩
  rw [hevents, hevents', hlog]

namespace Small

/-- Two events fill the first segment; a third opens the second one. -/
def twoSegments : World ℕ (Event ℕ) :=
  (takeAll (after env cfg) (fun _ _ u => u) [firstAppend, ⟨0, .append addr (event ['q'] 6) 0⟩,
    ⟨0, .append addr (event ['r'] 7) 0⟩] (created, ())).1

theorem ran_twoSegments : Ran (after env cfg) (Works addr 0) (fun _ _ u => u) created () twoSegments () := by
  refine ran_takeAll (fun l hl w => ?_) .init
  simp only [List.mem_cons, List.not_mem_nil, or_false] at hl
  rcases hl with rfl | rfl | rfl <;> exact ⟨rfl, rfl⟩

end Small

open Sessions.Small in
/-- The event of the second segment may be appended again and again. -/
theorem reappend_keeps_events_small :
    ∃ before after w₁ w₂,
      perform env cfg ⟨0, .get addr {}⟩ twoSegments = (.ok (.found (some before)), w₁) ∧
      perform env cfg ⟨0, .get addr {}⟩ (reappends env cfg addr 0 (event ['r'] 7) [8, 9] twoSegments) =
        (.ok (.found (some after)), w₂) ∧
      after.events = before.events := by
  refine reappend_keeps_events env cfg addr created created_created 0 twoSegments ran_twoSegments
    (event ['r'] 7) [8, 9] fun clock hclock => ?_
  have hkey : eventKey env (event ['r'] 7) clock = eventKey env (event ['r'] 7) 0 := rfl
  rw [InCurrent, hkey]
  rfl

open Sessions.Small in
/-- An event of the first segment, appended again, is listed twice. -/
theorem reappend_duplicates :
    Created env cfg addr created ∧
    Ran (after env cfg) (Works addr 0) (fun _ _ u => u) created () twoSegments () ∧
    (eventKey env (event ['p'] 5) 0, eventToInlineDict env.model (event ['p'] 5)) ∈
      (logOf addr twoSegments).history ∧
    ∃ before after w₁ w₂,
      perform env cfg ⟨0, .get addr {}⟩ twoSegments = (.ok (.found (some before)), w₁) ∧
      perform env cfg ⟨0, .get addr {}⟩ (perform env cfg firstAppend twoSegments).2 =
        (.ok (.found (some after)), w₂) ∧
      after.events ≠ before.events := by
  have hagain : Ran (after env cfg) (Works addr 0) (fun _ _ u => u) created ()
      (perform env cfg firstAppend twoSegments).2 () := ran_twoSegments.next firstAppend ⟨rfl, rfl⟩
  obtain ⟨before, w₁, hbefore, hevents⟩ :=
    (settled_of_ran created_created ran_twoSegments).toSound.perform_get env 0 {}
  obtain ⟨after, w₂, hafter, hevents'⟩ :=
    (settled_of_ran created_created hagain).toSound.perform_get env 0 {}
  refine ⟨created_created, ran_twoSegments, .head _, before, after, w₁, w₂, hbefore, hafter,
    fun heq => ?_⟩
  rw [hevents, hevents'] at heq
  have hlength : (eventsOf env {} (logOf addr (perform env cfg firstAppend twoSegments).2)).length = 4 ∧
      (eventsOf env {} (logOf addr twoSegments)).length = 3 := by
    decide +kernel
  rw [heq, hlength.2] at hlength
  cases hlength.1

end AdkAerospike.Sessions
