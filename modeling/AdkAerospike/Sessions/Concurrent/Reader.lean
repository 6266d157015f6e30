import AdkAerospike.Sessions.Alone.Read
import AdkAerospike.Sessions.Concurrent.Writer
import AdkAerospike.Sessions.Footprint

/-! `get_session` among others. A read watches a set of events that are in place
when it starts. They stay where they are while it runs, and `cur` is at least
their segments' indices when the row is read, so the walk passes each of them
exactly once, whatever the other parties add meanwhile. -/

namespace AdkAerospike.Sessions

open Program Data Codec Keys

variable {V P : Type} {cfg : ServerConfig V P} {a : Addr} {inst : ℕ} {env : Env V P}
  {w w' : World V P} {obs : Set (Str × InlineEvent V P)} {c n : ℕ}

/-- A segment read leaves the world alone and returns what the segment holds, or fails. -/
theorem Sound.exec_readSegment (h : Sound cfg a w) (env : Env V P) (inst : ℕ) {x : Weather}
    (hx : x.whole.Transient) (g : ℕ) (N : Option ℕ) (T : Option ℚ) :
    let done := exec cfg inst x (.operate (a.segmentPk g) [readOp env N T] none) w
    done.2 = w ∧
      ((∃ y, done.1 = .ok y ∧ y.entries.getD [] = readRange env N T (segment a w g)) ∨
        (done.1 = .error .recordNotFound ∧ segment a w g = .empty) ∨
        ∃ e, done.1 = .error e ∧ e.transient) := by
  intro done
  refine ⟨exec_readOnly (by simp) (by simp) w, ?_⟩
  rcases under_cases x.whole (cfg.operate (a.segmentPk g) [readOp env N T] none) w.store with
    ⟨-, hu⟩ | ⟨e, he, hans, -⟩
  · have hans : done.1 = (cfg.operate (a.segmentPk g) [readOp env N T] none w.store).1 :=
      congrArg Prod.fst hu
    rw [ServerConfig.operate_fst] at hans
    rcases h.segment_cases g with ⟨hr, hempty⟩ | ⟨hr, hfits⟩
    · refine .inr (.inl ⟨?_, hempty⟩)
      rw [hans, hr]
      simp [ServerConfig.onRecord]
      rfl
    · refine .inl ⟨(readOp env N T).read { events := some (segment a w g) } {}, ?_, ?_⟩
      · rw [hans, hr]
        simp [ServerConfig.onRecord, Op.apply]
        rfl
      · rw [read_readOp N T _ fun m hm => ?_]
        · rfl
        · cases hm
          exact h.readable g
  · exact .inr (.inr ⟨e, hans, hx.error he⟩)

/-! ### What a read watches -/

/-- A read's place among the others: nobody touches the keys it watches. -/
abbrev reader (cfg : ServerConfig V P) (a : Addr) (inst : ℕ) (obs : Set (Str × InlineEvent V P)) :
    Setting (Req V P) Ans (World V P) Weather :=
  party cfg a inst {k | ∃ v, (k, v) ∈ obs} Set.univ

/-- The watched events are in place. -/
structure Watching (cfg : ServerConfig V P) (a : Addr) (obs : Set (Str × InlineEvent V P))
    (w : World V P) : Prop where
  good : Good cfg a w
  here : ∀ k v, (k, v) ∈ obs → ∃ g, At a k v g w

/-- The watched events are in place, none of them above segment `c`. -/
structure Seen (cfg : ServerConfig V P) (a : Addr) (obs : Set (Str × InlineEvent V P)) (c : ℕ)
    (w : World V P) : Prop where
  good : Good cfg a w
  le : c ≤ (logOf a w).cur
  here : ∀ k v, (k, v) ∈ obs → ∃ g ≤ c, At a k v g w

section Stability
variable (hw : Keeps cfg a {k | ∃ v, (k, v) ∈ obs} w w')
include hw

theorem Watching.keep (h : Watching cfg a obs w) : Watching cfg a obs w' :=
  ⟨(hw h.good).1, fun k v hkv =>
    have ⟨g, hg⟩ := h.here k v hkv
    ⟨g, hg.keep hw h.good ⟨v, hkv⟩⟩⟩

theorem Seen.keep (h : Seen cfg a obs c w) : Seen cfg a obs c w' :=
  ⟨(hw h.good).1, h.le.trans (hw h.good).2.1, fun k v hkv =>
    have ⟨g, hg, hat⟩ := h.here k v hkv
    ⟨g, hg, hat.keep hw h.good ⟨v, hkv⟩⟩⟩

end Stability

/-- A key that is in place is not above `cur`. -/
theorem At.le_cur {k : Str} {v : InlineEvent V P} {g : ℕ} (h : At a k v g w) (hg : Good cfg a w) :
    g ≤ (logOf a w).cur := by
  by_contra hlt
  have hempty := hg.topped g (not_le.mp hlt)
  have hlook := h.1
  rw [hempty] at hlook
  cases hlook

/-- A key is in one place. -/
theorem At.unique {k : Str} {v v' : InlineEvent V P} {g g' : ℕ} (h : At a k v g w)
    (h' : At a k v' g' w) : g = g' := by
  by_contra hne
  have hnone := h.2 g' (Ne.symm hne)
  rw [h'.1] at hnone
  cases hnone

/-! ### The walk -/

/-- The entries collected from the segments `n` and up show each watched event
once if it is there. -/
def Collected (a : Addr) (obs : Set (Str × InlineEvent V P)) (n : ℕ)
    (l : List (Str × InlineEvent V P)) (w : World V P) : Prop :=
  ∀ k v, (k, v) ∈ obs → ∀ g, At a k v g w →
    l.filter (fun x => x.1 = k) = if n ≤ g then [(k, v)] else []

theorem Collected.keep {l : List (Str × InlineEvent V P)}
    (hw : Keeps cfg a {k | ∃ v, (k, v) ∈ obs} w w') (hs : Seen cfg a obs c w)
    (h : Collected a obs n l w) : Collected a obs n l w' := by
  intro k v hkv g hg
  obtain ⟨g₀, -, hg₀⟩ := hs.here k v hkv
  have hg₀' : At a k v g₀ w' := hg₀.keep hw hs.good ⟨v, hkv⟩
  rw [← hg₀'.unique hg]
  exact h k v hkv g₀ hg₀

/-- One more segment. -/
theorem Collected.add {l : List (Str × InlineEvent V P)} (h : Collected a obs (n + 1) l w) :
    Collected a obs n ((segment a w n).entries ++ l) w := by
  intro k v hkv g hg
  rw [List.filter_append, OMap.filter_entries_key, h k v hkv g hg]
  by_cases hgn : g = n
  · subst hgn
    rw [show (segment a w g).lookup k = some v from hg.1]
    simp
  · rw [show (segment a w n).lookup k = none from hg.2 n (Ne.symm hgn)]
    have hiff : n + 1 ≤ g ↔ n ≤ g := by omega
    simp [hiff]

/-- What is known when a segment has been read on top of `l`; a missing segment is
reported as such. -/
def SegmentRead (cfg : ServerConfig V P) (a : Addr) (obs : Set (Str × InlineEvent V P)) (c n : ℕ)
    (l : List (Str × InlineEvent V P)) :
    Except Err (List (Str × InlineEvent V P)) → World V P → Prop
  | .ok E, w => Seen cfg a obs c w ∧ Collected a obs n (E ++ l) w
  | .error e, w => e = .recordNotFound → Seen cfg a obs c w ∧ Collected a obs n l w

theorem segmentRead_stable {l : List (Str × InlineEvent V P)} :
    Safe.Stable (reader cfg a inst obs) (SegmentRead cfg a obs c n l) := by
  intro r w w' h hw
  cases r with
  | ok E => exact ⟨h.1.keep hw, h.2.keep hw h.1⟩
  | error e => exact fun he => ⟨(h he).1.keep hw, (h he).2.keep hw (h he).1⟩

theorem safe_operate_read {l : List (Str × InlineEvent V P)} (hs : Seen cfg a obs c w)
    (hl : Collected a obs (n + 1) l w) :
    Safe (reader cfg a inst obs)
      (fun r v => SegmentRead cfg a obs c n l (r.map fun y => y.entries.getD []) v)
      (operate (a.segmentPk n) [readOp env none none]) w := by
  intro w₁ hw₁ x hx
  have hs₁ := hs.keep hw₁
  have hnext := (hl.keep hw₁ hs).add
  obtain ⟨hsame, hans⟩ := hs₁.good.exec_readSegment env inst hx.1 n none none
  have hstable : Safe.Stable (reader cfg a inst obs) (fun r v =>
      SegmentRead cfg a obs c n l (r.map fun y : OpResult V P => y.entries.getD []) v) :=
    fun r v v' hr hv => segmentRead_stable (r.map _) v v' hr hv
  refine ⟨?_, safe_ofExcept hstable ?_⟩
  · change Keeps cfg a _ w₁ (exec cfg inst x (.operate (a.segmentPk n) [readOp env none none] none) w₁).2
    rw [hsame]
    exact Keeps.refl w₁
  · change SegmentRead cfg a obs c n l (Except.map _
      (exec cfg inst x (.operate (a.segmentPk n) [readOp env none none] none) w₁).1)
      (exec cfg inst x (.operate (a.segmentPk n) [readOp env none none] none) w₁).2
    rw [hsame]
    rcases hans with ⟨y, hans, hy⟩ | ⟨hans, hempty⟩ | ⟨e, hans, he⟩ <;> rw [hans]
    · refine ⟨hs₁, ?_⟩
      change Collected a obs n (y.entries.getD [] ++ l) w₁
      rw [hy]
      exact hnext
    · intro _
      rw [hempty] at hnext
      exact ⟨hs₁, hnext⟩
    · rintro rfl
      cases he

theorem safe_readSegmentEntries {l : List (Str × InlineEvent V P)} (hs : Seen cfg a obs c w)
    (hl : Collected a obs (n + 1) l w) :
    Safe (reader cfg a inst obs) (SegmentRead cfg a obs c n l)
      (readSegmentEntries env a n none none) w := by
  refine safe_catching segmentRead_stable (SegmentRead cfg a obs c n l) ?_ (fun E v h => h)
    (fun v h => Safe.ret segmentRead_stable (h rfl)) fun e v _ h => h
  exact Safe.seq _ (safe_operate_read hs hl) (fun y v hy => Safe.ret segmentRead_stable hy)
    fun e v he => he

/-- What is known when the walk has ended. -/
def Walked (cfg : ServerConfig V P) (a : Addr) (obs : Set (Str × InlineEvent V P)) :
    Except Err (List (Str × InlineEvent V P)) → World V P → Prop
  | .ok l, w => Watching cfg a obs w ∧ ∀ k v, (k, v) ∈ obs → l.filter (fun x => x.1 = k) = [(k, v)]
  | .error _, _ => True

theorem walked_stable : Safe.Stable (reader cfg a inst obs) (Walked cfg a obs) := by
  intro r w w' h hw
  cases r with
  | ok l => exact ⟨h.1.keep hw, h.2⟩
  | error e => trivial

/-- The walk of an unfiltered read, by induction on the segments left. -/
theorem safe_loadLoop {l : List (Str × InlineEvent V P)} (hs : Seen cfg a obs c w)
    (hl : Collected a obs n l w) :
    Safe (reader cfg a inst obs) (Walked cfg a obs) (loadLoop env a none none n l) w := by
  induction n generalizing l w with
  | zero =>
    refine Safe.ret walked_stable ⟨⟨hs.good, fun k v hkv => ?_⟩, fun k v hkv => ?_⟩
    · obtain ⟨g, -, hg⟩ := hs.here k v hkv
      exact ⟨g, hg⟩
    · obtain ⟨g, -, hg⟩ := hs.here k v hkv
      rw [hl k v hkv g hg, if_pos (Nat.zero_le g)]
  | succ n ih =>
    refine Safe.seq _ (safe_readSegmentEntries hs hl) (fun E w₁ h₁ => ?_) fun _ _ _ => trivial
    have hcollect : collect none E.reverse l = (E ++ l, false) := by
      rw [collect_eq none _ _ fun _ hn => nomatch hn]
      simp [Log.recent]
    simp only [hcollect, Option.isSome_none, Bool.false_and, Bool.false_eq_true, if_false]
    exact ih h₁.1 h₁.2

/-! ### The row -/

theorem seen_of_watching (h : Watching cfg a obs w) : Seen cfg a obs (logOf a w).cur w :=
  ⟨h.good, le_rfl, fun k v hkv =>
    have ⟨g, hg⟩ := h.here k v hkv
    ⟨g, hg.le_cur h.good, hg⟩⟩

/-- What is known when the row has been read: its index covers what is watched. -/
def RowRead (cfg : ServerConfig V P) (a : Addr) (obs : Set (Str × InlineEvent V P)) :
    Except Err (FMap Key (Option (Record V P))) → World V P → Prop
  | .ok out, w => ∃ r c, bins out a.sessionPk = some r ∧ r.cur = some c ∧ Seen cfg a obs c w
  | .error _, _ => True

theorem rowRead_stable : Safe.Stable (reader cfg a inst obs) (RowRead cfg a obs) := by
  intro r w w' h hw
  cases r with
  | ok out =>
    obtain ⟨r, c, hr, hc, hs⟩ := h
    exact ⟨r, c, hr, hc, hs.keep hw⟩
  | error e => trivial

theorem safe_batchRead {keys : List Key} (hkeys : a.sessionPk ∈ keys) (h : Watching cfg a obs w) :
    Safe (reader cfg a inst obs) (RowRead cfg a obs) (batchRead keys) w := by
  rw [batchRead, if_neg (List.ne_nil_of_mem hkeys)]
  intro w₁ hw₁ x hx
  have h₁ := h.keep hw₁
  have hcalm : x.record = fun _ => .none := funext hx.2.2
  have hexec : exec cfg inst x (.batchRead keys) w₁ =
      w₁.reading x.whole (.ok (keys.map fun k => ServerConfig.readStatus .none (w₁.store.get k))) := by
    rw [← batchRead_none, ← hcalm]
    rfl
  change Keeps cfg a _ w₁ (exec cfg inst x (.batchRead keys) w₁).2 ∧
    Safe _ _ ((ofExcept (exec cfg inst x (.batchRead keys) w₁).1).bind _)
      (exec cfg inst x (.batchRead keys) w₁).2
  rw [hexec, reading_snd]
  refine ⟨Keeps.refl w₁, ?_⟩
  unfold World.reading
  cases x.whole.error with
  | some e => exact Safe.raise rowRead_stable trivial
  | none =>
    obtain ⟨r, hr, hc⟩ := h₁.good.live
    refine Safe.ret rowRead_stable ⟨r, _, ?_, hc, seen_of_watching h₁⟩
    rw [bins_byKey _ hkeys, foldStatus_readStatus]
    exact hr

/-! ### The whole read -/

/-- Loading with any filter disturbs nothing. -/
theorem safe_loadEvents_any (config : GetSessionConfig) (h : Seen cfg a obs c w) :
    Safe (reader cfg a inst obs) (fun _ w => Seen cfg a obs c w) (loadEvents env a n config) w := by
  refine Safe.of_uses (uses_loadEvents env a n config) (fun v v' hv hk => Seen.keep hk hv) ?_ h
  rintro q x v ⟨g, N, T, rfl⟩ hx hv
  obtain ⟨hsame, -⟩ := hv.good.exec_readSegment env inst hx.1 g N T
  change Keeps cfg a _ v (exec cfg inst x (.operate (a.segmentPk g) [readOp env N T] none) v).2 ∧
    Seen cfg a obs c (exec cfg inst x (.operate (a.segmentPk g) [readOp env N T] none) v).2
  rw [hsame]
  exact ⟨Keeps.refl v, hv⟩

/-- What is known when an unfiltered load has ended: each watched event is listed once. -/
def Loaded (env : Env V P) (obs : Set (Str × InlineEvent V P)) :
    Except Err (List (Str × Event V)) → World V P → Prop
  | .ok l, _ => ∀ k v, (k, v) ∈ obs →
      l.filter (fun x => x.1 = k) = [(k, eventFromInlineDict env.model v)]
  | .error _, _ => True

theorem loaded_stable : Safe.Stable (reader cfg a inst obs) (Loaded env obs) := by
  intro r w w' h _
  cases r <;> exact h

theorem safe_loadEvents (h : Seen cfg a obs c w) :
    Safe (reader cfg a inst obs) (Loaded env obs) (loadEvents env a c {}) w := by
  have hnone : Collected a obs (c + 1) [] w := fun k v hkv g hg => by
    obtain ⟨g', hle, hg'⟩ := h.here k v hkv
    rw [if_neg (by rw [hg.unique hg']; omega)]
    rfl
  refine Safe.seq _ (safe_loadLoop h hnone) (fun l v hl => Safe.ret loaded_stable ?_)
    fun _ _ _ => trivial
  intro k v hkv
  rw [List.filter_map]
  exact congrArg (List.map _) (hl.2 k v hkv)

/-- What is known when `get_session` has ended. -/
def Found (env : Env V P) (obs : Set (Str × InlineEvent V P)) :
    Except Err (Option (Session V)) → World V P → Prop
  | .ok x, _ => ∃ s, x = some s ∧ ∀ k v, (k, v) ∈ obs →
      s.events.filter (fun x => x.1 = k) = [(k, eventFromInlineDict env.model v)]
  | .error _, _ => True

theorem found_stable {config : GetSessionConfig} : Safe.Stable (reader cfg a inst obs)
    (fun r w => config = {} → Found env obs r w) := by
  intro r w w' h _
  cases r <;> exact h

theorem safe_getSession (config : GetSessionConfig) (h : Watching cfg a obs w) :
    Safe (reader cfg a inst obs) (fun r w => config = {} → Found env obs r w)
      (getSession env a config) w := by
  refine Safe.seq _ (safe_batchRead (by simp) h) (fun records w₁ h₁ => ?_) fun _ _ _ _ => trivial
  obtain ⟨r, c, hr, hc, hs⟩ := h₁
  rw [hr]
  simp only [hc, Option.getD_some]
  refine Safe.seq _ (safe_cacheSet (fun v v' hv hk => Seen.keep hk hv) (fun v hv => hv.le) hs)
    (fun _ w₂ h₂ => ?_) fun _ _ _ _ => trivial
  by_cases hconfig : config = {}
  · subst hconfig
    exact Safe.seq _ (safe_loadEvents h₂)
      (fun l w₃ h₃ => Safe.ret found_stable fun _ => ⟨_, rfl, h₃⟩) fun _ _ _ _ => trivial
  · exact Safe.seq _ (safe_loadEvents_any config h₂)
      (fun l w₃ _ => Safe.ret found_stable fun hc => absurd hc hconfig) fun _ _ _ _ => trivial

/-- What is known when the call has ended. -/
def Listed (env : Env V P) (obs : Set (Str × InlineEvent V P)) :
    Except Err (Reply V) → World V P → Prop
  | .ok r, _ => ∃ s, r = .found (some s) ∧ ∀ k v, (k, v) ∈ obs →
      s.events.filter (fun x => x.1 = k) = [(k, eventFromInlineDict env.model v)]
  | .error _, _ => True

theorem safe_get (config : GetSessionConfig) (h : Watching cfg a obs w) :
    Safe (reader cfg a inst obs) (fun r w => config = {} → Listed env obs r w)
      ((Call.get a config).body env) w := by
  refine Safe.seq _ (safe_getSession config h) (fun x w₁ h₁ => ?_) fun _ _ _ _ => trivial
  refine Safe.ret (fun r v v' hr _ => by cases r <;> exact hr) fun hconfig => ?_
  obtain ⟨s, rfl, hs⟩ := h₁ hconfig
  exact ⟨s, rfl, hs⟩

end AdkAerospike.Sessions
