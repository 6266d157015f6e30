import AdkAerospike.Sessions.Concurrent.History

/-! No segment below the index of a session is empty, as long as no batch takes an
event to an empty segment that does not hold it. `_place_event` looks at the size of
a segment before it advances the index past it; what a call has learnt there stays
true, because segments only grow. A batch does not look, so for it the condition has
to be made on the state it meets. -/

namespace AdkAerospike.Sessions

open Program Data Codec Keys

variable {V P : Type}

/-- Every segment below the index holds an event. -/
structure Filled (cfg : ServerConfig V P) (a : Addr) (w : World V P) : Prop extends Sound cfg a w where
  solid : ∀ g < (logOf a w).cur, (segment a w g).entries ≠ []

/-- A move that keeps this, and empties no segment. -/
def Fills (cfg : ServerConfig V P) (a : Addr) (w w' : World V P) : Prop :=
  Filled cfg a w → Filled cfg a w' ∧ ∀ g, (segment a w g).entries ≠ [] → (segment a w' g).entries ≠ []

/-- The request advances the index past segment `n`. -/
def Bumps (a : Addr) (n : ℕ) (q : Req V P) : Prop :=
  q = .operate a.sessionPk [.incrementCur, .readCur] (some n)

section Step
variable {env : Env V P} {cfg : ServerConfig V P} {a : Addr} {w w' : World V P} {inst : ℕ}
  {x : Weather} {q : Req V P}

theorem Fills.refl (w : World V P) : Fills cfg a w w := fun h => ⟨h, fun _ hg => hg⟩

theorem Fills.trans {w₁ w₂ w₃ : World V P} (h₁ : Fills cfg a w₁ w₂) (h₂ : Fills cfg a w₂ w₃) :
    Fills cfg a w₁ w₃ := fun h => by
  obtain ⟨hf₂, hs₂⟩ := h₁ h
  obtain ⟨hf₃, hs₃⟩ := h₂ hf₂
  exact ⟨hf₃, fun g hg => hs₃ g (hs₂ g hg)⟩

theorem PutDone.cur_eq {g : ℕ} {k : Str} {v : InlineEvent V P} (h : PutDone cfg a g k v w w') :
    (logOf a w').cur = (logOf a w).cur := by
  rw [h.2, Log.put_cur]

/-- Only the guarded increment at the index itself moves it. -/
theorem Sound.step_cur (h : Sound cfg a w) (inst : ℕ) (hq : SessionRequest env a q)
    (hx : Admissible q x) :
    (logOf a (exec cfg inst x q w).2).cur = (logOf a w).cur ∨ Bumps a (logOf a w).cur q := by
  cases hq with
  | create hq => exact .inl (congrArg Log.cur (h.step_create hq).2)
  | get hq => exact .inl (congrArg Log.cur (h.step_get hq hx).2)
  | append k v hq =>
    have hrow : a.sessionPk ∉ q.keys →
        (logOf a (exec cfg inst x q w).2).cur = (logOf a w).cur := fun hkeys => by
      have hsame : row a (exec cfg inst x q w).2 = row a w := exec_get_of_notMem cfg inst x hkeys w
      simp only [logOf, hsame]
    cases hq with
    | put g => exact .inl (hrow (by simp [Req.keys, (segmentPk_ne_sessionPk a g).symm]))
    | size g => exact .inl (hrow (by simp [Req.keys, (segmentPk_ne_sessionPk a g).symm]))
    | bump n =>
      obtain ⟨-, -, hres⟩ := h.exec_bump (n := n) inst hx.1
      rcases hres with ⟨-, hn, -⟩ | ⟨-, -, hlog⟩ | ⟨e, -, -, hlog | ⟨hn, -⟩⟩
      · exact .inr (by rw [hn]; rfl)
      · exact .inl (congrArg Log.cur hlog)
      · exact .inl (congrArg Log.cur hlog)
      · exact .inr (by rw [hn]; rfl)
    | batch g d now =>
      obtain ⟨-, -, hres⟩ := h.exec_batch (g := g) (k := k) (v := v) inst (hx.2.1 0) d now
      rcases hres with ⟨s, rest, -, ⟨-, hput⟩ | ⟨-, -, hlog⟩ | ⟨-, -, hlog | hput⟩⟩ | ⟨e, -, hlog | hput⟩
      · exact .inl hput.cur_eq
      · exact .inl (congrArg Log.cur hlog)
      · exact .inl (congrArg Log.cur hlog)
      · exact .inl hput.cur_eq
      · exact .inl (congrArg Log.cur hlog)
      · exact .inl hput.cur_eq
    | selectCur => exact .inl (hrow (by simp [Req.keys]))
    | cacheGet => exact .inl rfl
    | cacheSet n => exact .inl rfl

theorem put_seg_ne_nil {L : Log Str (InlineEvent V P)} {g g' : ℕ} {k : Str} {v : InlineEvent V P}
    (hg : (L.seg g).entries ≠ []) : ((L.put g' k v).seg g).entries ≠ [] := by
  by_cases hgg : g = g'
  · subst hgg
    rw [Log.put_seg_self]
    exact OMap.put_entries_ne_nil
  · rw [Log.put_seg_of_ne _ hgg]
    exact hg

/-- A request keeps the segments below the index filled, if it does not advance the
index past an empty one. -/
theorem Filled.step (h : Filled cfg a w) (inst : ℕ) (hq : SessionRequest env a q) (hx : Admissible q x)
    (hbump : ∀ n, Bumps a n q → (segment a w n).entries ≠ []) :
    Fills cfg a w (exec cfg inst x q w).2 := fun _ => by
  obtain ⟨hsound, hadv⟩ := h.toSound.step inst hq hx
  have hcur := h.toSound.step_cur inst hq hx
  generalize (exec cfg inst x q w).2 = w' at hsound hadv hcur
  have hgrow : ∀ g, (segment a w g).entries ≠ [] → (segment a w' g).entries ≠ [] := by
    intro g hg
    change ((logOf a w').seg g).entries ≠ []
    rcases hadv with hlog | hlog | ⟨g', k, v, -, hput⟩
    · rw [hlog]
      exact hg
    · rw [hlog]
      exact hg
    · rw [hput.2]
      exact put_seg_ne_nil hg
  refine ⟨⟨hsound, fun g hg => hgrow g ?_⟩, hgrow⟩
  rcases hcur with hsame | hpast
  · rw [hsame] at hg
    exact h.solid g hg
  · -- the index has moved by one, past a segment known to be filled
    have hle : (logOf a w').cur ≤ (logOf a w).cur + 1 := by
      rcases hadv with hlog | hlog | ⟨g', k, v, -, hput⟩
      · rw [hlog]
        exact Nat.le_succ _
      · rw [hlog]
      · rw [hput.2]
        exact Nat.le_succ _
    by_cases hlt : g < (logOf a w).cur
    · exact h.solid g hlt
    · obtain rfl : g = (logOf a w).cur := by omega
      exact hbump _ hpast

end Step

/-! ### What a call has learnt -/

/-- A batch takes an event to a segment that holds it, or that is not empty. -/
def Roomy (cfg : ServerConfig V P) (a : Addr) (w : World V P) (q : Req V P) : Prop :=
  ∀ g k v rest, q = .batchWrite ((a.segmentPk g, [.mapPut k v]) :: rest) →
    cfg.SegFits ((segment a w g).put k v) ∨ (segment a w g).entries ≠ []

open Classical in
/-- A batch for which there is no room is turned away; anything else meets calm weather. -/
noncomputable def Roomy.weather (cfg : ServerConfig V P) (a : Addr) (w : World V P) (q : Req V P) : Weather :=
  if Roomy cfg a w q then .calm else ⟨.overload, fun _ => .none⟩

/-- A party of instance `inst` that keeps segments filled. -/
noncomputable def filler (cfg : ServerConfig V P) (a : Addr) (inst : ℕ) :
    Setting (Req V P) Ans (World V P) Weather where
  serve _ q w := exec cfg inst (Roomy.weather cfg a w q) q w
  adm _ x := x = .calm
  rely := Fills cfg a
  guar := Fills cfg a
  rely_refl := Fills.refl
  rely_trans := Fills.trans

/-- The segments of `N` are known to hold an event. -/
structure Knows (cfg : ServerConfig V P) (a : Addr) (N : Set ℕ) (w : World V P) : Prop where
  filled : Filled cfg a w
  holds : ∀ g ∈ N, (segment a w g).entries ≠ []

/-- A request of the session that advances the index past a segment of `N` at most. -/
def Within (env : Env V P) (a : Addr) (N : Set ℕ) (q : Req V P) : Prop :=
  SessionRequest env a q ∧ ∀ n, Bumps a n q → n ∈ N

section Safe
variable {env : Env V P} {cfg : ServerConfig V P} {a : Addr} {w w' : World V P} {inst : ℕ}
  {N : Set ℕ} {α : Type}

theorem Knows.keep (h : Knows cfg a N w) (hw : Fills cfg a w w') : Knows cfg a N w' :=
  ⟨(hw h.filled).1, fun g hg => (hw h.filled).2 g (h.holds g hg)⟩

theorem Roomy.admissible (q : Req V P) : Admissible q (Roomy.weather cfg a w q) := by
  unfold Roomy.weather
  split_ifs
  · exact admissible_calm q
  · exact ⟨trivial, fun _ => trivial, by cases q <;> first | trivial | exact fun _ => rfl⟩

/-- A program that advances the index past known segments only. -/
theorem safe_within (env : Env V P) {p : Service V P α} (hp : p.Uses (Within env a N)) (hw : Knows cfg a N w) :
    Safe (filler cfg a inst) (fun _ v => Knows cfg a N v) p w := by
  refine Safe.of_uses hp (fun v v' => Knows.keep) (fun q c v hq _ hv => ?_) hw
  have hfills : Fills cfg a v (exec cfg inst (Roomy.weather cfg a v q) q v).2 :=
    hv.filled.step inst hq.1 (Roomy.admissible q) fun n hn => hv.holds n (hq.2 n hn)
  exact ⟨hfills, hv.keep hfills⟩

theorem knows_stable {R : Except Err α → Set ℕ} :
    Safe.Stable (filler cfg a inst) fun r v => Knows cfg a (R r) v := fun _ _ _ => Knows.keep

/-! ### Appending -/

variable {k : Str} {v : InlineEvent V P} {g n : ℕ}

theorem Knows.nothing (h : Knows cfg a N w) : Knows cfg a ∅ w := ⟨h.filled, fun _ hg => hg.elim⟩

/-- An append's request that is not the guarded increment. -/
theorem within_append (env : Env V P) {q : Req V P} (hq : AppendRequest a k v q)
    (hb : ∀ n, ¬ Bumps a n q) : Within env a N q := ⟨.append k v hq, fun n hn => absurd hn (hb n)⟩

theorem Knows.cacheSet (env : Env V P) (m : ℕ) (hw : Knows cfg a N w) :
    Safe (filler cfg a inst) (fun _ v => Knows cfg a N v) (cacheSet a.pkStr m : Service V P Unit) w :=
  safe_within env ⟨⟨.get (.cacheSet m), nofun⟩, fun _ => trivial⟩ hw

theorem Knows.rollOver (env : Env V P) (k : Str) (v : InlineEvent V P) (hn : n ∈ N)
    (hw : Knows cfg a N w) :
    Safe (filler cfg a inst) (fun _ v => Knows cfg a N v) (rollOver a n : Service V P ℕ) w := by
  refine safe_within env (uses_rollOver ⟨.append k v (.bump n), fun m hm => ?_⟩
    (within_append env (k := k) (v := v) .selectCur nofun) fun m => ⟨.get (.cacheSet m), nofun⟩) hw
  obtain rfl : n = m := by simpa [Bumps] using hm
  exact hn

/-- The segment that a size read of `_place_event` has shown to hold an event. -/
def sized (g : ℕ) : Except Err ℕ → Set ℕ
  | .ok m => {x | x = g ∧ m ≠ 0}
  | .error _ => ∅

theorem Roomy.weather_eq {q : Req V P} (hq : ∀ writes, q ≠ .batchWrite writes) :
    Roomy.weather cfg a w q = .calm := by
  have hroomy : Roomy cfg a w q := fun g k v rest h => absurd h (hq _)
  rw [Roomy.weather, if_pos hroomy]

theorem Knows.segmentSize (g : ℕ) (hw : Knows cfg a N w) :
    Safe (filler cfg a inst) (fun r v => Knows cfg a (sized g r) v)
      (segmentSize (a.segmentPk g) : Service V P ℕ) w := by
  refine safe_catching knows_stable (fun r v => Knows cfg a (sized g r) v) ?_ (fun _ _ h => h)
    (fun u hu => Safe.ret knows_stable ⟨hu.filled, fun x hx => absurd rfl hx.2⟩) (fun _ _ _ h => h)
  intro w₁ hw₁ c _
  have h₁ := hw.keep hw₁
  have hserve : (filler cfg a inst).serve c (.operate (a.segmentPk g) [.mapSize] none) w₁ =
      exec cfg inst .calm (.operate (a.segmentPk g) [.mapSize] none) w₁ := by
    change exec cfg inst (Roomy.weather cfg a w₁ _) _ w₁ = _
    rw [Roomy.weather_eq fun _ h => by cases h]
  have hexec : exec cfg inst .calm (.operate (a.segmentPk g) [.mapSize] none) w₁ =
      ((cfg.operate (a.segmentPk g) [.mapSize] none w₁.store).1,
        w₁.withStore (cfg.operate (a.segmentPk g) [.mapSize] none w₁.store).2) := rfl
  rw [hserve, hexec]
  rcases h₁.filled.operate_size g with ⟨hop, -⟩ | hop <;> rw [hop]
  · exact ⟨Fills.refl w₁, Safe.raise knows_stable h₁.nothing⟩
  · refine ⟨Fills.refl w₁, Safe.ret knows_stable ⟨h₁.filled, fun x hx hempty => ?_⟩⟩
    obtain ⟨rfl, hne⟩ := hx
    exact hne (List.length_eq_zero_iff.mpr hempty)

/-- The loop of `_place_event`, by induction on the attempts left: it advances the
index past a segment only after it has seen an event there. -/
theorem Knows.placeLoop (env : Env V P) (n g : ℕ) (hw : Knows cfg a N w) :
    Safe (filler cfg a inst) (fun _ v => Filled cfg a v) (placeLoop a k v n g) w := by
  induction n generalizing g N w with
  | zero => exact Safe.raise (fun _ _ _ h hw => (hw h).1) hw.filled
  | succ n ih =>
    have hput : (catching .recordTooBig ((writeRetryingOverload (operate (a.segmentPk g) [.mapPut k v]) true
        overloadMaxRetries).bind fun _ => .ret true) (.ret false)).Uses (Within env a ∅) := by
      refine uses_catching (Prog.Uses.bind (uses_writeRetryingOverload (uses_operate ?_) _ _)
        fun _ => trivial) trivial
      exact within_append env (.put g) fun n hn => by simp [Bumps] at hn
    refine Safe.seq _ (safe_within env hput hw.nothing) (fun placed u hu => ?_) fun _ _ h => h.filled
    cases placed with
    | true => exact (hu.cacheSet env g).mono fun _ _ h => h.filled
    | false =>
      refine Safe.seq _ (hu.segmentSize g) (fun m u hu => ?_) fun _ _ h => h.filled
      split_ifs with hm
      · exact Safe.raise (fun _ _ _ h hw => (hw h).1) hu.filled
      · have hg : g ∈ sized g (.ok m) := ⟨rfl, hm⟩
        exact Safe.seq _ (hu.rollOver env k v hg) (fun cur u hu => ih cur hu) fun _ _ h => h.filled

theorem Knows.placeEvent (env : Env V P) (g : ℕ) (afterOverflow : Bool) (hw : Knows cfg a N w)
    (hg : afterOverflow → g ∈ N) :
    Safe (filler cfg a inst) (fun _ v => Filled cfg a v) (placeEvent a g k v afterOverflow) w := by
  cases afterOverflow with
  | false => exact hw.placeLoop env _ g
  | true =>
    exact Safe.seq _ (hw.rollOver env k v (hg rfl)) (fun cur u hu => hu.placeLoop env _ cur)
      fun _ _ h => h.filled

/-- The segment that a batch has shown to hold an event, by refusing another. -/
def overflowed (g : ℕ) : Except Err (List ℤ) → Set ℕ
  | .ok (s :: _) => {x | x = g ∧ s = Err.recordTooBig.code}
  | _ => ∅

/-- The batch of `_append_event_record`, answered where there is room for it: what it
refuses would not have fitted a segment that is not empty. -/
theorem Knows.answer_batch (env : Env V P) (hw : Knows cfg a N w) (inst : ℕ) (d : Deltas V) (now : ℚ) :
    let q : Req V P := .batchWrite ((a.segmentPk g, [.mapPut k v]) :: stateWrites a d now)
    let done := exec cfg inst (Roomy.weather cfg a w q) q w
    Fills cfg a w done.2 ∧ Knows cfg a (overflowed g done.1) done.2 := by
  intro q done
  have hreq : SessionRequest env a q := .append k v (.batch g d now)
  have hfills : Fills cfg a w done.2 := hw.filled.step inst hreq (Roomy.admissible q) nofun
  refine ⟨hfills, (hfills hw.filled).1, fun x hx => ?_⟩
  by_cases hroomy : Roomy cfg a w q
  · have hdone : done = exec cfg inst .calm q w := by
      simp only [done, Roomy.weather, if_pos hroomy]
    obtain ⟨-, -, hres⟩ := hw.filled.exec_batch (g := g) (k := k) (v := v) (x := .calm) inst trivial d now
    rw [show exec cfg inst .calm (.batchWrite ((a.segmentPk g, [.mapPut k v]) :: stateWrites a d now)) w =
      done from hdone.symm] at hres
    rcases hres with ⟨s, rest, hans, hcase⟩ | ⟨e, hans, -⟩ <;> rw [hans] at hx
    · obtain ⟨rfl, hs⟩ := hx
      rcases hcase with ⟨rfl, -⟩ | ⟨-, hbig, -⟩ | ⟨-, hne, -⟩
      · cases hs
      · exact hfills hw.filled |>.2 x ((hroomy x k v _ rfl).resolve_left hbig)
      · exact absurd hs hne
    · cases hx
  · have hdone : done.1 = .error .deviceOverload := by
      simp only [done, Roomy.weather, if_neg hroomy]
      rfl
    rw [hdone] at hx
    cases hx

theorem Knows.batch (env : Env V P) (d : Deltas V) (now : ℚ) (n : ℕ) (hw : Knows cfg a N w) :
    Safe (filler cfg a inst) (fun r v => Knows cfg a (overflowed g r) v)
      (batchWriteWithRetry ((a.segmentPk g, [.mapPut k v]) :: stateWrites a d now) n) w := by
  induction n generalizing w N with
  | zero =>
    intro w₁ hw₁ c _
    obtain ⟨hfills, hknows⟩ := (hw.keep hw₁).answer_batch (g := g) (k := k) (v := v) env inst d now
    exact ⟨hfills, safe_ofExcept knows_stable hknows⟩
  | succ n ih =>
    -- an answer either ends the batch or leads to another attempt
    have hanswer : ∀ (y : Except Err (List ℤ)) (u : World V P), Knows cfg a (overflowed g y) u →
        Safe (filler cfg a inst) (fun r v => Knows cfg a (overflowed g r) v) (batchOutcome
          (batchWriteWithRetry ((a.segmentPk g, [.mapPut k v]) :: stateWrites a d now) n) y) u := by
      intro y u hu
      rcases y with e | results
      · cases e with
        | deviceOverload => exact ih hu
        | maxErrorRate => exact ih hu
        | timeout => exact ih hu
        | _ => exact Safe.raise knows_stable hu
      · dsimp only [batchOutcome]
        split_ifs
        · exact ih hu
        · exact Safe.ret knows_stable hu
    intro w₁ hw₁ c _
    obtain ⟨hfills, hknows⟩ := (hw.keep hw₁).answer_batch (g := g) (k := k) (v := v) env inst d now
    exact ⟨hfills, hanswer _ _ hknows⟩

theorem Knows.finishBatch (env : Env V P) (results : List ℤ)
    (hw : Knows cfg a (overflowed g (.ok results)) w) :
    Safe (filler cfg a inst) (fun _ v => Filled cfg a v) (finishBatch a g k v results) w := by
  have hstable : Safe.Stable (filler cfg a inst)
      (fun (_ : Except Err Unit) v => Filled cfg a v) := fun _ _ _ h hw => (hw h).1
  cases results with
  | nil => exact Safe.raise hstable hw.filled
  | cons s others =>
    rw [Sessions.finishBatch]
    cases others.find? (· ≠ 0) with
    | some r => exact Safe.raise hstable hw.filled
    | none =>
      dsimp only
      split_ifs with hzero hbig
      · exact (hw.cacheSet env g).mono fun _ _ h => h.filled
      · exact hw.placeEvent env g true fun _ => ⟨rfl, hbig⟩
      · exact Safe.raise hstable hw.filled

theorem Filled.safe_append (env : Env V P) (d : Deltas V) (now : ℚ) (hw : Filled cfg a w) :
    Safe (filler cfg a inst) (fun _ v => Filled cfg a v) (appendEventRecord a k v d now) w := by
  have hcur : (currentSegment a : Service V P ℕ).Uses (Within env a ∅) :=
    uses_currentSegment (within_append env (k := k) (v := v) .cacheGet nofun)
      (within_append env (k := k) (v := v) .selectCur nofun) fun n => ⟨.get (.cacheSet n), nofun⟩
  have hknows : Knows cfg a ∅ w := ⟨hw, fun _ h => h.elim⟩
  refine Safe.seq _ (safe_within env hcur hknows) (fun g u hu => ?_) fun _ _ h => h.filled
  split_ifs
  · exact hu.placeEvent env g false nofun
  · exact Safe.seq _ (hu.batch env d now _) (fun results u hu => hu.finishBatch env results)
      fun _ _ h => h.filled

/-! ### Every call -/

theorem not_bumps_create {q : Req V P} (hq : CreateRequest a q) (n : ℕ) : ¬ Bumps a n q := by
  intro hn
  cases hq with
  | follow hf => cases hf <;> simp [Bumps] at hn
  | _ => cases hn

theorem not_bumps_get {q : Req V P} (hq : GetRequest env a q) (n : ℕ) : ¬ Bumps a n q := by
  intro hn
  cases hq with
  | segment hseg =>
    obtain ⟨g, N, T, rfl⟩ := hseg
    simp [Bumps] at hn
  | _ => cases hn

theorem Filled.safe_call (env : Env V P) {c : Call V} (hc : c.on a) (hw : Filled cfg a w) :
    Safe (filler cfg a inst) (fun _ v => Filled cfg a v) (c.body env) w := by
  have hknows : Knows cfg a ∅ w := ⟨hw, fun _ h => h.elim⟩
  have hstable : Safe.Stable (filler cfg a inst)
      (fun (_ : Except Err (Reply V)) v => Filled cfg a v) := fun _ _ _ h hw => (hw h).1
  cases c with
  | create app user state sessionId fresh now =>
    cases hc
    have huses := (uses_createSession app user state sessionId fresh now).mono fun q hq =>
      show Within env _ ∅ q from ⟨.create hq, fun n hn => absurd hn (not_bumps_create hq n)⟩
    exact Safe.seq _ (safe_within env huses hknows) (fun _ u hu => Safe.ret hstable hu.filled)
      fun _ _ h => h.filled
  | append b e clock =>
    cases hc
    refine Safe.seq (fun _ u => Filled cfg a u) ?_ (fun _ u hu => Safe.ret hstable hu) fun _ _ h => h
    unfold persistEvent
    split_ifs
    · exact Safe.ret (fun _ _ _ h hw => (hw h).1) hw
    · exact hw.safe_append env _ _
  | get b config =>
    cases hc
    have huses := (uses_getSession env a config).mono fun q hq =>
      show Within env a ∅ q from ⟨.get hq, fun n hn => absurd hn (not_bumps_get hq n)⟩
    exact Safe.seq _ (safe_within env huses hknows) (fun _ u hu => Safe.ret hstable hu.filled)
      fun _ _ h => h.filled
  | _ => cases hc

end Safe

/-- Calls create, append to or read the session, and no request meets a fault. -/
def Calm (a : Addr) (_ : Calls V P) : Action (Issued V) Weather → Prop
  | .spawn l => l.call.on a
  | .step _ x => x = .calm

/-- As before, and there is room for every batch that is answered. -/
def CalmAndRoomy (cfg : ServerConfig V P) (a : Addr) (s : Calls V P) (x : Action (Issued V) Weather) : Prop :=
  Calm a s x ∧ ∀ i y q, x = .step i y → System.next s i = some q → Roomy cfg a s.world q

/-- No holes below the index: along every interleaving of creates, appends and reads
of a session, every segment below the stored index holds an event, if no batch is
answered that takes an event to an empty segment it does not fit. -/
theorem segments_below_cur_filled (env : Env V P) (cfg : ServerConfig V P) (a : Addr) (w₀ : World V P)
    (hw₀ : Created env cfg a w₀) (s : Calls V P)
    (hs : (service env cfg).Reach (CalmAndRoomy cfg a) ⟨w₀, []⟩ s) :
    ∀ g < (logOf a s.world).cur, (segment a s.world g).entries ≠ [] := by
  have hstart : Filled cfg a w₀ := by
    obtain ⟨hsound, hcur, -⟩ := hw₀.blank.1.sound cfg
    exact ⟨hsound, fun g hg => by omega⟩
  refine (System.Reach.safe (S := fun l => filler cfg a l.inst) (I := Filled cfg a)
    (fun _ _ _ hw h => (hw h).1) (fun _ _ _ _ hw => hw) (fun s l hl hw => hw.safe_call env hl.1)
    (fun s i x l q hx hq => ?_) hs hstart rfl).1.solid
  obtain ⟨hcalm, hroomy⟩ := hx
  refine ⟨hcalm, ?_⟩
  change exec cfg l.inst (Roomy.weather cfg a s.world q) q s.world = exec cfg l.inst x q s.world
  rw [Roomy.weather, if_pos (hroomy i x q rfl hq), show x = .calm from hcalm]

namespace Small

/-- The segment of a batch that is answered next holds its event, or is not empty. -/
def hasRoom (w : World ℕ (Event ℕ)) : Req ℕ (Event ℕ) → Bool
  | .batchWrite ((key, [.mapPut k v]) :: _) => [0, 1].any fun g => key = addr.segmentPk g &&
      (cfg.SegFits ((segment addr w g).put k v) || !(segment addr w g).entries.isEmpty)
  | _ => true

theorem roomy_of_hasRoom {w : World ℕ (Event ℕ)} {q : Req ℕ (Event ℕ)} (h : hasRoom w q) : Roomy cfg addr w q := by
  rintro g k v rest rfl
  obtain ⟨g', -, hg'⟩ := List.any_eq_true.mp h
  obtain ⟨hkey, hroom⟩ := (Bool.and_eq_true _ _).mp hg'
  obtain rfl := (segmentPk_inj addr).mp (of_decide_eq_true hkey)
  simpa using hroom

def answersRoomy (s : Calls ℕ (Event ℕ)) : Action (Issued ℕ) Weather → Bool
  | .spawn _ => true
  | .step i _ => (System.next s i).all (hasRoom s.world)

theorem calmAndRoomy_of_test {s : Calls ℕ (Event ℕ)} {x : Action (Issued ℕ) Weather} (hcalm : Calm addr s x)
    (h : answersRoomy s x) : CalmAndRoomy cfg addr s x := by
  refine ⟨hcalm, ?_⟩
  rintro i y q rfl hq
  rw [answersRoomy, hq] at h
  exact roomy_of_hasRoom h

theorem calm_turns {n : ℕ} {ls : List (Issued ℕ)} (h : ∀ l ∈ ls, l.call.on addr) :
    ∀ x ∈ System.turns .calm n 0 ls, ∀ s : Calls ℕ (Event ℕ), Calm addr s x := by
  intro x hx s
  rcases System.mem_turns hx with ⟨l, hl, rfl⟩ | ⟨j, rfl⟩
  · exact h l hl
  · rfl

/-- An event with a state delta. -/
def noted (id : Str) (timestamp : ℚ) : Event ℕ :=
  { event id timestamp with stateDelta := (∅ : Dict ℕ).insert ['k'] 1 }

/-- Three appends with state deltas on two instances. The batch of the last one finds the
first segment full. -/
def annotated : Calls ℕ (Event ℕ) := (service env cfg).run (System.turns .calm 9 0
  [⟨0, .append addr (noted ['p'] 5) 0⟩, ⟨1, .append addr (noted ['q'] 6) 0⟩, ⟨0, .append addr (noted ['r'] 7) 0⟩])
    ⟨created, []⟩

theorem reach_annotated : (service env cfg).Reach (CalmAndRoomy cfg addr) ⟨created, []⟩ annotated := by
  refine System.reach_run (System.permitted_of_passes (fun x hx s h => calmAndRoomy_of_test ?_ h) (by decide +kernel))
  exact calm_turns (by simp [Call.on]) x hx s

/-- One append of an oversized event with a state delta. -/
def rejected : Calls ℕ (Event ℕ) := (service env cfg).run
  (System.turns .calm 6 0 [⟨0, .append addr oversized 0⟩]) ⟨created, []⟩

end Small

open Sessions.Small in
/-- The index has advanced past the first segment, by a batch that was refused. -/
theorem segments_below_cur_filled_small :
    (logOf addr annotated.world).cur = 1 ∧ (segment addr annotated.world 1).entries.length = 1 ∧
    ∀ g < (logOf addr annotated.world).cur, (segment addr annotated.world g).entries ≠ [] :=
  ⟨by decide +kernel, by decide +kernel, segments_below_cur_filled env cfg addr created created_created annotated reach_annotated⟩

open Sessions.Small in
/-- The batch of an event that no segment holds advances the index past a segment
that is empty. -/
theorem batch_leaves_hole :
    Created env cfg addr created ∧
    (service env cfg).Reach (Calm addr) ⟨created, []⟩ rejected ∧
    0 < (logOf addr rejected.world).cur ∧ (segment addr rejected.world 0).entries = [] :=
  ⟨created_created, System.reach_run (System.permitted_of_forall (calm_turns (by simp [Call.on]))),
    by decide +kernel, by rfl⟩

end AdkAerospike.Sessions
