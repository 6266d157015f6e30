import AdkAerospike.Sessions.Concurrent.History

/-! Every call on a session works at indices that have been reached. Whatever its
event keys are, a call takes an index from the cache, from the row or from the answer
of an increment, and none of these is past the stored one; so nothing is ever stored or
cached past it, in any interleaving of such calls. -/

namespace AdkAerospike.Sessions

open Program Data Codec Keys

variable {V P : Type} {cfg : ServerConfig V P} {a : Addr} {w w' : World V P} {inst n : ℕ}

/-- The session is good, and the index `n` has been reached. -/
structure Below (cfg : ServerConfig V P) (a : Addr) (n : ℕ) (w : World V P) : Prop where
  good : Good cfg a w
  le : n ≤ (logOf a w).cur

/-- The request stores under index `g`, or caches it. -/
def Marks (a : Addr) (g : ℕ) (q : Req V P) : Prop := (∃ k v, Puts a g k v q) ∨ q = .cacheSet a.pkStr g

/-- A request of the session that works at an index up to `n`. -/
def UpTo (env : Env V P) (a : Addr) (n : ℕ) (q : Req V P) : Prop :=
  SessionRequest env a q ∧ ∀ g, Marks a g q → g ≤ n

/-- A party that relies on the session being good, and on nothing else. -/
abbrev anyone (cfg : ServerConfig V P) (a : Addr) (inst : ℕ) : Setting (Req V P) Ans (World V P) Weather :=
  party cfg a inst ∅ ∅

theorem Below.keep (h : Below cfg a n w) (hw : Keeps cfg a ∅ w w') : Below cfg a n w' :=
  ⟨(hw h.good).1, h.le.trans (hw h.good).2.1⟩

/-! ### One request -/

section Step
variable {env : Env V P} {q : Req V P} {x : Weather}

/-- Only a cache write changes what is cached. -/
theorem SessionRequest.cache (hq : SessionRequest env a q) (cfg : ServerConfig V P) (inst : ℕ) (x : Weather) (w : World V P) :
    (exec cfg inst x q w).2.cache = w.cache ∨ ∃ m, q = .cacheSet a.pkStr m := by
  cases hq with
  | create hq =>
    cases hq with
    | row d now => exact .inl rfl
    | cacheSet => exact .inr ⟨0, rfl⟩
    | follow hq =>
      cases hq with
      | read keys => exact .inl (congrArg World.cache (reading_snd _ _ w))
      | _ => exact .inl rfl
  | append k v hq =>
    cases hq with
    | cacheSet m => exact .inr ⟨m, rfl⟩
    | selectCur => exact .inl (congrArg World.cache (reading_snd _ _ w))
    | _ => exact .inl rfl
  | get hq =>
    cases hq with
    | records => exact .inl (congrArg World.cache (reading_snd _ _ w))
    | cacheSet m => exact .inr ⟨m, rfl⟩
    | segment hq =>
      obtain ⟨g, N, T, rfl⟩ := hq
      exact .inl rfl

/-- A request at a reached index keeps the session good. -/
theorem Below.step (h : Below cfg a n w) (inst : ℕ) (hq : UpTo env a n q) (hx : Admissible q x) :
    Keeps cfg a ∅ w (exec cfg inst x q w).2 := by
  rcases hq.1.cache cfg inst x w with hcache | ⟨m, rfl⟩
  · obtain ⟨hsound, hadv⟩ := h.good.toSound.step inst hq.1 hx
    rcases hadv with hlog | hlog | ⟨g, k, v, hput, hdone⟩
    · exact h.good.keeps_of_log hsound hcache hlog ∅
    · exact h.good.keeps_bump hsound hcache hlog ∅
    · have hg : g ≤ (logOf a w).cur := (hq.2 g (.inl ⟨k, v, hput⟩)).trans h.le
      exact (h.good.keeps_put hsound hcache hg hdone.2).mono (Set.empty_subset _)
  · exact keeps_setCache ((hq.2 m (.inr rfl)).trans h.le) ∅

end Step

/-! ### Programs -/

section Programs
variable {α : Type} (env : Env V P)

/-- A program whose requests all work at indices up to `n`. -/
theorem Below.safe {p : Service V P α} (h : Below cfg a n w) (hp : p.Uses (UpTo env a n)) :
    Safe (anyone cfg a inst) (fun _ v => Below cfg a n v) p w := by
  refine Safe.of_uses hp (fun v v' hv hw => hv.keep hw) (fun q c v hq hc hv => ?_) h
  have hkeep : Keeps cfg a ∅ v (exec cfg inst c q v).2 := hv.step inst hq hc
  exact ⟨hkeep, hv.keep hkeep⟩

variable {env} {k : Str} {v : InlineEvent V P} {g : ℕ}

/-- A request that neither stores nor caches. -/
theorem upTo_of_append {q : Req V P} (hq : AppendRequest a k v q) (hm : ∀ g, ¬ Marks a g q) : UpTo env a n q :=
  ⟨.append k v hq, fun g hg => absurd hg (hm g)⟩

theorem upTo_size (k : Str) (v : InlineEvent V P) : UpTo env a n (.operate (a.segmentPk g) [.mapSize] none) := by
  refine upTo_of_append (k := k) (v := v) (.size g) fun g' hg => ?_
  rcases hg with ⟨k', v', hput | ⟨d, now, hput⟩⟩ | hset
  · simp at hput
  · cases hput
  · cases hset

theorem upTo_put : UpTo env a g (.operate (a.segmentPk g) [.mapPut k v] none) := by
  refine ⟨.append k v (.put g), fun g' hg => ?_⟩
  rcases hg with ⟨k', v', hput | ⟨d, now, hput⟩⟩ | hset
  · simp only [Req.operate.injEq, segmentPk_inj] at hput
    exact hput.1.ge
  · cases hput
  · cases hset

theorem upTo_batch (d : Deltas V) (now : ℚ) :
    UpTo env a g (.batchWrite ((a.segmentPk g, [.mapPut k v]) :: stateWrites a d now)) := by
  refine ⟨.append k v (.batch g d now), fun g' hg => ?_⟩
  rcases hg with ⟨k', v', hput | ⟨d, now, hput⟩⟩ | hset
  · cases hput
  · simp only [Req.batchWrite.injEq, List.cons.injEq, Prod.mk.injEq, segmentPk_inj] at hput
    exact hput.1.1.ge
  · cases hset

theorem upTo_cacheSet {m : ℕ} (hm : m ≤ n) : UpTo env a n (.cacheSet a.pkStr m : Req V P) := by
  refine ⟨.get (.cacheSet m), fun g hg => ?_⟩
  rcases hg with ⟨k', v', hput | ⟨d, now, hput⟩⟩ | hset
  · cases hput
  · cases hput
  · cases hset
    exact hm

/-- What is known when the increment from `n` has been answered. -/
def Told (cfg : ServerConfig V P) (a : Addr) (n : ℕ) : Except Err (OpResult V P) → World V P → Prop
  | .ok y, w => Below cfg a (y.cur.getD (n + 1)) w
  | .error _, w => Below cfg a n w

/-- What is known when the row's index has been read. -/
def RowTold (cfg : ServerConfig V P) (a : Addr) : Except Err (Option ℕ) → World V P → Prop
  | .ok c, w => ∃ m, c = some m ∧ Below cfg a m w
  | .error _, w => Good cfg a w

/-- The index that a call goes on with has been reached. -/
def GoesOn (cfg : ServerConfig V P) (a : Addr) : Except Err ℕ → World V P → Prop
  | .ok m, w => Below cfg a m w
  | .error _, w => Good cfg a w

theorem told_stable : Safe.Stable (anyone cfg a inst) (Told cfg a n) := by
  intro r w w' h hw
  cases r <;> exact Below.keep h hw

theorem rowTold_stable : Safe.Stable (anyone cfg a inst) (RowTold cfg a) := by
  intro r w w' h hw
  cases r with
  | ok c =>
    obtain ⟨m, hc, hm⟩ := h
    exact ⟨m, hc, hm.keep hw⟩
  | error e => exact (hw h).1

theorem goesOn_stable : Safe.Stable (anyone cfg a inst) (GoesOn cfg a) := by
  intro r w w' h hw
  cases r with
  | ok m => exact Below.keep h hw
  | error e => exact (hw h).1

theorem good_stable {β : Type} : Safe.Stable (anyone cfg a inst) fun (_ : Except Err β) v => Good cfg a v :=
  fun _ _ _ h hw => (hw h).1

theorem Below.safe_cacheSet (env : Env V P) (h : Below cfg a n w) :
    Safe (anyone cfg a inst) (fun _ v => Below cfg a n v) (cacheSet a.pkStr n : Service V P Unit) w :=
  h.safe env ⟨upTo_cacheSet le_rfl, fun _ => trivial⟩

theorem Below.safe_bump (h : Below cfg a n w) (m : ℕ) : Safe (anyone cfg a inst) (Told cfg a n)
    (writeRetryingOverload (operate a.sessionPk [.incrementCur, .readCur] (some n)) true m) w := by
  refine safe_writeRetryingOverload told_stable true (I := Below cfg a n) ?_ (fun e v _ hv => hv) m h
  intro v hv v' hv' x hx
  have h' := hv.keep hv'
  obtain ⟨hsound, hcache, hres⟩ := h'.good.exec_bump (n := n) inst hx.1
  set done := exec cfg inst x (.operate a.sessionPk [.incrementCur, .readCur] (some n)) v' with hdone
  have hkeep : Keeps cfg a ∅ v' done.2 := by
    rcases hres with ⟨-, hn, hlog⟩ | ⟨-, -, hlog⟩ | ⟨e, -, -, hlog | ⟨hn, hlog⟩⟩
    · exact h'.good.keeps_bump hsound hcache (hn ▸ hlog) ∅
    · exact h'.good.keeps_of_log hsound hcache hlog ∅
    · exact h'.good.keeps_of_log hsound hcache hlog ∅
    · exact h'.good.keeps_bump hsound hcache (hn ▸ hlog) ∅
  refine ⟨hkeep, safe_ofExcept told_stable ?_⟩
  change Told cfg a n done.1 done.2
  rcases hres with ⟨hans, hn, hlog⟩ | ⟨hans, -, -⟩ | ⟨e, hans, -, -⟩ <;> rw [hans]
  · exact ⟨(h'.keep hkeep).good, by rw [hlog]; exact le_rfl⟩
  · exact h'.keep hkeep
  · exact h'.keep hkeep

theorem Good.safe_selectCur (h : Good cfg a w) :
    Safe (anyone cfg a inst) (RowTold cfg a) (selectCur a.sessionPk : Service V P _) w := by
  intro v hv x _
  have h' := (hv h).1
  obtain ⟨hsame, hans⟩ := h'.exec_selectCur inst x
  set done := exec cfg inst x (.selectCur a.sessionPk) v with hdone
  have hkeep : Keeps cfg a ∅ v done.2 := by
    rw [hsame]
    exact Keeps.refl v
  refine ⟨hkeep, safe_ofExcept rowTold_stable ?_⟩
  change RowTold cfg a done.1 done.2
  rw [hsame]
  rcases hans with hans | ⟨e, -, hans⟩ <;> rw [hans]
  · exact ⟨_, rfl, h', le_rfl⟩
  · exact h'

/-- An index that has been reached may be cached and gone on with. -/
theorem Below.safe_cache (env : Env V P) (h : Below cfg a n w) :
    Safe (anyone cfg a inst) (GoesOn cfg a) ((cacheSet a.pkStr n : Service V P Unit).bind fun _ => .ret n) w :=
  Safe.seq _ (h.safe_cacheSet env) (fun _ _ hv => Safe.ret goesOn_stable hv) fun _ _ hv => hv.good

theorem Below.safe_rollOver (env : Env V P) (h : Below cfg a n w) :
    Safe (anyone cfg a inst) (GoesOn cfg a) (rollOver a n : Service V P ℕ) w := by
  refine Safe.seq (GoesOn cfg a) ?_ (fun m v hm => Below.safe_cache env hm) fun _ _ he => he
  refine safe_catching_ret goesOn_stable told_stable (h.safe_bump _) (fun _ _ hm => hm) (fun v hv => ?_)
    fun _ _ _ he => he.good
  refine Safe.seq _ (Below.good hv).safe_selectCur (fun c v hc => ?_) fun _ _ he => he
  obtain ⟨m, rfl, hm⟩ := hc
  exact Safe.ret goesOn_stable hm

theorem Good.safe_currentSegment (env : Env V P) (h : Good cfg a w) :
    Safe (anyone cfg a inst) (GoesOn cfg a) (currentSegment a : Service V P ℕ) w := by
  intro v hv x hx
  have h' := (hv h).1
  refine ⟨Keeps.refl v, ?_⟩
  change Safe _ _ (Prog.bind (.ret (v.cache inst a.pkStr)) _) v
  rcases hc : v.cache inst a.pkStr with _ | n
  · change Safe _ _ (Prog.bind (catching _ _ _) _) v
    refine Safe.seq (GoesOn cfg a) ?_ (fun m v hm => Below.safe_cache env hm) fun _ _ he => he
    refine safe_catching_ret goesOn_stable rowTold_stable h'.safe_selectCur (fun c v hc => ?_) (fun v hv => ?_)
      fun _ _ _ he => he
    · obtain ⟨m, rfl, hm⟩ := hc
      exact hm
    · exact Safe.ret goesOn_stable ⟨hv, Nat.zero_le _⟩
  · exact Safe.ret goesOn_stable ⟨h', h'.cached inst n hc⟩

/-! ### Calls -/

/-- The loop of `_place_event`, by induction on the attempts left. -/
theorem Below.safe_placeLoop (env : Env V P) (n g : ℕ) (h : Below cfg a g w) :
    Safe (anyone cfg a inst) (fun _ v => Good cfg a v) (placeLoop a k v n g) w := by
  induction n generalizing g w with
  | zero => exact Safe.raise good_stable h.good
  | succ n ih =>
    have hput : (catching .recordTooBig ((writeRetryingOverload (operate (a.segmentPk g) [.mapPut k v]) true
        overloadMaxRetries).bind fun _ => .ret true) (.ret false)).Uses (UpTo env a g) :=
      uses_catching (Prog.Uses.bind (uses_writeRetryingOverload (uses_operate upTo_put) _ _) fun _ => trivial) trivial
    have hsize : (segmentSize (a.segmentPk g) : Service V P ℕ).Uses (UpTo env a g) :=
      uses_catching (Prog.Uses.bind (uses_operate (upTo_size k v)) fun _ => trivial) trivial
    refine Safe.seq _ (h.safe env hput) (fun placed u hu => ?_) fun _ _ he => he.good
    cases placed with
    | true => exact (hu.safe_cacheSet env).mono fun _ _ hv => hv.good
    | false =>
      refine Safe.seq _ (hu.safe env hsize) (fun m u hu => ?_) fun _ _ he => he.good
      split_ifs
      · exact Safe.raise good_stable hu.good
      · exact Safe.seq _ (hu.safe_rollOver env) (fun cur u hu => ih cur hu) fun _ _ he => he

theorem Below.safe_placeEvent (env : Env V P) (afterOverflow : Bool) (h : Below cfg a g w) :
    Safe (anyone cfg a inst) (fun _ v => Good cfg a v) (placeEvent a g k v afterOverflow) w := by
  cases afterOverflow with
  | false => exact h.safe_placeLoop env _ g
  | true => exact Safe.seq _ (h.safe_rollOver env) (fun cur u hu => hu.safe_placeLoop env _ cur) fun _ _ he => he

theorem Below.safe_finishBatch (env : Env V P) (results : List ℤ) (h : Below cfg a g w) :
    Safe (anyone cfg a inst) (fun _ v => Good cfg a v) (finishBatch a g k v results) w := by
  cases results with
  | nil => exact Safe.raise good_stable h.good
  | cons s others =>
    rw [finishBatch]
    cases others.find? (· ≠ 0) with
    | some r => exact Safe.raise good_stable h.good
    | none =>
      dsimp only
      split_ifs
      · exact (h.safe_cacheSet env).mono fun _ _ hv => hv.good
      · exact h.safe_placeEvent env true
      · exact Safe.raise good_stable h.good

theorem Good.safe_appendEventRecord (env : Env V P) (d : Deltas V) (now : ℚ) (h : Good cfg a w) :
    Safe (anyone cfg a inst) (fun _ v => Good cfg a v) (appendEventRecord a k v d now) w := by
  refine Safe.seq _ (h.safe_currentSegment env) (fun g u hu => ?_) fun _ _ he => he
  split_ifs
  · exact Below.safe_placeEvent env false hu
  · refine Safe.seq _ (Below.safe env hu (uses_batchWriteWithRetry (upTo_batch d now) _)) (fun results u hu => ?_)
      fun _ _ he => he.good
    exact hu.safe_finishBatch env results

theorem upTo_create {q : Req V P} (hq : CreateRequest a q) : UpTo env a 0 q := by
  refine ⟨.create hq, fun g hg => ?_⟩
  rcases hg with ⟨k, v, hput⟩ | hset
  · unfold Puts at hput
    cases hq with
    | follow hf => cases hf <;> simp at hput
    | _ => simp at hput
  · cases hq with
    | cacheSet =>
      cases hset
      exact le_rfl
    | follow hf => cases hf <;> cases hset
    | _ => cases hset

/-- Every call on a good session keeps it good. -/
theorem Good.safe_call (env : Env V P) {c : Call V} (hc : c.on a) (h : Good cfg a w) :
    Safe (anyone cfg a inst) (fun _ _ => True) (c.body env) w := by
  have hstable : Safe.Stable (anyone cfg a inst) (fun (_ : Except Err (Reply V)) _ => True) := fun _ _ _ _ _ => trivial
  cases c with
  | create app user state sessionId fresh now =>
    cases hc
    have huses : (createSession app user state sessionId fresh now : Service V P _).Uses (UpTo env _ 0) :=
      (uses_createSession app user state sessionId fresh now).mono fun _ => upTo_create
    have hbelow : Below cfg _ 0 w := ⟨h, Nat.zero_le _⟩
    exact Safe.seq _ (hbelow.safe env huses) (fun _ _ _ => Safe.ret hstable trivial) fun _ _ _ => trivial
  | append b e clock =>
    cases hc
    refine Safe.seq (fun _ _ => True) ?_ (fun _ _ _ => Safe.ret hstable trivial) fun _ _ _ => trivial
    unfold persistEvent
    split_ifs
    · exact Safe.ret (fun _ _ _ _ _ => trivial) trivial
    · exact (h.safe_appendEventRecord env _ _).mono fun _ _ _ => trivial
  | get b config =>
    cases hc
    have hwatch : Watching cfg a ∅ w := ⟨h, fun _ _ hkv => hkv.elim⟩
    have hread : Safe (reader cfg a inst ∅) (fun _ _ => True) ((Call.get a config).body env) w :=
      (safe_get config hwatch).mono fun _ _ _ => trivial
    refine Safe.lift (anyone cfg a inst) id hread (Prog.uses_true _) (fun _ _ _ => ⟨rfl, rfl⟩) (fun _ _ hx => hx)
      (fun u u' hu => hu.mono ?_) fun _ _ _ _ _ hu => hu.mono (Set.empty_subset _)
    rintro k ⟨v, hkv⟩
    exact hkv.elim
  | _ => cases hc

end Programs

end AdkAerospike.Sessions
