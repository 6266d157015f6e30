import AdkAerospike.Program.Landing
import AdkAerospike.Sessions.Concurrent.ExactlyOnce

/-! State writes of concurrent appends. An append writes its delta to a record through
its batch, which it may repeat as a whole, with writes of others in between. Only the
last time that a delta reaches the record counts for what is stored, so the appends
take effect in the order of these, each once. -/

namespace AdkAerospike.Sessions

open Program Data Codec Keys

variable {V P : Type} {cfg : ServerConfig V P} {R : Key}

/-- The state map of a record. -/
def stateAt (R : Key) (w : World V P) : Dict V := stateOf (w.store.get R)

/-- What a call writes to the state map of a record. -/
def Call.deltaAt (R : Key) : Call V → Dict V
  | .append a e _ => (partitionState e.stateDelta).at a R
  | _ => ∅

def Op.putsItems : Op V P → Bool
  | .mapPutItems _ => true
  | _ => false

/-- One of the writes puts items into the state map of the record, and is carried out. -/
def ServerConfig.lands (cfg : ServerConfig V P) (R : Key) :
    (ℕ → Fault) → List (Key × List (Op V P)) → Store V P → Bool
  | _, [], _ => false
  | faults, (key, ops) :: rest, σ =>
    (decide (key = R) && ops.any Op.putsItems && (faults 0).applied && (cfg.operate key ops none σ).1.isOk) ||
      lands cfg R (fun i => faults (i + 1)) rest (under (faults 0) (cfg.operate key ops none) σ).2

/-- The request is a batch of which a state write reaches the record. -/
def lands (cfg : ServerConfig V P) (R : Key) (x : Weather) (q : Req V P) (w : World V P) : Bool :=
  match q with
  | .batchWrite writes => x.whole.applied && cfg.lands R x.record writes w.store
  | _ => false

/-! ### One write -/

section Writes
variable {σ : Store V P}

theorem state_apply {ops : List (Op V P)} (hops : ops.any Op.putsItems = false) (r : Record V P) :
    (Op.apply ops r).1.state = r.state := by
  suffices ∀ x : Record V P × OpResult V P,
      (ops.foldl (fun x op => (op.write x.1, op.read x.1 x.2)) x).1.state = x.1.state from this (r, {})
  induction ops with
  | nil => exact fun x => rfl
  | cons op ops ih =>
    intro x
    rw [List.any_cons, Bool.or_eq_false_iff] at hops
    rw [List.foldl_cons, ih hops.2]
    cases op with
    | mapPutItems d => cases hops.1
    | _ => rfl

/-- Operations that put no items leave the state map alone. -/
theorem state_operate {key : Key} {ops : List (Op V P)} (hops : ops.any Op.putsItems = false) (guard : Option ℕ) :
    stateOf ((cfg.operate key ops guard σ).2.get R) = stateOf (σ.get R) := by
  by_cases hk : R = key
  · subst hk
    rw [ServerConfig.operate_get_self]
    rcases cfg.onRecord_snd ops guard (σ.get R) with h | ⟨-, h, -⟩
    · rw [h]
    · rw [h]
      have hstate := state_apply hops ((σ.get R).getD {})
      cases hr : σ.get R with
      | none =>
        rw [hr] at hstate
        simp only [stateOf, Option.bind_some, Option.bind_none, hstate]
        rfl
      | some r =>
        rw [hr] at hstate
        simp only [stateOf, Option.bind_some, hstate]
        rfl
  · rw [ServerConfig.operate_get_of_ne hk]

/-- Items that are put, unless the record would be too big. -/
theorem state_operate_items {ops : List (Op V P)} {d : Dict V}
    (hops : ∀ r : Record V P, (Op.apply ops r).1.state = some (FMap.update (r.state.getD ∅) d))
    (hcreates : ops.any Op.creates = true) :
    (cfg.operate R ops none σ).1.isOk = true ∧
        stateOf ((cfg.operate R ops none σ).2.get R) = FMap.update (stateOf (σ.get R)) d ∨
      (cfg.operate R ops none σ).1.isOk = false ∧
        stateOf ((cfg.operate R ops none σ).2.get R) = stateOf (σ.get R) := by
  have hwrites : ops.any Op.writes = true := by
    rw [List.any_eq_true] at hcreates ⊢
    obtain ⟨op, hop, hc⟩ := hcreates
    refine ⟨op, hop, ?_⟩
    cases op <;> first | rfl | exact hc
  rw [ServerConfig.operate_fst, ServerConfig.operate_get_self]
  cases hr : σ.get R with
  | none =>
    simp only [ServerConfig.onRecord, ServerConfig.commitRecord, hcreates, if_true, Option.isSome_none, Bool.false_and,
      Bool.false_eq_true, if_false]
    split_ifs
    · refine .inl ⟨rfl, ?_⟩
      simp only [stateOf, Option.bind_some, hops]
      rfl
    · exact .inr ⟨rfl, rfl⟩
  | some r =>
    simp only [ServerConfig.onRecord, ServerConfig.commitRecord, Option.all_none, if_true, hwrites]
    split_ifs
    · refine .inl ⟨rfl, ?_⟩
      simp only [stateOf, Option.bind_some, hops]
      rfl
    · exact .inr ⟨rfl, rfl⟩

/-- The operations put these items. -/
structure PutsItems (d : Dict V) (ops : List (Op V P)) : Prop where
  items : ops.any Op.putsItems = true
  creates : ops.any Op.creates = true
  state : ∀ r : Record V P, (Op.apply ops r).1.state = some (FMap.update (r.state.getD ∅) d)

theorem under_snd_eq {ρ : Type} (f : Fault) (act : Store V P → Except Err ρ × Store V P) (σ : Store V P) :
    (under f act σ).2 = if f.applied then (act σ).2 else σ := by
  cases f <;> rfl

/-! ### One batch -/

theorem lands_of_notMem {writes : List (Key × List (Op V P))} (h : R ∉ writes.map Prod.fst) (faults : ℕ → Fault) :
    cfg.lands R faults writes σ = false := by
  induction writes generalizing faults σ with
  | nil => rfl
  | cons x rest ih =>
    rw [List.map_cons, List.mem_cons, not_or] at h
    rw [ServerConfig.lands, ih h.2, decide_eq_false (Ne.symm h.1)]
    rfl

/-- A batch whose records are different changes the state map of a record if a state
write reaches it, and only then. -/
theorem state_batchWrite (items : Key → Dict V) {writes : List (Key × List (Op V P))}
    (hkeys : (writes.map Prod.fst).Nodup)
    (hwrites : ∀ x ∈ writes, x.2.any Op.putsItems = false ∨ PutsItems (items x.1) x.2) (faults : ℕ → Fault) :
    stateOf ((cfg.batchWrite faults writes σ).2.get R) =
      if cfg.lands R faults writes σ then FMap.update (stateOf (σ.get R)) (items R) else stateOf (σ.get R) := by
  induction writes generalizing faults σ with
  | nil => rfl
  | cons x rest ih =>
    obtain ⟨key, ops⟩ := x
    rw [List.map_cons, List.nodup_cons] at hkeys
    set first := under (faults 0) (cfg.operate key ops none) σ with hfirst
    have hbatch : (cfg.batchWrite faults ((key, ops) :: rest) σ).2 =
        (cfg.batchWrite (fun i => faults (i + 1)) rest first.2).2 := rfl
    rw [ServerConfig.lands, hbatch]
    by_cases hk : key = R
    · subst hk
      rw [ServerConfig.batchWrite_get_of_notMem _ hkeys.1, lands_of_notMem hkeys.1, Bool.or_false, decide_eq_true rfl,
        Bool.true_and, hfirst, under_snd_eq]
      rcases hwrites _ (List.mem_cons_self ..) with hnone | hputs
      · rw [hnone, Bool.false_and, Bool.false_and, if_neg Bool.false_ne_true]
        split_ifs
        · exact state_operate hnone none
        · rfl
      · rw [hputs.items, Bool.true_and]
        cases happlied : (faults 0).applied with
        | false => rfl
        | true =>
          rw [if_pos rfl, Bool.true_and]
          rcases state_operate_items hputs.state hputs.creates with ⟨hok, hstate⟩ | ⟨hok, hstate⟩
          · rw [hok, if_pos rfl]
            exact hstate
          · rw [hok, if_neg Bool.false_ne_true]
            exact hstate
    · have hsame : first.2.get R = σ.get R := by
        rw [hfirst, under_snd_eq]
        split_ifs
        · exact ServerConfig.operate_get_of_ne (Ne.symm hk)
        · rfl
      rw [decide_eq_false hk, Bool.false_and, Bool.false_and, Bool.false_and, Bool.false_or, ← hsame]
      exact ih hkeys.2 (fun x hx => hwrites x (List.mem_cons_of_mem _ hx)) _

end Writes

/-! ### One call -/

/-- The requests of an append with its own deltas. -/
def OwnRequest (a : Addr) (k : Str) (v : InlineEvent V P) (d : Deltas V) (now : ℚ) (q : Req V P) : Prop :=
  PlaceRequest a k v q ∨ ∃ g, q = .batchWrite ((a.segmentPk g, [.mapPut k v]) :: stateWrites a d now)

section Calls
variable {a : Addr} {k : Str} {v : InlineEvent V P} {d : Deltas V} {now : ℚ}

theorem PlaceRequest.own {q : Req V P} (h : PlaceRequest a k v q) : OwnRequest a k v d now q := .inl h

theorem uses_ownRequests : (appendEventRecord a k v d now).Uses (OwnRequest a k v d now) := by
  refine Prog.Uses.bind (uses_currentSegment (.inl .cacheGet) (.inl .selectCur) fun n => .inl (.cacheSet n)) fun cur => ?_
  split_ifs
  · exact (uses_placeEvent cur false).mono fun _ => PlaceRequest.own
  · exact Prog.Uses.bind (uses_batchWriteWithRetry (.inr ⟨cur, rfl⟩) _)
      fun results => (uses_finishBatch cur results).mono fun _ => PlaceRequest.own

/-- The items that a batch puts into a record are those of the delta for it. -/
theorem puts_stateWrites {x : Key × List (Op V P)} (hx : x ∈ stateWrites a d now) : PutsItems (d.at a x.1) x.2 := by
  unfold Deltas.at
  have happ : appPk a.app ≠ a.sessionPk := ne_of_set nofun
  have huser : userPk a.app a.user ≠ a.sessionPk := ne_of_set nofun
  have huser' : userPk a.app a.user ≠ appPk a.app := ne_of_set nofun
  rcases mem_stateWrites.mp hx with ⟨-, rfl⟩ | ⟨-, rfl⟩ | ⟨-, rfl⟩
  · rw [if_pos rfl]
    exact ⟨rfl, rfl, fun r => rfl⟩
  · rw [if_neg happ, if_pos rfl]
    exact ⟨rfl, rfl, fun r => rfl⟩
  · rw [if_neg huser, if_neg huser', if_pos rfl]
    exact ⟨rfl, rfl, fun r => rfl⟩

theorem nodup_batchKeys (g : ℕ) :
    (((a.segmentPk g, [.mapPut k v]) :: stateWrites a d now : List (Key × List (Op V P))).map Prod.fst).Nodup := by
  rw [List.map_cons, List.nodup_cons]
  exact ⟨segmentPk_notMem_stateWrites d now g, stateWrites_nodup a d now⟩

/-- Every request of an append changes the state map of a record by the append's delta if
it lands, and not at all if it does not. -/
theorem stateAt_exec {q : Req V P} (hq : OwnRequest a k v d now q) (inst : ℕ) (x : Weather) (w : World V P) :
    stateAt R (exec cfg inst x q w).2 =
      if lands cfg R x q w then FMap.update (stateAt R w) (d.at a R) else stateAt R w := by
  have hoperate : ∀ {key : Key} {ops : List (Op V P)} (guard : Option ℕ), ops.any Op.putsItems = false →
      stateAt R (exec cfg inst x (.operate key ops guard) w).2 = stateAt R w := fun {key ops} guard hops => by
    show stateOf ((under x.whole (cfg.operate key ops guard) w.store).2.get R) = stateAt R w
    rw [under_snd_eq]
    split_ifs
    · exact state_operate hops guard
    · rfl
  rcases hq with hq | ⟨g, rfl⟩
  · cases hq with
    | put g => exact hoperate none rfl
    | size g => exact hoperate none rfl
    | bump n => exact hoperate (some n) rfl
    | selectCur =>
      show stateOf ((exec cfg inst x (.selectCur a.sessionPk) w).2.store.get R) = stateOf (w.store.get R)
      rw [show (exec cfg inst x (.selectCur a.sessionPk) w).2 = w from reading_snd _ _ _]
    | cacheGet => rfl
    | cacheSet n => rfl
  · set writes : List (Key × List (Op V P)) := (a.segmentPk g, [.mapPut k v]) :: stateWrites a d now with hwrites
    have hbatch : stateOf ((cfg.batchWrite x.record writes w.store).2.get R) =
        if cfg.lands R x.record writes w.store then FMap.update (stateOf (w.store.get R)) (d.at a R)
        else stateOf (w.store.get R) := by
      refine state_batchWrite (d.at a) (nodup_batchKeys g) (fun y hy => ?_) x.record
      rcases List.mem_cons.mp hy with rfl | hy
      · exact .inl rfl
      · exact .inr (puts_stateWrites hy)
    show stateOf ((under x.whole (fun σ => ((.ok (cfg.batchWrite x.record writes σ).1 : Except Err (List ℤ)),
      (cfg.batchWrite x.record writes σ).2)) w.store).2.get R) =
      if x.whole.applied && cfg.lands R x.record writes w.store then FMap.update (stateAt R w) (d.at a R) else stateAt R w
    rw [under_snd_eq]
    cases x.whole.applied with
    | false => rfl
    | true =>
      rw [Bool.true_and]
      exact hbatch

end Calls

/-! ### Runs -/

/-- All calls are appends, and issue requests with their own deltas. -/
def AppendsOnly (env : Env V P) (s : Calls V P) : Prop :=
  ∀ (i : ℕ) p, s.procs[i]? = some p → ∃ a e clock, p.call.call = .append a e clock ∧
    p.prog.Uses (OwnRequest a (eventKey env e clock) (eventToInlineDict env.model e) (partitionState e.stateDelta)
      (eventTime e clock))

/-- What call `i` of a pool writes to the state map of a record. -/
def deltaOf (s : Calls V P) (R : Key) (i : ℕ) : Dict V := ((s.calls[i]?).map fun l => l.call.deltaAt R).getD ∅

section Runs
variable {env : Env V P} {s : Calls V P}

theorem uses_append (a : Addr) (e : Event V) (clock : ℚ) : ((Call.append a e clock).body env).Uses
    (OwnRequest a (eventKey env e clock) (eventToInlineDict env.model e) (partitionState e.stateDelta)
      (eventTime e clock)) := by
  refine Prog.Uses.bind ?_ fun _ => trivial
  unfold persistEvent
  split_ifs
  · trivial
  · exact uses_ownRequests

theorem AppendsOnly.act (h : AppendsOnly env s) {x : Action (Issued V) Weather}
    (hx : ∀ l, x = .spawn l → ∃ a e clock, l.call = .append a e clock) : AppendsOnly env ((service env cfg).act x s) := by
  intro i p hi
  rcases System.act_cases (Y := service env cfg) x s with ⟨l, rfl, hact⟩ | ⟨j, c, -, -, hact⟩ |
    ⟨j, c, l, q, k, -, hj, -, hact⟩ <;> rw [hact] at hi
  · rcases System.getElem?_concat hi with ⟨hi, -⟩ | ⟨rfl, -⟩
    · exact h i p hi
    · obtain ⟨a, e, clock, hl⟩ := hx l rfl
      refine ⟨a, e, clock, hl, ?_⟩
      show (l.call.body env).Uses _
      rw [hl]
      exact uses_append a e clock
  · exact h i p hi
  · rcases System.getElem?_set_cases hi with ⟨rfl, rfl⟩ | ⟨-, hi⟩
    · obtain ⟨a, e, clock, hl, huses⟩ := h i _ hj
      exact ⟨a, e, clock, hl, huses.2 _⟩
    · exact h i p hi

/-- A call keeps its number and its delta. -/
theorem deltaOf_run {p : Proc (Req V P) Ans Err (Reply V) (Issued V)} {i : ℕ} (hi : s.procs[i]? = some p)
    (xs : List (Action (Issued V) Weather)) :
    deltaOf ((service env cfg).run xs s) R i = p.call.call.deltaAt R := by
  have hcall : s.calls[i]? = some p.call := by
    rw [Pool.calls, List.getElem?_map, hi]
    rfl
  obtain ⟨rest, hrest⟩ := System.calls_prefix_run (Y := service env cfg) xs s
  have hlt := (List.getElem?_eq_some_iff.mp hcall).1
  rw [deltaOf, ← hrest, List.getElem?_append_left hlt, hcall]
  rfl

/-- One action: the state map is updated by the delta of the call that lands. -/
theorem AppendsOnly.stateAt_act (h : AppendsOnly env s) (x : Action (Issued V) Weather)
    (xs : List (Action (Issued V) Weather)) :
    stateAt R ((service env cfg).act x s).world = (System.landing (lands cfg R) s x).foldl
      (fun S i => FMap.update S (deltaOf ((service env cfg).run xs s) R i)) (stateAt R s.world) := by
  rcases System.act_cases (Y := service env cfg) x s with ⟨l, rfl, hact⟩ | ⟨j, c, rfl, hnext, hact⟩ |
    ⟨j, c, l, q, k, rfl, hj, hnext, hact⟩ <;> rw [hact]
  · rfl
  · simp [System.landing, hnext]
  · obtain ⟨a, e, clock, hl, huses⟩ := h j _ hj
    have hdelta : deltaOf ((service env cfg).run xs s) R j = (partitionState e.stateDelta).at a R := by
      rw [deltaOf_run hj xs]
      show l.call.deltaAt R = _
      rw [show l.call = _ from hl]
      rfl
    have hexec := @stateAt_exec V P cfg R a _ _ _ _ q huses.1 l.inst c s.world
    show stateAt R (exec cfg l.inst c q s.world).2 = _
    rw [hexec]
    simp only [System.landing, hnext]
    split_ifs
    · rw [List.foldl_cons, List.foldl_nil, hdelta]
    · rfl

/-- What is stored in the end are the updates of all landings, in their order. -/
theorem AppendsOnly.stateAt_run (h : AppendsOnly env s) {xs : List (Action (Issued V) Weather)}
    (hxs : ∀ l, .spawn l ∈ xs → ∃ a e clock, l.call = .append a e clock) :
    stateAt R ((service env cfg).run xs s).world = ((service env cfg).landings (lands cfg R) xs s).foldl
      (fun S i => FMap.update S (deltaOf ((service env cfg).run xs s) R i)) (stateAt R s.world) := by
  induction xs generalizing s with
  | nil => rfl
  | cons x xs ih =>
    have hnext : AppendsOnly env ((service env cfg).act x s) := h.act fun l hl => hxs l (by simp [hl])
    rw [System.landings, List.foldl_append, ← h.stateAt_act x (x :: xs)]
    exact ih hnext fun l hl => hxs l (List.mem_cons_of_mem _ hl)

/-- In every run of appends, whatever their requests meet, the state map of a record is
the first one with the delta of every append that has landed applied once, in an order
that keeps that of appends that do not overlap. -/
theorem state_writes_serializable (env : Env V P) (cfg : ServerConfig V P) (R : Key) (w₀ : World V P)
    (xs : List (Action (Issued V) Weather)) (hxs : ∀ l, .spawn l ∈ xs → ∃ a e clock, l.call = .append a e clock) :
    ∃ order : List ℕ, order.Nodup ∧
      (∀ i, i ∈ order ↔ i ∈ (service env cfg).landings (lands cfg R) xs ⟨w₀, []⟩) ∧
      (∀ k, (stateAt R ((service env cfg).run xs ⟨w₀, []⟩).world).get k =
        (order.foldl (fun S i => FMap.update S (deltaOf ((service env cfg).run xs ⟨w₀, []⟩) R i)) (stateAt R w₀)).get k) ∧
      ∀ i ∈ order, ∀ j ∈ order, (service env cfg).Precedes xs ⟨w₀, []⟩ i j → [i, j].Sublist order := by
  refine ⟨((service env cfg).landings (lands cfg R) xs ⟨w₀, []⟩).dedup, List.nodup_dedup _, fun i => List.mem_dedup,
    fun k => ?_, fun i hi j hj hij => hij.sublist (List.mem_dedup.mp hi) (List.mem_dedup.mp hj)⟩
  have hstart : AppendsOnly env (⟨w₀, []⟩ : Calls V P) := fun i p hi => nomatch hi
  rw [hstart.stateAt_run hxs, FMap.get_foldl_update_dedup]

end Runs

namespace Small

/-- An append that sets one key of the app's state. -/
def setting (id : Str) (n : ℕ) : Issued ℕ :=
  ⟨0, .append addr { event id 5 with stateDelta := (∅ : Dict ℕ).insert "app:k".toList n } 0⟩

/-- The batch of the first append is applied but times out. Before it is repeated, the
second append runs to its end. -/
def overwritten : List (Action (Issued ℕ) Weather) :=
  [.spawn (setting ['x'] 1), .spawn (setting ['y'] 2), .step 0 .calm, .step 0 ⟨.timeout true, fun _ => .none⟩,
    .step 1 .calm, .step 1 .calm, .step 1 .calm, .step 0 .calm, .step 0 .calm]

end Small

open Sessions.Small in
theorem state_writes_serializable_small :
    (service env Small.cfg).landings (lands Small.cfg (appPk ['a'])) overwritten ⟨created, []⟩ = [0, 1, 0] ∧
    (stateAt (appPk ['a']) ((service env Small.cfg).run overwritten ⟨created, []⟩).world).get ['k'] = some 1 ∧
    ∃ order : List ℕ, order.Nodup ∧ (∀ i, i ∈ order ↔ i ∈ [0, 1, 0]) ∧
      ∀ k, (stateAt (appPk ['a']) ((service env Small.cfg).run overwritten ⟨created, []⟩).world).get k =
        (order.foldl (fun S i => FMap.update S (deltaOf ((service env Small.cfg).run overwritten ⟨created, []⟩)
          (appPk ['a']) i)) (stateAt (appPk ['a']) created)).get k := by
  have hlandings : (service env Small.cfg).landings (lands Small.cfg (appPk ['a'])) overwritten ⟨created, []⟩ = [0, 1, 0] := by
    decide +kernel
  obtain ⟨order, hnodup, hmem, hstate, -⟩ :=
    state_writes_serializable env Small.cfg (appPk ['a']) created overwritten fun l hl => by
      simp only [overwritten, List.mem_cons, Action.spawn.injEq, reduceCtorEq, List.not_mem_nil, or_false] at hl
      rcases hl with rfl | rfl
      · exact ⟨_, _, _, rfl⟩
      · exact ⟨_, _, _, rfl⟩
  refine ⟨hlandings, by decide +kernel, order, hnodup, fun i => ?_, hstate⟩
  rw [hmem, hlandings]

end AdkAerospike.Sessions
