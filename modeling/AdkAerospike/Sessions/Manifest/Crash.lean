import AdkAerospike.Program.Cut
import AdkAerospike.Sessions.Manifest.Consistent

/-! Calls that are cut off. `delete_session` and `list_sessions` may stop after any of
their requests: they remove a row before its entry, and an entry only when its row is
gone. `create_session` puts the row first and its entry last, so where it stops
matters: it must stop before the row or after the entry, unless an entry of an
earlier session is still there, in which case it must not add another. -/

namespace AdkAerospike.Sessions

open Program Data Codec Keys

variable {V P : Type}

section Cut
variable {cfg : ServerConfig V P} {owed : Addr → Prop} {inst : ℕ} {a : Addr} {w : World V P}

/-! ### Deleting and listing -/

/-- Reads, and writes to other records, keep rows and manifests in agreement all along. -/
theorem Consistent.always_aside {α : Type} (h : Consistent cfg owed w) {p : Service V P α}
    (hp : p.Uses fun q => ∀ key ∈ q.keys, Aside key) :
    Prog.Always (exec cfg inst .calm) (Consistent cfg owed) p w :=
  hp.always (fun _ _ hq hv => hv.exec_aside inst .calm hq) h

/-- So do removals of entries whose rows are gone. -/
theorem Consistent.always_drops {α : Type} (h : Consistent cfg owed w) {app user : Str} {stale : List Str}
    (happ : Plain app) (huser : Plain user)
    (hgone : ∀ id ∈ stale, Addr.Named ⟨app, user, id⟩ ∧ row ⟨app, user, id⟩ w = none)
    {p : Service V P α}
    (hp : p.Uses fun q => ∃ id ∈ stale, q = .operate (manifestPk app user) [.listRemoveByValue id] none) :
    Prog.Always (exec cfg inst .calm) (Consistent cfg owed) p w := by
  refine (hp.always (I := fun v => Consistent cfg owed v ∧
    ∀ id ∈ stale, Addr.Named ⟨app, user, id⟩ ∧ row ⟨app, user, id⟩ v = none) ?_ ⟨h, hgone⟩).mono
    fun _ => And.left
  rintro q v ⟨id, hid, rfl⟩ ⟨hv, hrows⟩
  refine ⟨hv.exec_dropEntry inst happ huser fun _ => (hrows id hid).2, fun id' hid' => ?_⟩
  obtain ⟨hnamed, hnone⟩ := hrows id' hid'
  exact ⟨hnamed, ((exec_manifest_frame cfg inst happ huser _ v).1 _ hnamed).trans hnone⟩

theorem Consistent.always_deleteFound (h : Consistent cfg owed w) (ha : a.Named) (cur : ℕ) :
    Prog.Always (exec cfg inst .calm) (Consistent cfg owed) (deleteFound a cur) w := by
  have hsegs : ∀ g, ∀ key ∈ (Req.remove (a.segmentPk g) : Req V P).keys, Aside key := fun g key hkey => by
    rw [List.mem_singleton.mp hkey]
    exact aside_segmentPk ha g
  have hrow : (catching .recordNotFound (remove a.sessionPk) (.ret ()) : Service V P Unit).Uses
      fun q => q = .remove a.sessionPk := uses_catching (uses_remove rfl) trivial
  refine (h.always_aside (uses_removeSegments hsegs _ _)).bind fun _ w₁ _ h₁ => ?_
  refine (hrow.always ?_ h₁).bind fun _ w₂ hrun₂ h₂ => ?_
  · rintro q v rfl hv
    exact hv.exec_removeRow inst ha
  have hnone : row a w₂ = none := by
    have hw₂ := (alone_removeQuietly a.sessionPk w₁).symm.trans hrun₂
    rw [Prod.mk.injEq] at hw₂
    rw [← hw₂.2]
    exact ServerConfig.remove_get.trans (if_pos rfl)
  have hpopped : Consistent cfg owed (w₂.setCache inst a.pkStr none) :=
    h₂.exec_aside (q := .cachePop a.pkStr) inst .calm (List.forall_mem_nil _)
  have hgone : ∀ id ∈ [a.id], Addr.Named ⟨a.app, a.user, id⟩ ∧
      row ⟨a.app, a.user, id⟩ (w₂.setCache inst a.pkStr none) = none := fun id hid => by
    rw [List.mem_singleton.mp hid]
    exact ⟨ha, hnone⟩
  exact ⟨h₂, hpopped.always_drops ha.app ha.user hgone (uses_manifestRemove ⟨a.id, by simp, rfl⟩)⟩

/-- `delete_session` may stop anywhere. -/
theorem Consistent.always_deleteSession (h : Consistent cfg owed w) (ha : a.Named) :
    Prog.Always (exec cfg inst .calm) (Consistent cfg owed) (deleteSession a) w := by
  have hread : (catching .recordNotFound ((get a.sessionPk).bind fun r => .ret (some r)) (.ret none) :
      Service V P _).Uses fun q => ∀ key ∈ q.keys, Aside key :=
    uses_catching (Prog.Uses.bind (uses_get (List.forall_mem_nil _)) fun _ => trivial) trivial
  refine (h.always_aside hread).bind fun found w' hrun _ => ?_
  rw [run_getOrNone rfl, Prod.mk.injEq] at hrun
  obtain ⟨-, rfl⟩ := hrun
  cases found with
  | none => exact h
  | some r => exact h.always_deleteFound ha _

/-- `list_sessions` may stop anywhere. -/
theorem Consistent.always_listSessionsForUser (h : Consistent cfg owed w) {app user : Str}
    (happ : Plain app) (huser : Plain user) :
    Prog.Always (exec cfg inst .calm) (Consistent cfg owed) (listSessionsForUser app user) w := by
  have hread : (catching .recordNotFound ((get (manifestPk app user)).bind fun r => .ret (some r)) (.ret none) :
      Service V P _).Uses fun q => ∀ key ∈ q.keys, Aside key :=
    uses_catching (Prog.Uses.bind (uses_get (List.forall_mem_nil _)) fun _ => trivial) trivial
  refine (h.always_aside hread).bind fun manifest w' hrun _ => ?_
  rw [run_getOrNone rfl, Prod.mk.injEq, Except.ok.injEq] at hrun
  obtain ⟨rfl, rfl⟩ := hrun
  change Prog.Always _ _ (if ids app user w = [] then _ else _ : Service V P _) w
  split_ifs with hnil
  · exact h
  · refine (h.always_aside (uses_batchReadBins (List.forall_mem_nil _))).bind fun rows w' hrun _ => ?_
    have hrows : (batchReadBins (rowKeys app user w)).run (exec cfg inst .calm) w =
        (.ok (shown (fun _ => .none) app user w), w) := by
      rw [batchReadBins, if_neg (by simpa [rowKeys] using hnil)]
      rfl
    have hrun : (batchReadBins (rowKeys app user w)).run (exec cfg inst .calm) w = _ := hrun
    rw [hrows, Prod.mk.injEq, Except.ok.injEq] at hrun
    obtain ⟨rfl, rfl⟩ := hrun
    refine Prog.Always.bind (h.always_drops happ huser (fun id hid => ?_)
      (uses_manifestRemoveStale _ fun id hid => ⟨id, hid, rfl⟩)) fun _ _ _ hlast => hlast
    obtain ⟨hmem, hstale⟩ := List.mem_filter.mp hid
    have hnamed := h.named app user id happ huser hmem
    refine ⟨hnamed, Option.eq_none_iff_forall_ne_some.mpr fun r hr => ?_⟩
    rw [listed_shown hmem] at hstale
    have htag := (h.live _ r hnamed hr).1
    simp [showing, hr, htag.app, htag.uid] at hstale

/-! ### Creating -/

/-- A program that writes nothing leaves the store alone wherever it is cut off. -/
theorem runFor_get_of_reads {α : Type} {p : Service V P α} (hp : p.Uses fun q => q.keys = []) (n : ℕ)
    (w : World V P) (key : Key) :
    (Prog.runFor (exec cfg inst .calm) n p w).2.store.get key = w.store.get key := by
  refine (hp.always (I := fun v : World V P => v.store.get key = w.store.get key) (fun q v hq hv => ?_) rfl).runFor n
  rw [exec_get_of_notMem cfg inst .calm (by rw [hq]; exact List.not_mem_nil), hv]

/-- One write of a list. -/
theorem runFor_write {α : Type} (x : Key × List (Op V P)) (xs : List (Key × List (Op V P)))
    (f : Unit → Service V P α) (n : ℕ) (w : World V P) :
    Prog.runFor (exec cfg inst .calm) (n + 1) ((writeAll (x :: xs)).bind f) w =
      match (cfg.operate x.1 x.2 none w.store).1 with
      | .ok _ => Prog.runFor (exec cfg inst .calm) n ((writeAll xs).bind f)
          (w.withStore (cfg.operate x.1 x.2 none w.store).2)
      | .error e => (.raise e, w.withStore (cfg.operate x.1 x.2 none w.store).2) := by
  change Prog.runFor _ n (((ofExcept (cfg.operate x.1 x.2 none w.store).1).bind fun _ =>
    writeAll xs).bind f) (w.withStore (cfg.operate x.1 x.2 none w.store).2) = _
  cases (cfg.operate x.1 x.2 none w.store).1 with
  | ok y => rfl
  | error e => cases n <;> rfl

/-- A list of writes that is cut off: the last of them is made exactly if it is
reached, that is, if none before it fails and the cut is not before it. -/
theorem runFor_writeAll {α : Type} {pre : List (Key × List (Op V P))} {m : Key × List (Op V P)}
    (hd : (pre.map Prod.fst).Nodup) (hm : m.1 ∉ pre.map Prod.fst) {f : Unit → Service V P α}
    (hf : (f ()).Uses fun q => q.keys = []) (n : ℕ) (w : World V P) :
    let w' := (Prog.runFor (exec cfg inst .calm) n ((writeAll (pre ++ [m])).bind f) w).2
    (∀ key, key ∉ pre.map Prod.fst → key ≠ m.1 → w'.store.get key = w.store.get key) ∧
    (pre.length < n ∧ (∀ x ∈ pre, (cfg.onRecord x.2 none (w.store.get x.1)).1.isOk) →
      w'.store.get m.1 = (cfg.onRecord m.2 none (w.store.get m.1)).2) ∧
    (¬ (pre.length < n ∧ ∀ x ∈ pre, (cfg.onRecord x.2 none (w.store.get x.1)).1.isOk) →
      w'.store.get m.1 = w.store.get m.1) := by
  intro w'
  induction pre generalizing n w with
  | nil =>
    cases n with
    | zero => exact ⟨fun _ _ _ => rfl, fun h => absurd h.1 (Nat.lt_irrefl 0), fun _ => rfl⟩
    | succ n =>
      have hw' : ∀ key, w'.store.get key = (cfg.operate m.1 m.2 none w.store).2.get key := fun key => by
        have hrun := @runFor_write V P cfg inst α m [] f n w
        change (Prog.runFor _ (n + 1) ((writeAll [m]).bind f) w).2.store.get key = _
        rw [hrun]
        cases (cfg.operate m.1 m.2 none w.store).1 with
        | ok y => exact runFor_get_of_reads hf n _ key
        | error e => rfl
      refine ⟨fun key _ hkey => ?_, fun _ => ?_, fun h => absurd ⟨Nat.succ_pos n, by simp⟩ h⟩
      · rw [hw', ServerConfig.operate_get_of_ne hkey]
      · rw [hw', ServerConfig.operate_get_self]
  | cons x pre ih =>
    rw [List.map_cons, List.nodup_cons] at hd
    rw [List.map_cons, List.mem_cons, not_or] at hm
    cases n with
    | zero => exact ⟨fun _ _ _ => rfl, fun h => absurd h.1 (Nat.not_lt_zero _), fun _ => rfl⟩
    | succ n =>
      have hrun := @runFor_write V P cfg inst α x (pre ++ [m]) f n w
      have hframe : ∀ key, key ≠ x.1 → (w.withStore (cfg.operate x.1 x.2 none w.store).2).store.get key =
          w.store.get key := fun key hkey => ServerConfig.operate_get_of_ne hkey
      have hpre : ∀ y ∈ pre, (w.withStore (cfg.operate x.1 x.2 none w.store).2).store.get y.1 =
          w.store.get y.1 := fun y hy => hframe _ fun heq => hd.1 (heq ▸ List.mem_map.mpr ⟨y, hy, rfl⟩)
      have hans : (cfg.operate x.1 x.2 none w.store).1 = (cfg.onRecord x.2 none (w.store.get x.1)).1 :=
        ServerConfig.operate_fst
      cases hx : (cfg.operate x.1 x.2 none w.store).1 with
      | ok y =>
        have hw' : w' = _ := congrArg Prod.snd (hrun.trans (by rw [hx]))
        obtain ⟨hother, hreach, hstop⟩ := ih hd.2 hm.2 n (w.withStore (cfg.operate x.1 x.2 none w.store).2)
        have hiff : ((x :: pre).length < n + 1 ∧
              ∀ z ∈ x :: pre, (cfg.onRecord z.2 none (w.store.get z.1)).1.isOk) ↔
            pre.length < n ∧ ∀ z ∈ pre, (cfg.onRecord z.2 none
              ((w.withStore (cfg.operate x.1 x.2 none w.store).2).store.get z.1)).1.isOk := by
          rw [List.length_cons, Nat.succ_lt_succ_iff, List.forall_mem_cons, ← hans, hx]
          refine and_congr_right fun _ => ⟨fun h z hz => ?_, fun h => ⟨rfl, fun z hz => ?_⟩⟩
          · rw [hpre z hz]
            exact h.2 z hz
          · rw [← hpre z hz]
            exact h z hz
        rw [hiff, hw']
        refine ⟨fun key hkey hne => ?_, fun h => ?_, fun h => ?_⟩
        · rw [List.map_cons, List.mem_cons, not_or] at hkey
          rw [hother key hkey.2 hne, hframe key hkey.1]
        · rw [hreach h, hframe _ hm.1]
        · rw [hstop h, hframe _ hm.1]
      | error e =>
        have hw' : w' = _ := congrArg Prod.snd (hrun.trans (by rw [hx]))
        rw [hw']
        refine ⟨fun key hkey _ => hframe key fun heq => hkey (by simp [heq]), fun h => ?_,
          fun _ => hframe _ hm.1⟩
        have hok := h.2 x (by simp)
        rw [← hans, hx] at hok
        cases hok

/-- `create_session` comes to its manifest entry before it is cut off, and none of
its writes after the row is refused. -/
def Enters (cfg : ServerConfig V P) (a : Addr) (d : Deltas V) (n : ℕ) (w : World V P) : Prop :=
  (followWrites a d : List (Key × List (Op V P))).length + 2 ≤ n ∧
    ∀ x ∈ followWrites a d, (cfg.onRecord x.2 none (w.store.get x.1)).1.isOk

theorem enters_congr {w' : World V P} {d : Deltas V} {n : ℕ}
    (h : ∀ x ∈ (followWrites a d : List (Key × List (Op V P))), w'.store.get x.1 = w.store.get x.1) :
    Enters cfg a d n w' ↔ Enters cfg a d n w := by
  unfold Enters
  refine and_congr_right fun _ => forall₂_congr fun x hx => ?_
  rw [h x hx]

theorem aside_sharedWrites {d : Deltas V} {key : Key}
    (h : key ∈ (sharedWrites a d : List (Key × List (Op V P))).map Prod.fst) : Aside key := by
  obtain ⟨x, hx, rfl⟩ := List.mem_map.mp h
  rcases sharedWrites_cases hx with rfl | rfl
  · exact aside_of_set nofun
  · exact aside_of_set nofun

/-- The writes after the row, cut off. -/
theorem Consistent.follow_cut {α : Type} (h : Consistent cfg (fun b => owed b ∨ b = a) w) (ha : a.Named)
    {d : Deltas V} {f : Unit → Service V P α} (hf : (f ()).Uses fun q => q.keys = []) {n : ℕ}
    (hentry : a.id ∈ ids a.app a.user w ↔ ¬ Enters cfg a d (n + 2) w) :
    Consistent cfg owed
      (Prog.runFor (exec cfg inst .calm) n ((writeAll (followWrites a d)).bind f) w).2 := by
  have hm : manifestPk a.app a.user ∉ (sharedWrites a d : List (Key × List (Op V P))).map Prod.fst :=
    fun hmem => (aside_sharedWrites hmem).2 a.app a.user ha.app ha.user rfl
  obtain ⟨hother, hreach, hstop⟩ := @runFor_writeAll V P cfg inst α (sharedWrites a d)
    (manifestPk a.app a.user, [.listAppend a.id]) (sharedWrites_nodup a d) hm f hf n w
  have hfit : cfg.Fitting (Prog.runFor (exec cfg inst .calm) n
      ((writeAll (sharedWrites a d ++ [(manifestPk a.app a.user, [.listAppend a.id])])).bind f) w).2.store :=
    ((Prog.uses_true _).always (I := fun v : World V P => cfg.Fitting v.store)
      (fun q v _ hv => fitting_exec inst .calm q v hv) h.fitting).runFor n
  rw [followWrites]
  generalize (Prog.runFor (exec cfg inst .calm) n
    ((writeAll (sharedWrites a d ++ [(manifestPk a.app a.user, [.listAppend a.id])])).bind f) w).2 = w'
    at hother hreach hstop hfit ⊢
  have hrow : ∀ b : Addr, b.Named → row b w' = row b w := fun b hb =>
    hother _ (fun hmem => (aside_sharedWrites hmem).1 b hb rfl) (sessionPk_ne_manifestPk hb ha.app ha.user)
  have hman : ∀ app user, Plain app → Plain user → ¬ (app = a.app ∧ user = a.user) →
      ids app user w' = ids app user w := fun app user happ huser hne => by
    refine ids_congr (hother _ (fun hmem => (aside_sharedWrites hmem).2 app user happ huser rfl) ?_)
    exact fun heq => hne ((manifestPk_inj happ huser ha.app ha.user).mp heq)
  -- the manifest is as before, or it has got the entry
  have hself : (¬ Enters cfg a d (n + 2) w ∧
        w'.store.get (manifestPk a.app a.user) = w.store.get (manifestPk a.app a.user)) ∨
      Enters cfg a d (n + 2) w ∧ ids a.app a.user w' = ids a.app a.user w ++ [a.id] := by
    by_cases hr : (sharedWrites a d : List (Key × List (Op V P))).length < n ∧
        ∀ x ∈ (sharedWrites a d : List (Key × List (Op V P))),
          (cfg.onRecord x.2 none (w.store.get x.1)).1.isOk
    · have hget := hreach hr
      rcases ids_listAppend hget with ⟨hbig, -⟩ | ⟨hok, hids⟩
      · refine .inl ⟨fun hin => ?_, ?_⟩
        · have hok := hin.2 (manifestPk a.app a.user, [.listAppend a.id])
            (List.mem_append_right _ (List.mem_singleton.mpr rfl))
          rw [hbig] at hok
          cases hok
        · rw [hget]
          rcases cfg.onRecord_snd [.listAppend a.id] none (w.store.get (manifestPk a.app a.user)) with
            hsame | ⟨-, -, hok⟩
          · exact hsame
          · rw [hbig] at hok
            cases hok
      · refine .inr ⟨⟨?_, fun x hx => ?_⟩, hids⟩
        · rw [followWrites, List.length_append, List.length_singleton]
          omega
        · rcases List.mem_append.mp hx with hx | hx
          · exact hr.2 x hx
          · rw [List.mem_singleton.mp hx, hok]
            rfl
    · refine .inl ⟨fun hin => hr ⟨?_, fun x hx => hin.2 x (List.mem_append_left _ hx)⟩, hstop hr⟩
      have hlen := hin.1
      rw [followWrites, List.length_append, List.length_singleton] at hlen
      omega
  rcases hself with ⟨hnot, hsame⟩ | ⟨hin, hids⟩
  · have hframe := h.frame hfit (fun b hb => .inl (hrow b hb)) fun app user happ huser => ?_
    · refine hframe.settle ?_
      rw [ids_congr hsame]
      exact hentry.mpr hnot
    · by_cases hown : app = a.app ∧ user = a.user
      · rw [hown.1, hown.2]
        exact hsame
      · refine hother _ (fun hmem => (aside_sharedWrites hmem).2 app user happ huser rfl) ?_
        exact fun heq => hown ((manifestPk_inj happ huser ha.app ha.user).mp heq)
  · refine (h.addEntry hfit ha (fun hmem => hentry.mp hmem hin) hrow hids hman).mono ?_
    exact fun b hb => hb.1.resolve_right hb.2

/-- The first request of `create_session`. -/
theorem runFor_put {α : Type} (a : Addr) (r : Record V P) (K : Unit → Service V P α) (n : ℕ) (w : World V P) :
    Prog.runFor (exec cfg inst .calm) (n + 1)
        ((writeRetryingOverload (put a.sessionPk r) false overloadMaxRetries).bind K) w =
      match (cfg.put a.sessionPk r w.store).1 with
      | .ok _ => Prog.runFor (exec cfg inst .calm) n (K ()) (w.withStore (cfg.put a.sessionPk r w.store).2)
      | .error e => (.raise e, w.withStore (cfg.put a.sessionPk r w.store).2) := by
  change Prog.runFor _ n (((ofExcept (cfg.put a.sessionPk r w.store).1).tryCatch _).bind K)
    (w.withStore (cfg.put a.sessionPk r w.store).2) = _
  rcases ServerConfig.put_cases cfg a.sessionPk r w.store with ⟨-, hput⟩ | ⟨-, -, hput⟩ | ⟨-, -, hput⟩ <;> rw [hput]
  · cases n <;> rfl
  · rfl
  · cases n <;> rfl

/-- `create_session` keeps rows and manifests in agreement exactly if it brings about
one entry: its own if it comes to it, else one that was left there. -/
theorem Consistent.create_cut (h : Consistent cfg owed w) (env : Env V P) {app user : Str} {state : Dict V}
    {sessionId : Option Str} {fresh : Str} {now : ℚ} {n : ℕ}
    (ha : Addr.Named ⟨app, user, chooseId sessionId fresh⟩)
    (hentry : let a : Addr := ⟨app, user, chooseId sessionId fresh⟩
      row a w = none → cfg.Fits (newRow a (partitionState state).session now : Record V P) → n ≠ 0 →
        (a.id ∈ ids app user w ↔ ¬ Enters cfg a (partitionState state) n w)) :
    Consistent cfg owed (Prog.runFor (exec cfg inst .calm) n
      ((Call.create app user state sessionId fresh now).body env) w).2 := by
  generalize hb : (⟨app, user, chooseId sessionId fresh⟩ : Addr) = a at *
  have happ : app = a.app := by rw [← hb]
  have huser : user = a.user := by rw [← hb]
  have hbody := body_create env app user state sessionId fresh now
  simp only [hb] at hbody
  rw [hbody]
  rw [happ, huser] at hentry
  generalize hd : partitionState state = d at *
  cases n with
  | zero => exact h
  | succ n =>
    rw [runFor_put]
    have hput := h.exec_put inst ha (tagged_newRow a d.session now : Tagged a (newRow a d.session now : Record V P))
    rcases hput with ⟨hok, hw₁⟩ | ⟨⟨e, herr⟩, hsame⟩
    · have hok : (cfg.put a.sessionPk (newRow a d.session now) w.store).1 = .ok () := hok
      have hw₁ : Consistent cfg _ (w.withStore (cfg.put a.sessionPk (newRow a d.session now) w.store).2) := hw₁
      rw [hok]
      -- the row was absent and fits, and the put has changed nothing but the row
      obtain ⟨hnone, hfits⟩ : row a w = none ∧ cfg.Fits (newRow a d.session now : Record V P) := by
        rcases ServerConfig.put_cases cfg a.sessionPk (newRow a d.session now) w.store with
          ⟨-, hput⟩ | ⟨hnone, hfits, -⟩ | ⟨-, -, hput⟩
        · rw [hput] at hok
          cases hok
        · exact ⟨hnone, hfits⟩
        · rw [hput] at hok
          cases hok
      have hframe : ∀ key, key ≠ a.sessionPk →
          (cfg.put a.sessionPk (newRow a d.session now) w.store).2.get key = w.store.get key :=
        fun key hkey => by rw [ServerConfig.put_get, if_neg fun hk => hkey hk.1]
      have hkeys : ∀ x ∈ (followWrites a d : List (Key × List (Op V P))),
          (cfg.put a.sessionPk (newRow a d.session now) w.store).2.get x.1 = w.store.get x.1 := fun x hx => by
        refine hframe _ fun heq => ?_
        rcases List.mem_append.mp hx with hx | hx
        · exact (aside_sharedWrites (List.mem_map.mpr ⟨x, hx, rfl⟩)).1 a ha heq.symm
        · rw [List.mem_singleton.mp hx] at heq
          exact sessionPk_ne_manifestPk ha ha.app ha.user heq.symm
      have hiff := hentry hnone hfits (Nat.succ_ne_zero n)
      have hids : ids a.app a.user (w.withStore (cfg.put a.sessionPk (newRow a d.session now) w.store).2) =
          ids a.app a.user w :=
        ids_congr (hframe _ (sessionPk_ne_manifestPk ha ha.app ha.user).symm)
      cases n with
      | zero =>
        refine hw₁.settle ?_
        rw [hids]
        refine hiff.mpr fun hin => ?_
        have hlen := hin.1
        omega
      | succ n =>
        refine Consistent.follow_cut (hw₁.exec_aside (q := .cacheSet a.pkStr 0) inst .calm (List.forall_mem_nil _)) ha ?_ ?_
        · exact Prog.Uses.bind (Prog.Uses.bind (Prog.Uses.bind (uses_batchRead rfl) fun _ => trivial)
            fun _ => trivial) fun _ => trivial
        · have hids' : ids a.app a.user (exec cfg inst .calm (.cacheSet a.pkStr 0)
              (w.withStore (cfg.put a.sessionPk (newRow a d.session now) w.store).2)).2 = _ := hids
          rw [hids', enters_congr (fun x hx => hkeys x hx)]
          exact hiff
    · have herr : (cfg.put a.sessionPk (newRow a d.session now) w.store).1 = .error e := herr
      have hsame : (cfg.put a.sessionPk (newRow a d.session now) w.store).2 = w.store := hsame
      rw [herr, hsame]
      exact h

end Cut

/-! ### Runs of calls that are cut off -/

/-- The world that a call leaves which is cut off after `n` requests, or is complete
before that. -/
def cut (env : Env V P) (cfg : ServerConfig V P) (l : Issued V × ℕ) (w : World V P) : World V P :=
  (Prog.runFor (exec cfg l.1.inst .calm) l.2 (l.1.call.body env) w).2

/-- The calls create, delete or list sessions with identifiers without separators. -/
def Handles (_ : World V P) (l : Issued V × ℕ) : Prop :=
  match l.1.call with
  | .create app user _ sessionId fresh _ => Addr.Named ⟨app, user, chooseId sessionId fresh⟩
  | .delete a => a.Named
  | .listForUser app user => Plain app ∧ Plain user
  | _ => False

/-- A creation that puts its row comes to its manifest entry exactly if the manifest
does not have the id already. -/
def EntersOnce (cfg : ServerConfig V P) (w : World V P) (l : Issued V × ℕ) : Prop :=
  match l.1.call with
  | .create app user state sessionId fresh now =>
    let a : Addr := ⟨app, user, chooseId sessionId fresh⟩
    row a w = none → cfg.Fits (newRow a (partitionState state).session now : Record V P) → l.2 ≠ 0 →
      (a.id ∈ ids app user w ↔ ¬ Enters cfg a (partitionState state) l.2 w)
  | _ => True

theorem Consistent.cut {cfg : ServerConfig V P} {owed : Addr → Prop} {w : World V P}
    (h : Consistent cfg owed w) (env : Env V P) {l : Issued V × ℕ} (hl : Handles w l)
    (hentry : EntersOnce cfg w l) : Consistent cfg owed (cut env cfg l w) := by
  obtain ⟨⟨inst, c⟩, n⟩ := l
  cases c with
  | create app user state sessionId fresh now => exact h.create_cut env hl hentry
  | delete a =>
    have hbody : Prog.Always (exec cfg inst .calm) (Consistent cfg owed) ((Call.delete a).body env) w :=
      (h.always_deleteSession hl).bind fun _ _ _ hlast => hlast
    exact hbody.runFor n
  | listForUser app user =>
    have hbody : Prog.Always (exec cfg inst .calm) (Consistent cfg owed)
        ((Call.listForUser app user).body env) w :=
      (h.always_listSessionsForUser hl.1 hl.2).bind fun _ _ _ hlast => hlast
    exact hbody.runFor n
  | append a e clock => cases hl
  | get a config => cases hl
  | listForApp app => cases hl

/-- After any run of calls of which each may be cut off, listing shows every session
whose row exists exactly once, if every creation that put its row has left one entry. -/
theorem listing_exact_after_cuts (env : Env V P) (cfg : ServerConfig V P) (w : World V P)
    (hrun : Ran (cut env cfg) (fun w l => Handles w l ∧ EntersOnce cfg w l) (fun _ _ u => u) .empty () w ())
    (inst : ℕ) (app user : Str) (happ : Plain app) (huser : Plain user) :
    ∃ l w', perform env cfg ⟨inst, .listForUser app user⟩ w = (.ok (.sessions l), w') ∧
      (l.map fun s => s.addr.id).Nodup ∧
      ∀ id, id ∈ l.map (fun s => s.addr.id) ↔
        Addr.Named ⟨app, user, id⟩ ∧ (row ⟨app, user, id⟩ w).isSome :=
  (hrun.invariant (I := fun w _ => Consistent cfg (fun _ => False) w) (consistent_empty cfg _)
    fun _ _ _ h hl => h.cut env hl.1 hl.2).list env inst happ huser

namespace Small

/-- A creation that is cut off after `n` requests. -/
def opened (n : ℕ) : Issued ℕ × ℕ := (⟨0, .create ['a'] ['u'] ∅ (some ['s']) [] 1⟩, n)

theorem enters_opened : Enters cfg addr (partitionState ∅) 3 .empty := by
  refine ⟨le_rfl, fun x hx => ?_⟩
  rw [List.mem_singleton.mp hx]
  rfl

end Small

open Sessions.Small in
theorem listing_exact_after_cuts_small :
    ∃ l w', perform env cfg ⟨0, .listForUser ['a'] ['u']⟩ (cut env cfg (opened 3) .empty) =
        (.ok (.sessions l), w') ∧ (l.map fun s => s.addr.id).Nodup ∧
      ['s'] ∈ l.map fun s => s.addr.id := by
  have hrun : Ran (cut env cfg) (fun w l => Handles w l ∧ EntersOnce cfg w l) (fun _ _ u => u) .empty ()
      (cut env cfg (opened 3) .empty) () := by
    refine .next (opened 3) .init ⟨named_addr, fun _ _ _ => ?_⟩
    exact iff_of_false (by decide +kernel) fun hnot => hnot enters_opened
  obtain ⟨l, w', hlist, hnodup, hiff⟩ :=
    listing_exact_after_cuts env cfg _ hrun 0 ['a'] ['u'] (by decide) (by decide)
  exact ⟨l, w', hlist, hnodup, (hiff ['s']).mpr ⟨named_addr, by decide +kernel⟩⟩

open Sessions.Small in
/-- A creation that is cut off right after its row leaves a session that is not listed. -/
theorem create_cut_off_unlisted :
    Ran (cut env cfg) Handles (fun _ _ u => u) .empty () (cut env cfg (opened 1) .empty) () ∧
    ∃ l w', perform env cfg ⟨0, .listForUser ['a'] ['u']⟩ (cut env cfg (opened 1) .empty) =
        (.ok (.sessions l), w') ∧
      ¬ ∀ id, id ∈ l.map (fun s => s.addr.id) ↔
        Addr.Named ⟨['a'], ['u'], id⟩ ∧ (row ⟨['a'], ['u'], id⟩ (cut env cfg (opened 1) .empty)).isSome := by
  refine ⟨.next (opened 1) .init named_addr, [], _, rfl, fun hiff => ?_⟩
  cases (hiff ['s']).mpr ⟨named_addr, by decide +kernel⟩

end AdkAerospike.Sessions
