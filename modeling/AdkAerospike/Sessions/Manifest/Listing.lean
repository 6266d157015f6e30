import AdkAerospike.Sessions.Manifest.Basic

/-! `list_sessions` for a user, run while its requests succeed as a whole but any of
the records of its batch may meet a fault. It returns what it has been shown of the
rows, and takes every id that it has not been shown a row for off the manifest. -/

namespace AdkAerospike.Sessions

open Program Data Codec Keys

variable {V P : Type}

/-- The ids that do not satisfy `keep` are taken off the manifest, and nothing else
is changed. -/
structure Prunes (cfg : ServerConfig V P) (app user : Str) (keep : Str → Bool) (w w' : World V P) :
    Prop where
  ids : ids app user w' = (ids app user w).filter keep
  frame : ∀ key, key ≠ manifestPk app user → w'.store.get key = w.store.get key
  cache : w'.cache = w.cache
  fitting : cfg.Fitting w'.store

section Prune
variable {cfg : ServerConfig V P} {inst : ℕ} {app user : Str} {w : World V P}

theorem alone_manifestRemove_prunes (h : cfg.Fitting w.store) (id : Str) :
    ∃ w', alone cfg inst (manifestRemove app user id) w = (.ok (), w') ∧
      Prunes cfg app user (· ≠ id) w w' := by
  obtain ⟨hw', hans⟩ := @alone_manifestRemove V P cfg inst app user id w
  have hok : (alone cfg inst (manifestRemove app user id) w).1 = .ok () :=
    hans.resolve_right fun ⟨r, hr, hbig⟩ => hbig ((cfg.shrink r id).trans (h _ r hr))
  refine ⟨_, Prod.ext hok hw', ⟨?_, fun key hkey => ?_, rfl, fitting_operate h _ _ _⟩⟩
  · exact ids_listRemove h ServerConfig.operate_get_self
  · exact ServerConfig.operate_get_of_ne hkey

theorem alone_manifestRemoveStale (h : cfg.Fitting w.store) (stale : List Str) :
    ∃ w', alone cfg inst (manifestRemoveStale app user stale) w = (.ok (), w') ∧
      Prunes cfg app user (· ∉ stale) w w' := by
  induction stale generalizing w with
  | nil => exact ⟨w, rfl, ⟨by simp, fun _ _ => rfl, rfl, h⟩⟩
  | cons id stale ih =>
    obtain ⟨w₁, hrun₁, h₁⟩ := @alone_manifestRemove_prunes V P cfg inst app user w h id
    obtain ⟨w₂, hrun₂, h₂⟩ := ih h₁.fitting
    refine ⟨w₂, (alone_bind_ok hrun₁).trans hrun₂, ⟨?_, fun key hkey => ?_, ?_, h₂.fitting⟩⟩
    · rw [h₂.ids, h₁.ids, List.filter_filter]
      refine List.filter_congr fun id' _ => ?_
      rw [← Bool.decide_and, decide_eq_decide, List.mem_cons, not_or, and_comm]
    · rw [h₂.frame key hkey, h₁.frame key hkey]
    · rw [h₂.cache, h₁.cache]

end Prune

/-! ### What listing is shown -/

section Listing
variable {cfg : ServerConfig V P} {inst : ℕ} {app user : Str} {w : World V P} {faults : ℕ → Fault}

/-- The row keys that listing asks for. -/
def rowKeys (app user : Str) (w : World V P) : List Key :=
  (ids app user w).map fun id => Addr.sessionPk ⟨app, user, id⟩

/-- What the batch of rows makes known, under a fault of each record. -/
def shown (faults : ℕ → Fault) (app user : Str) (w : World V P) : FMap Key (Option (Record V P)) :=
  byKey (rowKeys app user w) ((ServerConfig.batchRead faults (rowKeys app user w) w.store).map
    fun s => (s.1, s.2.map ServerConfig.listingBins))

theorem run_listSessionsForUser (h : cfg.Fitting w.store) (inst : ℕ) (faults : ℕ → Fault) (app user : Str) :
    ∃ w', (listSessionsForUser app user).run (exec cfg inst ⟨.none, faults⟩) w =
        (.ok ((ids app user w).filterMap (listed app user (shown faults app user w))), w') ∧
      Prunes cfg app user (fun id => (listed (V := V) app user (shown faults app user w) id).isSome) w w' := by
  unfold listSessionsForUser
  simp only [Prog.bind_eq, Prog.pure_eq]
  rw [Prog.run_bind_ok _ (run_getOrNone rfl (manifestPk app user) w)]
  change ∃ w', (if ids app user w = [] then .ret []
    else (batchReadBins (rowKeys app user w)).bind fun rows =>
      (manifestRemoveStale app user
        ((ids app user w).filter fun id => (listed (V := V) app user rows id).isNone)).bind fun _ =>
          .ret ((ids app user w).filterMap (listed app user rows)) : Service V P _).run _ w = _ ∧ _
  split_ifs with hnil
  · refine ⟨w, by simp [hnil], ⟨by simp [hnil], fun _ _ => rfl, rfl, h⟩⟩
  · have hrows : (batchReadBins (rowKeys app user w)).run (exec cfg inst ⟨.none, faults⟩) w =
        (.ok (shown faults app user w), w) := by
      rw [batchReadBins, if_neg (by simpa [rowKeys] using hnil)]
      rfl
    rw [Prog.run_bind_ok _ hrows]
    -- pruning meets no record of a batch, so it runs as in calm weather
    generalize hstale : ((ids app user w).filter fun id =>
      (listed (V := V) app user (shown faults app user w) id).isNone) = stale
    have hcalm : (manifestRemoveStale app user stale : Service V P Unit).run
        (exec cfg inst ⟨.none, faults⟩) w = alone cfg inst (manifestRemoveStale app user stale) w :=
      (uses_manifestRemoveStale (F := fun q => ∃ id, q = .operate (manifestPk app user)
          [.listRemoveByValue id] none) stale fun id _ => ⟨id, rfl⟩).run_congr
        (by rintro q w ⟨id, rfl⟩; rfl) w
    obtain ⟨w', hrun, hp⟩ := @alone_manifestRemoveStale V P cfg inst app user w h stale
    refine ⟨w', ?_, ⟨?_, hp.frame, hp.cache, hp.fitting⟩⟩
    · rw [Prog.run_bind_ok _ (hcalm.trans hrun)]
      rfl
    · rw [hp.ids]
      refine List.filter_congr fun id hid => ?_
      rw [← hstale]
      cases hl : listed (V := V) app user (shown faults app user w) id <;> simp [hid, hl]

theorem isSome_listed (out : FMap Key (Option (Record V P))) (id : Str) :
    (listed (V := V) app user out id).isSome ↔
      ∃ r, bins out (Addr.sessionPk ⟨app, user, id⟩) = some r ∧ r.app = some app ∧ r.uid = some user := by
  unfold listed
  cases bins out (Addr.sessionPk ⟨app, user, id⟩) with
  | none => simp
  | some r =>
    dsimp only
    split_ifs with htags
    · exact iff_of_true rfl ⟨r, rfl, htags⟩
    · exact iff_of_false (by simp) fun ⟨r', hr', htags'⟩ => htags (Option.some.inj hr' ▸ htags')

/-- Every status but success is folded to "no row". -/
theorem foldStatus_listing (f : Fault) (r : Option (Record V P)) :
    foldStatus ((ServerConfig.readStatus f r).1,
        (ServerConfig.readStatus f r).2.map ServerConfig.listingBins) =
      match f.error with
      | none => r.map ServerConfig.listingBins
      | some _ => none := by
  unfold ServerConfig.readStatus foldStatus
  cases r with
  | none => cases f.error <;> simp [Err.code]
  | some r => cases f.error <;> simp

/-- An id's last place in the manifest decides what is shown of its row. -/
theorem bins_shown {i : ℕ} {id : Str} (hi : (ids app user w)[i]? = some id)
    (hlast : ∀ j, i < j → (ids app user w)[j]? ≠ some id) :
    bins (shown faults app user w) (Addr.sessionPk ⟨app, user, id⟩) =
      match (faults i).error with
      | none => (row ⟨app, user, id⟩ w).map ServerConfig.listingBins
      | some _ => none := by
  have hinj : ∀ id', Addr.sessionPk ⟨app, user, id'⟩ = Addr.sessionPk ⟨app, user, id⟩ → id' = id :=
    fun id' h => sessionKey_right_inj.mp (congrArg Key.key h)
  have hkey : (rowKeys app user w)[i]? = some (Addr.sessionPk ⟨app, user, id⟩) := by
    simp [rowKeys, hi]
  rw [shown, bins_byKey_last (by simp [ServerConfig.batchRead]) hkey
    (by simp only [ServerConfig.batchRead, List.getElem?_map, List.getElem?_mapIdx, hkey]; rfl) ?_]
  · exact foldStatus_listing _ _
  · intro j hj hjk
    rw [rowKeys, List.getElem?_map, Option.map_eq_some_iff] at hjk
    obtain ⟨id', hid', heq⟩ := hjk
    exact hlast j hj (hinj id' heq ▸ hid')

end Listing

/-! ### Faults while listing -/

theorem exists_last_getElem? {α : Type} {l : List α} {x : α} (h : x ∈ l) :
    ∃ i : ℕ, l[i]? = some x ∧ ∀ j, i < j → l[j]? ≠ some x := by
  induction l with
  | nil => cases h
  | cons y l ih =>
    by_cases hx : x ∈ l
    · obtain ⟨i, hi, hlast⟩ := ih hx
      refine ⟨i + 1, hi, fun j hj => ?_⟩
      obtain ⟨j, rfl⟩ : ∃ j', j = j' + 1 := ⟨j - 1, by omega⟩
      exact hlast j (by omega)
    · refine ⟨0, by rw [(List.mem_cons.mp h).resolve_right hx]; rfl, fun j hj hjx => ?_⟩
      obtain ⟨j, rfl⟩ : ∃ j', j = j' + 1 := ⟨j - 1, by omega⟩
      exact hx (List.mem_of_getElem? hjx)

/-- The calls started create, append to or delete sessions with identifiers without
separators; they are answered in any order and in any weather. -/
def Maintains (_ : Pool (Req V P) Ans Err (Reply V) (World V P) (Issued V)) :
    Action (Issued V) Weather → Prop
  | .spawn ⟨_, .create app user _ sessionId fresh _⟩ => Addr.Named ⟨app, user, chooseId sessionId fresh⟩
  | .spawn ⟨_, .append a _ _⟩ => a.Named
  | .spawn ⟨_, .delete a⟩ => a.Named
  | .spawn _ => False
  | .step _ _ => True

/-- Listing leaves in the manifest every id whose row exists, exactly if each such
row carries the bins of the app and user and the batch reports it without a fault. -/
theorem listing_keeps_live_iff (env : Env V P) (cfg : ServerConfig V P)
    (s : Pool (Req V P) Ans Err (Reply V) (World V P) (Issued V))
    (hs : (service env cfg).Reach Maintains ⟨.empty, []⟩ s) (inst : ℕ) (faults : ℕ → Fault)
    (app user : Str) :
    (∀ id ∈ ids app user s.world, (row ⟨app, user, id⟩ s.world).isSome →
      id ∈ ids app user
        ((listSessionsForUser app user).run (exec cfg inst ⟨.none, faults⟩) s.world).2) ↔
    ∀ i id r, (ids app user s.world)[i]? = some id →
      (∀ j, i < j → (ids app user s.world)[j]? ≠ some id) → row ⟨app, user, id⟩ s.world = some r →
      (faults i).error = none ∧ r.app = some app ∧ r.uid = some user := by
  have hfit : cfg.Fitting s.world.store :=
    (hs.uses (F := fun _ _ => True) (I := fun w => cfg.Fitting w.store) (fun _ _ _ => Prog.uses_true _)
      (fun s _ c l q _ _ _ h => fitting_exec l.inst c q s.world h) (fun _ _ h => nomatch h) rfl).1
  obtain ⟨w', hrun, hp⟩ := run_listSessionsForUser hfit inst faults app user
  rw [hrun, hp.ids]
  simp only [List.mem_filter]
  constructor
  · intro h i id r hi hlast hr
    obtain ⟨-, hkept⟩ := h id (List.mem_of_getElem? hi) (by rw [hr]; rfl)
    obtain ⟨r', hr', htags⟩ := (isSome_listed _ id).mp hkept
    rw [bins_shown hi hlast, hr] at hr'
    cases hf : (faults i).error with
    | some e => rw [hf] at hr'; cases hr'
    | none =>
      rw [hf] at hr'
      obtain rfl : ServerConfig.listingBins r = r' := Option.some.inj hr'
      exact ⟨rfl, htags⟩
  · intro h id hid hlive
    obtain ⟨r, hr⟩ := Option.isSome_iff_exists.mp hlive
    obtain ⟨i, hi, hlast⟩ := exists_last_getElem? hid
    obtain ⟨hf, htags⟩ := h i id r hi hlast hr
    refine ⟨hid, (isSome_listed _ id).mpr ⟨ServerConfig.listingBins r, ?_, htags⟩⟩
    rw [bins_shown hi hlast, hf, hr]
    rfl

namespace Small

/-- One session is created by a complete call. -/
def oneSession : Pool (Req ℕ (Event ℕ)) Ans Err (Reply ℕ) (World ℕ (Event ℕ)) (Issued ℕ) :=
  (service env cfg).run (System.turns .calm 8 0 [⟨0, .create ['a'] ['u'] ∅ (some ['s']) [] 1⟩])
    ⟨.empty, []⟩

theorem named_addr : addr.Named := ⟨by decide, by decide, by decide, by decide⟩

/-- Another session is created, and its deletion has taken its row, but not its id off the
manifest. -/
def halfDeleted : Pool (Req ℕ (Event ℕ)) Ans Err (Reply ℕ) (World ℕ (Event ℕ)) (Issued ℕ) :=
  (service env cfg).run ([.spawn ⟨0, .create ['a'] ['u'] ∅ (some ['t']) [] 2⟩] ++ List.replicate 8 (.step 1 .calm) ++
    [.spawn ⟨1, .delete ⟨['a'], ['u'], ['t']⟩⟩] ++ List.replicate 4 (.step 2 .calm)) oneSession

/-- The batch times out at the second of its records. -/
def secondFails : ℕ → Fault := fun i => if i = 1 then .timeout false else .none

theorem reach_oneSession : (service env cfg).Reach Maintains ⟨.empty, []⟩ oneSession := by
  refine System.reach_run (System.permitted_of_forall fun a ha s => ?_)
  rcases System.mem_turns ha with ⟨l, hl, rfl⟩ | ⟨j, rfl⟩
  · rw [List.mem_singleton.mp hl]
    exact named_addr
  · trivial

theorem reach_halfDeleted : (service env cfg).Reach Maintains ⟨.empty, []⟩ halfDeleted := by
  refine reach_oneSession.trans (System.reach_run (System.permitted_of_forall fun a ha s => ?_))
  have hnamed : Addr.Named ⟨['a'], ['u'], ['t']⟩ := ⟨by decide, by decide, by decide, by decide⟩
  simp only [List.mem_append, List.mem_singleton, List.mem_replicate, ne_eq] at ha
  rcases ha with ((rfl | ⟨-, rfl⟩) | rfl) | ⟨-, rfl⟩
  · exact hnamed
  · trivial
  · exact hnamed
  · trivial

end Small

open Sessions.Small in
/-- The fault meets the id whose row has gone, so the one whose row exists stays. -/
theorem listing_keeps_live_iff_small :
    ids ['a'] ['u'] halfDeleted.world = [['s'], ['t']] ∧ (row ⟨['a'], ['u'], ['s']⟩ halfDeleted.world).isSome ∧
    row ⟨['a'], ['u'], ['t']⟩ halfDeleted.world = none ∧
    ['s'] ∈ ids ['a'] ['u']
      ((listSessionsForUser ['a'] ['u']).run (exec cfg 0 ⟨.none, secondFails⟩) halfDeleted.world).2 ∧
    ['t'] ∉ ids ['a'] ['u']
      ((listSessionsForUser ['a'] ['u']).run (exec cfg 0 ⟨.none, secondFails⟩) halfDeleted.world).2 := by
  have hids : ids ['a'] ['u'] halfDeleted.world = [['s'], ['t']] := by decide +kernel
  have hlive : (row ⟨['a'], ['u'], ['s']⟩ halfDeleted.world).isSome := by decide +kernel
  have hdead : row ⟨['a'], ['u'], ['t']⟩ halfDeleted.world = none := by rfl
  have hkeeps := (listing_keeps_live_iff env cfg halfDeleted reach_halfDeleted 0 secondFails ['a'] ['u']).mpr
    fun i id r hi _ hr => by
      rw [hids] at hi
      rcases i with _ | _ | i
      · cases hi
        obtain rfl : newRow addr ∅ 1 = r := Option.some.inj hr
        exact ⟨rfl, rfl, rfl⟩
      · cases hi
        cases hdead.symm.trans hr
      · cases hi
  exact ⟨hids, hlive, hdead, hkeeps ['s'] (by rw [hids]; simp) hlive, by decide +kernel⟩

open Sessions.Small in
/-- A timeout while a live row is read makes listing forget the session. -/
theorem timeout_forgets_session :
    (service env cfg).Reach Maintains ⟨.empty, []⟩ oneSession ∧
    ['s'] ∈ ids ['a'] ['u'] oneSession.world ∧ (row ⟨['a'], ['u'], ['s']⟩ oneSession.world).isSome ∧
    ['s'] ∉ ids ['a'] ['u'] ((listSessionsForUser ['a'] ['u']).run
      (exec cfg 0 ⟨.none, fun _ => .timeout false⟩) oneSession.world).2 :=
  ⟨reach_oneSession, by decide +kernel, by decide +kernel, by decide +kernel⟩

end AdkAerospike.Sessions
