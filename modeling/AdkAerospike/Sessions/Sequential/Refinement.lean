import AdkAerospike.Sessions.Sequential.Reference

/-! One instance against the reference model. The world mirrors the model if every
session's row, segments and cached index hold what the model says of the session, the
manifests name the live sessions in the order of their creation, and the shared
records hold the shared maps. Each complete call keeps this and gives the model's
answer. -/

namespace AdkAerospike.Sessions

open Program Data Codec Keys

variable {V P : Type}

section Steps
variable {env : Env V P} {cfg : ServerConfig V P} {inst : ℕ} {w w' : World V P} {M : Reference V}
  {a b : Addr} {s : Conversation V} {app user : Str}

/-! ### Mirrored sessions -/

/-- The records of a live session, and the instance's cached index, are as the model
has the session. -/
structure Holding (env : Env V P) (cfg : ServerConfig V P) (inst : ℕ) (a : Addr) (w : World V P)
    (s : Conversation V) : Prop extends Settled cfg a inst w where
  tidy : (logOf a w).Tidy
  tagged : ∀ r, row a w = some r → Tagged a r
  state : FMap.get (stateOf (row a w)) = s.state
  own : Own s.state
  history : (logOf a w).history = s.events.map fun x => (x.1, eventToInlineDict env.model x.2)
  bounded : ∀ x ∈ s.events, x.1 < [':']

/-- There is nothing of a session that the model does not have. -/
def Matches (env : Env V P) (cfg : ServerConfig V P) (inst : ℕ) (a : Addr) (w : World V P) :
    Option (Conversation V) → Prop
  | none => Gone a w
  | some s => Holding env cfg inst a w s

theorem Matches.congr {o : Option (Conversation V)} (h : Matches env cfg inst a w o)
    (hrow : row a w' = row a w)
    (hsegs : ∀ g, w'.store.get (a.segmentPk g) = w.store.get (a.segmentPk g))
    (hcache : w'.cache inst a.pkStr = w.cache inst a.pkStr) : Matches env cfg inst a w' o := by
  cases o with
  | none => exact ⟨hrow.trans h.row, fun g => (hsegs g).trans (h.segs g)⟩
  | some s =>
    have hlog := logOf_congr hrow hsegs
    have hkeeps : Holding env cfg inst a w s := h
    refine ⟨⟨⟨hkeeps.toSound.congr hrow hsegs, hlog ▸ hkeeps.topped⟩, fun n hn => ?_⟩, hlog ▸ hkeeps.tidy,
      hrow ▸ hkeeps.tagged, hrow ▸ hkeeps.state, hkeeps.own, hlog ▸ hkeeps.history, hkeeps.bounded⟩
    rw [hlog]
    exact hkeeps.cached n (hcache ▸ hn)

theorem Matches.row_eq_none_iff {o : Option (Conversation V)} (h : Matches env cfg inst a w o) :
    row a w = none ↔ o = none := by
  cases o with
  | none => exact iff_of_true h.row rfl
  | some s =>
    have hsome := (h : Holding env cfg inst a w s).toSound.isSome
    exact iff_of_false (fun hnone => by rw [hnone] at hsome; cases hsome) nofun

/-- What a read lists of a mirrored session. -/
theorem Holding.eventsOf_eq (h : Holding env cfg inst a w s) (config : GetSessionConfig) :
    eventsOf env config (logOf a w) = config.cut env s.events := by
  have hscan : (logOf a w).scan (keepOf env config.afterTimestamp) ((logOf a w).cur + 1) =
      (s.events.filter fun x => config.afterTimestamp.all fun t => since env t ≤ x.1).map
        fun x => (x.1, eventToInlineDict env.model x.2) := by
    cases config.afterTimestamp with
    | none =>
      simp only [Option.all_none, List.filter_true]
      exact h.history
    | some t =>
      have hkeep : ∀ x ∈ (logOf a w).history, inRange env t x.1 = decide (since env t ≤ x.1) := by
        intro x hx
        rw [h.history] at hx
        obtain ⟨y, hy, rfl⟩ := List.mem_map.mp hx
        rw [inRange, decide_eq_decide]
        exact and_iff_left (h.bounded y hy)
      have hwalk : (logOf a w).walk (inRange env t) ((logOf a w).cur + 1) =
          (logOf a w).history.filter fun x => decide (since env t ≤ x.1) :=
        h.tidy.walk_eq_filter_history hkeep
          fun k k' hk hle => decide_eq_true ((of_decide_eq_true hk).trans hle)
      rw [h.history, List.filter_map] at hwalk
      exact hwalk
  have hdecode : ((fun x : Str × InlineEvent V P => (x.1, eventFromInlineDict env.model x.2)) ∘
      fun x : Str × Event V => (x.1, eventToInlineDict env.model x.2)) = id := by
    funext x
    simp only [Function.comp_apply, eventFromInlineDict_eventToInlineDict, id_eq]
  rw [eventsOf, hscan, Log.recent_map, List.map_map, hdecode, List.map_id, GetSessionConfig.cut]

/-! ### Mirrored worlds -/

/-- The world of the instance `inst` and the reference model say the same. -/
structure Mirrors (env : Env V P) (cfg : ServerConfig V P) (inst : ℕ) (w : World V P) (M : Reference V) :
    Prop where
  fitting : cfg.Fitting w.store
  nodup : M.live.Nodup
  named : ∀ a ∈ M.live, a.Named
  live : ∀ a, a ∈ M.live ↔ (M.sessions a).isSome
  sessions : ∀ a : Addr, a.Named → Matches env cfg inst a w (M.sessions a)
  manifests : ∀ app user, Plain app → Plain user →
    ids app user w = (M.sessionsOf app user).map Addr.id
  apps : ∀ app, FMap.get (stateOf (w.store.get (appPk app))) = M.apps app
  users : ∀ app user, Plain app → FMap.get (stateOf (w.store.get (userPk app user))) = M.users app user

theorem mirrors_empty (env : Env V P) (cfg : ServerConfig V P) (inst : ℕ) :
    Mirrors env cfg inst .empty .empty where
  fitting := fun _ _ h => nomatch h
  nodup := List.nodup_nil
  named := fun _ h => nomatch h
  live a := by simp [Reference.empty]
  sessions := fun _ _ => ⟨rfl, fun _ => rfl⟩
  manifests := fun _ _ _ _ => rfl
  apps := fun _ => rfl
  users := fun _ _ _ => rfl

/-- A call on one session writes the records of the session, of its user and of its
app, and caches nothing for other sessions. -/
structure Confined (a : Addr) (inst : ℕ) (w w' : World V P) : Prop where
  get : ∀ key, key ≠ a.sessionPk → (∀ g, key ≠ a.segmentPk g) → key ≠ appPk a.app →
    key ≠ userPk a.app a.user → key ≠ manifestPk a.app a.user → w'.store.get key = w.store.get key
  cache : ∀ pk, pk ≠ a.pkStr → w'.cache inst pk = w.cache inst pk

namespace Confined

/-- The other sessions stay as they are. -/
theorem sessions (h : Confined a inst w w') (ha : a.Named) {f : Addr → Option (Conversation V)}
    (hf : ∀ b : Addr, b.Named → Matches env cfg inst b w (f b)) {o : Option (Conversation V)}
    (ho : Matches env cfg inst a w' o) (b : Addr) (hb : b.Named) :
    Matches env cfg inst b w' (Function.update f a o b) := by
  by_cases hba : b = a
  · subst hba
    rw [Function.update_self]
    exact ho
  · rw [Function.update_of_ne hba]
    have hpk : b.sessionPk ≠ a.sessionPk := fun heq => hba ((sessionPk_inj hb ha).mp heq)
    refine (hf b hb).congr ?_ (fun g => ?_) ?_
    · exact h.get _ hpk (sessionPk_ne_segmentPk hb ha) (ne_of_set nofun)
        (ne_of_set nofun) (sessionPk_ne_manifestPk hb ha.app ha.user)
    · exact h.get _ (sessionPk_ne_segmentPk ha hb g).symm (segmentPk_ne_segmentPk hb ha hba g)
        (ne_of_set nofun) (ne_of_set nofun)
        (segmentPk_ne_manifestPk hb ha.app ha.user g)
    · exact h.cache _ fun heq => hpk (congrArg (Key.mk .sessions) heq)

/-- The manifests of other users stay as they are. -/
theorem ids_eq (h : Confined a inst w w') (ha : a.Named) (happ : Plain app) (huser : Plain user)
    (hne : ¬ (app = a.app ∧ user = a.user)) : ids app user w' = ids app user w := by
  refine ids_congr (h.get _ ?_ ?_ ?_ ?_ ?_)
  · exact (sessionPk_ne_manifestPk ha happ huser).symm
  · exact fun g => (segmentPk_ne_manifestPk ha happ huser g).symm
  · exact ne_of_set nofun
  · exact ne_of_set nofun
  · exact fun heq => hne ((manifestPk_inj happ huser ha.app ha.user).mp heq)

theorem apps_eq (h : Confined a inst w w') {f : Str → Bindings V}
    (hf : ∀ app, FMap.get (stateOf (w.store.get (appPk app))) = f app) {m : Bindings V}
    (hm : FMap.get (stateOf (w'.store.get (appPk a.app))) = m) (app : Str) :
    FMap.get (stateOf (w'.store.get (appPk app))) = Function.update f a.app m app := by
  by_cases happ : app = a.app
  · subst happ
    rw [Function.update_self, hm]
  · have hkey : appPk app ≠ appPk a.app := fun heq => happ (congrArg Key.key heq)
    rw [Function.update_of_ne happ, ← hf, h.get (appPk app) (ne_of_set nofun)
      (fun _ => ne_of_set nofun) hkey (ne_of_set nofun)
      (ne_of_set nofun)]

theorem users_eq (h : Confined a inst w w') (ha : a.Named) {f : Str → Str → Bindings V}
    (hf : ∀ app user, Plain app → FMap.get (stateOf (w.store.get (userPk app user))) = f app user)
    {m : Bindings V} (hm : FMap.get (stateOf (w'.store.get (userPk a.app a.user))) = m) (app user : Str)
    (happ : Plain app) :
    FMap.get (stateOf (w'.store.get (userPk app user))) =
      Function.update f a.app (Function.update (f a.app) a.user m) app user := by
  by_cases hown : app = a.app ∧ user = a.user
  · obtain ⟨rfl, rfl⟩ := hown
    rw [Function.update_self, Function.update_self, hm]
  · have hkey : userPk app user ≠ userPk a.app a.user := fun heq =>
      hown ((userStateKey_inj happ ha.app).mp (congrArg Key.key heq))
    have hupdate : Function.update f a.app (Function.update (f a.app) a.user m) app user = f app user := by
      by_cases happ' : app = a.app
      · subst happ'
        rw [Function.update_self, Function.update_of_ne fun huser => hown ⟨rfl, huser⟩]
      · rw [Function.update_of_ne happ']
    rw [hupdate, ← hf app user happ, h.get (userPk app user) (ne_of_set nofun)
      (fun _ => ne_of_set nofun) (ne_of_set nofun) hkey
      (ne_of_set nofun)]

end Confined

/-- The call gives the model's answer, and leaves a world that says what the model then
says. -/
structure Refines (env : Env V P) (cfg : ServerConfig V P) (inst : ℕ) (w : World V P) (M : Reference V)
    (c : Call V) : Prop where
  answer : (perform env cfg ⟨inst, c⟩ w).1.map Reply.answer = (c.reference env M).1
  mirrors : Mirrors env cfg inst (perform env cfg ⟨inst, c⟩ w).2 (c.reference env M).2

/-! ### Reading -/

/-- The index of a live session may be cached at any time. -/
theorem Mirrors.setCache (h : Mirrors env cfg inst w M) (ha : a.Named) (hs : M.sessions a = some s) :
    Mirrors env cfg inst (w.setCache inst a.pkStr (some (logOf a w).cur)) M := by
  have hold : Holding env cfg inst a w s := by simpa [Matches, hs] using h.sessions a ha
  have hconf : Confined a inst w (w.setCache inst a.pkStr (some (logOf a w).cur)) :=
    ⟨fun _ _ _ _ _ _ => rfl, fun pk hpk => World.setCache_of_ne _ _ (.inr hpk)⟩
  have hself : Matches env cfg inst a (w.setCache inst a.pkStr (some (logOf a w).cur)) (M.sessions a) := by
    rw [hs]
    refine ⟨⟨⟨hold.toSound.congr rfl fun _ => rfl, hold.topped⟩, fun n hn => ?_⟩, hold.tidy, hold.tagged,
      hold.state, hold.own, hold.history, hold.bounded⟩
    rw [World.setCache_self, Option.some.injEq] at hn
    exact hn.symm
  have hall := hconf.sessions ha h.sessions hself
  rw [Function.update_eq_self] at hall
  exact ⟨h.fitting, h.nodup, h.named, h.live, hall, h.manifests, h.apps, h.users⟩

theorem Mirrors.get (h : Mirrors env cfg inst w M) (ha : a.Named) (config : GetSessionConfig) :
    Refines env cfg inst w M (.get a config) := by
  have hread : Readable a w := h.fitting.readable
  have hmatch := h.sessions a ha
  have hrun : perform env cfg ⟨inst, .get a config⟩ w = _ := perform_get a config w
  rw [alone_getSession hread, view] at hrun
  cases hs : M.sessions a with
  | none =>
    rw [hmatch.row_eq_none_iff.mpr hs] at hrun
    refine ⟨?_, ?_⟩ <;> rw [hrun, Call.reference]
    · rw [hs]
      rfl
    · exact h
  | some s =>
    rw [hs] at hmatch
    have hold : Holding env cfg inst a w s := hmatch
    obtain ⟨r, hr, hc⟩ := hold.live
    have hcur : r.cur.getD 0 = (logOf a w).cur := by rw [hc, Option.getD_some]
    have hstate : FMap.get (stateOf (some r)) = s.state := hr ▸ hold.state
    simp only [hr, Option.map_some, hold.eventsOf_eq config, hcur] at hrun
    refine ⟨?_, ?_⟩ <;> rw [hrun, Call.reference]
    · simp only [Except.map, Reply.answer, Option.map_some, Session.shown, hs]
      rw [get_mergeState_shown (h.apps a.app) (h.users a.app a.user ha.app) hstate hold.own]
    · exact h.setCache ha hs

/-! ### Listing -/

/-- A live session of the user shows itself. -/
theorem Mirrors.showing_eq (h : Mirrors env cfg inst w M) (hb : b ∈ M.sessionsOf app user) :
    ∃ t, showing app user w b.id = some ⟨b, ∅, [], t⟩ := by
  obtain ⟨hlive, hown⟩ := List.mem_filter.mp hb
  obtain ⟨rfl, rfl⟩ := of_decide_eq_true hown
  have hnamed := h.named b hlive
  obtain ⟨s, hs⟩ := Option.isSome_iff_exists.mp ((h.live b).mp hlive)
  have hold : Holding env cfg inst b w s := by simpa [Matches, hs] using h.sessions b hnamed
  obtain ⟨r, hr, -⟩ := hold.toSound.live
  have htag := hold.tagged r hr
  refine ⟨r.ts.getD 0, ?_⟩
  unfold showing
  rw [show row ⟨b.app, b.user, b.id⟩ w = some r from hr]
  simp [htag.app, htag.uid, htag.sid]

theorem Mirrors.list (h : Mirrors env cfg inst w M) (happ : Plain app) (huser : Plain user) :
    Refines env cfg inst w M (.listForUser app user) := by
  obtain ⟨w', hrun, hp⟩ := perform_list h.fitting env inst app user
  have hids := h.manifests app user happ huser
  have hkept : ids app user w' = ids app user w := by
    rw [hp.ids, List.filter_eq_self]
    intro id hid
    rw [hids] at hid
    obtain ⟨b, hb, rfl⟩ := List.mem_map.mp hid
    obtain ⟨t, ht⟩ := h.showing_eq hb
    rw [ht]
    rfl
  refine ⟨?_, ?_⟩ <;> rw [hrun, Call.reference]
  · have hlist : ((M.sessionsOf app user).map Addr.id).filterMap
        (fun id => (showing app user w id).map Session.shown) =
          (M.sessionsOf app user).map fun b => ⟨b, [], fun _ => none⟩ := by
      rw [List.filterMap_map, ← List.filterMap_eq_map]
      refine List.filterMap_congr fun b hb => ?_
      obtain ⟨t, ht⟩ := h.showing_eq hb
      rw [Function.comp_apply, ht]
      rfl
    rw [hids]
    simp only [Except.map, Reply.answer, List.map_filterMap, hlist]
  · refine ⟨hp.fitting, h.nodup, h.named, h.live, fun b hb => ?_, fun app' user' happ' huser' => ?_,
      fun app' => ?_, fun app' user' happ' => ?_⟩
    · refine (h.sessions b hb).congr (hp.frame _ (sessionPk_ne_manifestPk hb happ huser))
        (fun g => hp.frame _ (segmentPk_ne_manifestPk hb happ huser g)) (by rw [hp.cache])
    · by_cases hown : app' = app ∧ user' = user
      · obtain ⟨rfl, rfl⟩ := hown
        rw [hkept, hids]
      · rw [ids_congr (hp.frame _ fun heq => hown ((manifestPk_inj happ' huser' happ huser).mp heq)),
          h.manifests app' user' happ' huser']
    · rw [hp.frame (appPk app') (ne_of_set nofun), h.apps]
    · rw [hp.frame (userPk app' user') (ne_of_set nofun), h.users app' user' happ']

/-! ### Deleting -/

/-- The live sessions of a user without one of them. -/
theorem Reference.ids_filter (live : List Addr) (a : Addr) :
    (((live.filter (· ≠ a)).filter fun b => b.app = a.app ∧ b.user = a.user).map Addr.id) =
      ((live.filter fun b => b.app = a.app ∧ b.user = a.user).map Addr.id).filter (· ≠ a.id) := by
  rw [List.filter_map, List.filter_filter, List.filter_filter]
  refine congrArg (List.map Addr.id) (List.filter_congr fun b _ => ?_)
  rw [Function.comp_apply, ← Bool.decide_and, ← Bool.decide_and, decide_eq_decide]
  have hid : b.app = a.app ∧ b.user = a.user → (b = a ↔ b.id = a.id) := fun ⟨happ, huser⟩ => by
    cases a
    cases b
    simp_all
  constructor
  · exact fun ⟨hown, hne⟩ => ⟨fun heq => hne ((hid hown).mpr heq), hown⟩
  · exact fun ⟨hne, hown⟩ => ⟨hown, fun heq => hne ((hid hown).mp heq)⟩

/-- The live sessions of other users do not notice. -/
theorem Reference.filter_other (live : List Addr) (hne : ¬ (app = a.app ∧ user = a.user)) :
    (live.filter (· ≠ a)).filter (fun b => b.app = app ∧ b.user = user) =
      live.filter fun b => b.app = app ∧ b.user = user := by
  rw [List.filter_filter]
  refine List.filter_congr fun b _ => ?_
  rw [← Bool.decide_and, decide_eq_decide]
  exact and_iff_left_of_imp fun hown heq => hne (heq ▸ ⟨hown.1.symm, hown.2.symm⟩)

theorem fitting_withoutSession {σ : Store V P} (h : cfg.Fitting σ) (n : ℕ) :
    cfg.Fitting (withoutSession a n σ) := by
  obtain ⟨hrow, hsegs, hother⟩ := get_withoutSession (a := a) n σ
  intro key r hr
  by_cases hkey : key = a.sessionPk
  · rw [hkey, hrow] at hr
    cases hr
  · by_cases hseg : ∃ g, key = a.segmentPk g
    · obtain ⟨g, rfl⟩ := hseg
      rw [hsegs g] at hr
      split_ifs at hr
      exact h _ r hr
    · rw [hother key hkey fun g heq => hseg ⟨g, heq⟩] at hr
      exact h key r hr

/-- `delete_session` of a session that exists. -/
theorem Mirrors.perform_delete_live (h : Mirrors env cfg inst w M) (ha : a.Named)
    (hs : M.sessions a = some s) :
    ∃ w', perform env cfg ⟨inst, .delete a⟩ w = (.ok .done, w') ∧ Confined a inst w w' ∧
      ids a.app a.user w' = (ids a.app a.user w).filter (· ≠ a.id) ∧
      ∀ key : Key, key.set ≠ .sessions → w'.store.get key = w.store.get key := by
  have hold : Holding env cfg inst a w s := by simpa [Matches, hs] using h.sessions a ha
  obtain ⟨r, hr, -⟩ := hold.toSound.live
  have hrun := @alone_deleteSession V P cfg inst a w
  rw [hr] at hrun
  dsimp only at hrun
  obtain ⟨-, -, hother⟩ := get_withoutSession (a := a) (r.cur.getD 0 + 2) w.store
  have hfit := fitting_withoutSession (a := a) h.fitting (r.cur.getD 0 + 2)
  generalize hw₁ : (w.withStore (withoutSession a (r.cur.getD 0 + 2) w.store)).setCache inst a.pkStr none = w₁
    at hrun
  have hfit₁ : cfg.Fitting w₁.store := by
    rw [← hw₁]
    exact hfit
  have hget₁ : ∀ key, key ≠ a.sessionPk → (∀ g, key ≠ a.segmentPk g) →
      w₁.store.get key = w.store.get key := by
    rw [← hw₁]
    exact hother
  obtain ⟨w', hmanifest, hp⟩ :=
    @alone_manifestRemove_prunes V P cfg inst a.app a.user w₁ hfit₁ a.id
  refine ⟨w', ?_, ⟨fun key hrow hseg _ _ hman => ?_, fun pk hpk => ?_⟩, ?_, fun key hset => ?_⟩
  · rw [perform_delete, hrun, hmanifest]
    rfl
  · rw [hp.frame key hman, hget₁ key hrow hseg]
  · rw [hp.cache, ← hw₁, World.setCache_of_ne _ _ (.inr hpk)]
    rfl
  · rw [hp.ids, ids_congr (hget₁ _ (sessionPk_ne_manifestPk ha ha.app ha.user).symm
      fun g => (segmentPk_ne_manifestPk ha ha.app ha.user g).symm)]
  · rw [hp.frame key (ne_of_set hset), hget₁ key (ne_of_set hset) fun _ => ne_of_set hset]

theorem Mirrors.delete (h : Mirrors env cfg inst w M) (ha : a.Named) :
    Refines env cfg inst w M (.delete a) := by
  have hmatch := h.sessions a ha
  cases hs : M.sessions a with
  | none =>
    have hput : Function.update M.sessions a none = M.sessions := by rw [← hs, Function.update_eq_self]
    have hlive : M.live.filter (· ≠ a) = M.live := by
      refine List.filter_eq_self.mpr fun b hb => decide_eq_true fun hba => ?_
      have hsome := (h.live b).mp hb
      rw [hba, hs] at hsome
      cases hsome
    have hrun : perform env cfg ⟨inst, .delete a⟩ w = (.ok .done, w) := by
      rw [perform_delete, alone_deleteSession, hmatch.row_eq_none_iff.mpr hs]
      rfl
    refine ⟨?_, ?_⟩ <;> rw [hrun, Call.reference]
    · rfl
    · simp only [Reference.put, hput, hlive]
      exact h
  | some s =>
    have hold : Holding env cfg inst a w s := by simpa [Matches, hs] using hmatch
    obtain ⟨w', hrun, hconf, hids, hshared⟩ := h.perform_delete_live ha hs
    have hgone : Gone a w' := by
      have hdeleted : Gone a (perform env cfg ⟨inst, .delete a⟩ w).2 := hold.toLive.delete ha.ne
      rw [hrun] at hdeleted
      exact hdeleted
    have hfit : cfg.Fitting w'.store := by
      have hafter : cfg.Fitting (after env cfg ⟨inst, .delete a⟩ w).store := fitting_after h.fitting
      rw [after, hrun] at hafter
      exact hafter
    refine ⟨?_, ?_⟩ <;> rw [hrun, Call.reference]
    · rfl
    · refine ⟨hfit, h.nodup.filter _, fun b hb => h.named b (List.mem_of_mem_filter hb), fun b => ?_,
        hconf.sessions ha h.sessions hgone, fun app user happ huser => ?_, fun app => ?_,
        fun app user happ => ?_⟩
      · simp only [List.mem_filter, decide_eq_true_eq, Reference.put, Function.update_apply]
        rw [h.live b]
        split_ifs with hba <;> simp [hba]
      · simp only [Reference.sessionsOf]
        by_cases hown : app = a.app ∧ user = a.user
        · obtain ⟨rfl, rfl⟩ := hown
          rw [hids, h.manifests a.app a.user happ huser, Reference.ids_filter]
          rfl
        · rw [hconf.ids_eq ha happ huser hown, h.manifests app user happ huser, Reference.filter_other _ hown]
          rfl
      · rw [hshared (appPk app) nofun, h.apps]
        rfl
      · rw [hshared (userPk app user) nofun, h.users app user happ]
        rfl

/-! ### Appending -/

section Append
variable {e : Event V} {clock : ℚ}

/-- What an append that is allowed leaves of its session. -/
theorem Holding.append (h : Holding env cfg inst a w s) (hok : (Call.append a e clock).Allowed env cfg w) :
    ∃ w', perform env cfg ⟨inst, .append a e clock⟩ w = (.ok .done, w') ∧
      Touched a inst (stated cfg a (partitionState e.stateDelta) (eventTime e clock) w) w' ∧
      Holding env cfg inst a w' ⟨s.events ++ [(eventKey env e clock, e)],
        Bindings.writeOwn e.stateDelta s.state⟩ := by
  obtain ⟨-, -, hwhole, hkeys, halone, hfits, hgrows⟩ := hok
  generalize hd : partitionState e.stateDelta = d at *
  obtain ⟨r₀, hr₀, -⟩ := h.toSound.live
  obtain ⟨st, t, hr⟩ : ∃ st t, row a (stated cfg a d (eventTime e clock) w) =
      some { r₀ with state := st, ts := t } := row_batchWrite_stateWrites hr₀ (fun _ => .none) _ _
  have happ := h.toSound.alone_append (k := eventKey env e clock) (v := eventToInlineDict env.model e)
    inst hfits hr
  rw [h.target] at happ
  obtain ⟨⟨j, hj⟩, htidy, hhist⟩ :=
    h.tidy.append halone (fun hno => hgrows hno _ hr) hkeys 62 d.writes
  have hsettled : Settled cfg a inst (perform env cfg ⟨inst, .append a e clock⟩ w).2 := h.toSettled.append
  have hrun : perform env cfg ⟨inst, .append a e clock⟩ w = _ := perform_append_whole hwhole w
  rw [hd] at hrun
  generalize alone cfg inst (appendEventRecord a (eventKey env e clock) (eventToInlineDict env.model e) d
    (eventTime e clock)) w = out at happ hrun
  have hout : out.1 = .ok () := (happ.ok j hj).1
  rw [hout] at hrun
  rw [hrun] at hsettled
  have hrow : row a out.2 = some { r₀ with state := st, ts := t, cur := some (logOf a out.2).cur } := by
    rw [happ.touched.row, hr]
    rfl
  refine ⟨out.2, hrun, happ.touched, ⟨hsettled, ?_, ?_, ?_, h.own.writeOwn _, ?_, ?_⟩⟩
  · rw [happ.log]
    exact htidy
  · intro r' hr'
    rw [hrow, Option.some.injEq] at hr'
    have htag := h.tagged r₀ hr₀
    rw [← hr']
    exact ⟨htag.app, htag.uid, htag.sid⟩
  · have hsame : stateOf (row a out.2) = stateOf (row a (stated cfg a d (eventTime e clock) w)) := by
      rw [hrow, hr]
      rfl
    rw [hsame, hfits.states.1, ← hd, get_update_session, h.state]
  · have hlog : (logOf a out.2).history = _ := (congrArg Log.history happ.log).trans hhist
    rw [hlog, h.history, List.map_append]
    rfl
  · intro x hx
    rcases List.mem_append.mp hx with hx | hx
    · exact h.bounded x hx
    · rw [List.mem_singleton.mp hx]
      exact microsKey_lt_colon _ _

theorem Mirrors.append (h : Mirrors env cfg inst w M) (hok : (Call.append a e clock).Allowed env cfg w) :
    Refines env cfg inst w M (.append a e clock) := by
  have ha : a.Named := hok.1
  have hmatch := h.sessions a ha
  cases hs : M.sessions a with
  | none =>
    have hsome := hok.2.1
    rw [hmatch.row_eq_none_iff.mpr hs] at hsome
    cases hsome
  | some s =>
    have hold : Holding env cfg inst a w s := by simpa [Matches, hs] using hmatch
    obtain ⟨w', hrun, htouched, hold'⟩ := hold.append hok
    obtain ⟨-, -, -, -, -, hfits, -⟩ := hok
    obtain ⟨-, -, happ, huser⟩ := hfits.states
    have hfit : cfg.Fitting w'.store := by
      have hafter : cfg.Fitting (after env cfg ⟨inst, .append a e clock⟩ w).store := fitting_after h.fitting
      rw [after, hrun] at hafter
      exact hafter
    have hconf : Confined a inst w w' := by
      refine ⟨fun key hrow hseg happ huser _ => (htouched.other key hrow hseg).trans ?_,
        fun pk hpk => htouched.cache inst pk (.inr hpk)⟩
      refine ServerConfig.batchWrite_get_of_notMem _ fun hmem => ?_
      obtain ⟨x, hx, rfl⟩ := List.mem_map.mp hmem
      rcases mem_stateWrites.mp hx with ⟨-, rfl⟩ | ⟨-, rfl⟩ | ⟨-, rfl⟩
      · exact hrow rfl
      · exact happ rfl
      · exact huser rfl
    have hids : ∀ app user, Plain app → Plain user → ids app user w' = ids app user w := by
      intro app user happ huser
      refine ids_congr ((htouched.other _ (sessionPk_ne_manifestPk ha happ huser).symm
        fun g => (segmentPk_ne_manifestPk ha happ huser g).symm).trans ?_)
      refine ServerConfig.batchWrite_get_of_notMem _ fun hmem => ?_
      obtain ⟨x, hx, hkey⟩ := List.mem_map.mp hmem
      rcases mem_stateWrites.mp hx with ⟨-, rfl⟩ | ⟨-, rfl⟩ | ⟨-, rfl⟩
      · exact sessionPk_ne_manifestPk ha happ huser hkey
      · cases congrArg Key.set hkey
      · cases congrArg Key.set hkey
    rw [← htouched.other (appPk a.app) (ne_of_set nofun) fun _ => ne_of_set nofun] at happ
    rw [← htouched.other (userPk a.app a.user) (ne_of_set nofun) fun _ => ne_of_set nofun] at huser
    refine ⟨?_, ?_⟩ <;> rw [hrun, Call.reference, hs]
    · rfl
    · refine ⟨hfit, h.nodup, h.named, fun b => ?_, hconf.sessions ha h.sessions hold',
        fun app user happ huser => ?_, hconf.apps_eq h.apps ?_, hconf.users_eq ha h.users ?_⟩
      · simp only [Reference.put, Reference.share, Function.update_apply]
        rw [h.live b]
        split_ifs with hba
        · simp [hba, hs]
        · rfl
      · rw [hids app user happ huser, h.manifests app user happ huser]
        rfl
      · rw [happ, get_update_app, h.apps]
      · rw [huser, get_update_user, h.users a.app a.user ha.app]

end Append

/-! ### Creating -/

section Create
variable {state : Dict V} {sessionId : Option Str} {fresh : Str} {now : ℚ}

/-- The state writes of a creation are those of an event that writes no session state. -/
theorem sharedWrites_eq (a : Addr) (d : Deltas V) (now : ℚ) :
    (sharedWrites a d : List (Key × List (Op V P))) = stateWrites a ⟨∅, d.app, d.user⟩ now := rfl

/-- The world after a new session's row, shared state and manifest entry are written. -/
def founded (cfg : ServerConfig V P) (inst : ℕ) (a : Addr) (d : Deltas V) (now : ℚ) (w : World V P) :
    World V P :=
  let w₂ := stated cfg a ⟨∅, d.app, d.user⟩ now (withRow w inst a (newRow a d.session now))
  w₂.withStore (cfg.operate (manifestPk a.app a.user) [.listAppend a.id] none w₂.store).2

section Founded
variable {d : Deltas V}

theorem get_withRow_of_ne (key : Key) {r : Record V P} (h : key ≠ a.sessionPk) :
    (withRow w inst a r).store.get key = w.store.get key := FMap.get_insert_of_ne _ _ h

theorem get_stated_of_ne (key : Key) (happ : key ≠ appPk a.app) (huser : key ≠ userPk a.app a.user) :
    (stated cfg a ⟨∅, d.app, d.user⟩ now w).store.get key = w.store.get key := by
  refine ServerConfig.batchWrite_get_of_notMem _ fun hmem => ?_
  obtain ⟨x, hx, rfl⟩ := List.mem_map.mp hmem
  rcases mem_stateWrites.mp hx with ⟨hne, -⟩ | ⟨-, rfl⟩ | ⟨-, rfl⟩
  · exact hne rfl
  · exact happ rfl
  · exact huser rfl

theorem confined_founded (cfg : ServerConfig V P) (inst : ℕ) (a : Addr) (d : Deltas V) (now : ℚ)
    (w : World V P) : Confined a inst w (founded cfg inst a d now w) := by
  refine ⟨fun key hrow _ happ huser hman => ?_, fun pk hpk => World.setCache_of_ne _ _ (.inr hpk)⟩
  rw [founded, World.withStore_store, ServerConfig.operate_get_of_ne hman, get_stated_of_ne key happ huser,
    get_withRow_of_ne key hrow]

theorem row_founded (ha : a.Named) : row a (founded cfg inst a d now w) = some (newRow a d.session now) := by
  change (founded cfg inst a d now w).store.get a.sessionPk = _
  rw [founded, World.withStore_store,
    ServerConfig.operate_get_of_ne (sessionPk_ne_manifestPk ha ha.app ha.user),
    get_stated_of_ne a.sessionPk (ne_of_set nofun) (ne_of_set nofun)]
  exact FMap.get_insert_self _ _ _

theorem stateFits_withRow (hfits : ∀ x ∈ (sharedWrites a d : List (Key × List (Op V P))),
      (cfg.onRecord x.2 none (w.store.get x.1)).1 ≠ .error .recordTooBig) (r : Record V P) :
    StateFits cfg a ⟨∅, d.app, d.user⟩ now (withRow w inst a r) := by
  intro x hx
  rw [← sharedWrites_eq] at hx
  have hne : x.1 ≠ a.sessionPk := by
    rcases sharedWrites_cases hx with rfl | rfl <;> exact ne_of_set nofun
  rw [get_withRow_of_ne x.1 hne]
  exact hfits x hx

/-- The shared maps of a new session's app and user. -/
theorem states_founded (hfits : ∀ x ∈ (sharedWrites a d : List (Key × List (Op V P))),
      (cfg.onRecord x.2 none (w.store.get x.1)).1 ≠ .error .recordTooBig) :
    stateOf ((founded cfg inst a d now w).store.get (appPk a.app)) =
      FMap.update (stateOf (w.store.get (appPk a.app))) d.app ∧
    stateOf ((founded cfg inst a d now w).store.get (userPk a.app a.user)) =
      FMap.update (stateOf (w.store.get (userPk a.app a.user))) d.user := by
  have hall : StateFits cfg a ⟨∅, d.app, d.user⟩ now (withRow w inst a (newRow a d.session now)) :=
    stateFits_withRow hfits _
  obtain ⟨-, -, happ, huser⟩ := hall.states
  rw [get_withRow_of_ne (appPk a.app) (ne_of_set nofun)] at happ
  rw [get_withRow_of_ne (userPk a.app a.user) (ne_of_set nofun)] at huser
  rw [founded, World.withStore_store,
    ServerConfig.operate_get_of_ne (show appPk a.app ≠ manifestPk a.app a.user from ne_of_set nofun),
    ServerConfig.operate_get_of_ne (show userPk a.app a.user ≠ manifestPk a.app a.user from ne_of_set nofun)]
  exact ⟨happ, huser⟩

/-- The manifest does not notice the writes before its own. -/
theorem get_beside (ha : a.Named) :
    (stated cfg a ⟨∅, d.app, d.user⟩ now (withRow w inst a (newRow a d.session now))).store.get
      (manifestPk a.app a.user) = w.store.get (manifestPk a.app a.user) := by
  rw [get_stated_of_ne (manifestPk a.app a.user) (ne_of_set nofun) (ne_of_set nofun),
    get_withRow_of_ne _ (sessionPk_ne_manifestPk ha ha.app ha.user).symm]

/-- The manifest of a new session's user. -/
theorem ids_founded (ha : a.Named)
    (hroom : (cfg.onRecord [.listAppend a.id] none (w.store.get (manifestPk a.app a.user))).1 ≠
      .error .recordTooBig) :
    ids a.app a.user (founded cfg inst a d now w) = ids a.app a.user w ++ [a.id] := by
  have hget : (founded cfg inst a d now w).store.get (manifestPk a.app a.user) =
      (cfg.onRecord [.listAppend a.id] none (w.store.get (manifestPk a.app a.user))).2 := by
    rw [founded, World.withStore_store, ServerConfig.operate_get_self, get_beside ha]
  exact ((ids_listAppend hget).resolve_left fun hbig => hroom hbig.1).2

end Founded

/-- `create_session` of a session that does not exist, with room for all its writes. -/
theorem perform_create_new {app user : Str} {d : Deltas V} (hd : partitionState state = d)
    (ha : a = ⟨app, user, chooseId sessionId fresh⟩) (hnamed : a.Named) (hnone : row a w = none)
    (hrow : cfg.Fits (newRow a d.session now))
    (hfits : ∀ x ∈ (sharedWrites a d : List (Key × List (Op V P))),
      (cfg.onRecord x.2 none (w.store.get x.1)).1 ≠ .error .recordTooBig)
    (hroom : (cfg.onRecord [.listAppend a.id] none (w.store.get (manifestPk a.app a.user))).1 ≠
      .error .recordTooBig) :
    let w' := founded cfg inst a d now w
    perform env cfg ⟨inst, .create app user state sessionId fresh now⟩ w =
      (.ok (.session ⟨a, mergeState (stateOf (w'.store.get (appPk a.app)))
        (stateOf (w'.store.get (userPk a.app a.user))) d.session, [], now⟩), w') := by
  intro w'
  have hrun := @alone_createSession V P cfg inst app user state sessionId fresh now w
  simp only [← ha, hd, hnone, if_pos hrow] at hrun
  have hshared : alone cfg inst (writeAll (sharedWrites a d)) (withRow w inst a (newRow a d.session now)) =
      (.ok (), stated cfg a ⟨∅, d.app, d.user⟩ now (withRow w inst a (newRow a d.session now))) := by
    refine alone_writeAll (sharedWrites_nodup a d) fun x hx => ?_
    have hbig := @stateFits_withRow V P cfg inst w a now d hfits (newRow a d.session now) x hx
    rcases onRecord_stateWrite cfg (sharedWrites_eq a d now ▸ hx) _ with ⟨y, hy⟩ | hno
    · rw [hy]
      rfl
    · exact absurd hno hbig
  have hmanifest : alone cfg inst (writeAll (followWrites a d)) (withRow w inst a (newRow a d.session now)) =
      (.ok (), w') := by
    generalize hw₂ : stated cfg a ⟨∅, d.app, d.user⟩ now (withRow w inst a (newRow a d.session now)) = w₂
      at hshared
    have hop : alone cfg inst (operate (manifestPk a.app a.user) [.listAppend a.id]) w₂ = _ :=
      alone_operate _ _ none w₂
    have hans : (cfg.operate (manifestPk a.app a.user) [.listAppend a.id] none w₂.store).1 = .ok {} := by
      rw [← hw₂, ServerConfig.operate_fst, get_beside hnamed]
      rw [onRecord_listAppend_eq] at hroom ⊢
      split_ifs at hroom ⊢ with hbig
      · rfl
      · exact absurd rfl hroom
    rw [hans] at hop
    rw [followWrites, writeAll_append, alone_bind_ok hshared, writeAll, alone_bind_ok hop]
    change (Except.ok (), _) = (Except.ok (), founded cfg inst a d now w)
    rw [founded, hw₂]
  rw [perform_create, hrun, createRest_eq, alone_bind_ok hmanifest, alone_readMerged]
  rfl

/-- A session that has just been created. -/
theorem holding_founded {d : Deltas V} (hd : partitionState state = d) (ha : a.Named) (hgone : Gone a w) :
    Holding env cfg inst a (founded cfg inst a d now w) ⟨[], Bindings.writeOwn state fun _ => none⟩ := by
  have hsegs : ∀ g, (founded cfg inst a d now w).store.get (a.segmentPk g) = none := fun g => by
    rw [founded, World.withStore_store,
      ServerConfig.operate_get_of_ne (segmentPk_ne_manifestPk ha ha.app ha.user g),
      get_stated_of_ne (a.segmentPk g) (ne_of_set nofun) (ne_of_set nofun),
      get_withRow_of_ne _ (segmentPk_ne_sessionPk a g), hgone.segs g]
  have hblank : Blank a (founded cfg inst a d now w) := ⟨⟨_, row_founded ha, rfl⟩, hsegs⟩
  obtain ⟨hsound, hcur, hempty⟩ := hblank.sound cfg
  have hseg : ∀ g, (logOf a (founded cfg inst a d now w)).seg g = .empty := hempty
  have htop : (logOf a (founded cfg inst a d now w)).Topped := fun g _ => hseg g
  refine ⟨⟨⟨hsound, htop⟩, fun n hn => ?_⟩, ⟨htop, fun g g' _ x hx => ?_, fun g hg hle => ?_⟩,
    fun r hr => ?_, ?_, own_none.writeOwn _, ?_, fun x hx => nomatch hx⟩
  · have hcache : (founded cfg inst a d now w).cache inst a.pkStr = some 0 := World.setCache_self _ _ _ _
    rw [hcache, Option.some.injEq] at hn
    rw [hcur, hn]
  · rw [hseg g] at hx
    cases hx
  · omega
  · rw [row_founded ha, Option.some.injEq] at hr
    rw [← hr]
    exact tagged_newRow a d.session now
  · rw [row_founded ha, ← hd]
    exact get_session_new state
  · rw [Log.history, hcur, Log.below, Log.below, hseg 0]
    rfl

theorem Mirrors.founded (h : Mirrors env cfg inst w M) (ha : a.Named) (hs : M.sessions a = none)
    (hshared : ∀ x ∈ (sharedWrites a (partitionState state) : List (Key × List (Op V P))),
      (cfg.onRecord x.2 none (w.store.get x.1)).1 ≠ .error .recordTooBig)
    (hroom : (cfg.onRecord [.listAppend a.id] none (w.store.get (manifestPk a.app a.user))).1 ≠
      .error .recordTooBig)
    (hfit : cfg.Fitting (founded cfg inst a (partitionState state) now w).store) :
    Mirrors env cfg inst (founded cfg inst a (partitionState state) now w)
      { (M.share a.app a.user state).put a (some ⟨[], Bindings.writeOwn state fun _ => none⟩) with
        live := M.live ++ [a] } := by
  have hgone : Gone a w := by simpa [Matches, hs] using h.sessions a ha
  have hold : Holding env cfg inst a (Sessions.founded cfg inst a (partitionState state) now w)
      ⟨[], Bindings.writeOwn state fun _ => none⟩ := holding_founded rfl ha hgone
  have hconf := confined_founded cfg inst a (partitionState state) now w
  obtain ⟨happ, huser⟩ := @states_founded V P cfg inst w a now _ hshared
  have hids := @ids_founded V P cfg inst w a now (partitionState state) ha hroom
  have hnew : a ∉ M.live := fun hmem => by
    have hsome := (h.live a).mp hmem
    rw [hs] at hsome
    cases hsome
  refine ⟨hfit, h.nodup.append (List.nodup_singleton a) (by simpa using hnew), fun b hb => ?_,
    fun b => ?_, hconf.sessions ha h.sessions hold, fun app user happ huser => ?_, hconf.apps_eq h.apps ?_,
    hconf.users_eq ha h.users ?_⟩
  · rcases List.mem_append.mp hb with hb | hb
    · exact h.named b hb
    · rw [List.mem_singleton.mp hb]
      exact ha
  · simp only [Reference.put, Function.update_apply, List.mem_append, List.mem_singleton]
    rw [h.live b]
    split_ifs with hba <;> simp [hba, Reference.share]
  · simp only [Reference.sessionsOf, List.filter_append, List.map_append]
    by_cases hown : app = a.app ∧ user = a.user
    · obtain ⟨rfl, rfl⟩ := hown
      have hone : [a].filter (fun b => b.app = a.app ∧ b.user = a.user) = [a] := by simp
      rw [hids, h.manifests a.app a.user happ huser, hone]
      rfl
    · have hno : ¬ (a.app = app ∧ a.user = user) := fun heq => hown ⟨heq.1.symm, heq.2.symm⟩
      have hnone : [a].filter (fun b => b.app = app ∧ b.user = user) = [] := by
        rw [List.filter_cons_of_neg (by simpa using hno), List.filter_nil]
      rw [hconf.ids_eq ha happ huser hown, h.manifests app user happ huser, hnone, List.map_nil,
        List.append_nil]
      rfl
  · rw [happ, get_update_app, h.apps]
  · rw [huser, get_update_user, h.users a.app a.user ha.app]

theorem Mirrors.create (h : Mirrors env cfg inst w M)
    (hok : (Call.create app user state sessionId fresh now).Allowed env cfg w)
    (hroom : (Call.create app user state sessionId fresh now).Enlists cfg w) :
    Refines env cfg inst w M (.create app user state sessionId fresh now) := by
  obtain ⟨ha, hfits⟩ := hok
  have hmatch := h.sessions ⟨app, user, chooseId sessionId fresh⟩ ha
  cases hs : M.sessions ⟨app, user, chooseId sessionId fresh⟩ with
  | some s =>
    obtain ⟨r, hr⟩ := Option.ne_none_iff_exists'.mp
      fun hnone => by simpa [hs] using hmatch.row_eq_none_iff.mp hnone
    have hrun : perform env cfg ⟨inst, .create app user state sessionId fresh now⟩ w =
        (.error .recordExists, w) := by
      rw [perform_create, alone_createSession, hr]
      rfl
    refine ⟨?_, ?_⟩ <;> simp only [hrun, Call.reference, hs]
    · rfl
    · exact h
  | none =>
    have hnone : row ⟨app, user, chooseId sessionId fresh⟩ w = none := hmatch.row_eq_none_iff.mpr hs
    obtain ⟨hrow, hshared⟩ := hfits hnone
    have hrun : perform env cfg ⟨inst, .create app user state sessionId fresh now⟩ w = _ :=
      perform_create_new rfl rfl ha hnone hrow hshared (hroom hnone)
    have hfit : cfg.Fitting (Sessions.founded cfg inst ⟨app, user, chooseId sessionId fresh⟩
        (partitionState state) now w).store := by
      have hafter : cfg.Fitting (after env cfg ⟨inst, .create app user state sessionId fresh now⟩ w).store :=
        fitting_after h.fitting
      rw [after, hrun] at hafter
      exact hafter
    have hmirrors := h.founded ha hs hshared (hroom hnone) hfit
    refine ⟨?_, ?_⟩ <;> simp only [hrun, Call.reference, hs]
    · simp only [Except.map, Reply.answer, Session.shown]
      rw [get_mergeState_shown (a := ⟨app, user, chooseId sessionId fresh⟩) (hmirrors.apps app)
        (hmirrors.users app user ha.app) (get_session_new state) (own_none.writeOwn state)]
    · exact hmirrors

end Create

/-! ### Sequences of calls -/

/-- The calls that are compared, in the worlds they are made in. -/
def Compared (env : Env V P) (cfg : ServerConfig V P) (w : World V P) (c : Call V) : Prop :=
  c.Allowed env cfg w ∧ c.Enlists cfg w

theorem Mirrors.step (h : Mirrors env cfg inst w M) {c : Call V} (hc : Compared env cfg w c) :
    Refines env cfg inst w M c := by
  obtain ⟨hok, hroom⟩ := hc
  cases c with
  | create app user state sessionId fresh now => exact h.create hok hroom
  | append a e clock => exact h.append hok
  | get a config => exact h.get hok config
  | listForUser app user => exact h.list hok.1 hok.2
  | listForApp app => exact hok.elim
  | delete a => exact h.delete hok

end Steps

/-- Any sequence of complete calls of one instance returns what the reference model
returns: the same ids, events and state. -/
theorem sessions_match_reference (env : Env V P) (cfg : ServerConfig V P) (inst : ℕ) (calls : List (Call V))
    (hok : Admits (fun c => perform env cfg ⟨inst, c⟩) (Compared env cfg) calls .empty) :
    (outputs (fun c => perform env cfg ⟨inst, c⟩) calls .empty).map (Except.map Reply.answer) =
      outputs (Call.reference env) calls .empty := by
  have hsim : List.Forall₂ (fun o o' => Except.map Reply.answer o = o')
      (outputs (fun c => perform env cfg ⟨inst, c⟩) calls .empty)
      (outputs (Call.reference env) calls .empty) := by
    refine outputs_forall₂ (R := Mirrors env cfg inst) ?_ hok (mirrors_empty env cfg inst)
    intro c w M hc hw
    exact ⟨(hw.step hc).answer, (hw.step hc).mirrors⟩
  rw [← List.forall₂_eq_eq_eq, List.forall₂_map_left_iff]
  exact hsim

namespace Small

/-- A session is created, gets an event, is read with a cutoff and a limit, listed and
deleted. -/
def chat : List (Call ℕ) :=
  [.create ['a'] ['u'] ∅ (some ['s']) [] 1, .append addr (event ['p'] 5) 0,
    .get addr ⟨some 1, some 5⟩, .listForUser ['a'] ['u'], .delete addr]

/-- As `cfg`, but a manifest has no room for an id. -/
def crowded : ServerConfig ℕ (Event ℕ) where
  size r := size r + 3 * (r.sman.getD []).length
  maxSize := 2
  guardOnAbsent := true
  capacity := fun r m hm hsize => size_le_of_fits hm ((Nat.le_add_right _ _).trans hsize)
  shrink := fun r id => by
    have hle : ((r.sman.map (·.filter (· ≠ id))).getD []).length ≤ (r.sman.getD []).length := by
      cases r.sman with
      | none => exact le_rfl
      | some l => exact List.length_filter_le _ _
    have hsame : size (Op.write (.listRemoveByValue id) r) = size r := rfl
    simp only [hsame]
    exact Nat.add_le_add_left (Nat.mul_le_mul_left 3 hle) _

end Small

open Sessions.Small in
theorem sessions_match_reference_small :
    (outputs (fun c => perform env cfg ⟨0, c⟩) chat .empty).map (Except.map Reply.answer) =
      outputs (Call.reference env) chat .empty := by
  refine sessions_match_reference env cfg 0 chat ⟨⟨⟨named_addr, fun _ => ⟨by decide, nofun⟩⟩, fun _ => nofun⟩,
    ⟨⟨named_addr, rfl, rfl, nofun, by decide +kernel, nofun, fun hno => ?_⟩, trivial⟩, ⟨named_addr, trivial⟩,
    ⟨⟨by decide, by decide⟩, trivial⟩, ⟨named_addr, trivial⟩, trivial⟩
  exact absurd (by decide +kernel) hno

open Sessions.Small in
/-- Where a manifest is full, a session is created all the same, though the call fails. -/
theorem crowded_manifest_diverges :
    Admits (fun c => perform env crowded ⟨0, c⟩) (fun w c => c.Allowed env crowded w) chat .empty ∧
    (outputs (fun c => perform env crowded ⟨0, c⟩) chat .empty).map (Except.map Reply.answer) ≠
      outputs (Call.reference env) chat .empty := by
  refine ⟨⟨⟨named_addr, fun _ => ⟨by decide, nofun⟩⟩, ⟨named_addr, rfl, rfl, nofun, by decide +kernel, nofun,
    fun hno => absurd (by decide +kernel) hno⟩, named_addr, ⟨by decide, by decide⟩, named_addr, trivial⟩,
    fun hsame => ?_⟩
  have hfirst := congrArg (fun l => l.head?.map Except.isOk) hsame
  revert hfirst
  decide +kernel

end AdkAerospike.Sessions
