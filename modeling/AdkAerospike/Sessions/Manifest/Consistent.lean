import AdkAerospike.Sessions.Manifest.Listing

/-! Agreement between the session rows and the manifests. A row that exists is named
once in its user's manifest, unless some call still owes the entry; the manifest may
also name rows that are gone. Each request of the service keeps this, or moves one
address in or out of what is owed, under a condition on the state it meets. -/

namespace AdkAerospike.Sessions

open Program Data Codec Keys

variable {V P : Type}

/-- The row says whose session it is. -/
structure Tagged (a : Addr) (r : Record V P) : Prop where
  app : r.app = some a.app
  uid : r.uid = some a.user
  sid : r.sid = some a.id

theorem tagged_newRow (a : Addr) (d : Dict V) (now : ℚ) : Tagged a (newRow a d now : Record V P) :=
  ⟨rfl, rfl, rfl⟩

/-- No manifest names an id twice, and the manifest names every row that exists,
apart from those that are `owed` an entry. -/
structure Consistent (cfg : ServerConfig V P) (owed : Addr → Prop) (w : World V P) : Prop where
  fitting : cfg.Fitting w.store
  nodup : ∀ app user, Plain app → Plain user → (ids app user w).Nodup
  named : ∀ app user id, Plain app → Plain user → id ∈ ids app user w → Addr.Named ⟨app, user, id⟩
  live : ∀ a r, a.Named → row a w = some r → Tagged a r ∧ (a.id ∈ ids a.app a.user w ∨ owed a)

section Steps
variable {cfg : ServerConfig V P} {owed : Addr → Prop} {a : Addr} {w w' : World V P}

theorem consistent_empty (cfg : ServerConfig V P) (owed : Addr → Prop) :
    Consistent cfg owed (.empty : World V P) where
  fitting := fun _ _ h => nomatch h
  nodup := fun _ _ _ _ => List.nodup_nil
  named := fun _ _ _ _ _ h => nomatch h
  live := fun _ _ _ h => nomatch h

theorem Consistent.mono {owed' : Addr → Prop} (h : Consistent cfg owed w) (ho : ∀ b, owed b → owed' b) :
    Consistent cfg owed' w :=
  ⟨h.fitting, h.nodup, h.named, fun b r hb hr => ⟨(h.live b r hb hr).1, (h.live b r hb hr).2.imp id (ho b)⟩⟩

/-- Rows may go at any time. -/
theorem Consistent.frame (h : Consistent cfg owed w) (hfit : cfg.Fitting w'.store)
    (hrow : ∀ b : Addr, b.Named → row b w' = row b w ∨ row b w' = none)
    (hman : ∀ app user, Plain app → Plain user →
      w'.store.get (manifestPk app user) = w.store.get (manifestPk app user)) :
    Consistent cfg owed w' where
  fitting := hfit
  nodup app user happ huser := by
    rw [ids_congr (hman app user happ huser)]
    exact h.nodup app user happ huser
  named app user id happ huser := by
    rw [ids_congr (hman app user happ huser)]
    exact h.named app user id happ huser
  live b r hb hr := by
    rw [ids_congr (hman b.app b.user hb.app hb.user)]
    rcases hrow b hb with heq | hnone
    · exact h.live b r hb (heq ▸ hr)
    · rw [hnone] at hr
      cases hr

/-- A new row is owed its entry. -/
theorem Consistent.putRow (h : Consistent cfg owed w) (hfit : cfg.Fitting w'.store) {r : Record V P}
    (hself : row a w' = some r) (htag : Tagged a r)
    (hrow : ∀ b : Addr, b.Named → b ≠ a → row b w' = row b w)
    (hman : ∀ app user, Plain app → Plain user →
      w'.store.get (manifestPk app user) = w.store.get (manifestPk app user)) :
    Consistent cfg (fun b => owed b ∨ b = a) w' where
  fitting := hfit
  nodup app user happ huser := by
    rw [ids_congr (hman app user happ huser)]
    exact h.nodup app user happ huser
  named app user id happ huser := by
    rw [ids_congr (hman app user happ huser)]
    exact h.named app user id happ huser
  live b r' hb hr := by
    rw [ids_congr (hman b.app b.user hb.app hb.user)]
    by_cases hba : b = a
    · subst hba
      rw [hself, Option.some.injEq] at hr
      subst hr
      exact ⟨htag, .inr (.inr rfl)⟩
    · rw [hrow b hb hba] at hr
      exact (h.live b r' hb hr).imp id fun hl => hl.imp id .inl

/-- One manifest is rewritten: what the new list has to be. -/
theorem Consistent.relist {owed' : Addr → Prop} (h : Consistent cfg owed w) (hfit : cfg.Fitting w'.store)
    {l : List Str} (hrow : ∀ b : Addr, b.Named → row b w' = row b w) (hids : ids a.app a.user w' = l)
    (hman : ∀ app user, Plain app → Plain user → ¬ (app = a.app ∧ user = a.user) →
      ids app user w' = ids app user w)
    (hnodup : (ids a.app a.user w).Nodup → l.Nodup)
    (hnamed : ∀ id ∈ l, id ∈ ids a.app a.user w ∨ Addr.Named ⟨a.app, a.user, id⟩)
    (howed : ∀ id r, row ⟨a.app, a.user, id⟩ w = some r →
      id ∈ ids a.app a.user w ∨ owed ⟨a.app, a.user, id⟩ → id ∈ l ∨ owed' ⟨a.app, a.user, id⟩)
    (hrest : ∀ b : Addr, ¬ (b.app = a.app ∧ b.user = a.user) → owed b → owed' b) : Consistent cfg owed' w' where
  fitting := hfit
  nodup app user happ huser := by
    by_cases hown : app = a.app ∧ user = a.user
    · obtain ⟨rfl, rfl⟩ := hown
      rw [hids]
      exact hnodup (h.nodup _ _ happ huser)
    · rw [hman app user happ huser hown]
      exact h.nodup app user happ huser
  named app user id happ huser hid := by
    by_cases hown : app = a.app ∧ user = a.user
    · obtain ⟨rfl, rfl⟩ := hown
      rw [hids] at hid
      rcases hnamed id hid with hold | hnew
      · exact h.named _ _ id happ huser hold
      · exact hnew
    · rw [hman app user happ huser hown] at hid
      exact h.named app user id happ huser hid
  live b r hb hr := by
    rw [hrow b hb] at hr
    obtain ⟨htag, hl⟩ := h.live b r hb hr
    refine ⟨htag, ?_⟩
    by_cases hown : b.app = a.app ∧ b.user = a.user
    · obtain ⟨app, user, id⟩ := b
      obtain ⟨rfl, rfl⟩ : app = a.app ∧ user = a.user := hown
      rw [hids]
      exact howed id r hr hl
    · rw [hman b.app b.user hb.app hb.user hown]
      exact hl.imp id (hrest b hown)

/-- An entry that the manifest does not have yet settles what is owed to its row. -/
theorem Consistent.addEntry (h : Consistent cfg owed w) (hfit : cfg.Fitting w'.store) (ha : a.Named)
    (hnew : a.id ∉ ids a.app a.user w) (hrow : ∀ b : Addr, b.Named → row b w' = row b w)
    (hids : ids a.app a.user w' = ids a.app a.user w ++ [a.id])
    (hman : ∀ app user, Plain app → Plain user → ¬ (app = a.app ∧ user = a.user) →
      ids app user w' = ids app user w) :
    Consistent cfg (fun b => owed b ∧ b ≠ a) w' := by
  refine h.relist hfit hrow hids hman (fun hnodup => ?_) (fun id hid => ?_) (fun id r _ hl => ?_) fun b hown ho => ?_
  · exact hnodup.append (List.nodup_singleton _) (by simpa using hnew)
  · rw [List.mem_append, List.mem_singleton] at hid
    rcases hid with hid | rfl
    · exact .inl hid
    · exact .inr ha
  · rw [List.mem_append, List.mem_singleton]
    by_cases hid : id = a.id
    · exact .inl (.inr hid)
    · exact hl.imp .inl fun ho => ⟨ho, fun hba => hid (congrArg Addr.id hba)⟩
  · exact ⟨ho, fun hba => hown ⟨congrArg Addr.app hba, congrArg Addr.user hba⟩⟩

/-- An entry may be taken off the manifest while its row does not exist. -/
theorem Consistent.dropEntry (h : Consistent cfg owed w) (hfit : cfg.Fitting w'.store)
    (hgone : a.id ∈ ids a.app a.user w → row a w = none)
    (hrow : ∀ b : Addr, b.Named → row b w' = row b w)
    (hids : ids a.app a.user w' = (ids a.app a.user w).filter (· ≠ a.id))
    (hman : ∀ app user, Plain app → Plain user → ¬ (app = a.app ∧ user = a.user) →
      ids app user w' = ids app user w) :
    Consistent cfg owed w' := by
  refine h.relist hfit hrow hids hman (fun hnodup => hnodup.filter _) (fun id hid => ?_) (fun id r hr hl => ?_)
    fun _ _ ho => ho
  · exact .inl (List.mem_of_mem_filter hid)
  · refine hl.imp (fun hmem => List.mem_filter.mpr ⟨hmem, ?_⟩) fun ho => ho
    have hne : id ≠ a.id := by
      rintro rfl
      rw [hgone hmem] at hr
      cases hr
    simpa using hne

/-- What is owed to a row that the manifest names has been settled. -/
theorem Consistent.settle (h : Consistent cfg (fun b => owed b ∨ b = a) w)
    (ha : a.id ∈ ids a.app a.user w) : Consistent cfg owed w := by
  refine ⟨h.fitting, h.nodup, h.named, fun b r hb hr => ?_⟩
  obtain ⟨htag, hmem | ho | rfl⟩ := h.live b r hb hr
  · exact ⟨htag, .inl hmem⟩
  · exact ⟨htag, .inr ho⟩
  · exact ⟨htag, .inl ha⟩

end Steps

/-! ### Requests -/

/-- The key is neither that of a row nor that of a manifest. -/
def Aside (key : Key) : Prop :=
  (∀ b : Addr, b.Named → b.sessionPk ≠ key) ∧
    ∀ app user, Plain app → Plain user → manifestPk app user ≠ key

theorem aside_of_set {key : Key} (h : key.set ≠ .sessions) : Aside key :=
  ⟨fun _ _ heq => h (heq ▸ rfl), fun _ _ _ _ heq => h (heq ▸ rfl)⟩

theorem aside_segmentPk {a : Addr} (ha : a.Named) (g : ℕ) : Aside (a.segmentPk g) :=
  ⟨fun _ hb => sessionPk_ne_segmentPk hb ha g,
    fun _ _ happ huser => (segmentPk_ne_manifestPk ha happ huser g).symm⟩

section Requests
variable {cfg : ServerConfig V P} {owed : Addr → Prop} {a : Addr} {w : World V P}

/-- A request that writes neither rows nor manifests. -/
theorem Consistent.exec_aside (h : Consistent cfg owed w) (inst : ℕ) (x : Weather) {q : Req V P}
    (hq : ∀ key ∈ q.keys, Aside key) : Consistent cfg owed (exec cfg inst x q w).2 := by
  refine h.frame (fitting_exec inst x q w h.fitting) (fun b hb => .inl ?_) fun app user happ huser => ?_
  · exact exec_get_of_notMem cfg inst x (fun hmem => (hq _ hmem).1 b hb rfl) w
  · exact exec_get_of_notMem cfg inst x (fun hmem => (hq _ hmem).2 app user happ huser rfl) w

theorem Consistent.exec_removeRow (h : Consistent cfg owed w) (inst : ℕ) (ha : a.Named) :
    Consistent cfg owed (exec cfg inst .calm (.remove a.sessionPk) w).2 := by
  refine h.frame (fitting_exec inst .calm _ w h.fitting) (fun b hb => ?_) fun app user happ huser => ?_
  · by_cases hba : b.sessionPk = a.sessionPk
    · refine .inr ?_
      change (ServerConfig.remove a.sessionPk w.store).2.get b.sessionPk = none
      rw [ServerConfig.remove_get, if_pos hba]
    · exact .inl (exec_get_of_notMem cfg inst .calm (by simpa [Req.keys] using hba) w)
  · exact exec_get_of_notMem cfg inst .calm
      (by simpa [Req.keys] using (sessionPk_ne_manifestPk ha happ huser).symm) w

theorem Consistent.exec_put (h : Consistent cfg owed w) (inst : ℕ) (ha : a.Named) {r : Record V P}
    (htag : Tagged a r) :
    let done := exec cfg inst .calm (.put a.sessionPk r) w
    done.1 = .ok () ∧ Consistent cfg (fun b => owed b ∨ b = a) done.2 ∨
      (∃ e, done.1 = .error e) ∧ done.2.store = w.store := by
  intro done
  have hdone : done = ((cfg.put a.sessionPk r w.store).1, w.withStore (cfg.put a.sessionPk r w.store).2) := rfl
  have hfit : cfg.Fitting done.2.store := fitting_exec inst .calm _ w h.fitting
  have hframe : ∀ key, key ≠ a.sessionPk → done.2.store.get key = w.store.get key := fun key hkey =>
    exec_get_of_notMem cfg inst .calm (by simpa [Req.keys] using hkey) w
  rcases ServerConfig.put_cases cfg a.sessionPk r w.store with ⟨-, hput⟩ | ⟨-, -, hput⟩ | ⟨-, -, hput⟩
  · rw [hdone, hput]
    exact .inr ⟨⟨_, rfl⟩, rfl⟩
  · have hself : row a done.2 = some r := by
      rw [hdone, hput]
      exact FMap.get_insert_self _ _ _
    refine .inl ⟨by rw [hdone, hput], h.putRow hfit hself htag (fun b hb hba => ?_) ?_⟩
    · exact hframe _ fun heq => hba ((sessionPk_inj hb ha).mp heq)
    · exact fun app user happ huser => hframe _ (sessionPk_ne_manifestPk ha happ huser).symm
  · rw [hdone, hput]
    exact .inr ⟨⟨_, rfl⟩, rfl⟩

/-- A write to one manifest leaves the rows and the other manifests alone. -/
theorem exec_manifest_frame (cfg : ServerConfig V P) (inst : ℕ) {app user : Str} (happ : Plain app)
    (huser : Plain user) (ops : List (Op V P)) (w : World V P) :
    (∀ b : Addr, b.Named →
      row b (exec cfg inst .calm (.operate (manifestPk app user) ops none) w).2 = row b w) ∧
    ∀ app' user', Plain app' → Plain user' → ¬ (app' = app ∧ user' = user) →
      ids app' user' (exec cfg inst .calm (.operate (manifestPk app user) ops none) w).2 =
        ids app' user' w := by
  refine ⟨fun b hb => ?_, fun app' user' happ' huser' hne => ids_congr ?_⟩
  · exact exec_get_of_notMem cfg inst .calm
      (by simpa [Req.keys] using sessionPk_ne_manifestPk hb happ huser) w
  · refine exec_get_of_notMem cfg inst .calm ?_ w
    simp only [Req.keys, List.mem_singleton]
    exact fun heq => hne ((manifestPk_inj happ' huser' happ huser).mp heq)

theorem Consistent.exec_addEntry (h : Consistent cfg owed w) (inst : ℕ) (ha : a.Named)
    (hnew : a.id ∉ ids a.app a.user w)
    (hok : (cfg.onRecord [.listAppend a.id] none (w.store.get (manifestPk a.app a.user))).1.isOk) :
    Consistent cfg (fun b => owed b ∧ b ≠ a)
      (exec cfg inst .calm (.operate (manifestPk a.app a.user) [.listAppend a.id] none) w).2 := by
  obtain ⟨hrow, hman⟩ := exec_manifest_frame cfg inst ha.app ha.user [.listAppend a.id] w
  refine h.addEntry (fitting_exec inst .calm _ w h.fitting) ha hnew hrow ?_ hman
  have hget : (exec cfg inst .calm (.operate (manifestPk a.app a.user) [.listAppend a.id] none)
      w).2.store.get (manifestPk a.app a.user) = _ := ServerConfig.operate_get_self
  rcases ids_listAppend hget with ⟨hbig, -⟩ | ⟨-, hids⟩
  · rw [hbig] at hok
    cases hok
  · exact hids

theorem Consistent.exec_dropEntry (h : Consistent cfg owed w) (inst : ℕ) {app user id : Str}
    (happ : Plain app) (huser : Plain user)
    (hgone : id ∈ ids app user w → row ⟨app, user, id⟩ w = none) :
    Consistent cfg owed
      (exec cfg inst .calm (.operate (manifestPk app user) [.listRemoveByValue id] none) w).2 := by
  obtain ⟨hrow, hman⟩ := exec_manifest_frame cfg inst happ huser [.listRemoveByValue id] w
  refine h.dropEntry (a := ⟨app, user, id⟩) (fitting_exec inst .calm _ w h.fitting) hgone hrow ?_ hman
  exact ids_listRemove h.fitting ServerConfig.operate_get_self

end Requests

/-! ### Listing -/

/-- What listing shows of an id, when all its reads succeed. -/
def showing (app user : Str) (w : World V P) (id : Str) : Option (Session V) :=
  match row ⟨app, user, id⟩ w with
  | none => none
  | some r =>
    if r.app = some app ∧ r.uid = some user then
      some ⟨⟨app, user, r.sid.getD id⟩, ∅, [], r.ts.getD 0⟩
    else none

theorem listed_shown {app user : Str} {w : World V P} {id : Str} (hid : id ∈ ids app user w) :
    listed app user (shown (fun _ => .none) app user w) id = showing app user w id := by
  obtain ⟨i, hi, hlast⟩ := exists_last_getElem? hid
  have hbins : bins (shown (fun _ => .none) app user w) _ = _ := bins_shown hi hlast
  simp only [Fault.error] at hbins
  unfold listed showing
  rw [hbins]
  cases row ⟨app, user, id⟩ w <;> rfl

section Listing
variable {cfg : ServerConfig V P} {w : World V P} {app user : Str}

/-- The listing run alone. -/
theorem perform_list (h : cfg.Fitting w.store) (env : Env V P) (inst : ℕ) (app user : Str) :
    ∃ w', perform env cfg ⟨inst, .listForUser app user⟩ w =
        (.ok (.sessions ((ids app user w).filterMap (showing app user w))), w') ∧
      Prunes cfg app user (fun id => (showing (V := V) app user w id).isSome) w w' := by
  obtain ⟨w', hrun, hp⟩ := run_listSessionsForUser h inst (fun _ => .none) app user
  have hlist : (ids app user w).filterMap (listed app user (shown (fun _ => .none) app user w)) =
      (ids app user w).filterMap (showing app user w) :=
    List.filterMap_congr fun id hid => listed_shown hid
  refine ⟨w', ?_, ⟨?_, hp.frame, hp.cache, hp.fitting⟩⟩
  · rw [perform_listForUser]
    have hrun' : alone cfg inst (listSessionsForUser app user) w = _ := hrun
    rw [hrun', hlist]
    rfl
  · rw [hp.ids]
    exact List.filter_congr fun id hid => by rw [listed_shown hid]

/-- Where nothing is owed, listing shows each row that exists once and nothing else. -/
theorem Consistent.list (h : Consistent cfg (fun _ => False) w) (env : Env V P) (inst : ℕ)
    (happ : Plain app) (huser : Plain user) :
    ∃ l w', perform env cfg ⟨inst, .listForUser app user⟩ w = (.ok (.sessions l), w') ∧
      (l.map fun s => s.addr.id).Nodup ∧
      ∀ id, id ∈ l.map (fun s => s.addr.id) ↔
        Addr.Named ⟨app, user, id⟩ ∧ (row ⟨app, user, id⟩ w).isSome := by
  obtain ⟨w', hrun, -⟩ := perform_list h.fitting env inst app user
  have hshow : ∀ id ∈ ids app user w, (showing app user w id).map (fun s => s.addr.id) =
      if (row ⟨app, user, id⟩ w).isSome then some id else none := fun id hid => by
    unfold showing
    cases hr : row ⟨app, user, id⟩ w with
    | none => rfl
    | some r =>
      have htag := (h.live _ r (h.named app user id happ huser hid) hr).1
      simp [htag.app, htag.uid, htag.sid]
  have hids : ((ids app user w).filterMap (showing app user w)).map (fun s => s.addr.id) =
      (ids app user w).filter fun id => (row ⟨app, user, id⟩ w).isSome := by
    rw [List.map_filterMap, List.filterMap_congr hshow]
    induction ids app user w with
    | nil => rfl
    | cons id l ih => by_cases hr : (row ⟨app, user, id⟩ w).isSome <;> simp [hr, ih]
  refine ⟨_, w', hrun, ?_, fun id => ?_⟩
  · rw [hids]
    exact (h.nodup app user happ huser).filter _
  · rw [hids, List.mem_filter]
    constructor
    · rintro ⟨hid, hr⟩
      exact ⟨h.named app user id happ huser hid, hr⟩
    · rintro ⟨hnamed, hr⟩
      obtain ⟨r, hrow⟩ := Option.isSome_iff_exists.mp hr
      exact ⟨(h.live _ r hnamed hrow).2.resolve_right not_false, hr⟩

end Listing

/-! ### Rows by the app index -/

/-- Every record with an `app` bin is the row of a session that it names. -/
def Labelled (w : World V P) : Prop :=
  ∀ key r app, w.store.get key = some r → key.set = .sessions → r.app = some app →
    ∃ a : Addr, a.Named ∧ key = a.sessionPk ∧ Tagged a r

/-- A record that names the session whose row it is, if it has an `app` bin. -/
def Labels (key : Key) (r : Record V P) : Prop :=
  key.set = .sessions → ∀ app, r.app = some app → ∃ a : Addr, a.Named ∧ key = a.sessionPk ∧ Tagged a r

/-- No operation writes the bins that say whose session it is. -/
theorem apply_tags (ops : List (Op V P)) (r : Record V P) :
    (Op.apply ops r).1.app = r.app ∧ (Op.apply ops r).1.uid = r.uid ∧ (Op.apply ops r).1.sid = r.sid := by
  unfold Op.apply
  generalize ({} : OpResult V P) = y
  induction ops generalizing r y with
  | nil => exact ⟨rfl, rfl, rfl⟩
  | cons op ops ih =>
    have hop : (op.write r).app = r.app ∧ (op.write r).uid = r.uid ∧ (op.write r).sid = r.sid := by
      cases op <;> exact ⟨rfl, rfl, rfl⟩
    obtain ⟨happ, huid, hsid⟩ := ih (op.write r) (op.read r y)
    exact ⟨happ.trans hop.1, huid.trans hop.2.1, hsid.trans hop.2.2⟩

/-- Operations on a row of one of the sessions `N` leave it that. -/
theorem tagged_apply {N : Addr → Prop} (ops : List (Op V P)) {key : Key} {old : Option (Record V P)}
    (h : ∀ r, old = some r → ∀ app, r.app = some app → ∃ a, N a ∧ key = a.sessionPk ∧ Tagged a r) :
    ∀ app, (Op.apply ops (old.getD {})).1.app = some app →
      ∃ a, N a ∧ key = a.sessionPk ∧ Tagged a (Op.apply ops (old.getD {})).1 := by
  intro app happ
  obtain ⟨htapp, htuid, htsid⟩ := apply_tags ops (old.getD {})
  cases old with
  | none =>
    rw [htapp] at happ
    cases happ
  | some r =>
    obtain ⟨a, ha, hkey, htag⟩ := h r rfl app (htapp ▸ happ)
    exact ⟨a, ha, hkey, ⟨htapp.trans htag.app, htuid.trans htag.uid, htsid.trans htag.sid⟩⟩

theorem labels_apply (ops : List (Op V P)) {key : Key} {old : Option (Record V P)}
    (h : ∀ r, old = some r → Labels key r) : Labels key (Op.apply ops (old.getD {})).1 :=
  fun hset => tagged_apply ops fun r hr => h r hr hset

/-- The rows that a request puts are labelled; operations leave labels alone. -/
theorem Labelled.exec {cfg : ServerConfig V P} {q : Req V P} {w : World V P} (h : Labelled w)
    (hq : ∀ key r, q = .put key r → Labels key r) (inst : ℕ) (x : Weather) :
    Labelled (Sessions.exec cfg inst x q w).2 := by
  have hstores : q.Stores cfg Labels := by
    cases q with
    | put key r => exact fun _ => hq key r rfl
    | operate key ops guard => exact fun old hold _ => labels_apply ops hold
    | batchWrite writes => exact fun y _ old hold _ => labels_apply y.2 hold
    | _ => trivial
  have heach : Each Labels w.store := fun key r hr hset app happ => h key r app hr hset happ
  exact fun key r app hr hset happ => heach.exec hstores inst x key r hr hset app happ

theorem labels_newRow {a : Addr} (ha : a.Named) (d : Dict V) (now : ℚ) :
    Labels a.sessionPk (newRow a d now : Record V P) := fun _ _ _ => ⟨a, ha, rfl, tagged_newRow a d now⟩

end AdkAerospike.Sessions
