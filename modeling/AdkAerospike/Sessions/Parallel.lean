import AdkAerospike.Program.Owners
import AdkAerospike.Sessions.Isolation
import AdkAerospike.Sessions.Sequential.Refinement

/-! Users whose session calls overlap. Each user makes one call after the other, on any
instances, and the calls of different users are interleaved request by request. As long as
nobody writes state of an app, nothing of a user is seen by another: every call returns what
it returns when the calls of its user are all there are. -/

namespace AdkAerospike.Sessions

open Program Data Codec Keys

variable {V P ρ : Type}

/-! ### Worlds that agree on some records -/

/-- The keys a request reads or writes. -/
def Req.touches : Req V P → List Key
  | .put key _ | .get key | .selectCur key | .remove key | .operate key _ _ => [key]
  | .batchRead keys | .batchReadBins keys => keys
  | .batchWrite writes => writes.map Prod.fst
  | _ => []

/-- The cache entry a request is about. -/
def Req.cached : Req V P → Option Str
  | .cacheGet pk | .cacheSet pk _ | .cachePop pk => some pk
  | _ => none

/-- The request names records in `K` and cache entries in `C`, and is no query. -/
structure Req.Within (K : Key → Prop) (C : Str → Prop) (q : Req V P) : Prop where
  touches : ∀ key ∈ q.touches, K key
  cached : ∀ pk ∈ q.cached, C pk
  named : ∀ app, q ≠ .query app

/-- The worlds agree on the records in `K` and on the cache entries in `C`. -/
structure World.Agree (K : Key → Prop) (C : Str → Prop) (w w' : World V P) : Prop where
  store : ∀ key, K key → w.store.get key = w'.store.get key
  cache : ∀ inst pk, C pk → w.cache inst pk = w'.cache inst pk

/-- The action does the same to stores that agree on `K`. -/
def Same (K : Key → Prop) (act : Store V P → ρ × Store V P) : Prop :=
  ∀ σ σ' : Store V P, (∀ key, K key → σ.get key = σ'.get key) →
    (act σ).1 = (act σ').1 ∧ ∀ key, K key → (act σ).2.get key = (act σ').2.get key

section Same
variable {K : Key → Prop} {C : Str → Prop} {cfg : ServerConfig V P} {key : Key}

theorem same_under {act : Store V P → Except Err ρ × Store V P} (h : Same K act) (f : Fault) :
    Same K (under f act) := fun σ σ' hσ => by
  unfold under
  cases f.error with
  | none => exact h σ σ' hσ
  | some e =>
    refine ⟨rfl, fun key hkey => ?_⟩
    dsimp only
    cases f.applied with
    | true => exact (h σ σ' hσ).2 key hkey
    | false => exact hσ key hkey

theorem same_put (hkey : K key) (bins : Record V P) : Same K (cfg.put key bins) := fun σ σ' hσ => by
  refine ⟨?_, fun key' hkey' => ?_⟩
  · unfold ServerConfig.put
    rw [hσ key hkey]
    cases σ'.get key with
    | some r => rfl
    | none => exact (ServerConfig.commit_fst bins () σ none).trans (ServerConfig.commit_fst bins () σ' none).symm
  · rw [ServerConfig.put_get, ServerConfig.put_get, hσ key hkey, hσ key' hkey']

theorem same_remove (hkey : K key) : Same K (ServerConfig.remove key : Store V P → _) := fun σ σ' hσ => by
  refine ⟨?_, fun key' hkey' => ?_⟩
  · unfold ServerConfig.remove
    rw [hσ key hkey]
    cases σ'.get key <;> rfl
  · rw [ServerConfig.remove_get, ServerConfig.remove_get, hσ key' hkey']

theorem same_operate (hkey : K key) (ops : List (Op V P)) (guard : Option ℕ) :
    Same K (cfg.operate key ops guard) := fun σ σ' hσ => by
  refine ⟨?_, fun key' hkey' => ?_⟩
  · rw [ServerConfig.operate_fst, ServerConfig.operate_fst, hσ key hkey]
  · rw [ServerConfig.operate_get, ServerConfig.operate_get, hσ key hkey, hσ key' hkey']

theorem same_batchWrite {writes : List (Key × List (Op V P))} (h : ∀ x ∈ writes, K x.1) (faults : ℕ → Fault) :
    Same K (cfg.batchWrite faults writes) := by
  induction writes generalizing faults with
  | nil => exact fun σ σ' hσ => ⟨rfl, hσ⟩
  | cons x rest ih =>
    intro σ σ' hσ
    have hoperate : Same K (cfg.operate x.1 x.2 none) := same_operate (h x (by simp)) x.2 none
    have hfirst := same_under hoperate (faults 0) σ σ' hσ
    have hrest := ih (fun y hy => h y (by simp [hy])) (fun i => faults (i + 1)) _ _ hfirst.2
    refine ⟨?_, hrest.2⟩
    simp only [ServerConfig.batchWrite]
    rw [hfirst.1, hrest.1]

variable {w w' : World V P} {q : Req V P}

theorem World.Agree.onStore (h : w.Agree K C w') {act : Store V P → ρ × Store V P} (hact : Same K act) :
    (w.onStore act).1 = (w'.onStore act).1 ∧ (w.onStore act).2.Agree K C (w'.onStore act).2 :=
  have hsame := hact _ _ h.store
  ⟨hsame.1, hsame.2, h.cache⟩

theorem World.Agree.reading (h : w.Agree K C w') (f : Fault) {x x' : Except Err ρ} (hx : x = x') :
    (w.reading f x).1 = (w'.reading f x').1 ∧ (w.reading f x).2.Agree K C (w'.reading f x').2 := by
  subst hx
  unfold World.reading
  cases f.error <;> exact ⟨rfl, h⟩

theorem batchRead_same {keys : List Key} (hkeys : ∀ key ∈ keys, K key) (h : w.Agree K C w') (faults : ℕ → Fault) :
    ServerConfig.batchRead faults keys w.store = ServerConfig.batchRead faults keys w'.store := by
  unfold ServerConfig.batchRead
  refine List.mapIdx_eq_mapIdx_iff.mpr fun i hi => ?_
  rw [h.store _ (hkeys _ (List.getElem_mem hi))]

theorem World.Agree.setCache (h : w.Agree K C w') (inst : ℕ) (pk : Str) (n : Option ℕ) :
    (w.setCache inst pk n).Agree K C (w'.setCache inst pk n) where
  store := h.store
  cache inst' pk' hpk' := by
    by_cases hsame : inst' = inst ∧ pk' = pk
    · obtain ⟨rfl, rfl⟩ := hsame
      rw [World.setCache_self, World.setCache_self]
    · have hne : inst' ≠ inst ∨ pk' ≠ pk := by
        by_contra hno
        exact hsame ⟨not_not.mp fun h => hno (.inl h), not_not.mp fun h => hno (.inr h)⟩
      rw [World.setCache_of_ne w n hne, World.setCache_of_ne w' n hne, h.cache inst' pk' hpk']

/-- A request within what the worlds agree on is answered alike, and they still agree. -/
theorem World.Agree.exec (h : w.Agree K C w') (hq : q.Within K C) (inst : ℕ) (x : Weather) :
    (exec cfg inst x q w).1 = (exec cfg inst x q w').1 ∧
      (exec cfg inst x q w).2.Agree K C (exec cfg inst x q w').2 := by
  have htouch := hq.touches
  cases q with
  | put key bins => exact h.onStore (same_under (same_put (htouch key (by simp [Req.touches])) bins) _)
  | get key =>
    refine h.reading x.whole ?_
    rw [ServerConfig.fetch, ServerConfig.fetch, h.store key (htouch key (by simp [Req.touches]))]
  | selectCur key =>
    refine h.reading x.whole ?_
    rw [ServerConfig.fetch, ServerConfig.fetch, h.store key (htouch key (by simp [Req.touches]))]
  | remove key => exact h.onStore (same_under (same_remove (htouch key (by simp [Req.touches]))) _)
  | operate key ops guard =>
    exact h.onStore (same_under (same_operate (htouch key (by simp [Req.touches])) ops guard) _)
  | batchRead keys => exact h.reading x.whole (congrArg Except.ok (batchRead_same htouch h x.record))
  | batchReadBins keys =>
    refine h.reading x.whole ?_
    have hkeys : ∀ key ∈ keys, K key := htouch
    rw [batchRead_same hkeys h x.record]
  | batchWrite writes =>
    have hwrites : ∀ y ∈ writes, K y.1 := fun y hy => htouch y.1 (List.mem_map_of_mem hy)
    refine h.onStore (same_under (fun σ σ' hσ => ?_) x.whole)
    have hbatch : Same K (cfg.batchWrite x.record writes) := same_batchWrite hwrites x.record
    obtain ⟨hstatus, hstore⟩ := hbatch σ σ' hσ
    exact ⟨congrArg Except.ok hstatus, hstore⟩
  | query app => exact absurd rfl (hq.named app)
  | cacheGet pk => exact ⟨h.cache inst pk (hq.cached pk rfl), h⟩
  | cacheSet pk n => exact ⟨rfl, h.setCache inst pk (some n)⟩
  | cachePop pk => exact ⟨rfl, h.setCache inst pk none⟩

/-- A request that writes outside of it leaves the agreement as it is. -/
theorem World.Agree.exec_left (h : w.Agree K C w') (hkeys : ∀ key ∈ q.keys, ¬ K key) (hcached : ∀ pk ∈ q.cached, ¬ C pk)
    (inst : ℕ) (x : Weather) : (Sessions.exec cfg inst x q w).2.Agree K C w' where
  store key hkey := (exec_get_of_notMem cfg inst x (fun hmem => hkeys key hmem hkey) w).trans (h.store key hkey)
  cache inst' pk hpk := by
    have hset : ∀ pk' n, ¬ C pk' → (w.setCache inst pk' n).cache inst' pk = w'.cache inst' pk := fun pk' n hno => by
      have hne : pk ≠ pk' := fun heq => hno (heq ▸ hpk)
      rw [World.setCache_of_ne w n (.inr hne), h.cache inst' pk hpk]
    cases q with
    | cacheSet pk' n => exact hset pk' (some n) (hcached pk' rfl)
    | cachePop pk' => exact hset pk' none (hcached pk' rfl)
    | cacheGet pk' => exact h.cache inst' pk hpk
    | put | remove | operate | batchWrite => exact h.cache inst' pk hpk
    | _ =>
      simp only [Sessions.exec, reading_snd]
      exact h.cache inst' pk hpk

end Same

/-! ### The users -/

/-- A user whose ids hold no separator. -/
abbrev Client := { u : Str × Str // Plain u.1 ∧ Plain u.2 }

namespace Client

/-- The records of the user: everything laid out like a session, and the state. -/
inductive Owns (o : Client) : Key → Prop
  | session (id : Str) : Owns o ⟨.sessions, sessionKey o.1.1 o.1.2 id⟩
  | state : Owns o (userPk o.1.1 o.1.2)

/-- What the user's calls read: the user's records, and the state of apps. -/
def Reads (o : Client) (key : Key) : Prop := o.Owns key ∨ key.set = .appState

def Caches (o : Client) (pk : Str) : Prop := ∃ id, pk = sessionKey o.1.1 o.1.2 id

variable {o o' : Client}

theorem eq_of_session {id id' : Str} (h : sessionKey o.1.1 o.1.2 id = sessionKey o'.1.1 o'.1.2 id') : o = o' :=
  have hids := (sessionKey_inj o.2.1 o'.2.1 o.2.2 o'.2.2).mp h
  Subtype.ext (Prod.ext hids.1 hids.2.1)

theorem Owns.unique {key : Key} (h : o.Owns key) (h' : o'.Reads key) : o = o' := by
  rcases h' with h' | hset
  · cases h with
    | session id =>
      generalize hkey : (⟨.sessions, sessionKey o.1.1 o.1.2 id⟩ : Key) = key at h'
      cases h' with
      | session id' => exact eq_of_session (congrArg Key.key hkey)
      | state => cases congrArg Key.set hkey
    | state =>
      generalize hkey : userPk o.1.1 o.1.2 = key at h'
      cases h' with
      | session id' => cases congrArg Key.set hkey
      | state =>
        have hids := (userStateKey_inj o.2.1 o'.2.1).mp (congrArg Key.key hkey)
        exact Subtype.ext (Prod.ext hids.1 hids.2)
  · cases h <;> cases hset

theorem Caches.unique {pk : Str} (h : o.Caches pk) (h' : o'.Caches pk) : o = o' := by
  obtain ⟨id, rfl⟩ := h
  obtain ⟨id', hpk⟩ := h'
  exact eq_of_session hpk

end Client

/-- The request reads what the user's calls may read and writes what is the user's. -/
structure Req.By (o : Client) (q : Req V P) : Prop where
  within : q.Within o.Reads o.Caches
  keys : ∀ key ∈ q.keys, o.Owns key

/-- No key of the map is the app's. -/
def Unshared (d : Dict V) : Prop := ∀ x ∈ d.entries, scopeOf x.1 ≠ .app

instance (d : Dict V) : Decidable (Unshared d) := inferInstanceAs (Decidable (∀ x ∈ d.entries, scopeOf x.1 ≠ .app))

theorem Unshared.app_eq_nil {d : Dict V} (h : Unshared d) : (partitionState d).app.entries = [] := by
  refine List.eq_nil_iff_forall_not_mem.mpr fun x hx => ?_
  obtain ⟨k, v⟩ := x
  rw [FMap.mem_entries_iff, get_partition_app, ← FMap.mem_entries_iff] at hx
  exact h _ hx (scopeOf_app k)

/-- A call of the user that writes no state of the app. -/
def ownedBy (o : Client) (l : Issued V) : Prop :=
  match l.call with
  | .create app user state _ _ _ => (app, user) = o.1 ∧ Unshared state
  | .append a e _ => (a.app, a.user) = o.1 ∧ Unshared e.stateDelta
  | .get a _ | .delete a => (a.app, a.user) = o.1
  | .listForUser app user => (app, user) = o.1
  | .listForApp _ => False

instance (o : Client) : DecidablePred (ownedBy o : Issued V → Prop)
  | ⟨_, .create ..⟩ | ⟨_, .append ..⟩ => inferInstanceAs (Decidable (_ ∧ _))
  | ⟨_, .get ..⟩ | ⟨_, .delete _⟩ | ⟨_, .listForUser ..⟩ => inferInstanceAs (Decidable (_ = _))
  | ⟨_, .listForApp _⟩ => inferInstanceAs (Decidable False)

section Owned
variable {o : Client} {a : Addr}

theorem owns_session (ha : (a.app, a.user) = o.1) : o.Owns a.sessionPk := by
  obtain ⟨⟨app, user⟩, h⟩ := o
  cases ha
  exact .session a.id

theorem owns_segment (ha : (a.app, a.user) = o.1) (g : ℕ) : o.Owns (a.segmentPk g) := by
  obtain ⟨⟨app, user⟩, h⟩ := o
  cases ha
  exact .session _

theorem owns_state (ha : (a.app, a.user) = o.1) : o.Owns (userPk a.app a.user) := by
  obtain ⟨⟨app, user⟩, h⟩ := o
  cases ha
  exact .state

theorem owns_manifest (ha : (a.app, a.user) = o.1) : o.Owns (manifestPk a.app a.user) := by
  obtain ⟨⟨app, user⟩, h⟩ := o
  cases ha
  exact .session _

theorem caches_session (ha : (a.app, a.user) = o.1) : o.Caches a.pkStr := by
  obtain ⟨⟨app, user⟩, h⟩ := o
  cases ha
  exact ⟨a.id, rfl⟩

variable {q : Req V P} {key : Key}

/-- A request about one record. -/
theorem by_one (hkey : o.Owns key) (htouch : q.touches = [key]) (hkeys : q.keys ⊆ [key]) (hcached : q.cached = none)
    (hnamed : ∀ app, q ≠ .query app) : q.By o := by
  refine ⟨⟨fun key' h => ?_, fun pk h => ?_, hnamed⟩, fun key' h => ?_⟩
  · rw [htouch, List.mem_singleton] at h
    exact .inl (h ▸ hkey)
  · rw [hcached] at h
    cases h
  · exact List.mem_singleton.mp (hkeys h) ▸ hkey

theorem by_operate (hkey : o.Owns key) (ops : List (Op V P)) (guard : Option ℕ) : (Req.operate key ops guard).By o :=
  by_one hkey rfl (List.Subset.refl _) rfl nofun

/-- A request about the cache. -/
theorem by_cache {pk : Str} (hpk : o.Caches pk) (htouch : q.touches = []) (hkeys : q.keys = [])
    (hcached : q.cached = some pk) (hnamed : ∀ app, q ≠ .query app) : q.By o := by
  refine ⟨⟨fun key h => ?_, fun pk' h => ?_, hnamed⟩, fun key h => ?_⟩
  · rw [htouch] at h
    cases h
  · rw [hcached, Option.mem_some_iff] at h
    exact h ▸ hpk
  · rw [hkeys] at h
    cases h

theorem by_batchRead {keys : List Key} (h : ∀ key ∈ keys, o.Reads key) : (Req.batchRead keys : Req V P).By o where
  within := ⟨h, nofun, nofun⟩
  keys := nofun

/-! ### Their calls -/

theorem by_place {k : Str} {v : InlineEvent V P} (ha : (a.app, a.user) = o.1) (hq : PlaceRequest a k v q) : q.By o := by
  cases hq with
  | put g => exact by_operate (owns_segment ha g) _ _
  | size g => exact by_operate (owns_segment ha g) _ _
  | bump n => exact by_operate (owns_session ha) _ _
  | selectCur => exact by_one (owns_session ha) rfl nofun rfl nofun
  | cacheGet => exact by_cache (caches_session ha) rfl rfl rfl nofun
  | cacheSet n => exact by_cache (caches_session ha) rfl rfl rfl nofun

theorem by_batch {k : Str} {v : InlineEvent V P} {d : Deltas V} (ha : (a.app, a.user) = o.1) (happ : d.app.entries = [])
    (g : ℕ) (now : ℚ) : (Req.batchWrite ((a.segmentPk g, [.mapPut k v]) :: stateWrites a d now)).By o := by
  have hown : ∀ x ∈ (a.segmentPk g, [Op.mapPut k v]) :: stateWrites a d now, o.Owns x.1 := fun x hx => by
    rcases List.mem_cons.mp hx with rfl | hx
    · exact owns_segment ha g
    rcases mem_stateWrites.mp hx with ⟨-, rfl⟩ | ⟨hne, -⟩ | ⟨-, rfl⟩
    · exact owns_session ha
    · exact absurd happ hne
    · exact owns_state ha
  have hkeys : ∀ key ∈ (Req.batchWrite ((a.segmentPk g, [.mapPut k v]) :: stateWrites a d now)).keys, o.Owns key :=
    fun key hkey => by
      obtain ⟨x, hx, rfl⟩ := List.mem_map.mp hkey
      exact hown x hx
  exact ⟨⟨fun key hkey => .inl (hkeys key hkey), nofun, nofun⟩, hkeys⟩

theorem by_get {env : Env V P} (ha : (a.app, a.user) = o.1) (hq : GetRequest env a q) : q.By o := by
  cases hq with
  | records =>
    refine by_batchRead fun key hkey => ?_
    simp only [List.mem_cons, List.not_mem_nil, or_false] at hkey
    rcases hkey with rfl | rfl | rfl
    · exact .inl (owns_session ha)
    · exact .inr rfl
    · exact .inl (owns_state ha)
  | cacheSet n => exact by_cache (caches_session ha) rfl rfl rfl nofun
  | segment h =>
    obtain ⟨g, N, T, rfl⟩ := h
    exact by_operate (owns_segment ha g) _ _

theorem by_delete (ha : (a.app, a.user) = o.1) (hq : DeleteRequest a q) : q.By o := by
  cases hq with
  | get => exact by_one (owns_session ha) rfl nofun rfl nofun
  | segment g => exact by_one (owns_segment ha g) rfl (List.Subset.refl _) rfl nofun
  | row => exact by_one (owns_session ha) rfl (List.Subset.refl _) rfl nofun
  | cachePop => exact by_cache (caches_session ha) rfl rfl rfl nofun
  | manifest => exact by_operate (owns_manifest ha) _ _

theorem uses_by {env : Env V P} {l : Issued V} (hl : ownedBy o l) : (l.call.body env).Uses (Req.By o) := by
  obtain ⟨inst, c⟩ := l
  cases c with
  | create app user state sessionId fresh now =>
    obtain ⟨ha, hunshared⟩ := hl
    have ha : ((Addr.mk app user (chooseId sessionId fresh)).app, (Addr.mk app user (chooseId sessionId fresh)).user) =
      o.1 := ha
    refine (uses_createSession_of (by_one (owns_session ha) rfl (List.Subset.refl _) rfl nofun)
      (by_cache (caches_session ha) rfl rfl rfl nofun) (fun hne => absurd hunshared.app_eq_nil hne)
      (by_operate (owns_state ha) _ _) (by_operate (owns_manifest ha) _ _) (by_batchRead fun key hkey => ?_)).bind
      fun _ => trivial
    simp only [List.mem_cons, List.not_mem_nil, or_false] at hkey
    rcases hkey with rfl | rfl
    · exact .inr rfl
    · exact .inl (owns_state ha)
  | append a e clock =>
    obtain ⟨ha, hunshared⟩ := hl
    exact (uses_persistEvent_of (fun _ _ => by_place ha) fun _ g => by_batch ha hunshared.app_eq_nil g _).bind
      fun _ => trivial
  | get a config => exact ((uses_getSession env a config).mono fun _ => by_get hl).bind fun _ => trivial
  | delete a => exact ((uses_deleteSession a).mono fun _ => by_delete hl).bind fun _ => trivial
  | listForUser app user =>
    have ha : ∀ id, ((Addr.mk app user id).app, (Addr.mk app user id).user) = o.1 := fun _ => hl
    refine (uses_listSessionsForUser_of (by_one (owns_manifest (ha [])) rfl nofun rfl nofun) (fun ids => ?_)
      fun id => by_operate (owns_manifest (ha id)) _ _).bind fun _ => trivial
    refine ⟨⟨fun key hkey => ?_, nofun, nofun⟩, nofun⟩
    obtain ⟨id, -, rfl⟩ := List.mem_map.mp hkey
    exact .inl (owns_session (ha id))
  | listForApp app => exact hl.elim

end Owned

/-! ### Side by side -/

theorem slices (env : Env V P) (cfg : ServerConfig V P) (x : Weather) :
    (service env cfg).Slices x ownedBy (fun o => Req.By o) (fun _ _ => Eq) (fun _ => True)
      fun o => World.Agree o.Reads o.Caches where
  heeds hl := (uses_by hl).heeds
  own _ hq _ h := h.exec hq.within _ x
  other ho _ hq _ h := h.exec_left (fun key hkey hreads => ho ((hq.keys key hkey).unique hreads))
    (fun pk hpk hcaches => ho ((hq.within.cached pk hpk).unique hcaches)) _ x

/-- However the calls of the users are interleaved, each call that has ended has come to what
it comes to when the calls of its user alone are made, one after the other; and where these
are such that the reference model follows them, it has returned what the model answers. -/
theorem users_side_by_side (env : Env V P) (cfg : ServerConfig V P)
    (s : Pool (Req V P) Ans Err (Reply V) (World V P) (Issued V))
    (hs : (service env cfg).Reach ((service env cfg).Turns .calm ownedBy fun _ => True) ⟨.empty, []⟩ s) (o : Client)
    (i : ℕ) (p : Proc (Req V P) Ans Err (Reply V) (Issued V)) (r : Except Err (Reply V))
    (hi : (System.ownCalls ownedBy o s)[i]? = some p) (hr : p.prog.outcome = some r) :
    (outputs (perform env cfg) (s.calls.filter fun l => ownedBy o l) .empty)[i]? = some r ∧
      ∀ (inst : ℕ) (calls : List (Call V)), (s.calls.filter fun l => ownedBy o l) = calls.map (Issued.mk inst) →
        Admits (fun c => perform env cfg ⟨inst, c⟩) (Compared env cfg) calls .empty →
          (outputs (Call.reference env) calls .empty)[i]? = some (r.map Reply.answer) := by
  have halone := (slices env cfg .calm).outcome hs rfl (fun _ => .empty) (fun _ => ⟨fun _ _ => rfl, fun _ _ _ => rfl⟩) hi hr
  refine ⟨halone, fun inst calls hcalls hok => ?_⟩
  have hsim : List.Forall₂ (fun t t' => Except.map Reply.answer t = t')
      (outputs (fun c => perform env cfg ⟨inst, c⟩) calls .empty) (outputs (Call.reference env) calls .empty) := by
    refine outputs_forall₂ (R := Mirrors env cfg inst) (fun c w M hc hw => ?_) hok (mirrors_empty env cfg inst)
    exact ⟨(hw.step hc).answer, (hw.step hc).mirrors⟩
  rw [← List.forall₂_map_left_iff, List.forall₂_eq_eq_eq] at hsim
  rw [hcalls, outputs_map] at halone
  rw [← hsim, List.getElem?_map]
  exact congrArg (Option.map _) halone

namespace Small

/-- Two users create sessions of the same name at the same time, and one of them reads it. -/
def sideBySide : Pool (Req ℕ (Event ℕ)) Ans Err (Reply ℕ) (World ℕ (Event ℕ)) (Issued ℕ) :=
  (service env cfg).run [.spawn ⟨0, .create ['a'] ['u'] ∅ (some ['s']) [] 1⟩,
    .spawn ⟨1, .create ['a'] ['v'] ∅ (some ['s']) [] 2⟩, .step 0 .calm, .step 1 .calm, .step 1 .calm, .step 0 .calm,
    .step 0 .calm, .step 1 .calm, .step 0 .calm, .spawn ⟨0, .get addr {}⟩, .step 2 .calm, .step 1 .calm, .step 2 .calm,
    .step 2 .calm] ⟨.empty, []⟩

theorem plain_first : Plain ['a'] ∧ Plain ['u'] := by decide

theorem plain_second : Plain ['a'] ∧ Plain ['v'] := by decide

def clients : Client × Client := (⟨(['a'], ['u']), plain_first⟩, ⟨(['a'], ['v']), plain_second⟩)

theorem reach_sideBySide :
    (service env cfg).Reach ((service env cfg).Turns .calm ownedBy fun _ => True) ⟨.empty, []⟩ sideBySide := by
  have hnone : Unshared (∅ : Dict ℕ) := nofun
  refine System.reach_run ⟨⟨fun o _ p hp => ?_, .inl ⟨clients.1, rfl, hnone⟩⟩,
    ⟨fun o ho p hp hown => ?_, .inl ⟨clients.2, rfl, hnone⟩⟩, ⟨rfl, trivial⟩, ⟨rfl, trivial⟩, ⟨rfl, trivial⟩,
    ⟨rfl, trivial⟩, ⟨rfl, trivial⟩, ⟨rfl, trivial⟩, ⟨rfl, trivial⟩, ⟨fun o ho p hp hown => ?_, .inl ⟨clients.1, rfl⟩⟩,
    ⟨rfl, trivial⟩, ⟨rfl, trivial⟩, ⟨rfl, trivial⟩, ⟨rfl, trivial⟩, trivial⟩
  · cases hp
  · rw [List.mem_singleton.mp hp] at hown
    cases congrArg Prod.snd (ho.1.trans hown.1.symm)
  · rcases List.mem_pair.mp hp with rfl | rfl
    · rfl
    · cases congrArg Prod.snd (Eq.trans ho hown.1.symm)

/-- The calls of the first of the two. -/
def ownTurns : List (Call ℕ) := [.create ['a'] ['u'] ∅ (some ['s']) [] 1, .get addr {}]

theorem admits_ownTurns : Admits (fun c => perform env cfg ⟨0, c⟩) (Compared env cfg) ownTurns .empty :=
  ⟨⟨⟨named_addr, fun _ => ⟨by decide, nofun⟩⟩, fun _ => nofun⟩, ⟨named_addr, trivial⟩, trivial⟩

end Small

open Sessions.Small in
theorem users_side_by_side_small :
    ∃ r, (outputs (perform env cfg) (ownTurns.map (Issued.mk 0)) .empty)[1]? = some r ∧
      (outputs (Call.reference env) ownTurns .empty)[1]? = some (r.map Reply.answer) :=
  have hboth := users_side_by_side env cfg sideBySide reach_sideBySide clients.1 1 _ _ rfl rfl
  ⟨_, hboth.1, hboth.2 0 ownTurns rfl admits_ownTurns⟩

end AdkAerospike.Sessions
