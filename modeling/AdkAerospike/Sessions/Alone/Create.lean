import AdkAerospike.Sessions.Alone.Basic
import AdkAerospike.Sessions.Footprint

/-! `create_session` run alone. The row comes first and decides whether there is a
new session; the writes after it go to the shared state and to the manifest, and
touch neither the row's index nor any segment. -/

namespace AdkAerospike.Sessions

open Program Data Codec Keys

variable {V P : Type} {cfg : ServerConfig V P} {inst : ℕ} {a : Addr} {w : World V P}

/-- The world in which a new session's row is put and cached. -/
def withRow (w : World V P) (inst : ℕ) (a : Addr) (r : Record V P) : World V P :=
  (w.withStore (w.store.insert a.sessionPk r)).setCache inst a.pkStr (some 0)

theorem alone_createSession (app user : Str) (state : Dict V) (sessionId : Option Str) (fresh : Str)
    (now : ℚ) (w : World V P) :
    let a : Addr := ⟨app, user, chooseId sessionId fresh⟩
    let d := partitionState state
    alone cfg inst (createSession app user state sessionId fresh now) w =
      match row a w with
      | some _ => (.error .recordExists, w)
      | none =>
        if cfg.Fits (newRow a d.session now) then
          alone cfg inst (createRest a d now) (withRow w inst a (newRow a d.session now))
        else (.error .recordTooBig, w) := by
  intro a d
  have hput := @alone_retried_put V P cfg inst a.sessionPk (newRow a d.session now) false
    overloadMaxRetries w
  unfold createSession
  simp only [Prog.bind_eq, Prog.pure_eq]
  rcases hr : w.store.get a.sessionPk with _ | r
  · simp only [row, hr]
    by_cases hfits : cfg.Fits (newRow a d.session now)
    · rw [ServerConfig.put_of_fits hr hfits] at hput
      rw [if_pos hfits, alone_bind_ok hput, alone_bind_ok (alone_cacheSet _ _ _)]
      rfl
    · rw [ServerConfig.put_of_big hr hfits] at hput
      rw [if_neg hfits, alone_bind_error hput]
      rfl
  · rw [ServerConfig.put_of_exists hr] at hput
    simp only [row, hr]
    rw [alone_bind_error hput]
    rfl

/-! ### The writes after the row -/

/-- Writes to single records, one request each; the first that fails ends it. -/
def writeAll : List (Key × List (Op V P)) → Service V P Unit
  | [] => .ret ()
  | x :: xs => (operate x.1 x.2).bind fun _ => writeAll xs

/-- The state writes of `create_session`. -/
def sharedWrites (a : Addr) (d : Deltas V) : List (Key × List (Op V P)) :=
  (if d.app.entries.isEmpty then [] else [(appPk a.app, [.mapPutItems d.app])]) ++
  (if d.user.entries.isEmpty then [] else [(userPk a.app a.user, [.mapPutItems d.user])])

/-- All writes of `create_session` after the row, the manifest entry last. -/
def followWrites (a : Addr) (d : Deltas V) : List (Key × List (Op V P)) :=
  sharedWrites a d ++ [(manifestPk a.app a.user, [.listAppend a.id])]

theorem sharedWrites_cases {d : Deltas V} {x : Key × List (Op V P)} (hx : x ∈ sharedWrites a d) :
    x = (appPk a.app, [.mapPutItems d.app]) ∨ x = (userPk a.app a.user, [.mapPutItems d.user]) := by
  rcases List.mem_append.mp hx with hx | hx <;> split_ifs at hx <;>
    simp only [List.not_mem_nil, List.mem_singleton] at hx
  · exact .inl hx
  · exact .inr hx

theorem sharedWrites_nodup (a : Addr) (d : Deltas V) :
    ((sharedWrites a d : List (Key × List (Op V P))).map Prod.fst).Nodup := by
  unfold sharedWrites
  split_ifs <;> simp [appPk, userPk]

/-- The read-back that ends `create_session`. -/
def readMerged (a : Addr) (d : Deltas V) (now : ℚ) : Service V P (Session V) :=
  (mergeStateForRead a.app a.user d.session).bind fun merged => .ret ⟨a, merged, [], now⟩

theorem createRest_eq (a : Addr) (d : Deltas V) (now : ℚ) :
    (createRest a d now : Service V P _) = (writeAll (followWrites a d)).bind fun _ => readMerged a d now := by
  unfold createRest followWrites sharedWrites mergeDelta mergeScopedState manifestAdd readMerged
  split_ifs <;> simp only [Prog.bind_eq, Prog.pure_eq, Prog.bind_assoc, writeAll, List.nil_append,
    List.cons_append] <;> rfl

theorem alone_readMerged (a : Addr) (d : Deltas V) (now : ℚ) (w : World V P) :
    alone cfg inst (readMerged a d now) w =
      (.ok ⟨a, mergeState (stateOf (w.store.get (appPk a.app))) (stateOf (w.store.get (userPk a.app a.user)))
        d.session, [], now⟩, w) := by
  obtain ⟨out, hout, hbins⟩ :=
    @alone_batchRead V P cfg inst [appPk a.app, userPk a.app a.user] (by simp) w
  have hmerge : alone cfg inst (mergeStateForRead a.app a.user d.session) w =
      (.ok (mergeState (stateOf (bins out (appPk a.app))) (stateOf (bins out (userPk a.app a.user)))
        d.session), w) := alone_bind_ok hout
  rw [readMerged, alone_bind_ok hmerge, hbins _ (by simp), hbins _ (by simp)]
  rfl

theorem writeAll_append (xs ys : List (Key × List (Op V P))) :
    writeAll (xs ++ ys) = (writeAll xs).bind fun _ => writeAll ys := by
  induction xs with
  | nil => rfl
  | cons x xs ih => rw [List.cons_append, writeAll, ih, writeAll, Prog.bind_assoc]

/-- Writes to different records of which none is refused do what a batch of them does. -/
theorem alone_writeAll {writes : List (Key × List (Op V P))} (hd : (writes.map Prod.fst).Nodup)
    (hok : ∀ x ∈ writes, (cfg.onRecord x.2 none (w.store.get x.1)).1.isOk) :
    alone cfg inst (writeAll writes) w =
      (.ok (), w.withStore (cfg.batchWrite (fun _ => .none) writes w.store).2) := by
  induction writes generalizing w with
  | nil => rfl
  | cons x xs ih =>
    have hd' := List.nodup_cons.mp hd
    have hop : alone cfg inst (operate x.1 x.2) w = _ := alone_operate x.1 x.2 none w
    have hx := hok x (by simp)
    rw [← ServerConfig.operate_fst] at hx
    rcases hans : (cfg.operate x.1 x.2 none w.store).1 with e | y
    · rw [hans] at hx
      cases hx
    · rw [hans] at hop
      rw [writeAll, alone_bind_ok hop, ih hd'.2]
      · rfl
      · intro z hz
        have hne : z.1 ≠ x.1 := fun heq => hd'.1 (List.mem_map.mpr ⟨z, hz, heq⟩)
        rw [World.withStore_store, ServerConfig.operate_get_of_ne hne]
        exact hok z (by simp [hz])

/-- The body of a creation with its writes in a list. -/
theorem body_create (env : Env V P) (app user : Str) (state : Dict V) (sessionId : Option Str) (fresh : Str)
    (now : ℚ) :
    let a : Addr := ⟨app, user, chooseId sessionId fresh⟩
    let d := partitionState state
    (Call.create app user state sessionId fresh now).body env =
      (writeRetryingOverload (put a.sessionPk (newRow a d.session now)) false overloadMaxRetries).bind fun _ =>
        (cacheSet a.pkStr 0).bind fun _ => (writeAll (followWrites a d)).bind fun _ =>
          (readMerged a d now).bind fun s => .ret (.session s) := by
  intro a d
  have hcreate : (createSession app user state sessionId fresh now : Service V P _) =
      (writeRetryingOverload (put a.sessionPk (newRow a d.session now)) false overloadMaxRetries).bind
        fun _ => (cacheSet a.pkStr 0).bind fun _ => createRest a d now := rfl
  change (createSession app user state sessionId fresh now).bind _ = _
  rw [hcreate, createRest_eq]
  simp only [Prog.bind_assoc]
  rfl

/-- The writes after the row leave all other records and the cached indices alone. -/
theorem get_createRest (cfg : ServerConfig V P) (inst : ℕ) (d : Deltas V) (now : ℚ) (w : World V P) {key : Key}
    (hkey : ∀ q : Req V P, FollowRequest a q → key ∉ q.keys) :
    (alone cfg inst (createRest a d now) w).2.store.get key = w.store.get key :=
  (uses_createRest a d now).run_invariant (I := fun v : World V P => v.store.get key = w.store.get key)
    (fun q v hq hv => (exec_get_of_notMem cfg inst .calm (hkey q hq) v).trans hv) rfl

theorem cache_createRest (cfg : ServerConfig V P) (inst : ℕ) (d : Deltas V) (now : ℚ) (w : World V P) :
    (alone cfg inst (createRest a d now) w).2.cache = w.cache :=
  (uses_createRest a d now).run_invariant (I := fun v : World V P => v.cache = w.cache)
    (fun q v hq hv => by cases hq <;> exact hv) rfl

/-! ### A new session -/

/-- No record, segment or cached index of the session is left. -/
structure Unused (a : Addr) (w : World V P) : Prop where
  row : row a w = none
  segs : ∀ g, w.store.get (a.segmentPk g) = none
  cache : ∀ i, w.cache i a.pkStr = none

/-- The session is new: its row has index 0, and there is nothing else. -/
structure Blank (a : Addr) (w : World V P) : Prop where
  row : ∃ r, Sessions.row a w = some r ∧ r.cur = some 0
  segs : ∀ g, w.store.get (a.segmentPk g) = none

/-- A new session is sound, and its log is empty. -/
theorem Blank.sound (cfg : ServerConfig V P) (h : Blank a w) :
    Sound cfg a w ∧ (logOf a w).cur = 0 ∧ ∀ g, segment a w g = .empty := by
  obtain ⟨⟨r, hr, hc⟩, hsegs⟩ := h
  have hcur : (logOf a w).cur = 0 := by simp [logOf, hr, hc]
  refine ⟨⟨⟨r, hr, by rw [hcur, hc]⟩, fun g r' hr' => ?_⟩, hcur, fun g => by simp [segment, hsegs g]⟩
  rw [hsegs g] at hr'
  cases hr'

theorem Blank.not_holds (h : Blank a w) (k : Str) (v : InlineEvent V P) : ¬ (logOf a w).Holds k v := by
  rintro ⟨g, hg⟩
  have hempty : (logOf a w).seg g = .empty := by simp [logOf, segment, h.segs g]
  rw [hempty] at hg
  cases hg

/-- The key of a segment ends in a digit, that of a manifest does not. -/
theorem manifestPk_ne_segmentPk {app user : Str} (a : Addr) (g : ℕ) : manifestPk app user ≠ a.segmentPk g := by
  intro h
  have hkey : sessionManifestKey app user = segmentKey a.app a.user a.id g := congrArg Key.key h
  have hletter : ['l'] <:+ sessionManifestKey app user := ⟨app ++ sep :: (user ++ [sep, 's']), by
    simp [sessionManifestKey, sessionManifestSuffix]⟩
  have hdigits : padNat 8 g <:+ segmentKey a.app a.user a.id g :=
    ⟨a.app ++ sep :: (a.user ++ sep :: (a.id ++ sep :: segmentKeyPrefix)), by simp [segmentKey]⟩
  have hlast : ['l'] <:+ padNat 8 g :=
    List.suffix_of_suffix_length_le (hkey ▸ hletter) hdigits (List.length_pos_iff.mpr (padNat_ne_nil 8 g))
  exact notMem_of_digits (padNat_digits 8 g) rfl (hlast.subset (List.mem_singleton_self 'l'))

/-- A `list_append` keeps a row's index. -/
theorem onRecord_listAppend (cfg : ServerConfig V P) (id : Str) (r : Record V P) :
    ∃ m, (cfg.onRecord [.listAppend id] none (some r)).2 = some { r with sman := m } := by
  rcases cfg.onRecord_snd [.listAppend id] none (some r) with h | ⟨-, h, -⟩
  · exact ⟨r.sman, h⟩
  · exact ⟨_, h⟩

theorem Blank.of_get {w' : World V P} (h : Blank a w)
    (hrow : w'.store.get a.sessionPk = w.store.get a.sessionPk)
    (hsegs : ∀ g, w'.store.get (a.segmentPk g) = w.store.get (a.segmentPk g)) : Blank a w' := by
  obtain ⟨r, hr, hc⟩ := h.row
  exact ⟨⟨r, hrow.trans hr, hc⟩, fun g => (hsegs g).trans (h.segs g)⟩

theorem Blank.step (cfg : ServerConfig V P) (inst : ℕ) (h : Blank a w) {q : Req V P}
    (hq : FollowRequest a q) : Blank a (exec cfg inst .calm q w).2 := by
  have hother : ∀ (key : Key) (ops : List (Op V P)), key.set ≠ .sessions →
      Blank a (exec cfg inst .calm (.operate key ops none) w).2 := fun key ops hset => by
    have hne : ∀ key', key'.set = .sessions → key' ≠ key := fun key' hs heq => hset (heq ▸ hs)
    exact h.of_get (ServerConfig.operate_get_of_ne (hne _ rfl))
      fun g => ServerConfig.operate_get_of_ne (hne _ rfl)
  cases hq with
  | app d => exact hother _ _ nofun
  | user d => exact hother _ _ nofun
  | read keys => exact h
  | manifest =>
    have hsegs : ∀ g, (exec cfg inst .calm (.operate (manifestPk a.app a.user) [.listAppend a.id] none)
        w).2.store.get (a.segmentPk g) = w.store.get (a.segmentPk g) := fun g =>
      ServerConfig.operate_get_of_ne (manifestPk_ne_segmentPk a g).symm
    by_cases hm : manifestPk a.app a.user = a.sessionPk
    · -- a session called like the manifest shares its record
      obtain ⟨r, hr, hc⟩ := h.row
      have hr : w.store.get a.sessionPk = some r := hr
      obtain ⟨m, hrow⟩ := onRecord_listAppend cfg a.id r
      refine ⟨⟨{ r with sman := m }, ?_, hc⟩, fun g => (hsegs g).trans (h.segs g)⟩
      change (cfg.operate (manifestPk a.app a.user) [.listAppend a.id] none w.store).2.get a.sessionPk = _
      rw [hm, ServerConfig.operate_get_self, hr, hrow]
    · exact h.of_get (ServerConfig.operate_get_of_ne (Ne.symm hm)) hsegs

/-- The writes after the row leave a new session blank. -/
theorem Blank.createRest (cfg : ServerConfig V P) (inst : ℕ) (h : Blank a w) (d : Deltas V) (now : ℚ) :
    Blank a (alone cfg inst (createRest a d now) w).2 ∧
      (alone cfg inst (createRest a d now) w).2.cache = w.cache := by
  refine ⟨?_, cache_createRest cfg inst d now w⟩
  exact (uses_createRest a d now).run_invariant (I := Blank a) (fun _ v hq hv => hv.step cfg inst hq) h

/-- A world in which the session has just been created by a complete call, for
the first time. -/
def Created (env : Env V P) (cfg : ServerConfig V P) (a : Addr) (w : World V P) : Prop :=
  ∃ inst state sessionId fresh now r w₀, Unused a w₀ ∧ a.id = chooseId sessionId fresh ∧
    perform env cfg ⟨inst, .create a.app a.user state sessionId fresh now⟩ w₀ = (.ok r, w)

/-- What that call has done: it has written the row, within the size limit, and then the rest. -/
theorem Created.cases {env : Env V P} (h : Created env cfg a w) :
    ∃ inst d now w₀, Unused a w₀ ∧ cfg.Fits (newRow a d.session now) ∧
      w = (alone cfg inst (createRest a d now) (withRow w₀ inst a (newRow a d.session now))).2 := by
  obtain ⟨inst, state, sessionId, fresh, now, r, w₀, hun, hid, hrun⟩ := h
  have ha : (⟨a.app, a.user, chooseId sessionId fresh⟩ : Addr) = a := by rw [← hid]
  have hcreate := @alone_createSession V P cfg inst a.app a.user state sessionId fresh now w₀
  rw [perform_create, Prod.mk.injEq] at hrun
  simp only [ha, hun.row] at hcreate
  split_ifs at hcreate with hfits
  · exact ⟨inst, partitionState state, now, w₀, hun, hfits, by rw [← hcreate, hrun.2]⟩
  · rw [hcreate] at hrun
    cases hrun.1

/-- The session is blank then, and no instance caches another index than 0. -/
theorem Created.blank {env : Env V P} (h : Created env cfg a w) :
    Blank a w ∧ ∀ i n, w.cache i a.pkStr = some n → n = 0 := by
  obtain ⟨inst, d, now, w₀, hun, -, rfl⟩ := h.cases
  have hblank : Blank a (withRow w₀ inst a (newRow a d.session now)) := by
    refine ⟨⟨_, FMap.get_insert_self _ _ _, rfl⟩, fun g => ?_⟩
    exact (FMap.get_insert_of_ne _ _ (segmentPk_ne_sessionPk a g)).trans (hun.segs g)
  obtain ⟨hb, hc⟩ := hblank.createRest cfg inst d now
  refine ⟨hb, fun i n hn => ?_⟩
  rw [hc] at hn
  by_cases hi : i = inst
  · subst hi
    rw [withRow, World.setCache_self, Option.some.injEq] at hn
    exact hn.symm
  · rw [withRow, World.setCache_of_ne _ _ (.inl hi)] at hn
    have hnone := hun.cache i
    rw [show w₀.cache i a.pkStr = some n from hn] at hnone
    cases hnone

/-- The session's row is within the size limit. -/
def RowFits (cfg : ServerConfig V P) (a : Addr) (w : World V P) : Prop := ∀ r, row a w = some r → cfg.Fits r

/-- It stays so, whatever is asked of the server. -/
theorem RowFits.exec (h : RowFits cfg a w) (inst : ℕ) (x : Weather) (q : Req V P) :
    RowFits cfg a (exec cfg inst x q w).2 := by
  have hrow : Each (fun key r => key = a.sessionPk → cfg.Fits r) w.store := by
    rintro key r hr rfl
    exact h r hr
  exact fun r hr => fits_exec inst x q w hrow _ r hr rfl

theorem Created.rowFits {env : Env V P} (h : Created env cfg a w) : RowFits cfg a w := by
  obtain ⟨inst, d, now, w₀, -, hfits, rfl⟩ := h.cases
  refine (uses_createRest a d now).run_invariant (I := RowFits cfg a) (fun q v _ hv => hv.exec inst .calm q) fun r hr => ?_
  have hnew : row a (withRow w₀ inst a (newRow a d.session now)) = some (newRow a d.session now) :=
    FMap.get_insert_self _ _ _
  rw [hnew, Option.some.injEq] at hr
  exact hr ▸ hfits

namespace Small

def addr : Addr := ⟨['a'], ['u'], ['s']⟩

/-- The empty world after `addr` was created in it. -/
def created : World ℕ (Event ℕ) :=
  (perform Small.env Small.cfg ⟨0, .create ['a'] ['u'] ∅ (some ['s']) [] 1⟩ .empty).2

theorem created_created : Created Small.env Small.cfg addr created := by
  have hok : (perform Small.env Small.cfg ⟨0, .create ['a'] ['u'] ∅ (some ['s']) [] 1⟩ .empty).1.isOk := by
    decide +kernel
  rcases hr : (perform Small.env Small.cfg ⟨0, .create ['a'] ['u'] ∅ (some ['s']) [] 1⟩ .empty).1 with e | r
  · rw [hr] at hok
    cases hok
  · exact ⟨0, ∅, some ['s'], [], 1, r, .empty, ⟨rfl, fun _ => rfl, fun _ => rfl⟩, rfl,
      Prod.ext hr rfl⟩

end Small

end AdkAerospike.Sessions
