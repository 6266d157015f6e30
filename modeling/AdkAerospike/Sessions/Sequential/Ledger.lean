import AdkAerospike.Sessions.Alone.Append
import AdkAerospike.Sessions.Alone.Delete
import AdkAerospike.Sessions.Alone.Read

/-! Complete calls on one session, made one after the other from any number of
instances. A ledger records which appends have returned since the session was last
created; the log of a live session holds exactly what the ledger says, as long as
no append goes past the stored index or to a session that is gone. -/

namespace AdkAerospike.Sessions

open Program Data Codec Keys

variable {V P : Type}

section Calls
variable {env : Env V P} {cfg : ServerConfig V P} {a : Addr} {w : World V P} {inst : ℕ}

/-! ### What complete calls do to the log -/

/-- There is nothing of the session. -/
structure Gone (a : Addr) (w : World V P) : Prop where
  row : row a w = none
  segs : ∀ g, w.store.get (a.segmentPk g) = none

/-- The session exists, and nothing is stored past its index. -/
structure Live (cfg : ServerConfig V P) (a : Addr) (w : World V P) : Prop extends Sound cfg a w where
  topped : (logOf a w).Topped

theorem Gone.readable (h : Gone a w) : Readable a w := fun g => by
  have hempty : segment a w g = .empty := by simp [segment, h.segs g]
  rw [hempty]
  exact Nat.zero_le _

/-- `create_session` opens a session where there is none. -/
theorem Gone.create (h : Gone a w) (env : Env V P) (cfg : ServerConfig V P) (inst : ℕ)
    {app user fresh : Str} {state : Dict V} {sessionId : Option Str} {now : ℚ}
    (ha : a = ⟨app, user, chooseId sessionId fresh⟩) :
    let w' := (perform env cfg ⟨inst, .create app user state sessionId fresh now⟩ w).2
    Gone a w' ∨ Live cfg a w' ∧ ∀ k v, ¬ (logOf a w').Holds k v := by
  intro w'
  subst ha
  have hrun := @alone_createSession V P cfg inst app user state sessionId fresh now w
  have hw' : w' = (alone cfg inst (createSession app user state sessionId fresh now) w).2 :=
    congrArg Prod.snd (perform_create ..)
  simp only [h.row] at hrun
  rw [hw', hrun]
  split_ifs with hfits
  · right
    have hblank : Blank ⟨app, user, chooseId sessionId fresh⟩ (withRow w inst ⟨app, user, chooseId sessionId fresh⟩
        (newRow ⟨app, user, chooseId sessionId fresh⟩ (partitionState state).session now)) := by
      refine ⟨⟨_, FMap.get_insert_self _ _ _, rfl⟩, fun g => ?_⟩
      exact (FMap.get_insert_of_ne _ _ (segmentPk_ne_sessionPk _ g)).trans (h.segs g)
    have hblank' := (hblank.createRest cfg inst (partitionState state) now).1
    obtain ⟨hsound, -, hempty⟩ := hblank'.sound cfg
    exact ⟨⟨hsound, fun g _ => hempty g⟩, hblank'.not_holds⟩
  · exact .inl h

/-- `create_session` leaves a session that exists alone. -/
theorem perform_create_of_row {app user fresh : Str} {state : Dict V} {sessionId : Option Str}
    {now : ℚ} (ha : a = ⟨app, user, chooseId sessionId fresh⟩) (hr : (row a w).isSome) :
    (perform env cfg ⟨inst, .create app user state sessionId fresh now⟩ w).2 = w := by
  subst ha
  obtain ⟨r, hr⟩ := Option.isSome_iff_exists.mp hr
  have hrun := @alone_createSession V P cfg inst app user state sessionId fresh now w
  simp only [hr] at hrun
  rw [perform_create, hrun]

/-- `get_session` writes nothing but the index it has read to the cache. -/
theorem perform_get_snd (env : Env V P) (cfg : ServerConfig V P) (inst : ℕ) (hw : Readable a w) (config : GetSessionConfig) :
    (perform env cfg ⟨inst, .get a config⟩ w).2 = w ∨
      ∃ r, row a w = some r ∧ (perform env cfg ⟨inst, .get a config⟩ w).2 =
        w.setCache inst a.pkStr (some (r.cur.getD 0)) := by
  rw [perform_get, alone_getSession hw]
  cases hr : row a w with
  | none => exact .inl rfl
  | some r => exact .inr ⟨r, rfl, rfl⟩

/-- `delete_session` leaves nothing of a session whose segments end at its index. -/
theorem Live.delete (h : Live cfg a w) (ha : a.id ≠ sessionManifestSuffix) :
    Gone a (perform env cfg ⟨inst, .delete a⟩ w).2 := by
  obtain ⟨r, hr, hc⟩ := h.live
  have hcur : r.cur.getD 0 = (logOf a w).cur := by rw [hc, Option.getD_some]
  have hmanifest : manifestPk a.app a.user ≠ a.sessionPk := fun heq => by
    have hkey : sessionKey a.app a.user sessionManifestSuffix = sessionKey a.app a.user a.id :=
      congrArg Key.key heq
    rw [sessionKey_right_inj] at hkey
    exact ha hkey.symm
  obtain ⟨hrow, hsegs, -⟩ := get_withoutSession (a := a) (r.cur.getD 0 + 2) w.store
  rw [perform_delete, alone_deleteSession, hr]
  dsimp only
  rw [(alone_manifestRemove _ _ _ _).1]
  refine ⟨(ServerConfig.operate_get_of_ne hmanifest.symm).trans hrow, fun g => ?_⟩
  rw [World.withStore_store, ServerConfig.operate_get_of_ne (manifestPk_ne_segmentPk a g).symm]
  change (withoutSession a (r.cur.getD 0 + 2) w.store).get (a.segmentPk g) = none
  rw [hsegs g, hcur]
  split_ifs with hg
  · rfl
  · exact h.get_of_empty (h.topped g (by omega))

/-- `delete_session` of a session that is gone does nothing. -/
theorem Gone.delete (h : Gone a w) : (perform env cfg ⟨inst, .delete a⟩ w).2 = w := by
  rw [perform_delete, alone_deleteSession, h.row]

/-- `append_event` on a live session whose state writes go through. -/
theorem Live.append (h : Live cfg a w) (env : Env V P) (inst : ℕ) {e : Event V} {clock : ℚ} (hwhole : e.isPartial = false)
    (htarget : target a inst w ≤ (logOf a w).cur)
    (hfits : StateFits cfg a (partitionState e.stateDelta) (eventTime e clock) w) :
    ∃ res, Log.Placed (logOf a w) (eventKey env e clock) (eventToInlineDict env.model e) res ∧
      logOf a (perform env cfg ⟨inst, .append a e clock⟩ w).2 = res.2 ∧
      (perform env cfg ⟨inst, .append a e clock⟩ w).1.isOk = res.1.isOk ∧
      Live cfg a (perform env cfg ⟨inst, .append a e clock⟩ w).2 := by
  obtain ⟨r, hr, -⟩ := (h.keeps_stated (partitionState e.stateDelta) (eventTime e clock)).2.live
  have happ := h.alone_append (k := eventKey env e clock) (v := eventToInlineDict env.model e) inst
    hfits hr
  generalize hres : Log.append cfg.SegFits (Grows cfg r) (eventKey env e clock)
    (eventToInlineDict env.model e) maxAttempts _ (logOf a w) (target a inst w) = res at happ
  have hplaced : Log.Placed (logOf a w) (eventKey env e clock) (eventToInlineDict env.model e) res := by
    rw [← hres]
    exact Log.append_placed _ _ _ _ htarget
  rw [perform_append_whole hwhole]
  generalize alone cfg inst (appendEventRecord a (eventKey env e clock)
    (eventToInlineDict env.model e) (partitionState e.stateDelta) (eventTime e clock)) w = out at happ
  refine ⟨res, hplaced, happ.log, ?_, happ.sound, ?_⟩
  · rcases hr : res.1 with b | j
    · obtain ⟨⟨e, he⟩, -⟩ := happ.error b hr
      rw [he]
      rfl
    · rw [(happ.ok j hr).1]
      rfl
  · rw [happ.log]
    exact hplaced.topped h.topped

/-! ### The ledger -/

/-- The appends that have returned since the session was last created. -/
def ledger (env : Env V P) (cfg : ServerConfig V P) (a : Addr) (w : World V P) (l : Issued V)
    (entries : List (Str × Event V)) : List (Str × Event V) :=
  match l.call with
  | .create .. => if (row a w).isNone then [] else entries
  | .append _ e clock =>
    if (perform env cfg l w).1.isOk then entries ++ [(eventKey env e clock, e)] else entries
  | _ => entries

/-- The calls that create, append to, read or delete the session `a`. -/
def Concerns (a : Addr) (_ : World V P) (l : Issued V) : Prop := l.call.on a ∨ l.call = .delete a

/-- An append finds the session, an index of its instance that is not past the
stored one, room for its state writes, and no other event under its key. -/
def Undisturbed (env : Env V P) (cfg : ServerConfig V P) (a : Addr) (w : World V P) (l : Issued V) :
    Prop :=
  Concerns a w l ∧ ∀ e clock, l.call = .append a e clock →
    (row a w).isSome ∧ e.isPartial = false ∧
    (∀ n, w.cache l.inst a.pkStr = some n → n ≤ (logOf a w).cur) ∧
    StateFits cfg a (partitionState e.stateDelta) (eventTime e clock) w ∧
    ∀ g v, (segment a w g).lookup (eventKey env e clock) = some v → v = eventToInlineDict env.model e

/-- The log holds what the ledger says. -/
def Accounts (env : Env V P) (L : Log Str (InlineEvent V P)) (entries : List (Str × Event V)) : Prop :=
  ∀ k v, L.Holds k v ↔ ∃ e, (k, e) ∈ entries ∧ v = eventToInlineDict env.model e

/-- The session is gone, or the ledger accounts for it. -/
def Accounted (env : Env V P) (cfg : ServerConfig V P) (a : Addr) (w : World V P)
    (entries : List (Str × Event V)) : Prop :=
  Gone a w ∨ Live cfg a w ∧ Accounts env (logOf a w) entries

theorem Accounted.append {entries : List (Str × Event V)} {e : Event V} {clock : ℚ}
    (h : Accounted env cfg a w entries)
    (hok : Undisturbed env cfg a w ⟨inst, .append a e clock⟩) :
    Accounted env cfg a (perform env cfg ⟨inst, .append a e clock⟩ w).2
      (ledger env cfg a w ⟨inst, .append a e clock⟩ entries) := by
  obtain ⟨hrow, hwhole, hcache, hfits, hkey⟩ := hok.2 e clock rfl
  rcases h with hgone | ⟨hlive, hacc⟩
  · rw [hgone.row] at hrow
    cases hrow
  · have htarget : target a inst w ≤ (logOf a w).cur := by
      unfold target
      cases hc : w.cache inst a.pkStr with
      | none => exact le_rfl
      | some n => exact hcache n hc
    obtain ⟨res, hplaced, hlog, hok, hlive'⟩ := hlive.append env inst hwhole htarget hfits
    refine .inr ⟨hlive', fun k v => ?_⟩
    have hk : ∀ u, (logOf a w).Holds (eventKey env e clock) u → u = eventToInlineDict env.model e :=
      fun u ⟨g, hg⟩ => hkey g u hg
    rw [hlog, hplaced.holds hk, hacc k v]
    simp only [ledger, hok]
    by_cases hres : res.1.isOk = true
    · simp only [hres, true_and, if_true, List.mem_append, List.mem_singleton, Prod.mk.injEq]
      constructor
      · rintro (⟨e', he', rfl⟩ | ⟨rfl, rfl⟩)
        · exact ⟨e', .inl he', rfl⟩
        · exact ⟨e, .inr ⟨rfl, rfl⟩, rfl⟩
      · rintro ⟨e', he' | ⟨rfl, rfl⟩, rfl⟩
        · exact .inl ⟨e', he', rfl⟩
        · exact .inr ⟨rfl, rfl⟩
    · simp [hres]

theorem Accounted.of_store {entries : List (Str × Event V)} {w' : World V P}
    (h : Accounted env cfg a w entries) (hstore : w'.store = w.store) :
    Accounted env cfg a w' entries := by
  have hrow : row a w' = row a w := by unfold row; rw [hstore]
  have hsegs : ∀ g, w'.store.get (a.segmentPk g) = w.store.get (a.segmentPk g) := fun g => by rw [hstore]
  have hlog := logOf_congr hrow hsegs
  rcases h with hgone | ⟨hlive, hacc⟩
  · exact .inl ⟨hrow.trans hgone.row, fun g => (hsegs g).trans (hgone.segs g)⟩
  · exact .inr ⟨⟨hlive.toSound.congr hrow hsegs, hlog ▸ hlive.topped⟩, hlog ▸ hacc⟩

theorem Accounted.readable {entries : List (Str × Event V)} (h : Accounted env cfg a w entries) :
    Readable a w := by
  rcases h with hgone | ⟨hlive, -⟩
  · exact hgone.readable
  · exact hlive.toSound.readable

theorem Accounted.step {entries : List (Str × Event V)} (ha : a.id ≠ sessionManifestSuffix)
    (h : Accounted env cfg a w entries) {l : Issued V} (hok : Undisturbed env cfg a w l) :
    Accounted env cfg a (perform env cfg l w).2 (ledger env cfg a w l entries) := by
  obtain ⟨i, c⟩ := l
  cases c with
  | create app user state sessionId fresh now =>
    have ha : a = ⟨app, user, chooseId sessionId fresh⟩ := hok.1.resolve_right nofun
    rcases h with hgone | ⟨hlive, hacc⟩
    · have hled : ledger env cfg a w ⟨i, .create app user state sessionId fresh now⟩ entries = [] := by
        simp [ledger, hgone.row]
      rw [hled]
      rcases hgone.create env cfg i ha with hg | ⟨hlive, hnone⟩
      · exact .inl hg
      · refine .inr ⟨hlive, fun k v => iff_of_false (hnone k v) ?_⟩
        rintro ⟨e, he, -⟩
        cases he
    · have hled : ledger env cfg a w ⟨i, .create app user state sessionId fresh now⟩ entries = entries := by
        have hsome := hlive.isSome
        simp only [ledger, Option.isNone_iff_eq_none]
        rw [if_neg fun hnone => by rw [hnone] at hsome; cases hsome]
      rw [hled, perform_create_of_row ha hlive.isSome]
      exact .inr ⟨hlive, hacc⟩
  | append b e clock =>
    obtain rfl : b = a := hok.1.resolve_right nofun
    exact h.append hok
  | get b config =>
    obtain rfl : b = a := hok.1.resolve_right nofun
    rcases perform_get_snd env cfg i h.readable config with hw | ⟨r, -, hw⟩
    · rw [hw]
      exact h
    · rw [hw]
      exact h.of_store rfl
  | delete b =>
    obtain rfl : b = a := by
      rcases hok.1 with hon | hdel
      · cases hon
      · cases hdel
        rfl
    rcases h with hgone | ⟨hlive, -⟩
    · rw [hgone.delete]
      exact .inl hgone
    · exact .inl (hlive.delete ha)
  | listForUser app user => rcases hok.1 with hon | hdel <;> contradiction
  | listForApp app => rcases hok.1 with hon | hdel <;> contradiction

end Calls

/-- No lost and no ghost events: whenever the session exists, an unfiltered read of
any instance lists exactly the events whose appends have returned since the session
was last created. -/
theorem events_eq_ledger (env : Env V P) (cfg : ServerConfig V P) (a : Addr)
    (ha : a.id ≠ sessionManifestSuffix) (w₀ : World V P) (hw₀ : Gone a w₀) (w : World V P)
    (entries : List (Str × Event V))
    (hrun : Ran (after env cfg) (Undisturbed env cfg a) (ledger env cfg a) w₀ [] w entries)
    (hlive : (row a w).isSome) (inst : ℕ) :
    ∃ session w', perform env cfg ⟨inst, .get a {}⟩ w = (.ok (.found (some session)), w') ∧
      ∀ k e, (k, e) ∈ session.events ↔ (k, e) ∈ entries := by
  have hinv : Accounted env cfg a w entries :=
    hrun.invariant (.inl hw₀) fun w g l h hl => h.step ha hl
  rcases hinv with hgone | ⟨hlive, hacc⟩
  · rw [hgone.row] at hlive
    cases hlive
  obtain ⟨session, w', hget, hevents⟩ := hlive.perform_get env inst {}
  refine ⟨session, w', hget, fun k e => ?_⟩
  have hmem : (k, e) ∈ session.events ↔
      ∃ v, (logOf a w).Holds k v ∧ eventFromInlineDict env.model v = e := by
    rw [hevents, eventsOf_full, List.mem_map]
    constructor
    · rintro ⟨⟨k', v⟩, hx, heq⟩
      cases heq
      exact ⟨v, hlive.topped.mem_history_iff.mp hx, rfl⟩
    · rintro ⟨v, hv, rfl⟩
      exact ⟨(k, v), hlive.topped.mem_history_iff.mpr hv, rfl⟩
  rw [hmem]
  constructor
  · rintro ⟨v, hv, rfl⟩
    obtain ⟨e, he, rfl⟩ := (hacc k v).mp hv
    rw [eventFromInlineDict_eventToInlineDict]
    exact he
  · intro he
    exact ⟨_, (hacc k _).mpr ⟨e, he, rfl⟩, eventFromInlineDict_eventToInlineDict _ _⟩

namespace Small

def opening : Issued ℕ := ⟨0, .create ['a'] ['u'] ∅ (some ['s']) [] 1⟩

def firstAppend : Issued ℕ := ⟨0, .append addr (event ['p'] 5) 0⟩

theorem gone_empty : Gone addr (.empty : World ℕ (Event ℕ)) := ⟨rfl, fun _ => rfl⟩

/-- No record holds an event under the key. -/
def unused (w : World ℕ (Event ℕ)) (k : Str) : Bool :=
  w.store.entries.all fun x => k ∉ (x.2.events.getD .empty).keys

theorem lookup_of_unused {w : World ℕ (Event ℕ)} {k : Str} (h : unused w k) (g : ℕ) :
    (segment addr w g).lookup k = none := by
  unfold segment
  cases hr : w.store.get (addr.segmentPk g) with
  | none => rfl
  | some r =>
    have hentry := List.all_eq_true.mp h ⟨_, r⟩ ((FMap.mem_entries_iff _ _).mpr hr)
    exact OMap.lookup_eq_none_iff.mpr (of_decide_eq_true hentry)

/-- Whether a call is as the ledger needs it. -/
def undisturbed (w : World ℕ (Event ℕ)) (l : Issued ℕ) : Bool :=
  match l.call with
  | .append _ e clock => (row addr w).isSome && !e.isPartial && unused w (eventKey env e clock) &&
      (w.cache l.inst addr.pkStr).all (· ≤ (logOf addr w).cur) &&
      (stateWrites addr (partitionState e.stateDelta) (eventTime e clock)).all fun x =>
        (cfg.onRecord x.2 none (w.store.get x.1)).1.isOk
  | _ => true

theorem undisturbed_of_test {w : World ℕ (Event ℕ)} {l : Issued ℕ} (hl : Concerns addr w l) (h : undisturbed w l) :
    Undisturbed env cfg addr w l := by
  obtain ⟨inst, c⟩ := l
  refine ⟨hl, fun e clock hc => ?_⟩
  cases hc
  simp only [undisturbed, Bool.and_eq_true, Bool.not_eq_true'] at h
  obtain ⟨⟨⟨⟨hrow, hwhole⟩, hunused⟩, hcache⟩, hfits⟩ := h
  refine ⟨hrow, hwhole, fun n hn => ?_, fun x hx hbig => ?_, fun g v hv => ?_⟩
  · rw [hn] at hcache
    exact of_decide_eq_true hcache
  · have hok := List.all_eq_true.mp hfits x hx
    rw [hbig] at hok
    cases hok
  · rw [lookup_of_unused hunused] at hv
    cases hv

/-- Two instances append three events in two segments, the session is deleted and created
anew, and both append again, one of them an event that was there before. -/
def renewed : List (Issued ℕ) :=
  [opening, firstAppend, ⟨1, .append addr (event ['q'] 6) 0⟩, ⟨0, .append addr (event ['r'] 7) 0⟩, ⟨0, .delete addr⟩,
    opening, ⟨1, .append addr (event ['s'] 8) 0⟩, ⟨0, .append addr (event ['p'] 5) 0⟩]

/-- What is there after the calls, and what the ledger says of them. -/
def renewal : World ℕ (Event ℕ) × List (Str × Event ℕ) :=
  takeAll (after env cfg) (ledger env cfg addr) renewed (.empty, [])

theorem ran_renewal : Ran (after env cfg) (Undisturbed env cfg addr) (ledger env cfg addr) .empty [] renewal.1 renewal.2 := by
  refine ran_of_accepts (fun l hl w h => undisturbed_of_test ?_ h) (by decide +kernel) .init
  simp only [renewed, List.mem_cons, List.not_mem_nil, or_false] at hl
  rcases hl with rfl | rfl | rfl | rfl | rfl | rfl | rfl | rfl
  all_goals first | exact .inl rfl | exact .inr rfl

/-- Instance 1 has seen the second segment of a session that instance 0 then deletes
and creates anew; the append it makes goes to the second segment again. -/
def reborn : World ℕ (Event ℕ) × List (Str × Event ℕ) :=
  takeAll (after env cfg) (ledger env cfg addr)
    [opening, firstAppend, ⟨0, .append addr (event ['q'] 6) 0⟩, ⟨0, .append addr (event ['r'] 7) 0⟩,
      ⟨1, .get addr {}⟩, ⟨0, .delete addr⟩, opening, ⟨1, .append addr (event ['s'] 8) 0⟩] (.empty, [])

theorem ran_reborn :
    Ran (after env cfg) (Concerns addr) (ledger env cfg addr) .empty [] reborn.1 reborn.2 := by
  refine ran_takeAll (fun l hl w => ?_) .init
  simp only [List.mem_cons, List.not_mem_nil, or_false] at hl
  rcases hl with rfl | rfl | rfl | rfl | rfl | rfl | rfl | rfl
  all_goals first | exact .inl rfl | exact .inr rfl

end Small

open Sessions.Small in
/-- Of the events, those appended after the deletion are listed. -/
theorem events_eq_ledger_small :
    ∃ session w', perform env cfg ⟨1, .get addr {}⟩ renewal.1 = (.ok (.found (some session)), w') ∧
      renewal.2.map Prod.fst = [eventKey env (event ['s'] 8) 0, eventKey env (event ['p'] 5) 0] ∧
      ∀ k e, (k, e) ∈ session.events ↔ (k, e) ∈ renewal.2 := by
  obtain ⟨session, w', hget, hiff⟩ :=
    events_eq_ledger env cfg addr (by decide) .empty gone_empty _ _ ran_renewal (by decide +kernel) 1
  exact ⟨session, w', hget, by decide +kernel, hiff⟩

open Sessions.Small in
/-- An append through a stale cached index is lost. -/
theorem append_after_rebirth_lost :
    Gone addr (.empty : World ℕ (Event ℕ)) ∧
    Ran (after env cfg) (Concerns addr) (ledger env cfg addr) .empty [] reborn.1 reborn.2 ∧
    (row addr reborn.1).isSome ∧
    ∃ session w', perform env cfg ⟨0, .get addr {}⟩ reborn.1 = (.ok (.found (some session)), w') ∧
      ¬ ∀ k e, (k, e) ∈ session.events ↔ (k, e) ∈ reborn.2 := by
  have hrow : (row addr reborn.1).isSome := by decide +kernel
  have hread : Readable addr reborn.1 := (ran_reborn.invariant (I := fun w _ => cfg.Fitting w.store) (fun _ _ h => nomatch h)
      fun _ _ _ h _ => fitting_after h).readable
  obtain ⟨session, w', hget, hevents⟩ := perform_get_found hread hrow env cfg 0 {}
  refine ⟨gone_empty, ran_reborn, hrow, session, w', hget, fun hiff => ?_⟩
  have hnone : (eventsOf env {} (logOf addr reborn.1)).map Prod.fst = [] := by decide +kernel
  have hone : reborn.2.map Prod.fst = [eventKey env (event ['s'] 8) 0] := by decide +kernel
  have hmem : eventKey env (event ['s'] 8) 0 ∈ reborn.2.map Prod.fst := by rw [hone]; simp
  obtain ⟨⟨k, e⟩, hke, -⟩ := List.mem_map.mp hmem
  have hlisted := (hiff k e).mpr hke
  rw [hevents, List.map_eq_nil_iff.mp hnone] at hlisted
  cases hlisted

end AdkAerospike.Sessions
