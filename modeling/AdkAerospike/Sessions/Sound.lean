import AdkAerospike.Program.Contract
import AdkAerospike.Sessions.Alone.Read
import AdkAerospike.Sessions.Footprint

/-! What the calls of the session service show, however calls, instances and faults fall
together: events that were appended, state that was written in the scope it is shown in, and
sessions that were created. No identifier has to be free of separators. Two sessions whose
joined keys agree are one session to the store, and this is all that a read can confuse. -/

namespace AdkAerospike.Sessions

open Program Data Codec Keys

variable {V P : Type}

/-! ### What calls write -/

/-- The session that the call writes to, the state it is given and the time it writes. -/
def Call.written : Call V → Option (Addr × Dict V × ℚ)
  | .create app user state sessionId fresh now => some (⟨app, user, chooseId sessionId fresh⟩, state, now)
  | .append a e clock => if e.isPartial then none else some (a, e.stateDelta, eventTime e clock)
  | _ => none

/-- The two sessions share what the scope holds. -/
def Scope.shared (a b : Addr) : Scope → Prop
  | .session => a.pkStr = b.pkStr
  | .app => a.app = b.app
  | .user => userStateKey a.app a.user = userStateKey b.app b.user
  | .temp => False

/-- The value was written under this key by a call on a session that shares the key's scope. -/
def Wrote (cs : List (Issued V)) (a : Addr) (k : Str) (v : V) : Prop :=
  ∃ l ∈ cs, ∃ b d t, l.call.written = some (b, d, t) ∧ (scopeOf k).shared b a ∧ d.get k = some v

/-- The event was appended to the session, under the key it is shown with. -/
def AppendedTo (env : Env V P) (cs : List (Issued V)) (a : Addr) (k : Str) (e : Event V) : Prop :=
  ∃ l ∈ cs, ∃ b clock, l.call = .append b e clock ∧ e.isPartial = false ∧ b.pkStr = a.pkStr ∧ k = eventKey env e clock

/-- The time was written to the session. -/
def Dated (cs : List (Issued V)) (a : Addr) (t : ℚ) : Prop :=
  ∃ l ∈ cs, ∃ b d, l.call.written = some (b, d, t) ∧ b.pkStr = a.pkStr

/-- The session was created. -/
def CreatedBy (cs : List (Issued V)) (a : Addr) : Prop :=
  ∃ l ∈ cs, ∃ state sessionId fresh now, l.call = .create a.app a.user state sessionId fresh now ∧
    a.id = chooseId sessionId fresh

/-! ### What records hold -/

/-- The value lies in a record that the call writes state to. -/
def WrittenTo (key : Key) (k : Str) (v : V) (b : Addr) (d : Dict V) : Prop :=
  key = b.sessionPk ∧ (partitionState d).session.get k = some v ∨
    key = appPk b.app ∧ (partitionState d).app.get k = some v ∨
    key = userPk b.app b.user ∧ (partitionState d).user.get k = some v

/-- One of the calls has written the value to the record. -/
def Held (cs : List (Issued V)) (key : Key) (k : Str) (v : V) : Prop :=
  ∃ l ∈ cs, ∃ b d t, l.call.written = some (b, d, t) ∧ WrittenTo key k v b d

/-- Everything in the record was written by one of the calls. -/
structure Backed (env : Env V P) (cs : List (Issued V)) (key : Key) (r : Record V P) : Prop where
  events : ∀ m, r.events = some m → ∀ k v, (k, v) ∈ m.entries → ∃ l ∈ cs, ∃ b e clock g,
    l.call = .append b e clock ∧ e.isPartial = false ∧ key = b.segmentPk g ∧ k = eventKey env e clock ∧
      v = eventToInlineDict env.model e
  state : ∀ s, r.state = some s → ∀ k v, s.get k = some v → Held cs key k v
  time : ∀ t, r.ts = some t → ∃ l ∈ cs, ∃ b d, l.call.written = some (b, d, t) ∧ key = b.sessionPk
  row : r.app = none ∧ r.uid = none ∧ r.sid = none ∨ ∃ a, CreatedBy cs a ∧ key = a.sessionPk ∧ r.app = some a.app ∧
    r.uid = some a.user ∧ r.sid = some a.id ∧ r.ts ≠ none

section Backed
variable {env : Env V P} {cs : List (Issued V)} {cfg : ServerConfig V P} {key : Key} {r : Record V P} {l : Issued V}
  {a : Addr}

theorem backed_empty (env : Env V P) (cs : List (Issued V)) (key : Key) : Backed env cs key {} where
  events := nofun
  state := nofun
  time := nofun
  row := .inl ⟨rfl, rfl, rfl⟩

theorem backed_getD {old : Option (Record V P)} (h : ∀ r, old = some r → Backed env cs key r) :
    Backed env cs key (old.getD {}) := by
  cases old with
  | none => exact backed_empty env cs key
  | some r => exact h r rfl

theorem Backed.mapPut {g : ℕ} (h : Backed env cs (a.segmentPk g) r) (hl : l ∈ cs) {e : Event V} {clock : ℚ}
    (hcall : l.call = .append a e clock) (hp : e.isPartial = false) :
    Backed env cs (a.segmentPk g)
      (Op.write (.mapPut (eventKey env e clock) (eventToInlineDict env.model e)) r) where
  events m hm k v hk := by
    cases hm
    rcases OMap.mem_entries_put.mp hk with heq | ⟨hk, -⟩
    · obtain ⟨rfl, rfl⟩ := Prod.mk.inj heq
      exact ⟨l, hl, a, e, clock, _, hcall, hp, rfl, rfl, rfl⟩
    · cases hold : r.events with
      | none =>
        rw [hold] at hk
        cases hk
      | some m =>
        rw [hold] at hk
        exact h.events m hold k v hk
  state := h.state
  time := h.time
  row := h.row

theorem Backed.mapPutItems (h : Backed env cs key r) (hl : l ∈ cs) {b : Addr} {d part : Dict V} {t : ℚ}
    (hcall : l.call.written = some (b, d, t)) (hpart : ∀ k v, part.get k = some v → WrittenTo key k v b d) :
    Backed env cs key (Op.write (.mapPutItems part) r) where
  events := h.events
  state s hs k v hk := by
    cases hs
    rw [FMap.get_update] at hk
    cases hnew : part.get k with
    | some u =>
      rw [hnew, Option.some_or] at hk
      exact ⟨l, hl, b, d, t, hcall, hpart k v (hnew.trans hk)⟩
    | none =>
      rw [hnew, Option.none_or] at hk
      cases hold : r.state with
      | none =>
        rw [hold] at hk
        cases hk
      | some s =>
        rw [hold] at hk
        exact h.state s hold k v hk
  time := h.time
  row := h.row

theorem Backed.writeTs (h : Backed env cs a.sessionPk r) (hl : l ∈ cs) {d : Dict V} {t : ℚ}
    (hcall : l.call.written = some (a, d, t)) : Backed env cs a.sessionPk (Op.write (.writeTs t) r) where
  events := h.events
  state := h.state
  time u hu := by
    cases hu
    exact ⟨l, hl, a, d, hcall, rfl⟩
  row := h.row.imp id fun ⟨b, hb, hkey, happ, huid, hsid, _⟩ => ⟨b, hb, hkey, happ, huid, hsid, by simp [Op.write]⟩

/-- The other operations touch neither events nor state. -/
theorem Backed.index (h : Backed env cs key r) {r' : Record V P} (hevents : r'.events = r.events)
    (hstate : r'.state = r.state) (hts : r'.ts = r.ts) (happ : r'.app = r.app) (huid : r'.uid = r.uid)
    (hsid : r'.sid = r.sid) : Backed env cs key r' where
  events := hevents ▸ h.events
  state := hstate ▸ h.state
  time := hts ▸ h.time
  row := by
    rw [happ, huid, hsid, hts]
    exact h.row

/-- The row that a call puts is its own. -/
theorem backed_newRow (hl : l ∈ cs) {app user : Str} {state : Dict V} {sessionId : Option Str} {fresh : Str} {now : ℚ}
    (hcall : l.call = .create app user state sessionId fresh now) :
    Backed env cs (Addr.sessionPk ⟨app, user, chooseId sessionId fresh⟩)
      (newRow ⟨app, user, chooseId sessionId fresh⟩ (partitionState state).session now) where
  events := nofun
  state s hs k v hk := by
    cases hs
    exact ⟨l, hl, _, state, now, by rw [hcall]; rfl, .inl ⟨rfl, hk⟩⟩
  time t ht := by
    cases ht
    exact ⟨l, hl, _, state, by rw [hcall]; rfl, rfl⟩
  row := .inr ⟨⟨app, user, chooseId sessionId fresh⟩, ⟨l, hl, state, sessionId, fresh, now, hcall, rfl⟩, rfl, rfl, rfl,
    rfl, by simp [newRow]⟩

/-! ### What requests store -/

/-- What the request stores is backed. -/
abbrev Stores (env : Env V P) (cfg : ServerConfig V P) (cs : List (Issued V)) : Req V P → Prop :=
  Req.Stores cfg (Backed env cs)

theorem writtenTo_session (b : Addr) (d : Dict V) {k : Str} {v : V} (h : (partitionState d).session.get k = some v) :
    WrittenTo b.sessionPk k v b d := .inl ⟨rfl, h⟩

theorem writtenTo_app (b : Addr) (d : Dict V) {k : Str} {v : V} (h : (partitionState d).app.get k = some v) :
    WrittenTo (appPk b.app) k v b d := .inr (.inl ⟨rfl, h⟩)

theorem writtenTo_user (b : Addr) (d : Dict V) {k : Str} {v : V} (h : (partitionState d).user.get k = some v) :
    WrittenTo (userPk b.app b.user) k v b d := .inr (.inr ⟨rfl, h⟩)

theorem stores_items (hl : l ∈ cs) {b : Addr} {d part : Dict V} {t : ℚ} (hcall : l.call.written = some (b, d, t))
    (hpart : ∀ k v, part.get k = some v → WrittenTo key k v b d) :
    Stores env cfg cs (.operate key [.mapPutItems part] none) := fun _ hold _ =>
  (backed_getD hold).mapPutItems hl hcall hpart

theorem stores_place (hl : l ∈ cs) {e : Event V} {clock : ℚ} (hcall : l.call = .append a e clock)
    (hp : e.isPartial = false) {q : Req V P}
    (hq : PlaceRequest a (eventKey env e clock) (eventToInlineDict env.model e) q) : Stores env cfg cs q := by
  cases hq with
  | put g => exact fun old hold _ => (backed_getD hold).mapPut hl hcall hp
  | size g => exact fun old hold _ => backed_getD hold
  | bump n => exact fun old hold _ => (backed_getD hold).index rfl rfl rfl rfl rfl rfl
  | selectCur => trivial
  | cacheGet => trivial
  | cacheSet n => trivial

theorem stores_batch (hl : l ∈ cs) {e : Event V} {clock : ℚ} (hcall : l.call = .append a e clock)
    (hp : e.isPartial = false) (g : ℕ) :
    Stores env cfg cs (.batchWrite ((a.segmentPk g, [.mapPut (eventKey env e clock) (eventToInlineDict env.model e)]) ::
      stateWrites a (partitionState e.stateDelta) (eventTime e clock))) := by
  have hwritten : l.call.written = some (a, e.stateDelta, eventTime e clock) := by simp [hcall, Call.written, hp]
  intro x hx old hold _
  rcases List.mem_cons.mp hx with rfl | hx
  · exact (backed_getD hold).mapPut hl hcall hp
  rcases mem_stateWrites.mp hx with ⟨-, rfl⟩ | ⟨-, rfl⟩ | ⟨-, rfl⟩
  · exact ((backed_getD hold).mapPutItems hl hwritten fun _ _ => writtenTo_session a e.stateDelta).writeTs hl hwritten
  · exact (backed_getD hold).mapPutItems hl hwritten fun _ _ => writtenTo_app a e.stateDelta
  · exact (backed_getD hold).mapPutItems hl hwritten fun _ _ => writtenTo_user a e.stateDelta

theorem stores_persistEvent (hl : l ∈ cs) {e : Event V} {clock : ℚ} (hcall : l.call = .append a e clock) :
    (persistEvent env a e clock).Uses (Stores env cfg cs) :=
  uses_persistEvent_of (fun hp _ => stores_place hl hcall hp) fun hp => stores_batch hl hcall hp

theorem stores_deleteSession (a : Addr) : (deleteSession a : Service V P _).Uses (Stores env cfg cs) :=
  (uses_deleteSession a).mono fun q hq => by
    cases hq with
    | manifest => exact fun old hold _ => (backed_getD hold).index rfl rfl rfl rfl rfl rfl
    | _ => trivial

/-! ### Single requests that trust their answers -/

/-- The program stores what is backed, and its value satisfies `R` if its answers show what is backed. -/
abbrev Trusts (env : Env V P) (cfg : ServerConfig V P) (cs : List (Issued V)) {α : Type} (p : Service V P α)
    (R : α → Prop) : Prop := p.Meets (Stores env cfg cs) (Legal (Backed env cs)) (Prog.Returns R)

theorem trusts_catching {α : Type} {e : Err} {p h : Service V P α} {R : α → Prop} (hp : Trusts env cfg cs p R)
    (hh : Trusts env cfg cs h R) : Trusts env cfg cs (catching e p h) R := by
  refine Prog.Meets.tryCatch hp (fun a ha => ha) fun e' _ => ?_
  split_ifs
  · exact hh
  · exact Prog.meets_raise R e'

theorem trusts_get (key : Key) : Trusts env cfg cs (get key) (Backed env cs key) :=
  ⟨trivial, fun (x : Except Err (Record V P)) hx => by
    cases x with
    | error e => exact Prog.meets_raise _ e
    | ok r => exact Prog.meets_ret (hx r rfl)⟩

/-- A batched read shows by key what its answer shows in order. -/
theorem trusts_batch {keys : List Key} {q : Req V P} (answer : Ans q → Except Err (List (ℤ × Option (Record V P))))
    {φ : Key → Record V P → Prop} (hq : Stores env cfg cs q) (hshows : ∀ y, Legal (Backed env cs) q y →
      ∀ rs, answer y = .ok rs → ∀ key code r, (key, code, some r) ∈ keys.zip rs → φ key r) :
    Trusts env cfg cs (if keys = [] then .ret ∅ else
      .ask q fun y => (ofExcept (answer y)).bind fun rs => .ret (byKey keys rs))
      fun out => ∀ key r, bins out key = some r → φ key r := by
  split_ifs
  · exact Prog.meets_ret fun key r h => by cases h
  refine ⟨hq, fun y hy => ?_⟩
  dsimp only
  cases hans : answer y with
  | error e => exact Prog.meets_raise _ e
  | ok rs =>
    refine Prog.meets_ret fun key r h => ?_
    obtain ⟨code, hmem⟩ := mem_zip_of_bins_byKey h
    exact hshows y hy rs hans key code r hmem

theorem trusts_batchRead (keys : List Key) : Trusts env cfg cs (batchRead keys)
    fun out => ∀ key r, bins out key = some r → Backed env cs key r :=
  trusts_batch (q := .batchRead keys) id trivial fun _ h => h

theorem trusts_batchReadBins (keys : List Key) : Trusts env cfg cs (batchReadBins keys)
    fun out => ∀ key r, bins out key = some r → ∃ r', Backed env cs key r' ∧ r = ServerConfig.listingBins r' :=
  trusts_batch (q := .batchReadBins keys) id trivial fun _ h => h

/-! ### Reading events -/

/-- The entry is that of an event appended to the session, past the cutoff. -/
def Entry (env : Env V P) (cs : List (Issued V)) (a : Addr) (T : Option ℚ) (x : Str × InlineEvent V P) : Prop :=
  (∃ e, AppendedTo env cs a x.1 e ∧ x.2 = eventToInlineDict env.model e) ∧ ∀ t, T = some t → inRange env t x.1

/-- What a segment read shows, without regard to the order. -/
theorem mem_read_readOp {N : Option ℕ} {T : Option ℚ} {x : Str × InlineEvent V P}
    (h : x ∈ (((readOp env N T).read r {}).entries.getD [])) :
    ∃ m, r.events = some m ∧ x ∈ m.entries ∧ ∀ t, T = some t → inRange env t x.1 := by
  have hindex : ∀ (m : OMap Str (InlineEvent V P)) i n, x ∈ m.indexRange i n → x ∈ m.entries := fun m i n hx =>
    List.mem_of_mem_take (List.mem_of_mem_drop hx)
  cases hm : r.events with
  | none => cases T <;> cases N <;> simp [readOp, Op.read, hm] at h
  | some m =>
    refine ⟨m, rfl, ?_⟩
    cases T with
    | some t =>
      simp only [readOp, Op.read, hm, Option.map_some, Option.getD_some, OMap.keyRange, List.mem_filter] at h
      refine ⟨h.1, fun t' ht => ?_⟩
      cases ht
      simpa [inRange] using h.2
    | none =>
      refine ⟨?_, fun t ht => by cases ht⟩
      cases N with
      | none =>
        simp only [readOp, Op.read, hm, Option.map_some, Option.getD_some] at h
        exact hindex m _ _ h
      | some n =>
        simp only [readOp, Op.read, hm, Option.map_some, Option.getD_some] at h
        exact hindex m _ _ h

theorem trusts_readSegmentEntries (g : ℕ) (N : Option ℕ) (T : Option ℚ) :
    Trusts env cfg cs (readSegmentEntries env a g N T) fun l => ∀ x ∈ l, Entry env cs a T x := by
  have hwrite : ∀ r : Record V P, (Op.apply [readOp env N T] r).1 = r := fun r => by cases T <;> cases N <;> rfl
  refine trusts_catching ⟨fun old hold _ => ?_, fun (x : Except Err (OpResult V P)) hx => ?_⟩
    (Prog.meets_ret fun x hx => by cases hx)
  · rw [hwrite]
    exact backed_getD hold
  cases x with
  | error e => exact Prog.meets_raise _ e
  | ok y =>
    refine Prog.meets_ret fun x hmem => ?_
    obtain ⟨old, hold, rfl⟩ := hx y rfl
    obtain ⟨m, hm, hxm, hcut⟩ := mem_read_readOp hmem
    obtain ⟨l, hl, b, e, clock, g', hcall, hp, hkey, hk, hv⟩ := (backed_getD hold).events m hm x.1 x.2 hxm
    have hpk : a.pkStr = b.pkStr := (segmentKey_inj.mp (congrArg Key.key hkey)).1
    exact ⟨⟨e, ⟨l, hl, b, clock, hcall, hp, hpk.symm, hk⟩, hv⟩, hcut⟩

theorem trusts_loadLoop (N : Option ℕ) (T : Option ℚ) (n : ℕ) (c : List (Str × InlineEvent V P))
    (hc : ∀ x ∈ c, Entry env cs a T x) (hlen : ∀ n, N = some n → c.length < n) :
    Trusts env cfg cs (loadLoop env a N T n c)
      fun l => (∀ x ∈ l, Entry env cs a T x) ∧ ∀ n, N = some n → l.length ≤ n := by
  induction n generalizing c with
  | zero => exact Prog.meets_ret ⟨hc, fun n hn => (hlen n hn).le⟩
  | succ g ih =>
    refine (trusts_readSegmentEntries g _ T).seq fun entries hentries => ?_
    have hboth : ∀ x ∈ entries ++ c, Entry env cs a T x := fun x hx => (List.mem_append.mp hx).elim (hentries x) (hc x)
    dsimp only
    -- the loop keeps the last of the entries and stops with as many as are asked for
    rcases collect_entries (l := entries) hlen with ⟨hstop, -, hkept⟩ | ⟨hgo, hkept, hless⟩
    · have hrecent : (collect N entries.reverse c).1 = Log.recent N (entries ++ c) := by simpa using hkept []
      rw [if_pos hstop, hrecent]
      refine Prog.meets_ret ⟨fun x hx => hboth x ?_, fun n hn => ?_⟩
      · cases N with
        | none => exact hx
        | some n => exact List.mem_of_mem_drop hx
      · rw [hn, Log.length_recent]
        exact min_le_right _ _
    · rw [hgo, hkept, if_neg Bool.false_ne_true]
      split_ifs
      · exact Prog.meets_ret ⟨hboth, fun n hn => (hless n hn).le⟩
      · exact ih _ hboth hless

theorem trusts_loadEvents (cur : ℕ) (config : GetSessionConfig) :
    Trusts env cfg cs (loadEvents env a cur config) fun l => (∀ x ∈ l, AppendedTo env cs a x.1 x.2 ∧
      ∀ t, config.afterTimestamp = some t → inRange env t x.1) ∧ ∀ n, config.numRecentEvents = some n → l.length ≤ n := by
  unfold loadEvents
  split_ifs with hzero
  · exact Prog.meets_ret ⟨nofun, fun n _ => Nat.zero_le n⟩
  have hlen : ∀ n, config.numRecentEvents = some n → ([] : List (Str × InlineEvent V P)).length < n := fun n hn =>
    Nat.pos_of_ne_zero fun h => hzero (h ▸ hn)
  refine (trusts_loadLoop config.numRecentEvents config.afterTimestamp (cur + 1) [] nofun hlen).seq fun l hl => ?_
  refine Prog.meets_ret ⟨fun x hx => ?_, fun n hn => ?_⟩
  · obtain ⟨y, hy, rfl⟩ := List.mem_map.mp hx
    obtain ⟨⟨e, happended, hv⟩, hcut⟩ := hl.1 y hy
    rw [hv, eventFromInlineDict_eventToInlineDict]
    exact ⟨happended, hcut⟩
  · rw [List.length_map]
    exact hl.2 n hn

/-! ### State -/

theorem Backed.held {r : Option (Record V P)} (h : ∀ r', r = some r' → Backed env cs key r') {k : Str} {v : V}
    (hk : (stateOf r).get k = some v) : Held cs key k v := by
  cases r with
  | none => cases hk
  | some r =>
    cases hs : r.state with
    | none =>
      simp only [stateOf, Option.bind_some, hs, Option.getD_none, FMap.get_empty] at hk
      cases hk
    | some s =>
      simp only [stateOf, Option.bind_some, hs, Option.getD_some] at hk
      exact (h r rfl).state s hs k v hk

/-- What the merged map shows was written in the scope that its key says. -/
theorem wrote_mergeState {p u s : Dict V} (hp : ∀ k v, p.get k = some v → Held cs (appPk a.app) k v)
    (hu : ∀ k v, u.get k = some v → Held cs (userPk a.app a.user) k v)
    (hs : ∀ k v, s.get k = some v → Held cs a.sessionPk k v) {k : Str} {v : V}
    (hk : (mergeState p u s).get k = some v) : Wrote cs a k v := by
  rw [get_mergeState] at hk
  cases hown : s.get k with
  | some v' =>
    rw [hown, Option.some_or] at hk
    obtain ⟨l, hl, b, d, t, hcall, ⟨hkey, hd⟩ | ⟨hkey, -⟩ | ⟨hkey, -⟩⟩ := hs k v (hown.trans hk)
    · rw [get_partition_session] at hd
      split_ifs at hd with hscope
      refine ⟨l, hl, b, d, t, hcall, ?_, hd⟩
      rw [hscope]
      exact (congrArg Key.key hkey).symm
    all_goals cases congrArg Key.set hkey
  | none =>
    rw [hown, Option.none_or] at hk
    split_ifs at hk with huser happ
    · obtain ⟨j, rfl⟩ := List.isPrefixOf_iff_prefix.mp huser
      rw [List.drop_left] at hk
      obtain ⟨l, hl, b, d, t, hcall, ⟨hkey, -⟩ | ⟨hkey, -⟩ | ⟨hkey, hd⟩⟩ := hu j v hk
      · cases congrArg Key.set hkey
      · cases congrArg Key.set hkey
      · rw [get_partition_user] at hd
        exact ⟨l, hl, b, d, t, hcall, (congrArg Key.key hkey).symm, hd⟩
    · obtain ⟨j, rfl⟩ := List.isPrefixOf_iff_prefix.mp happ
      rw [List.drop_left] at hk
      obtain ⟨l, hl, b, d, t, hcall, ⟨hkey, -⟩ | ⟨hkey, hd⟩ | ⟨hkey, -⟩⟩ := hp j v hk
      · cases congrArg Key.set hkey
      · rw [get_partition_app] at hd
        exact ⟨l, hl, b, d, t, hcall, (congrArg Key.key hkey).symm, hd⟩
      · cases congrArg Key.set hkey

/-! ### Calls -/

/-- A session that `get_session` shows. -/
structure ShownSession (env : Env V P) (cs : List (Issued V)) (a : Addr) (config : GetSessionConfig) (s : Session V) : Prop where
  addr : s.addr = a
  events : ∀ x ∈ s.events, AppendedTo env cs a x.1 x.2
  recent : ∀ n, config.numRecentEvents = some n → s.events.length ≤ n
  after : ∀ t, config.afterTimestamp = some t → ∀ x ∈ s.events, inRange env t x.1
  state : ∀ k v, s.state.get k = some v → Wrote cs a k v
  time : (∃ x ∈ s.events, s.lastUpdateTime = x.2.timestamp) ∨ s.lastUpdateTime = 0 ∨ Dated cs a s.lastUpdateTime

/-- A session that a listing shows. -/
structure ListedSession (cs : List (Issued V)) (s : Session V) : Prop where
  created : CreatedBy cs s.addr
  time : Dated cs s.addr s.lastUpdateTime
  events : s.events = []
  state : s.state = ∅

theorem Backed.dated (h : Backed env cs a.sessionPk r) {t : ℚ} (ht : r.ts = some t) : Dated cs a t := by
  obtain ⟨l, hl, b, d, hcall, hkey⟩ := h.time t ht
  exact ⟨l, hl, b, d, hcall, (congrArg Key.key hkey).symm⟩

/-- A record with an app is the row of a session, and listed as that. -/
theorem Backed.listed (h : Backed env cs key r) {app : Str} (happ : r.app = some app) :
    ∃ a t, r.uid = some a.user ∧ r.sid = some a.id ∧ r.ts = some t ∧ a.app = app ∧ ListedSession cs ⟨a, ∅, [], t⟩ := by
  rcases h.row with ⟨hnone, -, -⟩ | ⟨a, hcreated, rfl, happ', huid, hsid, hts⟩
  · rw [hnone] at happ
    cases happ
  · obtain ⟨t, ht⟩ := Option.ne_none_iff_exists'.mp hts
    exact ⟨a, t, huid, hsid, ht, Option.some.inj (happ'.symm.trans happ), hcreated, h.dated ht, rfl, rfl⟩

theorem trusts_getSession (config : GetSessionConfig) :
    Trusts env cfg cs (getSession env a config) fun r => ∀ s, r = some s → ShownSession env cs a config s := by
  unfold getSession
  refine (trusts_batchRead _).seq fun records hrecords => ?_
  cases hrow : bins records a.sessionPk with
  | none => exact Prog.meets_ret nofun
  | some row =>
    have hbacked := hrecords _ row hrow
    refine ⟨trivial, fun _ _ => (trusts_loadEvents _ config).seq fun events hevents => Prog.meets_ret fun s hs => ?_⟩
    cases hs
    refine ⟨rfl, fun x hx => (hevents.1 x hx).1, hevents.2, fun t ht x hx => (hevents.1 x hx).2 t ht, fun k v hk => ?_, ?_⟩
    · exact wrote_mergeState (fun _ _ => Backed.held fun r => hrecords _ r) (fun _ _ => Backed.held fun r => hrecords _ r)
        (fun _ _ => Backed.held fun r hr => (Option.some.inj hr) ▸ hbacked) hk
    · have hrecorded : row.ts.getD 0 = 0 ∨ Dated cs a (row.ts.getD 0) := by
        cases hts : row.ts with
        | none => exact .inl rfl
        | some t => exact .inr (hbacked.dated hts)
      dsimp only
      cases hlast : events.getLast? with
      | none => exact .inr hrecorded
      | some x =>
        dsimp only
        split_ifs
        · exact .inr hrecorded
        · exact .inl ⟨x, List.mem_of_getLast? hlast, rfl⟩

theorem trusts_createSession (hl : l ∈ cs) {app user : Str} {state : Dict V} {sessionId : Option Str} {fresh : Str}
    {now : ℚ} (hcall : l.call = .create app user state sessionId fresh now) :
    Trusts env cfg cs (createSession app user state sessionId fresh now) fun s =>
      s.addr = ⟨app, user, chooseId sessionId fresh⟩ ∧ s.events = [] ∧ s.lastUpdateTime = now ∧
        ∀ k v, s.state.get k = some v → Wrote cs s.addr k v := by
  have hwritten : l.call.written = some (⟨app, user, chooseId sessionId fresh⟩, state, now) := by rw [hcall]; rfl
  have hput : (writeRetryingOverload (put (Addr.sessionPk ⟨app, user, chooseId sessionId fresh⟩)
      (newRow ⟨app, user, chooseId sessionId fresh⟩ (partitionState state).session now)) false overloadMaxRetries :
      Service V P Unit).Uses (Stores env cfg cs) :=
    uses_writeRetryingOverload (uses_put fun _ => backed_newRow hl hcall) _ _
  refine hput.returns.seq fun _ _ => ⟨trivial, fun _ _ => ?_⟩
  refine (uses_mergeDelta fun _ => stores_items hl hwritten fun _ _ => writtenTo_app _ _).returns.seq fun _ _ => ?_
  refine (uses_mergeDelta fun _ => stores_items hl hwritten fun _ _ => writtenTo_user _ _).returns.seq fun _ _ => ?_
  have hmanifest : (manifestAdd app user (chooseId sessionId fresh) : Service V P Unit).Uses (Stores env cfg cs) :=
    Prog.Uses.bind (uses_operate fun _ hold _ => (backed_getD hold).index rfl rfl rfl rfl rfl rfl) fun _ => trivial
  refine hmanifest.returns.seq fun _ _ => ?_
  refine Prog.Meets.seq (R := fun merged => ∀ k v, merged.get k = some v →
    Wrote cs ⟨app, user, chooseId sessionId fresh⟩ k v) ?_ fun merged hmerged => Prog.meets_ret ⟨rfl, rfl, rfl, hmerged⟩
  refine (trusts_batchRead _).seq fun records hrecords => Prog.meets_ret fun k v hk => ?_
  exact wrote_mergeState (fun _ _ => Backed.held fun r => hrecords _ r) (fun _ _ => Backed.held fun r => hrecords _ r)
    (fun k v hk => ⟨l, hl, _, state, now, hwritten, writtenTo_session _ state hk⟩) hk

theorem trusts_listSessionsForUser (app user : Str) :
    Trusts env cfg cs (listSessionsForUser app user) fun found =>
      ∀ s ∈ found, ListedSession cs s ∧ s.addr.app = app ∧ s.addr.user = user := by
  refine Prog.Meets.seq (R := fun _ => True) (trusts_catching ?_ (Prog.meets_ret trivial)) fun manifest _ => ?_
  · exact (trusts_get _).seq fun r _ => Prog.meets_ret trivial
  dsimp only
  split_ifs
  · exact Prog.meets_ret nofun
  refine (trusts_batchReadBins _).seq fun rows hrows => ?_
  have hstale : ∀ ids, (manifestRemoveStale app user ids : Service V P Unit).Uses (Stores env cfg cs) := fun ids =>
    uses_manifestRemoveStale ids fun id _ _ hold _ => (backed_getD hold).index rfl rfl rfl rfl rfl rfl
  refine (hstale _).returns.seq fun _ _ => Prog.meets_ret fun s hs => ?_
  obtain ⟨id, -, hlisted⟩ := List.mem_filterMap.mp hs
  unfold listed at hlisted
  cases hr : bins rows (Addr.sessionPk ⟨app, user, id⟩) with
  | none =>
    rw [hr] at hlisted
    cases hlisted
  | some r =>
    rw [hr] at hlisted
    dsimp only at hlisted
    split_ifs at hlisted with hnames
    obtain ⟨r', hbacked, rfl⟩ := hrows _ r hr
    obtain ⟨a, t, huid, hsid, hts, rfl, ha⟩ := hbacked.listed hnames.1
    obtain rfl : a.user = user := Option.some.inj (huid.symm.trans hnames.2)
    simp only [ServerConfig.listingBins, hsid, hts, Option.getD_some, Option.some.injEq] at hlisted
    subst hlisted
    exact ⟨ha, rfl, rfl⟩

theorem trusts_listSessionsForApp (app : Str) :
    Trusts env cfg cs (listSessionsForApp app) fun found => ∀ s ∈ found, ListedSession cs s ∧ s.addr.app = app := by
  refine Prog.Meets.seq (R := fun rs => ∀ r ∈ rs, ∃ key, Backed env cs key r) ⟨trivial, fun x hx => ?_⟩ fun rs hrs => ?_
  · cases x with
    | error e => exact Prog.meets_raise _ e
    | ok rs => exact Prog.meets_ret fun r hr => (hx rs rfl r hr).2
  refine Prog.meets_ret fun s hs => ?_
  obtain ⟨r, hr, rfl⟩ := List.mem_map.mp hs
  obtain ⟨hr, happ⟩ := List.mem_filter.mp hr
  obtain ⟨key, hbacked⟩ := hrs r hr
  obtain ⟨a, t, huid, hsid, hts, rfl, ha⟩ := hbacked.listed (of_decide_eq_true happ)
  rw [huid, hsid, hts]
  exact ⟨ha, rfl⟩

/-- What a call may answer, after the calls `cs` have been made. -/
def Call.Tells (env : Env V P) (cs : List (Issued V)) : Call V → Reply V → Prop
  | .create app user _ sessionId fresh now, .session s =>
    s.addr = ⟨app, user, chooseId sessionId fresh⟩ ∧ s.events = [] ∧ s.lastUpdateTime = now ∧
      ∀ k v, s.state.get k = some v → Wrote cs s.addr k v
  | .get a config, .found r => ∀ s, r = some s → ShownSession env cs a config s
  | .listForUser app user, .sessions found => ∀ s ∈ found, ListedSession cs s ∧ s.addr.app = app ∧ s.addr.user = user
  | .listForApp app, .sessions found => ∀ s ∈ found, ListedSession cs s ∧ s.addr.app = app
  | .append .., .done | .delete _, .done => True
  | _, _ => False

theorem trusts_body (hl : l ∈ cs) : Trusts env cfg cs (l.call.body env) (l.call.Tells env cs) := by
  obtain ⟨inst, c⟩ := l
  cases c with
  | create app user state sessionId fresh now =>
    exact (trusts_createSession hl rfl).seq fun s hs => Prog.meets_ret hs
  | append a e clock => exact (stores_persistEvent hl rfl).returns.seq fun _ _ => Prog.meets_ret trivial
  | get a config => exact (trusts_getSession config).seq fun r hr => Prog.meets_ret hr
  | listForUser app user => exact (trusts_listSessionsForUser app user).seq fun found h => Prog.meets_ret h
  | listForApp app => exact (trusts_listSessionsForApp app).seq fun found h => Prog.meets_ret h
  | delete a => exact (stores_deleteSession a).returns.seq fun _ _ => Prog.meets_ret trivial

end Backed

/-- Whatever the identifiers are, and however calls, instances and faults fall together,
every answer tells of what calls have written: events that were appended to the session, as
they were handed in, state in the scope of its key, times and sessions that were created. -/
theorem answers_tell_of_calls (env : Env V P) (cfg : ServerConfig V P)
    (s : Pool (Req V P) Ans Err (Reply V) (World V P) (Issued V))
    (hs : (service env cfg).Reach (fun _ _ => True) ⟨.empty, []⟩ s) (i : ℕ) (l : Issued V) (r : Reply V)
    (hi : s.procs[i]? = some ⟨l, .ret r⟩) : l.call.Tells env s.calls r := by
  have hempty : Each (Backed env s.calls) (World.empty : World V P).store := fun key r h => by cases h
  have hmeets := ((hs.calling (List.Subset.refl _)).meets (I := fun w => Each (Backed env s.calls) w.store)
    (fun _ l hl => (trusts_body (hl.2 l rfl) : Trusts env cfg s.calls _ _))
    (fun l c q w hq h => ⟨h.legal l.inst c q, h.exec hq l.inst c⟩) hempty rfl).2 i _ hi
  exact hmeets r rfl

namespace Small

/-- A session is created with state of two scopes; while it is, an event is appended on
another instance, at a put that times out once it is carried out; and the session is read. -/
def told : Pool (Req ℕ (Event ℕ)) Ans Err (Reply ℕ) (World ℕ (Event ℕ)) (Issued ℕ) :=
  (service env cfg).run ([
    .spawn ⟨0, .create ['p'] ['u', ':', 'v'] (FMap.set (FMap.set ∅ "app:x".toList (some 1)) ['k'] (some 2)) (some ['s']) [] 1⟩,
    .step 0 .calm, .step 0 .calm,
    .spawn ⟨1, .append ⟨['p'], ['u', ':', 'v'], ['s']⟩ (event ['e'] 2) 2⟩,
    .step 1 .calm, .step 1 .calm, .step 1 .calm, .step 1 ⟨.timeout true, fun _ => .none⟩, .step 0 .calm,
    .spawn ⟨0, .get ⟨['p'], ['u', ':', 'v'], ['s']⟩ {}⟩] ++ List.replicate 3 (.step 2 .calm)) ⟨.empty, []⟩

end Small

open Sessions.Small in
theorem answers_tell_of_calls_small :
    ∃ r, told.procs[2]? = some ⟨⟨0, .get ⟨['p'], ['u', ':', 'v'], ['s']⟩ {}⟩, .ret r⟩ ∧
      (Call.get ⟨['p'], ['u', ':', 'v'], ['s']⟩ {}).Tells env told.calls r :=
  ⟨_, rfl, answers_tell_of_calls env cfg told (System.reach_run (System.permitted_of_forall fun _ _ _ => trivial))
    2 ⟨0, .get ⟨['p'], ['u', ':', 'v'], ['s']⟩ {}⟩ _ rfl⟩

end AdkAerospike.Sessions
