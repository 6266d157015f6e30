import AdkAerospike.Sessions.Service

/-! The requests each call may issue, whatever the server answers. -/

namespace AdkAerospike.Sessions

open Program Data Codec Keys

variable {V P α : Type} {F : Req V P → Prop}

/-! ### Combinators -/

theorem uses_ofExcept (x : Except Err α) : (ofExcept x : Service V P α).Uses F := by
  cases x <;> trivial

theorem uses_operate {key : Key} {ops : List (Op V P)} {guard : Option ℕ}
    (h : F (.operate key ops guard)) : (operate key ops guard).Uses F := ⟨h, uses_ofExcept⟩

theorem uses_selectCur {key : Key} (h : F (.selectCur key)) : (selectCur key).Uses F :=
  ⟨h, uses_ofExcept⟩

theorem uses_get {key : Key} (h : F (.get key)) : (get key).Uses F := ⟨h, uses_ofExcept⟩

theorem uses_put {key : Key} {r : Record V P} (h : F (.put key r)) : (put key r).Uses F :=
  ⟨h, uses_ofExcept⟩

theorem uses_remove {key : Key} (h : F (.remove key)) : (remove key).Uses F := ⟨h, uses_ofExcept⟩

theorem uses_batch {keys : List Key} {q : Req V P} (answer : Ans q → Except Err (List (ℤ × Option (Record V P))))
    (h : F q) : (if keys = [] then .ret ∅ else
      .ask q fun y => (ofExcept (answer y)).bind fun rs => .ret (byKey keys rs) : Service V P _).Uses F := by
  split_ifs
  · trivial
  · exact ⟨h, fun y => (uses_ofExcept (answer y)).bind fun _ => trivial⟩

theorem uses_batchRead {keys : List Key} (h : F (.batchRead keys)) : (batchRead keys).Uses F :=
  uses_batch (q := .batchRead keys) id h

theorem uses_batchReadBins {keys : List Key} (h : F (.batchReadBins keys)) : (batchReadBins keys).Uses F :=
  uses_batch (q := .batchReadBins keys) id h

theorem uses_catching {e : Err} {p h : Service V P α} (hp : p.Uses F) (hh : h.Uses F) :
    (catching e p h).Uses F := by
  refine hp.tryCatch fun e' => ?_
  split_ifs
  · exact hh
  · trivial

theorem uses_writeRetryingOverload {fn : Service V P α} (hfn : fn.Uses F) (b : Bool) (n : ℕ) :
    (writeRetryingOverload fn b n).Uses F := by
  induction n with
  | zero => exact hfn
  | succ n ih =>
    refine hfn.tryCatch fun e => ?_
    cases e with
    | deviceOverload => exact ih
    | maxErrorRate => exact ih
    | timeout =>
      dsimp only
      split_ifs
      · exact ih
      · trivial
    | _ => trivial

theorem uses_batchWriteWithRetry {writes : List (Key × List (Op V P))} (h : F (.batchWrite writes))
    (n : ℕ) : (batchWriteWithRetry writes n).Uses F := by
  induction n with
  | zero => exact ⟨h, uses_ofExcept⟩
  | succ n ih =>
    refine ⟨h, fun y : Except Err (List ℤ) => ?_⟩
    rcases y with e | results
    · cases e <;> first | exact ih | trivial
    · simp only [batchOutcome]
      split_ifs
      · exact ih
      · trivial

/-! ### Appending -/

/-- The requests of an append of `v` under `k`. -/
inductive AppendRequest (a : Addr) (k : Str) (v : InlineEvent V P) : Req V P → Prop
  | put (g : ℕ) : AppendRequest a k v (.operate (a.segmentPk g) [.mapPut k v] none)
  | size (g : ℕ) : AppendRequest a k v (.operate (a.segmentPk g) [.mapSize] none)
  | bump (n : ℕ) : AppendRequest a k v (.operate a.sessionPk [.incrementCur, .readCur] (some n))
  | batch (g : ℕ) (d : Deltas V) (now : ℚ) :
      AppendRequest a k v (.batchWrite ((a.segmentPk g, [.mapPut k v]) :: stateWrites a d now))
  | selectCur : AppendRequest a k v (.selectCur a.sessionPk)
  | cacheGet : AppendRequest a k v (.cacheGet a.pkStr)
  | cacheSet (n : ℕ) : AppendRequest a k v (.cacheSet a.pkStr n)

/-- The requests of an append beside its batch. -/
inductive PlaceRequest (a : Addr) (k : Str) (v : InlineEvent V P) : Req V P → Prop
  | put (g : ℕ) : PlaceRequest a k v (.operate (a.segmentPk g) [.mapPut k v] none)
  | size (g : ℕ) : PlaceRequest a k v (.operate (a.segmentPk g) [.mapSize] none)
  | bump (n : ℕ) : PlaceRequest a k v (.operate a.sessionPk [.incrementCur, .readCur] (some n))
  | selectCur : PlaceRequest a k v (.selectCur a.sessionPk)
  | cacheGet : PlaceRequest a k v (.cacheGet a.pkStr)
  | cacheSet (n : ℕ) : PlaceRequest a k v (.cacheSet a.pkStr n)

section Append
variable {a : Addr} {k : Str} {v : InlineEvent V P}

theorem PlaceRequest.append {q : Req V P} (h : PlaceRequest a k v q) : AppendRequest a k v q := by
  cases h <;> constructor

theorem uses_currentSegment (hget : F (.cacheGet a.pkStr)) (hread : F (.selectCur a.sessionPk))
    (hset : ∀ n, F (.cacheSet a.pkStr n)) : (currentSegment a).Uses F := by
  refine ⟨hget, fun cached : Option ℕ => ?_⟩
  cases cached with
  | some n => trivial
  | none =>
    have hcur : (catching .recordNotFound ((selectCur a.sessionPk).bind fun c => .ret (c.getD 0))
        (.ret 0)).Uses F :=
      uses_catching (Prog.Uses.bind (uses_selectCur hread) fun _ => trivial) trivial
    exact hcur.bind fun cur => ⟨hset cur, fun _ => trivial⟩

theorem uses_rollOver {n : ℕ} (hbump : F (.operate a.sessionPk [.incrementCur, .readCur] (some n)))
    (hread : F (.selectCur a.sessionPk)) (hcache : ∀ m, F (.cacheSet a.pkStr m)) :
    (rollOver a n).Uses F := by
  refine Prog.Uses.bind (uses_catching ?_ ?_) fun m => ⟨hcache m, fun _ => trivial⟩
  · exact Prog.Uses.bind (uses_writeRetryingOverload (uses_operate hbump) _ _) fun _ => trivial
  · exact Prog.Uses.bind (uses_selectCur hread) fun _ => trivial

theorem uses_rollOver_place (n : ℕ) : (rollOver a n).Uses (PlaceRequest a k v) :=
  uses_rollOver (.bump n) .selectCur .cacheSet

theorem uses_placeLoop (n g : ℕ) : (placeLoop a k v n g).Uses (PlaceRequest a k v) := by
  induction n generalizing g with
  | zero => trivial
  | succ n ih =>
    refine Prog.Uses.bind (uses_catching (Prog.Uses.bind
      (uses_writeRetryingOverload (uses_operate (.put g)) _ _) fun _ => trivial) trivial) ?_
    intro placed
    cases placed with
    | true => exact ⟨.cacheSet g, fun _ => trivial⟩
    | false =>
      refine Prog.Uses.bind (uses_catching (Prog.Uses.bind (uses_operate (.size g)) fun _ => trivial)
        trivial) fun size => ?_
      split_ifs
      · trivial
      · exact Prog.Uses.bind (uses_rollOver_place g) fun cur => ih cur

theorem uses_placeEvent (g : ℕ) (afterOverflow : Bool) :
    (placeEvent a g k v afterOverflow).Uses (PlaceRequest a k v) := by
  cases afterOverflow with
  | false => exact uses_placeLoop _ g
  | true => exact Prog.Uses.bind (uses_rollOver_place g) fun cur => uses_placeLoop _ cur

theorem uses_finishBatch (g : ℕ) (results : List ℤ) :
    (finishBatch a g k v results).Uses (PlaceRequest a k v) := by
  cases results with
  | nil => trivial
  | cons s rest =>
    simp only [finishBatch]
    cases rest.find? (· ≠ 0) with
    | some r => trivial
    | none =>
      dsimp only
      split_ifs
      · exact ⟨.cacheSet g, fun _ => trivial⟩
      · exact uses_placeEvent g true
      · trivial

theorem uses_appendEventRecord (d : Deltas V) (now : ℚ) :
    (appendEventRecord a k v d now).Uses (AppendRequest a k v) := by
  refine Prog.Uses.bind (uses_currentSegment .cacheGet .selectCur .cacheSet) fun cur => ?_
  split_ifs
  · exact (uses_placeEvent cur false).mono fun _ => PlaceRequest.append
  · exact Prog.Uses.bind (uses_batchWriteWithRetry (.batch cur d now) _)
      fun results => (uses_finishBatch cur results).mono fun _ => PlaceRequest.append

end Append

theorem uses_persistEvent (env : Env V P) (a : Addr) (e : Event V) (clock : ℚ) :
    (persistEvent env a e clock).Uses
      (AppendRequest a (eventKey env e clock) (eventToInlineDict env.model e)) := by
  unfold persistEvent
  split_ifs
  · trivial
  · exact uses_appendEventRecord _ _

/-- The same by cases on what is persisted: the batch writes the delta's parts. -/
theorem uses_persistEvent_of {env : Env V P} {a : Addr} {e : Event V} {clock : ℚ}
    (hplace : e.isPartial = false → ∀ q, PlaceRequest a (eventKey env e clock) (eventToInlineDict env.model e) q → F q)
    (hbatch : e.isPartial = false → ∀ g, F (.batchWrite
      ((a.segmentPk g, [.mapPut (eventKey env e clock) (eventToInlineDict env.model e)]) ::
        stateWrites a (partitionState e.stateDelta) (eventTime e clock)))) :
    (persistEvent env a e clock).Uses F := by
  unfold persistEvent
  split_ifs with hp
  · trivial
  have hwhole : e.isPartial = false := by simpa using hp
  have hsingle := hplace hwhole
  refine Prog.Uses.bind (uses_currentSegment (hsingle _ .cacheGet) (hsingle _ .selectCur) fun n =>
    hsingle _ (.cacheSet n)) fun cur => ?_
  split_ifs
  · exact (uses_placeEvent cur false).mono hsingle
  · exact Prog.Uses.bind (uses_batchWriteWithRetry (hbatch hwhole cur) _) fun results =>
      (uses_finishBatch cur results).mono hsingle

/-! ### Reading -/

/-- The reads of a session's segments. -/
def SegmentRequest (env : Env V P) (a : Addr) (q : Req V P) : Prop :=
  ∃ g N T, q = .operate (a.segmentPk g) [readOp env N T] none

theorem uses_loadLoop (env : Env V P) (a : Addr) (N : Option ℕ) (T : Option ℚ) (n : ℕ)
    (l : List (Str × InlineEvent V P)) : (loadLoop env a N T n l).Uses (SegmentRequest env a) := by
  induction n generalizing l with
  | zero => trivial
  | succ n ih =>
    refine Prog.Uses.bind (uses_catching (Prog.Uses.bind (uses_operate ⟨n, _, _, rfl⟩)
      fun _ => trivial) trivial) fun E => ?_
    dsimp only
    split_ifs
    · trivial
    · trivial
    · exact ih _

theorem uses_loadEvents (env : Env V P) (a : Addr) (cur : ℕ) (config : GetSessionConfig) :
    (loadEvents env a cur config).Uses (SegmentRequest env a) := by
  unfold loadEvents
  split_ifs
  · trivial
  · exact Prog.Uses.bind (uses_loadLoop env a _ _ _ _) fun _ => trivial

/-- The requests of `get_session`. -/
inductive GetRequest (env : Env V P) (a : Addr) : Req V P → Prop
  | records : GetRequest env a (.batchRead [a.sessionPk, appPk a.app, userPk a.app a.user])
  | cacheSet (n : ℕ) : GetRequest env a (.cacheSet a.pkStr n)
  | segment {q : Req V P} (h : SegmentRequest env a q) : GetRequest env a q

theorem uses_getSession (env : Env V P) (a : Addr) (config : GetSessionConfig) :
    (getSession env a config).Uses (GetRequest env a) := by
  refine Prog.Uses.bind (uses_batchRead .records) fun records => ?_
  cases bins records a.sessionPk with
  | none => trivial
  | some r =>
    refine Prog.Uses.bind ⟨.cacheSet _, fun _ => trivial⟩ fun _ => ?_
    exact Prog.Uses.bind ((uses_loadEvents env a _ config).mono fun _ => .segment) fun _ => trivial

/-! ### Creating -/

/-- `create_session` after the row has been put and its index cached. -/
def createRest (a : Addr) (d : Deltas V) (now : ℚ) : Service V P (Session V) := do
  mergeDelta (appPk a.app) d.app
  mergeDelta (userPk a.app a.user) d.user
  manifestAdd a.app a.user a.id
  let merged ← mergeStateForRead a.app a.user d.session
  return ⟨a, merged, [], now⟩

/-- The requests of `create_session` after the row. -/
inductive FollowRequest (a : Addr) : Req V P → Prop
  | app (d : Dict V) : FollowRequest a (.operate (appPk a.app) [.mapPutItems d] none)
  | user (d : Dict V) : FollowRequest a (.operate (userPk a.app a.user) [.mapPutItems d] none)
  | manifest : FollowRequest a (.operate (manifestPk a.app a.user) [.listAppend a.id] none)
  | read (keys : List Key) : FollowRequest a (.batchRead keys)

theorem uses_createRest (a : Addr) (d : Deltas V) (now : ℚ) :
    (createRest a d now : Service V P _).Uses (FollowRequest a) := by
  have hmerge : ∀ (key : Key) (d : Dict V), FollowRequest a (.operate key [.mapPutItems d] none) →
      (mergeDelta key d : Service V P Unit).Uses (FollowRequest a) := fun key d h => by
    unfold mergeDelta
    split_ifs
    · trivial
    · exact Prog.Uses.bind (uses_operate h) fun _ => trivial
  have hread : (mergeStateForRead a.app a.user d.session : Service V P _).Uses (FollowRequest a) :=
    Prog.Uses.bind (uses_batchRead (.read _)) fun _ => trivial
  exact (hmerge _ _ (.app d.app)).bind fun _ => (hmerge _ _ (.user d.user)).bind fun _ =>
    Prog.Uses.bind (Prog.Uses.bind (uses_operate .manifest) fun _ => trivial) fun _ =>
      hread.bind fun _ => trivial

/-- The requests of `create_session`. -/
inductive CreateRequest (a : Addr) : Req V P → Prop
  | row (d : Dict V) (now : ℚ) : CreateRequest a (.put a.sessionPk (newRow a d now))
  | cacheSet : CreateRequest a (.cacheSet a.pkStr 0)
  | follow {q : Req V P} (h : FollowRequest a q) : CreateRequest a q

theorem uses_createSession (app user : Str) (state : Dict V) (sessionId : Option Str) (fresh : Str)
    (now : ℚ) :
    (createSession app user state sessionId fresh now : Service V P _).Uses
      (CreateRequest ⟨app, user, chooseId sessionId fresh⟩) := by
  refine Prog.Uses.bind (uses_writeRetryingOverload (uses_put (.row _ _)) _ _) fun _ => ?_
  refine Prog.Uses.bind ⟨.cacheSet, fun _ => trivial⟩ fun _ => ?_
  exact (uses_createRest ⟨app, user, chooseId sessionId fresh⟩ (partitionState state) now).mono
    fun _ => .follow

theorem uses_mergeDelta {key : Key} {d : Dict V} (h : d.entries ≠ [] → F (.operate key [.mapPutItems d] none)) :
    (mergeDelta key d).Uses F := by
  unfold mergeDelta
  split_ifs with hd
  · trivial
  · exact Prog.Uses.bind (uses_operate (h (by simpa using hd))) fun _ => trivial

/-- The same by the parts of the state. -/
theorem uses_createSession_of {app user : Str} {state : Dict V} {sessionId : Option Str} {fresh : Str} {now : ℚ}
    (hrow : F (.put (Addr.sessionPk ⟨app, user, chooseId sessionId fresh⟩)
      (newRow ⟨app, user, chooseId sessionId fresh⟩ (partitionState state).session now)))
    (hcache : F (.cacheSet (Addr.pkStr ⟨app, user, chooseId sessionId fresh⟩) 0))
    (happ : (partitionState state).app.entries ≠ [] →
      F (.operate (appPk app) [.mapPutItems (partitionState state).app] none))
    (huser : F (.operate (userPk app user) [.mapPutItems (partitionState state).user] none))
    (hmanifest : F (.operate (manifestPk app user) [.listAppend (chooseId sessionId fresh)] none))
    (hread : F (.batchRead [appPk app, userPk app user])) :
    (createSession app user state sessionId fresh now).Uses F := by
  refine Prog.Uses.bind (uses_writeRetryingOverload (uses_put hrow) _ _) fun _ => ⟨hcache, fun _ => ?_⟩
  refine (uses_mergeDelta happ).bind fun _ => (uses_mergeDelta fun _ => huser).bind fun _ => ?_
  refine Prog.Uses.bind (Prog.Uses.bind (uses_operate hmanifest) fun _ => trivial) fun _ => ?_
  exact Prog.Uses.bind (Prog.Uses.bind (uses_batchRead hread) fun _ => trivial) fun _ => trivial

/-! ### Deleting and listing -/

/-- The requests of `delete_session`. -/
inductive DeleteRequest (a : Addr) : Req V P → Prop
  | get : DeleteRequest a (.get a.sessionPk)
  | segment (g : ℕ) : DeleteRequest a (.remove (a.segmentPk g))
  | row : DeleteRequest a (.remove a.sessionPk)
  | cachePop : DeleteRequest a (.cachePop a.pkStr)
  | manifest : DeleteRequest a (.operate (manifestPk a.app a.user) [.listRemoveByValue a.id] none)

theorem uses_manifestRemove {app user id : Str}
    (h : F (.operate (manifestPk app user) [.listRemoveByValue id] none)) :
    (manifestRemove app user id).Uses F :=
  uses_catching (Prog.Uses.bind (uses_operate h) fun _ => trivial) trivial

theorem uses_removeSegments {a : Addr} (h : ∀ g, F (.remove (a.segmentPk g))) (n g : ℕ) :
    (removeSegments a n g : Service V P _).Uses F := by
  induction n generalizing g with
  | zero => trivial
  | succ n ih => exact Prog.Uses.bind (uses_catching (uses_remove (h g)) trivial) fun _ => ih (g + 1)

theorem uses_deleteSession (a : Addr) : (deleteSession a : Service V P _).Uses (DeleteRequest a) := by
  refine Prog.Uses.bind (uses_catching (Prog.Uses.bind (uses_get .get) fun _ => trivial) trivial) ?_
  intro row
  cases row with
  | none => trivial
  | some r =>
    refine Prog.Uses.bind (uses_removeSegments .segment _ _) fun _ => ?_
    refine Prog.Uses.bind (uses_catching (uses_remove .row) trivial) fun _ => ?_
    exact Prog.Uses.bind ⟨.cachePop, fun _ => trivial⟩ fun _ => uses_manifestRemove .manifest

/-- The requests of `list_sessions` for a user. -/
inductive ListRequest (app user : Str) : Req V P → Prop
  | get : ListRequest app user (.get (manifestPk app user))
  | rows (keys : List Key) : ListRequest app user (.batchReadBins keys)
  | manifest (id : Str) :
      ListRequest app user (.operate (manifestPk app user) [.listRemoveByValue id] none)

theorem uses_manifestRemoveStale {app user : Str}
    (ids : List Str) (h : ∀ id ∈ ids, F (.operate (manifestPk app user) [.listRemoveByValue id] none)) :
    (manifestRemoveStale app user ids : Service V P _).Uses F := by
  induction ids with
  | nil => trivial
  | cons id ids ih =>
    exact Prog.Uses.bind (uses_manifestRemove (h id (by simp))) fun _ => ih fun id' hid' => h id' (by simp [hid'])

/-- The rows read are those of sessions of the user. -/
theorem uses_listSessionsForUser_of {app user : Str} (hget : F (.get (manifestPk app user)))
    (hrows : ∀ ids : List Str, F (.batchReadBins (ids.map fun id => Addr.sessionPk ⟨app, user, id⟩)))
    (hmanifest : ∀ id, F (.operate (manifestPk app user) [.listRemoveByValue id] none)) :
    (listSessionsForUser app user).Uses F := by
  refine Prog.Uses.bind (uses_catching (Prog.Uses.bind (uses_get hget) fun _ => trivial) trivial) fun manifest => ?_
  dsimp only
  split_ifs
  · trivial
  · refine Prog.Uses.bind (uses_batchReadBins (hrows _)) fun rows => ?_
    exact Prog.Uses.bind (uses_manifestRemoveStale _ fun id _ => hmanifest id) fun _ => trivial

theorem uses_listSessionsForUser (app user : Str) :
    (listSessionsForUser app user : Service V P _).Uses (ListRequest app user) := by
  refine Prog.Uses.bind (uses_catching (Prog.Uses.bind (uses_get .get) fun _ => trivial) trivial) ?_
  intro manifest
  dsimp only
  split_ifs
  · trivial
  · refine Prog.Uses.bind (uses_batchReadBins (.rows _)) fun rows => ?_
    exact Prog.Uses.bind (uses_manifestRemoveStale _ fun id _ => .manifest id) fun _ => trivial

end AdkAerospike.Sessions
