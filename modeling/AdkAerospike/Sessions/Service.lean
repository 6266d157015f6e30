import AdkAerospike.Program.Pool
import AdkAerospike.Sessions.Requests
import AdkAerospike.Sessions.State

/-! `AerospikeSessionService` (`sessions/service.py`) as request programs. Each
function of the source is one definition; loops are recursions on the attempts,
segments or ids that remain. The clock and fresh session ids are inputs of the
calls that read them; backoff delays are not modelled. -/

namespace AdkAerospike.Sessions

open Program Data Codec Keys

variable {V P : Type}

/-- A program of the service. -/
abbrev Service (V P α : Type) := Prog (Req V P) Ans Err α

/-- The name of a session. -/
structure Addr where
  app : Str
  user : Str
  id : Str
  deriving DecidableEq

namespace Addr

def pkStr (a : Addr) : Str := sessionKey a.app a.user a.id

def sessionPk (a : Addr) : Key := ⟨.sessions, a.pkStr⟩

def segmentPk (a : Addr) (gidx : ℕ) : Key := ⟨.sessions, segmentKey a.app a.user a.id gidx⟩

end Addr

def appPk (app : Str) : Key := ⟨.appState, appStateKey app⟩

def userPk (app user : Str) : Key := ⟨.userState, userStateKey app user⟩

def manifestPk (app user : Str) : Key := ⟨.sessions, sessionManifestKey app user⟩

/-- The ADK session object. Each event stands beside the map key it was read
under, which the source drops. -/
structure Session (V : Type) where
  addr : Addr
  state : Dict V
  events : List (Str × Event V)
  lastUpdateTime : ℚ

structure GetSessionConfig where
  numRecentEvents : Option ℕ := none
  afterTimestamp : Option ℚ := none

/-- What the service takes from outside: the ADK event model and
`int(x * 1_000_000)` on doubles. The latter is total here, while Python raises an
`OverflowError` where the product is infinite, from about 1.8e302 on. -/
structure Env (V P : Type) where
  model : EventModel V P
  micros : ℚ → ℤ

/-! ### Single requests -/

def ofExcept {α : Type} : Except Err α → Service V P α
  | .ok a => .ret a
  | .error e => .raise e

/-- `except e: ...` for one kind of error; the others propagate. -/
def catching {α : Type} (e : Err) (p : Service V P α) (h : Service V P α) : Service V P α :=
  p.tryCatch fun e' => if e' = e then h else .raise e'

def put (key : Key) (bins : Record V P) : Service V P Unit := .ask (.put key bins) ofExcept

def get (key : Key) : Service V P (Record V P) := .ask (.get key) ofExcept

def selectCur (key : Key) : Service V P (Option ℕ) := .ask (.selectCur key) ofExcept

def remove (key : Key) : Service V P Unit := .ask (.remove key) ofExcept

def operate (key : Key) (ops : List (Op V P)) (guard : Option ℕ := none) :
    Service V P (OpResult V P) := .ask (.operate key ops guard) ofExcept

def query (app : Str) : Service V P (List (Record V P)) := .ask (.query app) ofExcept

def cacheGet (pk : Str) : Service V P (Option ℕ) := .ask (.cacheGet pk) fun (x : Option ℕ) => .ret x

def cacheSet (pk : Str) (n : ℕ) : Service V P Unit := .ask (.cacheSet pk n) fun _ => .ret ()

def cachePop (pk : Str) : Service V P Unit := .ask (.cachePop pk) fun _ => .ret ()

/-! ### Batches and retries -/

/-- `_batch_read` and `_batch_read_bins` fold every status but success to `None`. -/
def foldStatus (s : ℤ × Option (Record V P)) : Option (Record V P) :=
  if s.1 = 0 then s.2 else none

/-- The dict from input keys to bins that both batch readers build. -/
def byKey (keys : List Key) (results : List (ℤ × Option (Record V P))) :
    FMap Key (Option (Record V P)) :=
  (keys.zip results).foldl (fun out x => out.insert x.1 (foldStatus x.2)) ∅

/-- `out[key]`, with `None` for both an absent key and an absent record. -/
def bins (out : FMap Key (Option (Record V P))) (key : Key) : Option (Record V P) :=
  (out.get key).join

def batchRead (keys : List Key) : Service V P (FMap Key (Option (Record V P))) :=
  if keys = [] then .ret ∅
  else .ask (.batchRead keys) fun (x : Except Err _) => (ofExcept x).bind fun rs => .ret (byKey keys rs)

def batchReadBins (keys : List Key) : Service V P (FMap Key (Option (Record V P))) :=
  if keys = [] then .ret ∅
  else .ask (.batchReadBins keys) fun (x : Except Err _) =>
    (ofExcept x).bind fun rs => .ret (byKey keys rs)

/-- `_OVERLOAD_MAX_RETRIES`. -/
def overloadMaxRetries : ℕ := 10

/-- `_write_retrying_overload`, by the number of retries left. -/
def writeRetryingOverload {α : Type} (fn : Service V P α) (retryTimeout : Bool := true) :
    ℕ → Service V P α
  | 0 => fn
  | n + 1 => fn.tryCatch fun
    | .deviceOverload => writeRetryingOverload fn retryTimeout n
    | .maxErrorRate => writeRetryingOverload fn retryTimeout n
    | .timeout => if retryTimeout then writeRetryingOverload fn retryTimeout n else .raise .timeout
    | e => .raise e

/-- What an attempt of `_batch_write_with_retry` makes of its outcome, if another
attempt may follow. -/
def batchOutcome (again : Service V P (List ℤ)) : Except Err (List ℤ) → Service V P (List ℤ)
  | .ok results => if results.any (· = Err.deviceOverload.code) then again else .ret results
  | .error .deviceOverload => again
  | .error .maxErrorRate => again
  | .error .timeout => again
  | .error e => .raise e

/-- `_batch_write_with_retry`, by the number of retries left. The last attempt's
results are returned even if a record was overloaded. -/
def batchWriteWithRetry (writes : List (Key × List (Op V P))) : ℕ → Service V P (List ℤ)
  | 0 => .ask (.batchWrite writes) ofExcept
  | n + 1 => .ask (.batchWrite writes) (batchOutcome (batchWriteWithRetry writes n))

def batchError (code : ℤ) : Err :=
  if code = Err.recordTooBig.code then .recordTooBig else .status code

/-! ### The current segment -/

def currentSegment (a : Addr) : Service V P ℕ := do
  match ← cacheGet a.pkStr with
  | some cached => return cached
  | none =>
    let cur ← catching .recordNotFound
      (do return (← selectCur a.sessionPk).getD 0) (return 0)
    cacheSet a.pkStr cur
    return cur

def segmentSize (segPk : Key) : Service V P ℕ :=
  catching .recordNotFound (do return (← operate segPk [.mapSize]).size.getD 0) (return 0)

def rollOver (a : Addr) (n : ℕ) : Service V P ℕ := do
  let newCur ← catching .filteredOut
    (do return (← writeRetryingOverload
      (operate a.sessionPk [.incrementCur, .readCur] (some n)) true overloadMaxRetries).cur.getD (n + 1))
    (do return (← selectCur a.sessionPk).getD (n + 1))
  cacheSet a.pkStr newCur
  return newCur

/-! ### Appending -/

/-- The loop of `_place_event`, by the number of attempts left. -/
def placeLoop (a : Addr) (key : Str) (value : InlineEvent V P) : ℕ → ℕ → Service V P Unit
  | 0, _ => .raise .notConverged
  | n + 1, cur => do
    let placed ← catching .recordTooBig
      (do
        let _ ← writeRetryingOverload (operate (a.segmentPk cur) [.mapPut key value]) true
          overloadMaxRetries
        return true)
      (return false)
    if placed then cacheSet a.pkStr cur
    else if (← segmentSize (a.segmentPk cur)) = 0 then .raise .recordTooBig
    else
      let cur ← rollOver a cur
      placeLoop a key value n cur

/-- `max_attempts` of `_place_event`. -/
def maxAttempts : ℕ := 64

def placeEvent (a : Addr) (cur : ℕ) (key : Str) (value : InlineEvent V P) (afterOverflow : Bool) :
    Service V P Unit := do
  let cur ← if afterOverflow then rollOver a cur else pure cur
  placeLoop a key value maxAttempts cur

/-- The writes that `_append_event_record` adds to the segment's for a state delta. -/
def stateWrites (a : Addr) (d : Deltas V) (now : ℚ) : List (Key × List (Op V P)) :=
  (if d.session.entries.isEmpty then [] else
    [(a.sessionPk, [.mapPutItems d.session, .writeTs now])]) ++
  (if d.app.entries.isEmpty then [] else [(appPk a.app, [.mapPutItems d.app])]) ++
  (if d.user.entries.isEmpty then [] else [(userPk a.app a.user, [.mapPutItems d.user])])

/-- What `_append_event_record` makes of the batch's per-record results. -/
def finishBatch (a : Addr) (cur : ℕ) (key : Str) (value : InlineEvent V P) :
    List ℤ → Service V P Unit
  | [] => .raise .notConverged
  | segResult :: others =>
    match others.find? (· ≠ 0) with
    | some r => .raise (batchError r)
    | none =>
      if segResult = 0 then cacheSet a.pkStr cur
      else if segResult = Err.recordTooBig.code then placeEvent a cur key value true
      else .raise (batchError segResult)

def appendEventRecord (a : Addr) (key : Str) (value : InlineEvent V P) (d : Deltas V) (now : ℚ) :
    Service V P Unit := do
  let cur ← currentSegment a
  if d.session.entries.isEmpty && d.app.entries.isEmpty && d.user.entries.isEmpty then
    placeEvent a cur key value false
  else
    let results ← batchWriteWithRetry
      ((a.segmentPk cur, [.mapPut key value]) :: stateWrites a d now) overloadMaxRetries
    finishBatch a cur key value results

/-- `event.timestamp or time.time()`. -/
def eventTime (e : Event V) (clock : ℚ) : ℚ := if e.timestamp = 0 then clock else e.timestamp

def eventKey (env : Env V P) (e : Event V) (clock : ℚ) : Str :=
  eventMapKey env.micros e.id (eventTime e clock)

/-- `append_event` from the point where `super().append_event` has handed the
event on: a partial event is left alone, any other is persisted. -/
def persistEvent (env : Env V P) (a : Addr) (e : Event V) (clock : ℚ) : Service V P Unit :=
  if e.isPartial then .ret ()
  else appendEventRecord a (eventKey env e clock) (eventToInlineDict env.model e)
    (partitionState e.stateDelta) (eventTime e clock)

/-- `BaseSessionService.append_event`: what it does to the session object, and
the event it hands on. -/
structure BaseSessionService (V : Type) where
  session : Session V → Event V → Session V
  event : Event V → Event V

/-- `append_event`: the session object as the base class leaves it, which stays so
even if the program raises, and the program, which returns the object updated. -/
def appendEvent (env : Env V P) (base : BaseSessionService V) (s : Session V) (e : Event V)
    (clock : ℚ) : Session V × Service V P (Session V) :=
  let s' := base.session s e
  let e' := base.event e
  (s', do
    persistEvent env s.addr e' clock
    return if e'.isPartial then s' else { s' with lastUpdateTime := eventTime e' clock })

/-! ### Reading -/

/-- The read that `_read_segment_entries` issues for a segment. -/
def readOp (env : Env V P) (wantLastN : Option ℕ) (afterTs : Option ℚ) : Op V P :=
  match afterTs, wantLastN with
  | some t, _ => .mapGetByKeyRange (padInt 20 (env.micros t) ++ [':']) [':']
  | none, some n => .mapGetByIndexRange (-n) n
  | none, none => .mapGetByIndexRange 0 (2 ^ 31 - 1)

@[simp] theorem writes_readOp (env : Env V P) (wantLastN : Option ℕ) (afterTs : Option ℚ) :
    (readOp env wantLastN afterTs : Op V P).writes = false := by cases afterTs <;> cases wantLastN <;> rfl

@[simp] theorem creates_readOp (env : Env V P) (wantLastN : Option ℕ) (afterTs : Option ℚ) :
    (readOp env wantLastN afterTs : Op V P).creates = false := by cases afterTs <;> cases wantLastN <;> rfl

def readSegmentEntries (env : Env V P) (a : Addr) (gidx : ℕ) (wantLastN : Option ℕ)
    (afterTs : Option ℚ) : Service V P (List (Str × InlineEvent V P)) :=
  catching .recordNotFound
    (do return (← operate (a.segmentPk gidx) [readOp env wantLastN afterTs]).entries.getD [])
    (return [])

/-- The inner loop of `_load_events` over a segment's entries, newest first. The
list collected so far is kept oldest first, as it is returned. -/
def collect {ε : Type} (numRecent : Option ℕ) : List ε → List ε → List ε × Bool
  | [], collected => (collected, false)
  | x :: rest, collected =>
    if numRecent.any (· ≤ collected.length + 1) then (x :: collected, true)
    else collect numRecent rest (x :: collected)

/-- The walk of `_load_events` over the segments below `n`, newest first. -/
def loadLoop (env : Env V P) (a : Addr) (numRecent : Option ℕ) (afterTs : Option ℚ) :
    ℕ → List (Str × InlineEvent V P) → Service V P (List (Str × InlineEvent V P))
  | 0, collected => .ret collected
  | gidx + 1, collected => do
    let entries ← readSegmentEntries env a gidx (numRecent.map (· - collected.length)) afterTs
    let next := collect numRecent entries.reverse collected
    if next.2 then .ret next.1
    else if afterTs.isSome && entries.isEmpty then .ret next.1
    else loadLoop env a numRecent afterTs gidx next.1

def loadEvents (env : Env V P) (a : Addr) (cur : ℕ) (config : GetSessionConfig) :
    Service V P (List (Str × Event V)) :=
  if config.numRecentEvents = some 0 then .ret []
  else do
    let collected ← loadLoop env a config.numRecentEvents config.afterTimestamp (cur + 1) []
    return collected.map fun x => (x.1, eventFromInlineDict env.model x.2)

/-- `(record or {}).get(Bins.STATE) or {}`. -/
def stateOf (r : Option (Record V P)) : Dict V := (r.bind (·.state)).getD ∅

def getSession (env : Env V P) (a : Addr) (config : GetSessionConfig) :
    Service V P (Option (Session V)) := do
  let records ← batchRead [a.sessionPk, appPk a.app, userPk a.app a.user]
  match bins records a.sessionPk with
  | none => return none
  | some row =>
    let merged := mergeState (stateOf (bins records (appPk a.app)))
      (stateOf (bins records (userPk a.app a.user))) (stateOf (some row))
    let cur := row.cur.getD 0
    cacheSet a.pkStr cur
    let events ← loadEvents env a cur config
    let recorded := row.ts.getD 0
    let lastUpdate := match events.getLast? with
      | some x => if x.2.timestamp = 0 then recorded else x.2.timestamp
      | none => recorded
    return some ⟨a, merged, events, lastUpdate⟩

/-! ### Creating, deleting, listing -/

def mergeScopedState (key : Key) (delta : Dict V) : Service V P Unit := do
  let _ ← operate key [.mapPutItems delta]

/-- `if delta: await self._merge_scoped_state(...)`. -/
def mergeDelta (key : Key) (delta : Dict V) : Service V P Unit :=
  if delta.entries.isEmpty then .ret () else mergeScopedState key delta

def mergeStateForRead (app user : Str) (sessionState : Dict V) : Service V P (Dict V) := do
  let records ← batchRead [appPk app, userPk app user]
  return mergeState (stateOf (bins records (appPk app))) (stateOf (bins records (userPk app user)))
    sessionState

def manifestAdd (app user id : Str) : Service V P Unit := do
  let _ ← operate (manifestPk app user) [.listAppend id]

def manifestRemove (app user id : Str) : Service V P Unit :=
  catching .recordNotFound
    (do let _ ← operate (manifestPk app user) [.listRemoveByValue id]) (return ())

/-- `session_id or uuid.uuid4().hex`. -/
def chooseId (sessionId : Option Str) (fresh : Str) : Str :=
  match sessionId with
  | some id => if id = [] then fresh else id
  | none => fresh

/-- The row that `create_session` puts. -/
def newRow (a : Addr) (sessionState : Dict V) (now : ℚ) : Record V P where
  app := some a.app
  uid := some a.user
  sid := some a.id
  state := some sessionState
  ts := some now
  cur := some 0

def createSession (app user : Str) (state : Dict V) (sessionId : Option Str) (fresh : Str)
    (now : ℚ) : Service V P (Session V) := do
  let a : Addr := ⟨app, user, chooseId sessionId fresh⟩
  let d := partitionState state
  writeRetryingOverload (put a.sessionPk (newRow a d.session now)) false overloadMaxRetries
  cacheSet a.pkStr 0
  mergeDelta (appPk app) d.app
  mergeDelta (userPk app user) d.user
  manifestAdd app user a.id
  let merged ← mergeStateForRead app user d.session
  return ⟨a, merged, [], now⟩

/-- The segments `delete_session` removes, from `gidx` on, `n` of them. -/
def removeSegments (a : Addr) : ℕ → ℕ → Service V P Unit
  | 0, _ => .ret ()
  | n + 1, gidx => do
    catching .recordNotFound (remove (a.segmentPk gidx)) (return ())
    removeSegments a n (gidx + 1)

/-- `delete_session` after the row was found with this `cur`. -/
def deleteFound (a : Addr) (cur : ℕ) : Service V P Unit := do
  removeSegments a (cur + 2) 0
  catching .recordNotFound (remove a.sessionPk) (return ())
  cachePop a.pkStr
  manifestRemove a.app a.user a.id

def deleteSession (a : Addr) : Service V P Unit := do
  let row ← catching .recordNotFound (do return some (← get a.sessionPk)) (return none)
  match row with
  | none => return ()
  | some row => deleteFound a (row.cur.getD 0)

/-- What listing makes of one manifest id: a session, or nothing if it is stale. -/
def listed (app user : Str) (out : FMap Key (Option (Record V P))) (id : Str) :
    Option (Session V) :=
  match bins out (Addr.sessionPk ⟨app, user, id⟩) with
  | none => none
  | some r =>
    if r.app = some app ∧ r.uid = some user then
      some ⟨⟨app, user, r.sid.getD id⟩, ∅, [], r.ts.getD 0⟩
    else none

def manifestRemoveStale (app user : Str) : List Str → Service V P Unit
  | [] => .ret ()
  | id :: ids => do
    manifestRemove app user id
    manifestRemoveStale app user ids

def listSessionsForUser (app user : Str) : Service V P (List (Session V)) := do
  let manifest ← catching .recordNotFound (do return some (← get (manifestPk app user))) (return none)
  let ids := (manifest.bind (·.sman)).getD []
  if ids = [] then return []
  else
    let rows ← batchReadBins (ids.map fun id => Addr.sessionPk ⟨app, user, id⟩)
    manifestRemoveStale app user (ids.filter fun id => (listed (V := V) app user rows id).isNone)
    return ids.filterMap (listed app user rows)

/-- `list_sessions` without a user. -/
def listSessionsForApp (app : Str) : Service V P (List (Session V)) := do
  let records ← query app
  return (records.filter fun r => r.app = some app).map fun r =>
    ⟨⟨app, r.uid.getD [], r.sid.getD []⟩, ∅, [], r.ts.getD 0⟩

/-! ### Calls -/

/-- The calls on the service. The event of an append is the one that
`super().append_event` hands on. -/
inductive Call (V : Type) where
  | create (app user : Str) (state : Dict V) (sessionId : Option Str) (fresh : Str) (now : ℚ)
  | append (a : Addr) (e : Event V) (clock : ℚ)
  | get (a : Addr) (config : GetSessionConfig)
  | listForUser (app user : Str)
  | listForApp (app : Str)
  | delete (a : Addr)

inductive Reply (V : Type) where
  | session (s : Session V)
  | found (s : Option (Session V))
  | sessions (l : List (Session V))
  | done

def Call.body (env : Env V P) : Call V → Service V P (Reply V)
  | .create app user state sessionId fresh now => do
    return .session (← createSession app user state sessionId fresh now)
  | .append a e clock => do
    persistEvent env a e clock
    return .done
  | .get a config => do return .found (← getSession env a config)
  | .listForUser app user => do return .sessions (← listSessionsForUser app user)
  | .listForApp app => do return .sessions (← listSessionsForApp app)
  | .delete a => do
    deleteSession a
    return .done

/-- The call creates, appends to or reads the session `a`. -/
def Call.on (a : Addr) : Call V → Prop
  | .create app user _ sessionId fresh _ => a = ⟨app, user, chooseId sessionId fresh⟩
  | .append b _ _ => b = a
  | .get b _ => b = a
  | _ => False

/-- A call and the service instance it is made on. -/
structure Issued (V : Type) where
  inst : ℕ
  call : Call V

/-- Calls of all instances over one world. -/
def service (env : Env V P) (cfg : ServerConfig V P) :
    System (Req V P) Ans Err (Reply V) (World V P) (Issued V) Weather where
  body l := l.call.body env
  serve l := exec cfg l.inst

/-- One complete call with no other call in between and no fault. -/
def perform (env : Env V P) (cfg : ServerConfig V P) (l : Issued V) (w : World V P) :
    Except Err (Reply V) × World V P :=
  (l.call.body env).run (exec cfg l.inst .calm) w

/-! ### A small instance

Numbers as values, an event as its own dump, and room for two light events in a
record; small enough to run calls on. -/

namespace Small

def env : Env ℕ (Event ℕ) where
  model :=
    { dump := id
      validate := id
      validateSlim := fun id ts author _ _ _ => ⟨id, ts, author, false, ∅, none, 0⟩
      validate_dump := fun _ => rfl }
  micros x := (x.num * 1000000).tdiv x.den

/-- An event takes one unit and as many more as its `rest` says. -/
def weight (x : Str × InlineEvent ℕ (Event ℕ)) : ℕ := 1 + (x.2.payload.map Event.rest).getD 0

def size (r : Record ℕ (Event ℕ)) : ℕ :=
  match r.events with
  | none => 0
  | some m => m.entries.foldr (fun x n => weight x + n) 0

theorem length_le_weights (l : List (Str × InlineEvent ℕ (Event ℕ))) :
    l.length ≤ l.foldr (fun x n => weight x + n) 0 := by
  induction l with
  | nil => exact le_rfl
  | cons x l ih =>
    have hx : 1 ≤ weight x := Nat.le_add_right ..
    simp only [List.length_cons, List.foldr_cons]
    omega

theorem size_le_of_fits {r : Record ℕ (Event ℕ)} {m : OMap Str (InlineEvent ℕ (Event ℕ))}
    (hm : r.events = some m) (hsize : size r ≤ 2) : m.size ≤ 2 ^ 31 - 1 := by
  have hlen := length_le_weights m.entries
  simp only [size, hm] at hsize
  simp only [OMap.size]
  omega

def cfg : ServerConfig ℕ (Event ℕ) where
  size := size
  maxSize := 2
  guardOnAbsent := true
  capacity := fun _ _ => size_le_of_fits
  shrink := fun _ _ => le_rfl

/-- An event that writes no state. -/
def event (id : Str) (timestamp : ℚ) (rest : ℕ := 0) : Event ℕ :=
  ⟨id, timestamp, [], false, ∅, none, rest⟩

end Small

end AdkAerospike.Sessions
