import AdkAerospike.Data.OrderedMap
import AdkAerospike.Codec
import AdkAerospike.Keys

/-! The Aerospike server as the session service sees it: records with optional
bins, the operations on them, and every request the service issues. A request is
atomic on each record it names. What the server may do besides answering (reject
the request, or let it time out before or after applying it) is the `Weather` the
request meets. The size limit is a parameter: a write is refused with
`RecordTooBig` exactly when the record it would leave exceeds it. -/

namespace AdkAerospike.Sessions

open Data Codec Keys

/-- The sets the service writes to; namespace and set prefix are the same for all
instances. -/
inductive SetName where
  | sessions | appState | userState
  deriving DecidableEq

structure Key where
  set : SetName
  key : Str
  deriving DecidableEq

theorem ne_of_set {key key' : Key} (h : key.set ≠ key'.set) : key ≠ key' := fun heq => h (heq ▸ rfl)

variable {V P : Type}

/-- The bins a record of these sets may carry. Which of them are present tells a
session row from a segment, a manifest or a state row. -/
structure Record (V P : Type) where
  app : Option Str := none
  uid : Option Str := none
  sid : Option Str := none
  state : Option (Dict V) := none
  ts : Option ℚ := none
  cur : Option ℕ := none
  events : Option (OMap Str (InlineEvent V P)) := none
  sman : Option (List Str) := none

abbrev Store (V P : Type) := FMap Key (Record V P)

/-! ### Errors and faults -/

inductive Err where
  | recordTooBig | recordNotFound | recordExists | filteredOut
  | deviceOverload | maxErrorRate | timeout
  | status (code : ℤ)
  | notConverged
  deriving DecidableEq

/-- The status code of an error. -/
def Err.code : Err → ℤ
  | .recordTooBig => 13
  | .recordNotFound => 2
  | .recordExists => 5
  | .filteredOut => 27
  | .deviceOverload => 18
  | .maxErrorRate => -14
  | .timeout => 9
  | .status c => c
  | .notConverged => -1

/-- A server fault. Only a timeout leaves it open whether the write was applied. -/
inductive Fault where
  | none
  | overload
  | errorRate
  | timeout (applied : Bool)
  | other (code : { c : ℤ // c ≠ 0 })

namespace Fault

def error : Fault → Option Err
  | none => .none
  | overload => some .deviceOverload
  | errorRate => some .maxErrorRate
  | timeout _ => some .timeout
  | other c => some (.status c)

def applied : Fault → Bool
  | none => true
  | timeout b => b
  | _ => false

end Fault

/-- What one request meets: a fault of the request as a whole and, in a batch, of
each of its records. -/
structure Weather where
  whole : Fault
  record : ℕ → Fault

def Weather.calm : Weather := ⟨.none, fun _ => .none⟩

/-- An action on the store under a fault. -/
def under {ρ : Type} (f : Fault) (act : Store V P → Except Err ρ × Store V P) (σ : Store V P) :
    Except Err ρ × Store V P :=
  match f.error with
  | none => act σ
  | some e => (.error e, if f.applied then (act σ).2 else σ)

/-! ### Operations on one record -/

inductive Op (V P : Type) where
  | mapPut (key : Str) (value : InlineEvent V P)
  | mapPutItems (items : Dict V)
  | writeTs (ts : ℚ)
  | incrementCur
  | readCur
  | listAppend (id : Str)
  | listRemoveByValue (id : Str)
  | mapSize
  | mapGetByIndexRange (index : ℤ) (count : ℕ)
  | mapGetByKeyRange (lo hi : Str)

/-- What an operation list returns under the `cur` and `events` bins. -/
structure OpResult (V P : Type) where
  cur : Option ℕ := none
  size : Option ℕ := none
  entries : Option (List (Str × InlineEvent V P)) := none

namespace Op

/-- Operations that bring a missing record into being. -/
def creates : Op V P → Bool
  | mapPut _ _ | mapPutItems _ | writeTs _ | incrementCur | listAppend _ => true
  | _ => false

def writes : Op V P → Bool
  | listRemoveByValue _ => true
  | op => op.creates

def write : Op V P → Record V P → Record V P
  | mapPut k v, r => { r with events := some ((r.events.getD .empty).put k v) }
  | mapPutItems d, r => { r with state := some (FMap.update (r.state.getD ∅) d) }
  | writeTs t, r => { r with ts := some t }
  | incrementCur, r => { r with cur := some (r.cur.getD 0 + 1) }
  | listAppend id, r => { r with sman := some (r.sman.getD [] ++ [id]) }
  | listRemoveByValue id, r => { r with sman := r.sman.map (·.filter (· ≠ id)) }
  | _, r => r

def read : Op V P → Record V P → OpResult V P → OpResult V P
  | readCur, r, x => { x with cur := r.cur }
  | mapSize, r, x => { x with size := r.events.map OMap.size }
  | mapGetByIndexRange i n, r, x => { x with entries := r.events.map (·.indexRange i n) }
  | mapGetByKeyRange lo hi, r, x => { x with entries := r.events.map (·.keyRange lo hi) }
  | _, _, x => x

/-- The operations of a list act in order, each on what the earlier ones left. -/
def apply (ops : List (Op V P)) (r : Record V P) : Record V P × OpResult V P :=
  ops.foldl (fun x op => (op.write x.1, op.read x.1 x.2)) (r, {})

end Op

/-- The server's parameters: the size of a record, the limit on it, and whether a
filtered write to a key without a record goes through. The limit is a few MiB, so
a record within it never holds as many events as one index range can return; and
taking ids off a list does not make a record bigger. -/
structure ServerConfig (V P : Type) where
  size : Record V P → ℕ
  maxSize : ℕ
  guardOnAbsent : Bool
  capacity : ∀ r m, r.events = some m → size r ≤ maxSize → m.size ≤ 2 ^ 31 - 1
  shrink : ∀ r id, size (Op.write (.listRemoveByValue id) r) ≤ size r

namespace ServerConfig
variable (cfg : ServerConfig V P)

def Fits (r : Record V P) : Prop := cfg.size r ≤ cfg.maxSize

instance (r : Record V P) : Decidable (cfg.Fits r) := inferInstanceAs (Decidable (_ ≤ _))

/-- Store a record unless it is too big. -/
def commit {ρ : Type} (key : Key) (r : Record V P) (x : ρ) (σ : Store V P) :
    Except Err ρ × Store V P :=
  if cfg.Fits r then (.ok x, σ.insert key r) else (.error .recordTooBig, σ)

/-- `put` with `POLICY_EXISTS_CREATE`. -/
def put (key : Key) (bins : Record V P) (σ : Store V P) : Except Err Unit × Store V P :=
  match σ.get key with
  | some _ => (.error .recordExists, σ)
  | none => cfg.commit key bins () σ

def remove (key : Key) (σ : Store V P) : Except Err Unit × Store V P :=
  match σ.get key with
  | some _ => (.ok (), σ.erase key)
  | none => (.error .recordNotFound, σ)

def fetch (key : Key) (σ : Store V P) : Except Err (Record V P) :=
  match σ.get key with
  | some r => .ok r
  | none => .error .recordNotFound

/-- `operate`; the guard is the filter expression `cur == n`. -/
def operate (key : Key) (ops : List (Op V P)) (guard : Option ℕ) (σ : Store V P) :
    Except Err (OpResult V P) × Store V P :=
  match σ.get key with
  | none =>
    if ops.any Op.creates then
      if guard.isSome && !cfg.guardOnAbsent then (.error .filteredOut, σ)
      else cfg.commit key (Op.apply ops {}).1 (Op.apply ops {}).2 σ
    else (.error .recordNotFound, σ)
  | some r =>
    if guard.all (fun n => decide (r.cur = some n)) then
      if ops.any Op.writes then cfg.commit key (Op.apply ops r).1 (Op.apply ops r).2 σ
      else (.ok (Op.apply ops r).2, σ)
    else (.error .filteredOut, σ)

/-- The status a batch reports for one write. -/
def statusOf {ρ : Type} : Except Err ρ → ℤ
  | .ok _ => 0
  | .error e => e.code

/-- The writes of a batch are applied one record after the other, each on its own. -/
def batchWrite (faults : ℕ → Fault) : List (Key × List (Op V P)) → Store V P → List ℤ × Store V P
  | [], σ => ([], σ)
  | (key, ops) :: rest, σ =>
    let first := under (faults 0) (cfg.operate key ops none) σ
    let others := batchWrite (fun i => faults (i + 1)) rest first.2
    (statusOf first.1 :: others.1, others.2)

/-- The status and record a batch reports for one read. -/
def readStatus (f : Fault) (r : Option (Record V P)) : ℤ × Option (Record V P) :=
  match r, f.error with
  | none, _ => (Err.recordNotFound.code, none)
  | some r, none => (0, some r)
  | some _, some e => (e.code, none)

def batchRead (faults : ℕ → Fault) (keys : List Key) (σ : Store V P) :
    List (ℤ × Option (Record V P)) :=
  keys.mapIdx fun i key => readStatus (faults i) (σ.get key)

/-- The bins that listing asks for. -/
def listingBins (r : Record V P) : Record V P :=
  { app := r.app, uid := r.uid, sid := r.sid, ts := r.ts }

def query (app : Str) (σ : Store V P) : List (Record V P) :=
  σ.entries.filterMap fun x =>
    if x.1.set = .sessions ∧ x.2.app = some app then some x.2 else none

end ServerConfig

/-! ### Requests -/

/-- Every request of the session service. The last three are accesses to the
issuing instance's own `_cur_cache`; they count as requests so that other calls
may run between them and the server requests around them. -/
inductive Req (V P : Type) where
  | put (key : Key) (bins : Record V P)
  | get (key : Key)
  | selectCur (key : Key)
  | remove (key : Key)
  | operate (key : Key) (ops : List (Op V P)) (guard : Option ℕ)
  | batchRead (keys : List Key)
  | batchReadBins (keys : List Key)
  | batchWrite (writes : List (Key × List (Op V P)))
  | query (app : Str)
  | cacheGet (pk : Str)
  | cacheSet (pk : Str) (n : ℕ)
  | cachePop (pk : Str)

def Ans : Req V P → Type
  | .put _ _ => Except Err Unit
  | .get _ => Except Err (Record V P)
  | .selectCur _ => Except Err (Option ℕ)
  | .remove _ => Except Err Unit
  | .operate _ _ _ => Except Err (OpResult V P)
  | .batchRead _ => Except Err (List (ℤ × Option (Record V P)))
  | .batchReadBins _ => Except Err (List (ℤ × Option (Record V P)))
  | .batchWrite _ => Except Err (List ℤ)
  | .query _ => Except Err (List (Record V P))
  | .cacheGet _ => Option ℕ
  | .cacheSet _ _ => Unit
  | .cachePop _ => Unit

/-- The store, and the `_cur_cache` of every service instance. -/
structure World (V P : Type) where
  store : Store V P
  cache : ℕ → Str → Option ℕ

namespace World

def empty : World V P := ⟨∅, fun _ _ => none⟩

def setCache (w : World V P) (inst : ℕ) (pk : Str) (n : Option ℕ) : World V P :=
  { w with cache := Function.update w.cache inst (Function.update (w.cache inst) pk n) }

/-- An action on the store part of the world. -/
def onStore {ρ : Type} (w : World V P) (act : Store V P → ρ × Store V P) : ρ × World V P :=
  ((act w.store).1, { w with store := (act w.store).2 })

/-- A read of the store under a fault. -/
def reading {ρ : Type} (w : World V P) (f : Fault) (x : Except Err ρ) : Except Err ρ × World V P :=
  match f.error with
  | none => (x, w)
  | some e => (.error e, w)

end World

/-- Answer one request of instance `inst` in the given weather. -/
def exec (cfg : ServerConfig V P) (inst : ℕ) (x : Weather) : (q : Req V P) → World V P → Ans q × World V P
  | .put key bins, w => w.onStore (under x.whole (cfg.put key bins))
  | .get key, w => w.reading x.whole (ServerConfig.fetch key w.store)
  | .selectCur key, w => w.reading x.whole ((ServerConfig.fetch key w.store).map (·.cur))
  | .remove key, w => w.onStore (under x.whole (ServerConfig.remove key))
  | .operate key ops guard, w => w.onStore (under x.whole (cfg.operate key ops guard))
  | .batchRead keys, w => w.reading x.whole (.ok (ServerConfig.batchRead x.record keys w.store))
  | .batchReadBins keys, w => w.reading x.whole
      (.ok ((ServerConfig.batchRead x.record keys w.store).map fun s =>
        (s.1, s.2.map ServerConfig.listingBins)))
  | .batchWrite writes, w => w.onStore (under x.whole fun σ =>
      let done := cfg.batchWrite x.record writes σ
      (.ok done.1, done.2))
  | .query app, w => w.reading x.whole (.ok (ServerConfig.query app w.store))
  | .cacheGet pk, w => (w.cache inst pk, w)
  | .cacheSet pk n, w => ((), w.setCache inst pk (some n))
  | .cachePop pk, w => ((), w.setCache inst pk none)

end AdkAerospike.Sessions
