import Mathlib.Data.List.Dedup
import AdkAerospike.Program.Pool
import AdkAerospike.Server
import AdkAerospike.Keys
import AdkAerospike.Codec

/-! `AerospikeMemoryService` (`memory/service.py`) as request programs. Every event
with text is a row, found again through posting rows: one list of references for each
user and token. Both kinds of rows lie in one set and are told apart by their key
strings. -/

namespace AdkAerospike.Memory

open Program Data Keys Codec

variable {V : Type}

/-! ### Words -/

/-- `" ".join(p.text for p in parts if p.text)`. -/
def extractEventText (e : Event V) : Str :=
  match e.content with
  | some (some parts) => List.intercalate [' '] ((parts.filterMap Codec.Part.text).filter fun s => s ≠ [])
  | _ => []

/-- The text of an event that is remembered, as the loops over events see it. -/
def memoryText (e : Event V) : Option Str :=
  match e.content with
  | none | some none | some (some []) => none
  | some (some _) => if extractEventText e = [] then none else some (extractEventText e)

/-- The matches of `[A-Za-z]+` from left to right, `acc` being the one that is under
way, reversed. -/
def wordsFrom (acc : Str) : Str → List Str
  | [] => if acc = [] then [] else [acc.reverse]
  | c :: s =>
    if c.isAlpha then wordsFrom (c :: acc) s
    else if acc = [] then wordsFrom [] s
    else acc.reverse :: wordsFrom [] s

def stopwords : List Str :=
  ["a", "an", "and", "are", "as", "at", "be", "by", "for", "from", "in", "is", "it", "of", "on", "or", "that",
    "the", "to", "was", "were", "with"].map String.toList

/-- What `_tokenize` puts into its set, in this order. -/
def tokenMatches (text : Str) : List Str :=
  ((wordsFrom [] text).map fun w => w.map Char.toLower).filter fun w => w ∉ stopwords

/-- What `datetime.fromtimestamp` raises for a timestamp that it does not take. -/
inductive RangeErr where
  | valueError | overflowError | osError
  deriving DecidableEq

inductive Err where
  | server (e : Server.Err)
  | range (e : RangeErr)
  deriving DecidableEq

/-- A service object and its process: `top_k`, the order in which a set is enumerated
after elements have been put into it, the JSON form of contents, and the `format_timestamp`
of the framework, which raises outside its range. -/
structure Instance (V : Type) where
  topK : ℤ
  order : List Str → List Str
  order_perm : ∀ l, (order l).Perm l.dedup
  dump : Option (List (Codec.Part V)) → V
  validate : V → Option (List (Codec.Part V))
  formatTimestamp : ℚ → Except RangeErr Str

/-- The timestamp is one that `format_timestamp` takes. -/
def Instance.Formats (inst : Instance V) (ts : ℚ) : Prop := ∃ s, inst.formatTimestamp ts = .ok s

def Instance.tokenize (inst : Instance V) (text : Str) : List Str := inst.order (tokenMatches text)

theorem Instance.mem_tokenize (inst : Instance V) {text t : Str} :
    t ∈ inst.tokenize text ↔ t ∈ tokenMatches text := by
  rw [tokenize, (inst.order_perm _).mem_iff, List.mem_dedup]

theorem Instance.nodup_tokenize (inst : Instance V) (text : Str) : (inst.tokenize text).Nodup :=
  (inst.order_perm _).nodup_iff.mpr (List.nodup_dedup _)

/-! ### Records -/

/-- An element of a posting list. -/
structure Ref where
  eid : Str
  sid : Str
  ts : ℚ
  deriving DecidableEq

/-- The bins of a memory row; a posting row has `postings` only. -/
structure Record (V : Type) where
  app : Option Str := none
  uid : Option Str := none
  sid : Option Str := none
  aus : Option Str := none
  eid : Option Str := none
  text : Option Str := none
  keywords : Option (List Str) := none
  author : Option Str := none
  ts : Option ℚ := none
  content : Option V := none
  postings : Option (List Ref) := none

/-- Operations on the posting list. -/
inductive Op where
  | append (ref : Ref)
  | read
  | removeFirst (count : ℕ)
  | removeByValue (ref : Ref)

/-- The operations of a list act in order; what was read last is returned. -/
def Op.act (x : Record V × Option (List Ref)) : Op → Record V × Option (List Ref)
  | append ref => ({ x.1 with postings := some (x.1.postings.getD [] ++ [ref]) }, x.2)
  | read => (x.1, x.1.postings)
  | removeFirst count => ({ x.1 with postings := x.1.postings.map (List.drop count) }, x.2)
  | removeByValue ref => ({ x.1 with postings := x.1.postings.map fun l => l.filter fun r => r ≠ ref }, x.2)

structure ServerConfig (V : Type) where
  fits : Record V → Bool
  arrange : List (Record V) → List (Record V)
  arrange_perm : ∀ l, (arrange l).Perm l

/-- The memory set. Only rows are put, and a put names all bins of a row. -/
def ServerConfig.table (cfg : ServerConfig V) :
    Server.Table (Record V) (List Op) (Option (List Ref)) Str where
  blank := {}
  merge old bins := { bins with postings := old.postings }
  index := Record.aus
  fits := cfg.fits
  creates ops := ops.any fun op => match op with
    | .append _ => true
    | _ => false
  apply ops r := ops.foldl Op.act (r, none)
  arrange := cfg.arrange
  arrange_perm := cfg.arrange_perm

abbrev Req (V : Type) := Server.Req Str (Record V) (List Op) Str

abbrev Ans (q : Req V) : Type := Server.Ans (Option (List Ref)) q

abbrev Store (V : Type) := Server.Store Str (Record V)

abbrev Service (V α : Type) := Prog (Req V) Ans Err α

def exec (cfg : ServerConfig V) (x : Server.Weather) : (q : Req V) → Store V → Ans q × Store V :=
  Server.exec cfg.table x

/-! ### Single requests -/

def answer {α : Type} : Except Server.Err α → Service V α
  | .ok a => .ret a
  | .error e => .raise (.server e)

def put (key : Str) (bins : Record V) : Service V Unit := .ask (.put key bins) answer

def remove (key : Str) : Service V Unit := .ask (.remove key) answer

def operate (key : Str) (ops : List Op) : Service V (Option (List Ref)) := .ask (.operate key ops) answer

/-- `_batch_read`, aligned with the keys. -/
def batchRead (keys : List Str) : Service V (List (Option (Record V))) := .ask (.batchRead keys) answer

def query (aus : Str) : Service V (List (Record V)) := .ask (.query aus) answer

/-- `try: ... except ae.RecordNotFound: pass`. -/
def unlessNotFound {α : Type} (p : Service V α) : Service V Unit :=
  (p.bind fun _ => .ret ()).tryCatch fun e => if e = .server .recordNotFound then .ret () else .raise e

theorem uses_answer {α : Type} {F : Req V → Prop} (x : Except Server.Err α) : (answer x : Service V α).Uses F := by
  cases x <;> trivial

theorem uses_unlessNotFound {α : Type} {F : Req V → Prop} {p : Service V α} (hp : p.Uses F) :
    (unlessNotFound p).Uses F := by
  refine Prog.Uses.tryCatch (hp.bind fun _ => trivial) fun e => ?_
  split_ifs <;> trivial

/-! ### Adding -/

def unknownSessionId : Str := "__unknown_session_id__".toList

def maxPostingListSize : ℕ := 2048

def maxSearchCandidates : ℕ := 512

def appendPostingRef (app user token : Str) (ref : Ref) : Service V Unit := do
  let result ← operate (memoryPostingKey app user token) [.append ref, .read]
  let postings := result.getD []
  if postings.length ≤ maxPostingListSize then return ()
  else
    let _ ← operate (memoryPostingKey app user token) [.removeFirst (postings.length - maxPostingListSize)]
    return ()

/-- The loop over the tokens of a new row. -/
def appendPostingRefs (app user : Str) (ref : Ref) : List Str → Service V Unit
  | [] => .ret ()
  | token :: tokens => do
    appendPostingRef app user token ref
    appendPostingRefs app user ref tokens

/-- The bins that `_upsert_memory` puts. -/
def Instance.newRow (inst : Instance V) (app user session : Str) (e : Event V) (text : Str) : Record V where
  app := some app
  uid := some user
  sid := some session
  aus := some (scopeTuple app user session)
  eid := some e.id
  text := some text
  keywords := some (inst.tokenize text)
  author := some e.author
  ts := some e.timestamp
  content := e.content.map inst.dump

def upsertMemory (inst : Instance V) (app user session : Str) (e : Event V) (text : Str) : Service V Unit := do
  put (memoryKey app user session e.id) (inst.newRow app user session e text)
  appendPostingRefs app user ⟨e.id, session, e.timestamp⟩ (inst.tokenize text)

def removePostingRefs (app user : Str) (ref : Ref) : List Str → Service V Unit
  | [] => .ret ()
  | token :: tokens => do
    unlessNotFound (operate (memoryPostingKey app user token) [.removeByValue ref])
    removePostingRefs app user ref tokens

/-- One pass of the loop of `_purge_session_memories`. -/
def purgeRow (app user session : Str) (r : Record V) : Service V Unit := do
  let eid := r.eid.getD []
  let keywords := r.keywords.getD []
  if keywords ≠ [] ∧ eid ≠ [] then
    removePostingRefs app user ⟨eid, session, r.ts.getD 0⟩ keywords
  unlessNotFound (remove (memoryKey app user session eid))

def purgeRows (app user session : Str) : List (Record V) → Service V Unit
  | [] => .ret ()
  | r :: rs => do
    purgeRow app user session r
    purgeRows app user session rs

def purgeSessionMemories (app user session : Str) : Service V Unit := do
  purgeRows app user session (← query (scopeTuple app user session))

/-- One pass of the loop of `add_session_to_memory`. -/
def addEvent (inst : Instance V) (app user session : Str) (e : Event V) : Service V Unit :=
  match memoryText e with
  | none => .ret ()
  | some text => upsertMemory inst app user session e text

def addAll (inst : Instance V) (app user session : Str) : List (Event V) → Service V Unit
  | [] => .ret ()
  | e :: es => do
    addEvent inst app user session e
    addAll inst app user session es

def addSessionToMemory (inst : Instance V) (app user session : Str) (events : List (Event V)) :
    Service V Unit := do
  purgeSessionMemories app user session
  addAll inst app user session events

/-- One pass of the loop of `add_events_to_memory`. -/
def addEventIfAbsent (inst : Instance V) (app user session : Str) (e : Event V) : Service V Unit :=
  match memoryText e with
  | none => .ret ()
  | some text => do
    match ← batchRead [memoryKey app user session e.id] with
    | [some _] => return ()
    | _ => upsertMemory inst app user session e text

def addAbsent (inst : Instance V) (app user session : Str) : List (Event V) → Service V Unit
  | [] => .ret ()
  | e :: es => do
    addEventIfAbsent inst app user session e
    addAbsent inst app user session es

/-- `session_id or _UNKNOWN_SESSION_ID`. -/
def scopedSessionId (session : Option Str) : Str :=
  match session with
  | none | some [] => unknownSessionId
  | some s => s

def addEventsToMemory (inst : Instance V) (app user : Str) (events : List (Event V)) (session : Option Str) :
    Service V Unit :=
  addAbsent inst app user (scopedSessionId session) events

/-! What is asked for, one rule for each loop. -/

section Uses
variable {F : Req V → Prop} {inst : Instance V} {app user session : Str}

theorem Uses.appendPostingRefs {ref : Ref} (happend : ∀ t, F (.operate (memoryPostingKey app user t) [.append ref, .read]))
    (htrim : ∀ t n, F (.operate (memoryPostingKey app user t) [.removeFirst n])) (tokens : List Str) :
    (appendPostingRefs app user ref tokens).Uses F := by
  induction tokens with
  | nil => trivial
  | cons t ts ih =>
    refine Prog.Uses.bind (Prog.Uses.bind ⟨happend t, uses_answer⟩ fun result => ?_) fun _ => ih
    dsimp only
    split_ifs
    · trivial
    · exact Prog.Uses.bind ⟨htrim t _, uses_answer⟩ fun _ => trivial

theorem Uses.upsertMemory {e : Event V} {text : Str}
    (hput : F (.put (memoryKey app user session e.id) (inst.newRow app user session e text)))
    (hlists : ∀ t ops, F (.operate (memoryPostingKey app user t) ops)) :
    (upsertMemory inst app user session e text).Uses F :=
  Prog.Uses.bind ⟨hput, uses_answer⟩ fun _ => Uses.appendPostingRefs (fun t => hlists t _) (fun t _ => hlists t _) _

theorem Uses.removePostingRefs {ref : Ref} (hdrop : ∀ t, F (.operate (memoryPostingKey app user t) [.removeByValue ref]))
    (tokens : List Str) : (removePostingRefs app user ref tokens : Service V Unit).Uses F := by
  induction tokens with
  | nil => trivial
  | cons t ts ih => exact Prog.Uses.bind (uses_unlessNotFound ⟨hdrop t, uses_answer⟩) fun _ => ih

theorem Uses.purgeSessionMemories (hquery : F (.query (scopeTuple app user session)))
    (hdrop : ∀ t ref, F (.operate (memoryPostingKey app user t) [.removeByValue ref]))
    (hremove : ∀ eid, F (.remove (memoryKey app user session eid))) :
    (purgeSessionMemories app user session : Service V Unit).Uses F := by
  refine Prog.Uses.bind ⟨hquery, uses_answer⟩ fun rs => ?_
  induction rs with
  | nil => trivial
  | cons r rs ih =>
    refine Prog.Uses.bind ?_ fun _ => ih
    have hlast : (unlessNotFound (remove (memoryKey app user session (r.eid.getD []))) : Service V Unit).Uses F :=
      uses_unlessNotFound ⟨hremove _, uses_answer⟩
    unfold purgeRow
    dsimp only
    split_ifs
    · exact (Uses.removePostingRefs (fun t => hdrop t _) _).bind fun _ => hlast
    · exact hlast

theorem Uses.addAll {events : List (Event V)}
    (hupsert : ∀ e ∈ events, ∀ text, memoryText e = some text → (Memory.upsertMemory inst app user session e text).Uses F) :
    (addAll inst app user session events).Uses F := by
  induction events with
  | nil => trivial
  | cons e es ih =>
    refine Prog.Uses.bind ?_ fun _ => ih fun e' he' => hupsert e' (List.mem_cons_of_mem _ he')
    unfold addEvent
    cases htext : memoryText e with
    | none => trivial
    | some text => exact hupsert e List.mem_cons_self text htext

theorem Uses.addAbsent {events : List (Event V)}
    (hread : ∀ e ∈ events, F (.batchRead [memoryKey app user session e.id]))
    (hupsert : ∀ e ∈ events, ∀ text, memoryText e = some text → (Memory.upsertMemory inst app user session e text).Uses F) :
    (addAbsent inst app user session events).Uses F := by
  induction events with
  | nil => trivial
  | cons e es ih =>
    refine Prog.Uses.bind ?_ fun _ => ih (fun e' he' => hread e' (List.mem_cons_of_mem _ he'))
      fun e' he' => hupsert e' (List.mem_cons_of_mem _ he')
    unfold addEventIfAbsent
    cases htext : memoryText e with
    | none => trivial
    | some text =>
      refine Prog.Uses.bind ⟨hread e List.mem_cons_self, uses_answer⟩ fun rows => ?_
      split
      · trivial
      · exact hupsert e List.mem_cons_self text htext

end Uses

/-! ### Searching -/

/-- A Python dict from event ids, in the order in which the ids came. -/
abbrev Candidates := List (Str × Str × ℚ)

def Candidates.offer (cs : Candidates) (ref : Ref) : Candidates :=
  match cs.find? fun c => c.1 = ref.eid with
  | none => cs ++ [(ref.eid, ref.sid, ref.ts)]
  | some prev =>
    if prev.2.2 < ref.ts then cs.map fun c => if c.1 = ref.eid then (ref.eid, ref.sid, ref.ts) else c
    else cs

/-- The inner loop of `search_memory`, over the references of one token. -/
def Candidates.gather : List Ref → Candidates → Candidates
  | [], cs => cs
  | ref :: refs, cs =>
    if ref.eid = [] ∨ ref.sid = [] then gather refs cs
    else if maxSearchCandidates ≤ (cs.offer ref).length then cs.offer ref
    else gather refs (cs.offer ref)

/-- The outer loop, over the posting rows of the tokens. -/
def Candidates.gatherAll : List (List Ref) → Candidates → Candidates
  | [], cs => cs
  | refs :: rest, cs =>
    if maxSearchCandidates ≤ (gather refs cs).length then gather refs cs
    else gatherAll rest (gather refs cs)

inductive MemoryContent (V : Type) where
  | validated (content : Option (List (Codec.Part V)))
  | text (text : Str)

structure MemoryEntry (V : Type) where
  id : Option Str
  content : MemoryContent V
  author : Option Str
  timestamp : Option Str

/-- `_utils.format_timestamp(ts) if ts else None`. -/
def Instance.entryTime (inst : Instance V) : Option ℚ → Except RangeErr (Option Str)
  | none => .ok none
  | some ts => if ts = 0 then .ok none else (inst.formatTimestamp ts).map some

def Instance.memoryEntryFromBins (inst : Instance V) (r : Record V) : Except RangeErr (MemoryEntry V) :=
  (inst.entryTime r.ts).map fun timestamp =>
    { id := r.eid
      content := match r.content with
        | some c => .validated (inst.validate c)
        | none => .text (r.text.getD [])
      author := r.author
      timestamp }

theorem Instance.isOk_entry (inst : Instance V) {r : Record V}
    (h : ∀ ts, r.ts = some ts → ts ≠ 0 → inst.Formats ts) : ∃ m, inst.memoryEntryFromBins r = .ok m := by
  have htime : ∃ time, inst.entryTime r.ts = .ok time := by
    unfold entryTime
    cases hts : r.ts with
    | none => exact ⟨none, rfl⟩
    | some ts =>
      dsimp only
      split_ifs with hzero
      · exact ⟨none, rfl⟩
      · obtain ⟨s, hs⟩ := h ts hts hzero
        exact ⟨some s, by rw [hs]; rfl⟩
  obtain ⟨time, htime⟩ := htime
  exact ⟨_, by rw [memoryEntryFromBins, htime]; rfl⟩

/-- An entry that is not made has a timestamp that is not taken. -/
theorem Instance.error_entry (inst : Instance V) {r : Record V} {e : RangeErr} (h : inst.memoryEntryFromBins r = .error e) :
    ∃ ts, r.ts = some ts ∧ ts ≠ 0 ∧ inst.formatTimestamp ts = .error e := by
  unfold memoryEntryFromBins entryTime at h
  cases hts : r.ts with
  | none =>
    rw [hts] at h
    cases h
  | some ts =>
    rw [hts] at h
    dsimp only at h
    split_ifs at h with hzero
    · cases h
    · refine ⟨ts, rfl, hzero, ?_⟩
      cases hformat : inst.formatTimestamp ts with
      | ok s =>
        rw [hformat] at h
        cases h
      | error e' =>
        rw [hformat] at h
        cases h
        rfl

theorem Instance.id_of_entry (inst : Instance V) {r : Record V} {m : MemoryEntry V}
    (h : inst.memoryEntryFromBins r = .ok m) : m.id = r.eid := by
  unfold memoryEntryFromBins at h
  cases htime : inst.entryTime r.ts with
  | ok time =>
    rw [htime] at h
    cases h
    rfl
  | error e =>
    rw [htime] at h
    cases h

/-- `len(set(keywords) & query_token_set)`. -/
def overlap (tokens : List Str) (r : Record V) : ℕ :=
  ((r.keywords.getD []).dedup.filter fun t => t ∈ tokens).length

/-- The candidates whose rows match, with their scores. -/
def scoredRows (app user : Str) (tokens : List Str) (found : List ((Str × Str × ℚ) × Option (Record V))) :
    List ((ℕ × ℚ) × Record V) :=
  found.filterMap fun x =>
    match x.2 with
    | none => none
    | some r =>
      if r.app = some app ∧ r.uid = some user ∧ overlap tokens r ≠ 0 then
        some ((overlap tokens r, x.1.2.2), r)
      else none

/-- Best scores first; rows of equal score stay in order. -/
def ranked (scored : List ((ℕ × ℚ) × Record V)) : List ((ℕ × ℚ) × Record V) :=
  scored.mergeSort fun x y => y.1.1 < x.1.1 ∨ y.1.1 = x.1.1 ∧ y.1.2 ≤ x.1.2

/-- `l[:k]`. -/
def sliceTo {α : Type} (l : List α) (k : ℤ) : List α :=
  if 0 ≤ k then l.take k.toNat else l.take (l.length - (-k).toNat)

/-- The entries of the response, or what making one of them raises. -/
def formatted {α : Type} : Except RangeErr α → Service V α
  | .ok a => .ret a
  | .error e => .raise (.range e)

def searchMemory (inst : Instance V) (app user text : Str) : Service V (List (MemoryEntry V)) := do
  let tokens := inst.tokenize text
  if tokens = [] then return []
  let rows ← batchRead (tokens.map (memoryPostingKey app user))
  let candidates := Candidates.gatherAll (rows.map fun r => (r.bind Record.postings).getD []) []
  if candidates = [] then return []
  let found ← batchRead (candidates.map fun c => memoryKey app user c.2.1 c.1)
  formatted ((sliceTo (ranked (scoredRows app user tokens (candidates.zip found))) inst.topK).mapM
    fun x => inst.memoryEntryFromBins x.2)

theorem Uses.searchMemory {F : Req V → Prop} {inst : Instance V} {app user text : Str}
    (hlists : ∀ ts : List Str, F (.batchRead (ts.map (memoryPostingKey app user))))
    (hrows : ∀ cs : List (Str × Str × ℚ), F (.batchRead (cs.map fun c => memoryKey app user c.2.1 c.1))) :
    (searchMemory inst app user text).Uses F := by
  unfold Memory.searchMemory
  dsimp only
  split_ifs
  · trivial
  refine Prog.Uses.bind ⟨hlists _, uses_answer⟩ fun rows => ?_
  split_ifs
  · trivial
  · refine Prog.Uses.bind ⟨hrows _, uses_answer⟩ fun found => ?_
    cases (sliceTo (ranked (scoredRows app user (inst.tokenize text) _)) inst.topK).mapM
      fun x => inst.memoryEntryFromBins x.2 <;> trivial

/-! ### Calls -/

inductive Call (V : Type) where
  | addSession (app user session : Str) (events : List (Event V))
  | addEvents (app user : Str) (events : List (Event V)) (session : Option Str)
  | search (app user text : Str)

inductive Reply (V : Type) where
  | done
  | memories (l : List (MemoryEntry V))

def Call.body (inst : Instance V) : Call V → Service V (Reply V)
  | .addSession app user session events => do
    addSessionToMemory inst app user session events
    return .done
  | .addEvents app user events session => do
    addEventsToMemory inst app user events session
    return .done
  | .search app user text => do return .memories (← searchMemory inst app user text)

/-- Calls on any number of instances over one store. -/
def service (cfg : ServerConfig V) :
    System (Req V) Ans Err (Reply V) (Store V) (Instance V × Call V) Server.Weather where
  body l := l.2.body l.1
  serve _ := exec cfg

/-- One complete call with no other call in between and no fault. -/
def perform (cfg : ServerConfig V) (l : Instance V × Call V) (σ : Store V) :
    Except Err (Reply V) × Store V :=
  (l.2.body l.1).run (exec cfg .fair) σ

/-- A server that takes every record. -/
def Small.cfg : ServerConfig ℕ := ⟨fun _ => true, id, fun _ => .refl _⟩

/-- The local time of a host in UTC, for the seconds of the first day of 1970; the year 10000
is out of range. -/
def Small.isoformat (ts : ℚ) : Except RangeErr Str :=
  if 253402300800 ≤ ts then .error .valueError
  else .ok ("1970-01-01T".toList ++ padInt 2 (ts.floor / 3600) ++ ':' :: padInt 2 (ts.floor / 60 % 60) ++
    ':' :: padInt 2 (ts.floor % 60))

theorem Small.isoformat_early {ts : ℚ} (h : ts < 253402300800) : ∃ s, Small.isoformat ts = .ok s :=
  ⟨_, if_neg (Rat.not_le.mpr h)⟩

theorem Small.order_perm (l : List Str) : l.dedup.Perm l.dedup := .refl _

/-- An instance that reads the words of a text in their order. -/
def Small.inst : Instance ℕ := ⟨10, List.dedup, Small.order_perm, fun _ => 0, fun _ => none, Small.isoformat⟩

theorem Small.formats_early {ts : ℚ} (h : ts < 253402300800) : Small.inst.Formats ts := Small.isoformat_early h

end AdkAerospike.Memory
