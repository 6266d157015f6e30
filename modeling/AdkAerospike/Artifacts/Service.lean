import Mathlib.Data.Rat.Defs
import Mathlib.Data.List.Sort
import AdkAerospike.Program.Pool
import AdkAerospike.Server
import AdkAerospike.Keys

/-! `AerospikeArtifactService` (`artifacts/service.py`) as request programs. Every
version of a file is a record of its own, beside a head record that counts them; both
are told apart from those of other files by their key strings. An instance keeps
nothing of its own, so a call is the same on all of them. -/

namespace AdkAerospike.Artifacts

open Program Data Keys

/-! ### Parts -/

structure Blob where
  mimeType : Option Str
  data : Option ByteArray

structure FileData where
  mimeType : Option Str
  fileUri : Option Str

/-- The fields of a part that the service reads. A part with none of them is of a type
that is not supported. -/
structure Part where
  inlineData : Option Blob := none
  text : Option Str := none
  fileData : Option FileData := none

inductive Err where
  | server (e : Server.Err)
  | inputValidation (message : String)
  | unicodeDecode
  | keyError
  deriving DecidableEq

/-- `s.encode("utf-8")`. -/
def encode (s : Str) : ByteArray := (String.ofList s).toUTF8

/-- `b.decode("utf-8")`. -/
def decode (b : ByteArray) : Except Err Str :=
  match String.fromUTF8? b with
  | some s => .ok s.toList
  | none => .error .unicodeDecode

def textPlain : Str := "text/plain".toList

def mimeForPart (part : Part) : Except Err (Option Str) :=
  match part.inlineData with
  | some blob => .ok blob.mimeType
  | none =>
    match part.text with
    | some _ => .ok (some textPlain)
    | none =>
      match part.fileData with
      | some file => .ok file.mimeType
      | none => .error (.inputValidation "Not supported artifact type.")

def bytesForPart (part : Part) : Except Err ByteArray :=
  match part.inlineData with
  | some blob => .ok (blob.data.getD ByteArray.empty)
  | none =>
    match part.text with
    | some s => .ok (encode s)
    | none =>
      match part.fileData with
      | some file => .ok (encode (file.fileUri.getD []))
      | none => .error (.inputValidation "Not supported artifact type.")

/-! ### Records -/

variable {V : Type}

/-- The bins of a version record; a head record has `ver` only. -/
structure Record (V : Type) where
  app : Option Str := none
  uid : Option Str := none
  sid : Option Str := none
  aus : Option Str := none
  fname : Option Str := none
  ver : Option ℕ := none
  mime : Option Str := none
  data : Option ByteArray := none
  createTime : Option ℚ := none
  customMeta : Option (Dict V) := none

inductive Op where
  | readVersion
  | incrementVersion

/-- The operations of a list act in order; what was read last is returned. -/
def Op.act (x : Record V × Option ℕ) : Op → Record V × Option ℕ
  | readVersion => (x.1, x.1.ver)
  | incrementVersion => ({ x.1 with ver := some (x.1.ver.getD 0 + 1) }, x.2)

/-- The server's parameters: which records are within the size limit, and the order in
which a query returns what it finds. -/
structure ServerConfig (V : Type) where
  fits : Record V → Bool
  arrange : List (Record V) → List (Record V)
  arrange_perm : ∀ l, (arrange l).Perm l

/-- The artifacts set. No bin is put over another, as every put creates its record. -/
def ServerConfig.table (cfg : ServerConfig V) : Server.Table (Record V) (List Op) (Option ℕ) Str where
  blank := {}
  merge _ r := r
  index := Record.aus
  fits := cfg.fits
  creates ops := ops.any fun op => match op with
    | .incrementVersion => true
    | .readVersion => false
  apply ops r := ops.foldl Op.act (r, none)
  arrange := cfg.arrange
  arrange_perm := cfg.arrange_perm

abbrev Req (V : Type) := Server.Req Str (Record V) (List Op) Str

abbrev Ans (q : Req V) : Type := Server.Ans (Option ℕ) q

abbrev Store (V : Type) := Server.Store Str (Record V)

abbrev Service (V α : Type) := Prog (Req V) Ans Err α

def exec (cfg : ServerConfig V) (x : Server.Weather) : (q : Req V) → Store V → Ans q × Store V :=
  Server.exec cfg.table x

/-! ### Single requests -/

def ofExcept {α : Type} : Except Err α → Service V α
  | .ok a => .ret a
  | .error e => .raise e

def answer {α : Type} (x : Except Server.Err α) : Service V α := ofExcept (x.mapError .server)

def create (key : Str) (bins : Record V) : Service V Unit := .ask (.create key bins) answer

def get (key : Str) : Service V (Record V) := .ask (.get key) answer

def remove (key : Str) : Service V Unit := .ask (.remove key) answer

def operate (key : Str) (ops : List Op) : Service V (Option ℕ) := .ask (.operate key ops) answer

def query (aus : Str) : Service V (List (Record V)) := .ask (.query aus) answer

/-- `except ae.RecordNotFound: ...`. -/
def unlessNotFound {α : Type} (p h : Service V α) : Service V α :=
  p.tryCatch fun e => if e = .server .recordNotFound then h else .raise e

/-! ### Internals -/

def scopeId (filename : Str) (sessionId : Option Str) : Service V Str :=
  match artifactScopeId filename sessionId with
  | some scope => .ret scope
  | none => .raise (.inputValidation "session_id is required for non-user-scoped artifacts")

def allocateVersion (app user scope filename : Str) : Service V ℕ := do
  let current ← operate (artifactHeadKey app user scope filename) [.readVersion, .incrementVersion]
  return current.getD 0

/-- `_rows_for` after the query. -/
def rowsOf (filename : Str) (records : List (Record V)) : List (ℕ × Record V) :=
  (records.filter fun r => r.fname = some filename ∧ r.data.isSome).map fun r => (r.ver.getD 0, r)

def rowsFor (app user scope filename : Str) : Service V (List (ℕ × Record V)) := do
  return rowsOf filename (← query (scopeTuple app user scope))

def versionsFor (app user scope filename : Str) : Service V (List ℕ) := do
  return (← rowsFor app user scope filename).map Prod.fst

def filenamesFor (app user scope : Str) : Service V (List Str) := do
  match (← query (scopeTuple app user scope)).mapM Record.fname with
  | some names => return names
  | none => .raise .keyError

/-- `sorted(set(...))`. -/
def sortedSet (names : List Str) : List Str := names.dedup.mergeSort fun a b => a ≤ b

/-- `_part_from_bins`. -/
def partFromBins (r : Record V) : Except Err Part :=
  if r.mime = some textPlain then
    (decode (r.data.getD ByteArray.empty)).map fun s => { text := some s }
  else .ok { inlineData := some ⟨r.mime, some (r.data.getD ByteArray.empty)⟩ }

structure ArtifactVersion (V : Type) where
  version : ℕ
  canonicalUri : Str
  customMetadata : Dict V
  createTime : ℚ
  mimeType : Option Str

def versionMeta (app user scope filename : Str) (r : Record V) : ArtifactVersion V where
  version := r.ver.getD 0
  canonicalUri :=
    if scope = userScopeSid then
      "aerospike://apps/".toList ++ app ++ "/users/".toList ++ user ++ "/artifacts/".toList ++ filename ++
        "/versions/".toList ++ Nat.toDigits 10 (r.ver.getD 0)
    else
      "aerospike://apps/".toList ++ app ++ "/users/".toList ++ user ++ "/sessions/".toList ++ scope ++
        "/artifacts/".toList ++ filename ++ "/versions/".toList ++ Nat.toDigits 10 (r.ver.getD 0)
  customMetadata := r.customMeta.getD ∅
  createTime := r.createTime.getD 0
  mimeType := r.mime

/-! ### The service -/

/-- The record that `save_artifact` puts. -/
def newRow (app user scope filename : Str) (version : ℕ) (mime : Option Str) (data : ByteArray) (now : ℚ)
    (customMetadata : Option (Dict V)) : Record V where
  app := some app
  uid := some user
  sid := some scope
  aus := some (scopeTuple app user scope)
  fname := some filename
  ver := some version
  mime := mime
  data := some data
  createTime := some now
  customMeta := some (customMetadata.getD ∅)

def saveArtifact (app user filename : Str) (part : Part) (sessionId : Option Str)
    (customMetadata : Option (Dict V)) (now : ℚ) : Service V ℕ := do
  let scope ← scopeId filename sessionId
  let version ← allocateVersion app user scope filename
  let mime ← ofExcept (mimeForPart part)
  let data ← ofExcept (bytesForPart part)
  create (artifactKey app user scope filename version)
    (newRow app user scope filename version mime data now customMetadata)
  return version

/-- `load_artifact` and `get_artifact_version` from the version on. -/
def getVersion (app user scope filename : Str) (version : ℤ) : Service V (Option (Record V)) :=
  unlessNotFound (do return some (← get (artifactKey app user scope filename version))) (return none)

/-- The record that `load_artifact` and `get_artifact_version` read. -/
def getRecord (app user scope filename : Str) (version : Option ℤ) : Service V (Option (Record V)) :=
  match version with
  | some v => getVersion app user scope filename v
  | none => do
    match (← versionsFor app user scope filename).max? with
    | none => return none
    | some v => getVersion app user scope filename v

def loadArtifact (app user filename : Str) (sessionId : Option Str) (version : Option ℤ) :
    Service V (Option Part) := do
  let scope ← scopeId filename sessionId
  match ← getRecord app user scope filename version with
  | none => return none
  | some r => return some (← ofExcept (partFromBins r))

def listArtifactKeys (app user : Str) (sessionId : Option Str) : Service V (List Str) := do
  let shared ← filenamesFor app user userScopeSid
  match sessionId with
  | none => return sortedSet shared
  | some session =>
    let own ← filenamesFor app user session
    return sortedSet (shared ++ own)

/-- The loop of `delete_artifact` over the versions it has found. -/
def removeVersions (app user scope filename : Str) : List ℕ → Service V Unit
  | [] => .ret ()
  | v :: vs => do
    unlessNotFound (remove (artifactKey app user scope filename v)) (return ())
    removeVersions app user scope filename vs

def deleteArtifact (app user filename : Str) (sessionId : Option Str) : Service V Unit := do
  let scope ← scopeId filename sessionId
  let versions ← versionsFor app user scope filename
  removeVersions app user scope filename versions
  unlessNotFound (remove (artifactHeadKey app user scope filename)) (return ())

def listVersions (app user filename : Str) (sessionId : Option Str) : Service V (List ℕ) := do
  let scope ← scopeId filename sessionId
  return (← versionsFor app user scope filename).mergeSort fun a b => a ≤ b

def listArtifactVersions (app user filename : Str) (sessionId : Option Str) :
    Service V (List (ArtifactVersion V)) := do
  let scope ← scopeId filename sessionId
  let rows ← rowsFor app user scope filename
  return (rows.mergeSort fun a b => a.1 ≤ b.1).map fun x => versionMeta app user scope filename x.2

def getArtifactVersion (app user filename : Str) (sessionId : Option Str) (version : Option ℤ) :
    Service V (Option (ArtifactVersion V)) := do
  let scope ← scopeId filename sessionId
  return (← getRecord app user scope filename version).map (versionMeta app user scope filename)

/-! ### Calls -/

inductive Call (V : Type) where
  | save (app user filename : Str) (part : Part) (sessionId : Option Str)
      (customMetadata : Option (Dict V)) (now : ℚ)
  | load (app user filename : Str) (sessionId : Option Str) (version : Option ℤ)
  | listKeys (app user : Str) (sessionId : Option Str)
  | delete (app user filename : Str) (sessionId : Option Str)
  | listVersions (app user filename : Str) (sessionId : Option Str)
  | listArtifactVersions (app user filename : Str) (sessionId : Option Str)
  | getArtifactVersion (app user filename : Str) (sessionId : Option Str) (version : Option ℤ)

inductive Reply (V : Type) where
  | version (v : ℕ)
  | part (p : Option Part)
  | keys (names : List Str)
  | done
  | versions (vs : List ℕ)
  | artifactVersions (l : List (ArtifactVersion V))
  | artifactVersion (x : Option (ArtifactVersion V))

def Call.body : Call V → Service V (Reply V)
  | .save app user filename part sessionId customMetadata now => do
    return .version (← saveArtifact app user filename part sessionId customMetadata now)
  | .load app user filename sessionId version => do
    return .part (← loadArtifact app user filename sessionId version)
  | .listKeys app user sessionId => do return .keys (← listArtifactKeys app user sessionId)
  | .delete app user filename sessionId => do
    deleteArtifact app user filename sessionId
    return .done
  | .listVersions app user filename sessionId => do
    return .versions (← Artifacts.listVersions app user filename sessionId)
  | .listArtifactVersions app user filename sessionId => do
    return .artifactVersions (← Artifacts.listArtifactVersions app user filename sessionId)
  | .getArtifactVersion app user filename sessionId version => do
    return .artifactVersion (← Artifacts.getArtifactVersion app user filename sessionId version)

/-- Calls over one store. -/
def service (cfg : ServerConfig V) :
    System (Req V) Ans Err (Reply V) (Store V) (Call V) Server.Weather where
  body := Call.body
  serve _ := exec cfg

/-- One complete call with no other call in between and no fault. -/
def perform (cfg : ServerConfig V) (c : Call V) (σ : Store V) : Except Err (Reply V) × Store V :=
  c.body.run (exec cfg .fair) σ

/-- A server that takes every record. -/
def Small.cfg : ServerConfig ℕ := ⟨fun _ => true, id, fun _ => .refl _⟩

end AdkAerospike.Artifacts
