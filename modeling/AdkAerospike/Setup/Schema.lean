import AdkAerospike.Data.Split
import AdkAerospike.Data.Text

/-! The names of sets and indexes (`_internal/schema.py`, `_internal/indexes.py`). All of them
begin with the prefix of the installation, which may be any string, and none of the words
behind it ends in another one; so a name tells its prefix and what it is the name of. -/

namespace AdkAerospike.Setup

open Data

inductive StorageSet where
  | sessions | appState | userState | artifacts | memory
  deriving DecidableEq

/-- The wire value of the set, without the prefix. -/
def StorageSet.value : StorageSet → Str
  | sessions => "sessions".toList
  | appState => "app_state".toList
  | userState => "user_state".toList
  | artifacts => "artifacts".toList
  | memory => "memory".toList

def defaultSetPrefix : Str := "adk_".toList

structure Schema where
  namespaceName : Str
  setPrefix : Str := defaultSetPrefix

namespace Schema
variable (s : Schema)

def setName (k : StorageSet) : Str := s.setPrefix ++ k.value

def sessionsSet : Str := s.setName .sessions

def appStateSet : Str := s.setName .appState

def userStateSet : Str := s.setName .userState

def artifactsSet : Str := s.setName .artifacts

def memorySet : Str := s.setName .memory

end Schema

theorem StorageSet.eq_of_suffix : ∀ k k' : StorageSet, k.value <:+ k'.value → k = k' := by
  intro k k'
  cases k <;> cases k' <;> decide

/-- A set name tells the prefix and the set. -/
theorem setName_inj {s t : Schema} {k k' : StorageSet} (h : s.setName k = t.setName k') :
    s.setPrefix = t.setPrefix ∧ k = k' := by
  obtain ⟨hpre, hvalue⟩ := append_inj_of_suffix h (fun h => by rw [StorageSet.eq_of_suffix _ _ h])
    fun h => by rw [StorageSet.eq_of_suffix _ _ h]
  exact ⟨hpre, StorageSet.eq_of_suffix _ _ (hvalue ▸ List.suffix_rfl)⟩

/-! ### Indexes -/

inductive ServiceKind where
  | sessions | artifacts | memory
  deriving DecidableEq

/-- `aerospike.INDEX_*`. -/
inductive IndexType where
  | string | numeric
  deriving DecidableEq

structure Index where
  namespaceName : Str
  set : Str
  bin : Str
  type : IndexType
  name : Str
  deriving DecidableEq

/-- The indexes are on the same bin of the same records. -/
def Index.Alike (x y : Index) : Prop :=
  x.namespaceName = y.namespaceName ∧ x.set = y.set ∧ x.bin = y.bin ∧ x.type = y.type

/-- A row of the tables in `ensure_*_indexes`. -/
structure IndexRow where
  set : Str
  bin : Str
  kind : Str
  name : Str

/-- `f"idx_{schema.set_prefix}..."`. -/
def indexName (s : Schema) (tail : Str) : Str := "idx_".toList ++ s.setPrefix ++ tail

/-- The table of `ensure_session_indexes`. -/
def sessionIndexRows (s : Schema) : List IndexRow :=
  [⟨s.sessionsSet, "uid".toList, "string".toList, indexName s "sess_uid".toList⟩,
    ⟨s.sessionsSet, "app".toList, "string".toList, indexName s "sess_app".toList⟩]

/-- The table of `ensure_artifact_indexes`. -/
def artifactIndexRows (s : Schema) : List IndexRow :=
  [⟨s.artifactsSet, "aus".toList, "string".toList, indexName s "art_aus".toList⟩,
    ⟨s.artifactsSet, "fname".toList, "string".toList, indexName s "art_fname".toList⟩]

/-- The one index that `ensure_memory_indexes` creates. -/
def memoryIndex (s : Schema) : Index :=
  ⟨s.namespaceName, s.memorySet, "aus".toList, .string, indexName s "mem_aus".toList⟩

/-- `_index_kind`. -/
def indexKind (kind : Str) : Option IndexType :=
  if kind = "string".toList then some .string
  else if kind = "integer".toList then some .numeric
  else none

/-- The index that a row stands for, if its kind is known. -/
def IndexRow.index (s : Schema) (row : IndexRow) : Option Index :=
  (indexKind row.kind).map fun type => ⟨s.namespaceName, row.set, row.bin, type, row.name⟩

theorem index_of_kind (s : Schema) {row : IndexRow} (h : row.kind = "string".toList) :
    ∃ x, row.index s = some x := by
  obtain ⟨set, bin, kind, name⟩ := row
  subst h
  exact ⟨_, rfl⟩

theorem kind_sessionIndexRows (s : Schema) : ∀ row ∈ sessionIndexRows s, row.kind = "string".toList := by
  simp [sessionIndexRows]

theorem kind_artifactIndexRows (s : Schema) : ∀ row ∈ artifactIndexRows s, row.kind = "string".toList := by
  simp [artifactIndexRows]

/-- The indexes of a service. -/
def indexes (s : Schema) : ServiceKind → List Index
  | .sessions => (sessionIndexRows s).filterMap (IndexRow.index s)
  | .artifacts => (artifactIndexRows s).filterMap (IndexRow.index s)
  | .memory => [memoryIndex s]

/-- What stands behind the prefix in the name of an index, with the set and the bin it is on. -/
def tails : List (Str × StorageSet × Str) :=
  [("sess_uid".toList, .sessions, "uid".toList), ("sess_app".toList, .sessions, "app".toList),
    ("art_aus".toList, .artifacts, "aus".toList), ("art_fname".toList, .artifacts, "fname".toList),
    ("mem_aus".toList, .memory, "aus".toList)]

theorem tails_suffix : ∀ x ∈ tails, ∀ y ∈ tails, x.1 <:+ y.1 → x = y := by decide

theorem index_of_mem {s : Schema} {k : ServiceKind} {x : Index} (h : x ∈ indexes s k) :
    ∃ t ∈ tails, x = ⟨s.namespaceName, s.setName t.2.1, t.2.2, .string, indexName s t.1⟩ := by
  cases k with
  | sessions =>
    obtain ⟨row, hrow, hx⟩ := List.mem_filterMap.mp h
    simp only [sessionIndexRows, List.mem_cons, List.not_mem_nil, or_false] at hrow
    rcases hrow with rfl | rfl
    · exact ⟨("sess_uid".toList, .sessions, "uid".toList), by decide, (Option.some.inj hx).symm⟩
    · exact ⟨("sess_app".toList, .sessions, "app".toList), by decide, (Option.some.inj hx).symm⟩
  | artifacts =>
    obtain ⟨row, hrow, hx⟩ := List.mem_filterMap.mp h
    simp only [artifactIndexRows, List.mem_cons, List.not_mem_nil, or_false] at hrow
    rcases hrow with rfl | rfl
    · exact ⟨("art_aus".toList, .artifacts, "aus".toList), by decide, (Option.some.inj hx).symm⟩
    · exact ⟨("art_fname".toList, .artifacts, "fname".toList), by decide, (Option.some.inj hx).symm⟩
  | memory => exact ⟨("mem_aus".toList, .memory, "aus".toList), by decide, List.mem_singleton.mp h⟩

/-- In a namespace the name of an index tells all of it. -/
theorem index_inj {s t : Schema} {k k' : ServiceKind} {x y : Index} (hx : x ∈ indexes s k) (hy : y ∈ indexes t k')
    (hspace : x.namespaceName = y.namespaceName) (hname : x.name = y.name) : x = y := by
  obtain ⟨u, hu, rfl⟩ := index_of_mem hx
  obtain ⟨v, hv, rfl⟩ := index_of_mem hy
  have htails : s.setPrefix ++ u.1 = t.setPrefix ++ v.1 := by
    simpa [indexName, List.append_assoc] using hname
  obtain ⟨hpre, htail⟩ := append_inj_of_suffix htails (fun h => by rw [tails_suffix u hu v hv h])
    fun h => by rw [tails_suffix v hv u hu h]
  obtain rfl := tails_suffix u hu v hv (htail ▸ List.suffix_rfl)
  have hset : s.setName u.2.1 = t.setName u.2.1 := by rw [Schema.setName, Schema.setName, hpre]
  have hfull : indexName s u.1 = indexName t u.1 := hname
  rw [Index.mk.injEq]
  exact ⟨hspace, hset, rfl, rfl, hfull⟩

end AdkAerospike.Setup
