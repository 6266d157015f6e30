import AdkAerospike.Program.Moments
import AdkAerospike.Setup.Schema
import AdkAerospike.Uri.Parse

/-! How services are set up (`_internal/client.py`, `_internal/indexes.py`, and the
constructors and `from_uri` of the three services): a URI is parsed, a client connects, and
the indexes of the service are created, each on its own. Several processes do so at once, a
process may stop anywhere, and each statement may fail and have been carried out all the same. -/

namespace AdkAerospike.Setup

open Program Data

/-! ### Clients -/

/-- A setting of a policy: a number, or a constant of the client library. -/
inductive PolicyValue where
  | number (n : ℕ)
  | keySend
  | commitLevelAll

abbrev Policies := Dict (Dict PolicyValue)

/-- A dict from its items. -/
def dict {ν : Type} (items : List (String × ν)) : Dict ν :=
  (items.map fun x => ⟨x.1.toList, x.2⟩ : List (Sigma fun _ : Str => ν)).toAList

/-- `_default_policies`. -/
def defaultPolicies : Policies :=
  let write : Dict PolicyValue := dict [("total_timeout", .number 1000), ("max_retries", .number 0), ("key", .keySend),
    ("commit_level", .commitLevelAll)]
  dict [("read", dict [("total_timeout", .number 1000), ("max_retries", .number 2), ("key", .keySend)]),
    ("write", write), ("operate", write), ("remove", write),
    ("query", dict [("total_timeout", .number 10000), ("max_retries", .number 2)]),
    ("batch", dict [("total_timeout", .number 1000), ("max_retries", .number 2)])]

/-- `_merge_policies`. -/
def mergePolicies (base override : Policies) : Policies :=
  override.foldl (fun merged key overrides => merged.insert key (((merged.get key).getD ∅).update overrides)) base

/-- Of each policy the settings that are given are taken, and the others stay. -/
theorem get_mergePolicies (base override : Policies) (key : Str) :
    (mergePolicies base override).get key = match override.get key with
      | none => base.get key
      | some overrides => some (((base.get key).getD ∅).update overrides) := by
  obtain ⟨es, hes, hfind, hfold⟩ := override.foldl_entries
    (fun (merged : Policies) key overrides => merged.insert key (((merged.get key).getD ∅).update overrides)) base
  rw [mergePolicies, hfold, ← hfind]
  clear hfold hfind
  induction es generalizing base with
  | nil => rfl
  | cons e es ih =>
    obtain ⟨hfresh, hrest⟩ := List.nodupKeys_cons.mp hes
    rw [List.foldl_cons, ih _ hrest]
    by_cases hkey : key = e.1
    · subst hkey
      rw [FMap.find_eq_none hfresh, FMap.find_cons_self]
      exact FMap.get_insert_self ..
    · rw [FMap.find_cons_of_ne hkey, FMap.get_insert_of_ne _ _ hkey]

structure ClientConfig where
  hosts : List (Str × ℤ)
  policies : Policies
  maxErrorRate : ℕ := 100
  errorRateWindow : ℕ := 1
  tls : Bool

/-- `make_client` as `from_uri` calls it: the configuration, and the credentials if there are
both a name and a password. -/
def makeConfig (uri : Uri.AerospikeUri) (policies : Policies := ∅) : ClientConfig where
  hosts := uri.hosts
  policies := mergePolicies defaultPolicies policies
  tls := uri.tls

def credentials (uri : Uri.AerospikeUri) : Option (Str × Str) :=
  match uri.username, uri.password with
  | some username, some password => if username ≠ [] ∧ password ≠ [] then some (username, password) else none
  | _, _ => none

/-! ### The server -/

inductive Err where
  | indexFound
  | status (code : ℤ)
  | uri (e : Uri.ValueError)
  | memoryScheme (scheme : Str)
  | unsupportedIndexKind (kind : Str)

inductive Req where
  | connect (config : ClientConfig) (credentials : Option (Str × Str))
  | createIndex (x : Index)

abbrev Ans : Req → Type := fun _ => Except Err Unit

inductive Weather where
  | fair
  | failed (code : ℤ) (applied : Bool)

/-- When the server takes an index for one that is there already: it has the same name, or
is on the same bin. -/
structure Cluster where
  clash : Index → Index → Bool
  clash_eq : ∀ x y, clash x y → x.namespaceName = y.namespaceName ∧ (x.name = y.name ∨ x.Alike y)

namespace Cluster
variable (C : Cluster)

def create (x : Index) (σ : List Index) : Except Err Unit × List Index :=
  if σ.any fun y => C.clash y x then (.error .indexFound, σ) else (.ok (), σ ++ [x])

def serve (w : Weather) : (q : Req) → List Index → Ans q × List Index
  | .connect _ _, σ => match w with
    | .fair => (.ok (), σ)
    | .failed code _ => (.error (.status code), σ)
  | .createIndex x, σ => match w with
    | .fair => C.create x σ
    | .failed code applied => (.error (.status code), if applied then (C.create x σ).2 else σ)

end Cluster

/-! ### The programs -/

abbrev Script (α : Type) := Prog Req Ans Err α

def answer : Except Err Unit → Script Unit
  | .ok _ => .ret ()
  | .error e => .raise e

def createIndex (x : Index) : Script Unit := .ask (.createIndex x) answer

def connect (config : ClientConfig) (credentials : Option (Str × Str)) : Script Unit :=
  .ask (.connect config credentials) answer

/-- `try: ... except ae.IndexFoundError: ...`. -/
def unlessFound (p : Script Unit) : Script Unit := p.tryCatch fun
  | .indexFound => .ret ()
  | e => .raise e

/-- The loop over the rows of a table. -/
def ensureRows (s : Schema) : List IndexRow → Script Unit
  | [] => .ret ()
  | row :: rows => do
    unlessFound (match row.index s with
      | none => .raise (.unsupportedIndexKind row.kind)
      | some x => createIndex x)
    ensureRows s rows

def ensureSessionIndexes (s : Schema) : Script Unit := ensureRows s (sessionIndexRows s)

def ensureArtifactIndexes (s : Schema) : Script Unit := ensureRows s (artifactIndexRows s)

def ensureMemoryIndexes (s : Schema) : Script Unit := unlessFound (createIndex (memoryIndex s))

/-- The call in the constructor of the service. -/
def ensureIndexes (s : Schema) : ServiceKind → Script Unit
  | .sessions => ensureSessionIndexes s
  | .artifacts => ensureArtifactIndexes s
  | .memory => ensureMemoryIndexes s

/-- A constructor, which sets the schema of the service. -/
def construct (k : ServiceKind) (s : Schema) (ensure : Bool := true) : Script Schema := do
  if ensure then ensureIndexes s k
  return s

/-- `from_uri`. The memory service checks the scheme once more. -/
def fromUri (U : Uri.Interpreter) (k : ServiceKind) (uri : Str) : Script Schema :=
  match Uri.parse U uri with
  | .error e => .raise (.uri e)
  | .ok parsed =>
    if k = .memory ∧ parsed.scheme ≠ "aerospike".toList then .raise (.memoryScheme parsed.scheme)
    else do
      connect (makeConfig parsed) (credentials parsed)
      construct k ⟨parsed.namespaceName, parsed.setPrefix⟩

inductive Call where
  | construct (k : ServiceKind) (s : Schema) (ensure : Bool)
  | fromUri (k : ServiceKind) (uri : Str)

def Call.body (U : Uri.Interpreter) : Call → Script Schema
  | .construct k s ensure => Setup.construct k s ensure
  | .fromUri k uri => Setup.fromUri U k uri

def service (U : Uri.Interpreter) (C : Cluster) : System Req Ans Err Schema (List Index) Call Weather where
  body := Call.body U
  serve _ := C.serve

abbrev ServicePool := Pool Req Ans Err Schema (List Index) Call

/-! ### What calls are to do -/

/-- The schema that the call gives its service. -/
def Call.schema (U : Uri.Interpreter) : Call → Option Schema
  | .construct _ s _ => some s
  | .fromUri _ uri => match Uri.parse U uri with
    | .ok parsed => some ⟨parsed.namespaceName, parsed.setPrefix⟩
    | .error _ => none

/-- The indexes that the call is to create. -/
def Call.wants (U : Uri.Interpreter) : Call → List Index
  | .construct k s ensure => if ensure then indexes s k else []
  | .fromUri k uri => match (Call.fromUri k uri).schema U with
    | some s => indexes s k
    | none => []

/-- An index of an installation. -/
def Own (x : Index) : Prop := ∃ s k, x ∈ indexes s k

theorem Call.schema_of_wants {U : Uri.Interpreter} {c : Call} {x : Index} (h : x ∈ c.wants U) :
    ∃ s k, c.schema U = some s ∧ x ∈ indexes s k := by
  cases c with
  | construct k s ensure =>
    cases ensure with
    | false => cases h
    | true => exact ⟨s, k, rfl, h⟩
  | fromUri k uri =>
    dsimp only [wants] at h
    split at h
    · exact ⟨_, k, ‹_›, h⟩
    · cases h

theorem Call.own_of_wants {U : Uri.Interpreter} {c : Call} {x : Index} (h : x ∈ c.wants U) : Own x := by
  obtain ⟨s, k, -, hx⟩ := schema_of_wants h
  exact ⟨s, k, hx⟩

/-- Indexes of others do not have the names of an installation's. -/
def Unclaimed (σ : List Index) : Prop :=
  ∀ x ∈ σ, ∀ y, Own y → x.namespaceName = y.namespaceName → x.name = y.name → x.Alike y

/-- What may be raised: the error of a fault, where there is one, and what is wrong with a URI. -/
def Call.MayRaise (U : Uri.Interpreter) (c : Call) (faulty : Prop) : Err → Prop
  | .status _ => faulty
  | .uri e => ∃ k uri, c = .fromUri k uri ∧ Uri.parse U uri = .error e
  | _ => False

/-- The catalogue has an index on what this one is on. -/
def Present (σ : List Index) (x : Index) : Prop := ∃ y ∈ σ, y.Alike x

/-- Indexes of these, no two of which clash, have been added. -/
def Added (C : Cluster) (l σ₀ σ : List Index) : Prop := ∃ new, σ = σ₀ ++ new ∧ (∀ x ∈ new, x ∈ l) ∧
  new.Pairwise (fun x y => C.clash x y = false) ∧ ∀ x ∈ σ₀, ∀ y ∈ new, C.clash x y = false

/-- Only these calls meet faults. -/
def Mild (faulty : ℕ → Prop) (_ : ServicePool) : Action Call Weather → Prop
  | .spawn _ => True
  | .step i w => w = .fair ∨ faulty i

/-- A call that has returned has its indexes; one that has raised has met a fault, or a URI
that is none; and nothing has been added but what some call is to create, once. -/
structure SetUp (U : Uri.Interpreter) (C : Cluster) (σ₀ : List Index) (faulty : ℕ → Prop) (s : ServicePool) : Prop where
  returned : ∀ (i : ℕ) c sch, s.procs[i]? = some ⟨c, .ret sch⟩ →
    c.schema U = some sch ∧ ∀ x ∈ c.wants U, Present s.world x
  raised : ∀ (i : ℕ) c e, s.procs[i]? = some ⟨c, .raise e⟩ → c.MayRaise U (faulty i) e
  added : Added C (s.calls.flatMap (Call.wants U)) σ₀ s.world

section Runs
variable {U : Uri.Interpreter} {C : Cluster} {σ σ' σ₀ : List Index} {s s' : ServicePool} {w : Weather}
  {ok : ServicePool → Action Call Weather → Prop}

/-- The request creates no other indexes than these. -/
def Req.Within (l : List Index) : Req → Prop
  | .connect _ _ => True
  | .createIndex x => x ∈ l

theorem unlessFound_uses {F : Req → Prop} {p : Script Unit} (hp : p.Uses F) : (unlessFound p).Uses F :=
  hp.tryCatch fun e => by cases e <;> trivial

theorem answer_uses {F : Req → Prop} (y : Except Err Unit) : (answer y).Uses F := by cases y <;> trivial

theorem ensureRows_uses (sch : Schema) (rows : List IndexRow) :
    (ensureRows sch rows).Uses (Req.Within (rows.filterMap (IndexRow.index sch))) := by
  have hall : ∀ l : List Index, (∀ row ∈ rows, ∀ x, row.index sch = some x → x ∈ l) →
      (ensureRows sch rows).Uses (Req.Within l) := by
    intro l hl
    induction rows with
    | nil => trivial
    | cons row rows ih =>
      refine Prog.Uses.bind (unlessFound_uses ?_) fun _ => ih fun row' h => hl row' (List.mem_cons_of_mem _ h)
      cases hrow : row.index sch with
      | none => trivial
      | some x => exact ⟨hl row (List.mem_cons_self ..) x hrow, answer_uses⟩
  exact hall _ fun row hrow x hx => List.mem_filterMap.mpr ⟨row, hrow, hx⟩

theorem ensureIndexes_uses (sch : Schema) (k : ServiceKind) :
    (ensureIndexes sch k).Uses (Req.Within (indexes sch k)) := by
  cases k with
  | sessions => exact ensureRows_uses sch _
  | artifacts => exact ensureRows_uses sch _
  | memory => exact unlessFound_uses ⟨List.mem_singleton.mpr rfl, answer_uses⟩

theorem body_uses (c : Call) : (c.body U).Uses (Req.Within (c.wants U)) := by
  cases c with
  | construct k sch ensure =>
    cases ensure with
    | false => trivial
    | true => exact (ensureIndexes_uses sch k).bind fun _ => trivial
  | fromUri k uri =>
    cases h : Uri.parse U uri with
    | error e =>
      rw [Call.body, Setup.fromUri, h]
      trivial
    | ok parsed =>
      have hwants : (Call.fromUri k uri).wants U = indexes ⟨parsed.namespaceName, parsed.setPrefix⟩ k := by
        simp only [Call.wants, Call.schema, h]
      rw [hwants, Call.body, Setup.fromUri, h]
      dsimp only
      split_ifs
      · trivial
      · exact Prog.Uses.bind ⟨trivial, answer_uses⟩ fun _ => (ensureIndexes_uses _ k).bind fun _ => trivial

/-! ### The catalogue -/

theorem create_cases (x : Index) (σ : List Index) :
    (∃ y ∈ σ, C.clash y x = true) ∧ C.create x σ = (.error .indexFound, σ) ∨
      (∀ y ∈ σ, C.clash y x = false) ∧ C.create x σ = (.ok (), σ ++ [x]) := by
  unfold Cluster.create
  split_ifs with h
  · exact .inl ⟨List.any_eq_true.mp h, rfl⟩
  · exact .inr ⟨fun y hy => by simpa using fun hc => h (List.any_eq_true.mpr ⟨y, hy, hc⟩), rfl⟩

/-- A request adds nothing to the catalogue but an index it names, where none was. -/
theorem serve_snd (q : Req) (σ : List Index) : (C.serve w q σ).2 = σ ∨
    ∃ x, q = .createIndex x ∧ (∀ y ∈ σ, C.clash y x = false) ∧ (C.serve w q σ).2 = σ ++ [x] := by
  cases q with
  | connect config credentials => exact .inl (by cases w <;> rfl)
  | createIndex x =>
    have hcreate : (C.create x σ).2 = σ ∨ (∀ y ∈ σ, C.clash y x = false) ∧ (C.create x σ).2 = σ ++ [x] := by
      rcases create_cases x σ with ⟨-, h⟩ | ⟨hclash, h⟩ <;> rw [h]
      · exact .inl rfl
      · exact .inr ⟨hclash, rfl⟩
    have hall : (C.serve w (.createIndex x) σ).2 = σ ∨ (C.serve w (.createIndex x) σ).2 = (C.create x σ).2 := by
      cases w with
      | fair => exact .inr rfl
      | failed code applied => cases applied <;> simp [Cluster.serve]
    rcases hall with h | h <;> rw [h]
    · exact .inl rfl
    · rcases hcreate with h | ⟨hclash, h⟩
      · exact .inl h
      · exact .inr ⟨x, rfl, hclash, h⟩

theorem Added.refl {l : List Index} : Added C l σ₀ σ₀ := by
  refine ⟨[], (List.append_nil _).symm, fun x hx => ?_, .nil, fun x hx y hy => ?_⟩
  · cases hx
  · cases hy

theorem Added.serve {l : List Index} {q : Req} (h : Added C l σ₀ σ) (hq : q.Within l) :
    Added C l σ₀ (C.serve w q σ).2 := by
  obtain ⟨new, rfl, hnew, hpairs, hold⟩ := h
  rcases serve_snd (w := w) q (σ₀ ++ new) with h | ⟨x, rfl, hclash, h⟩ <;> rw [h]
  · exact ⟨new, rfl, hnew, hpairs, hold⟩
  · refine ⟨new ++ [x], List.append_assoc .., ?_, List.pairwise_append.mpr ⟨hpairs, List.pairwise_singleton .., ?_⟩, ?_⟩
    · intro y hy
      rcases List.mem_append.mp hy with hy | hy
      · exact hnew y hy
      · exact List.mem_singleton.mp hy ▸ hq
    · intro y hy z hz
      exact List.mem_singleton.mp hz ▸ hclash y (List.mem_append_right _ hy)
    · intro y hy z hz
      rcases List.mem_append.mp hz with hz | hz
      · exact hold y hy z hz
      · exact List.mem_singleton.mp hz ▸ hclash y (List.mem_append_left _ hy)

theorem Req.Within.mono {l l' : List Index} {q : Req} (h : q.Within l) (hl : ∀ x ∈ l, x ∈ l') : q.Within l' := by
  cases q with
  | connect config credentials => trivial
  | createIndex x => exact hl x h

theorem added_of_reach (hs : (service U C).Reach ok ⟨σ₀, []⟩ s) :
    Added C (s.calls.flatMap (Call.wants U)) σ₀ s.world := by
  have hcalling := hs.calling (List.Subset.refl s.calls)
  refine (hcalling.uses (F := fun _ => Req.Within (s.calls.flatMap (Call.wants U)))
    (I := Added C (s.calls.flatMap (Call.wants U)) σ₀) ?_ ?_ ?_ rfl).1
  · intro t c hc
    exact (body_uses c).mono fun q hq => hq.mono fun x hx => List.mem_flatMap.mpr ⟨c, hc.2 c rfl, hx⟩
  · intro t i x c q _ _ hq hadded
    exact hadded.serve hq
  · exact .refl

/-- Nothing is ever taken from the catalogue. -/
theorem catalogue_grows (hs : (service U C).Reach ok s s') : s.world <+: s'.world := by
  refine hs.invariant (I := fun t => s.world <+: t.world) (List.prefix_refl _) fun t a h _ => ?_
  rcases System.act_cases (Y := service U C) a t with ⟨c, rfl, hact⟩ | ⟨i, w, -, -, hact⟩ |
    ⟨i, w, c, q, k, rfl, -, -, hact⟩ <;> rw [hact]
  · exact h
  · exact h
  · rcases serve_snd (C := C) (w := w) q t.world with hsame | ⟨x, -, -, hadd⟩
    · exact hsame.symm ▸ h
    · exact hadd.symm ▸ h.trans (List.prefix_append ..)

/-! ### Contracts -/

/-- The error of a fault. -/
def Fault (faulty : Prop) (e : Err) : Prop := faulty ∧ ∃ code, e = .status code

/-- What a request is answered by a server that comes to have the catalogue `σ`. -/
def Req.Legal (faulty : Prop) (σ : List Index) : (q : Req) → Ans q → Prop
  | .connect _ _, y => Prog.Yields (fun _ => True) (Fault faulty) y
  | .createIndex x, y =>
    Prog.Yields (fun _ => Present σ x) (fun e => e = .indexFound ∧ Present σ x ∨ Fault faulty e) y

/-- Answered so, the program ends so. -/
abbrev Gives (faulty : Prop) (l σ : List Index) {α : Type} (p : Script α) (P : α → Prop) (E : Err → Prop) : Prop :=
  p.Meets (Req.Within l) (Req.Legal faulty σ) (Prog.Yields P E)

/-- An index that is there already is on the same bin, if all names that were taken before are
an installation's. -/
theorem legal_serve {faulty : Prop} {l l' : List Index} {q : Req} (h₀ : Unclaimed σ₀) (h : Added C l σ₀ σ)
    (hl : ∀ x ∈ l, Own x) (hq : q.Within l') (hl' : ∀ x ∈ l', Own x) (hw : w = .fair ∨ faulty)
    (hσ : (C.serve w q σ).2 <+: σ') : q.Legal faulty σ' (C.serve w q σ).1 := by
  cases q with
  | connect config credentials =>
    cases w with
    | fair => trivial
    | failed code applied => exact ⟨hw.resolve_left (by simp), code, rfl⟩
  | createIndex x =>
    cases w with
    | failed code applied => exact .inr ⟨hw.resolve_left (by simp), code, rfl⟩
    | fair =>
      change (C.create x σ).2 <+: σ' at hσ
      change (Req.createIndex x).Legal faulty σ' (C.create x σ).1
      rcases create_cases (C := C) x σ with ⟨⟨y, hy, hclash⟩, hcreate⟩ | ⟨-, hcreate⟩ <;> rw [hcreate] at hσ ⊢
      · refine .inl ⟨rfl, y, hσ.subset hy, ?_⟩
        obtain ⟨hspace, hname | halike⟩ := C.clash_eq y x hclash
        · obtain ⟨new, rfl, hnew, -, -⟩ := h
          rcases List.mem_append.mp hy with hy | hy
          · exact h₀ y hy x (hl' x hq) hspace hname
          · obtain ⟨sch, k, hysch⟩ := hl y (hnew y hy)
            obtain ⟨sch', k', hxsch⟩ := hl' x hq
            rw [index_inj hysch hxsch hspace hname]
            exact ⟨rfl, rfl, rfl, rfl⟩
        · exact halike
      · exact ⟨x, hσ.subset (by simp), rfl, rfl, rfl, rfl⟩

section Gives
variable {faulty : Prop} {l : List Index} {sch : Schema} {x : Index} {c : Call}

theorem gives_createIndex (hx : x ∈ l) : Gives faulty l σ (createIndex x) (fun _ => Present σ x)
    fun e => e = .indexFound ∧ Present σ x ∨ Fault faulty e := by
  refine ⟨hx, fun y hy => ?_⟩
  cases y with
  | ok u => exact hy
  | error e => exact hy

theorem gives_connect (config : ClientConfig) (credentials : Option (Str × Str)) :
    Gives faulty l σ (connect config credentials) (fun _ => True) (Fault faulty) := by
  refine ⟨trivial, fun y hy => ?_⟩
  cases y with
  | ok u => trivial
  | error e => exact hy

theorem gives_unlessFound {p : Script Unit}
    (hp : Gives faulty l σ p (fun _ => Present σ x) fun e => e = .indexFound ∧ Present σ x ∨ Fault faulty e) :
    Gives faulty l σ (unlessFound p) (fun _ => Present σ x) (Fault faulty) := by
  refine Prog.Meets.tryCatch hp (fun _ h => h) fun e he => ?_
  rcases he with ⟨rfl, hpresent⟩ | ⟨hfaulty, code, rfl⟩
  · exact hpresent
  · exact ⟨hfaulty, code, rfl⟩

theorem gives_ensureRows (rows : List IndexRow) (hknown : ∀ row ∈ rows, ∃ x, row.index sch = some x ∧ x ∈ l) :
    Gives faulty l σ (ensureRows sch rows) (fun _ => ∀ x ∈ rows.filterMap (IndexRow.index sch), Present σ x)
      (Fault faulty) := by
  induction rows with
  | nil => exact fun x hx => by cases hx
  | cons row rows ih =>
    obtain ⟨x, hrow, hx⟩ := hknown row (List.mem_cons_self ..)
    have hfirst : Gives faulty l σ (unlessFound (match row.index sch with
      | none => .raise (.unsupportedIndexKind row.kind)
      | some x => createIndex x)) (fun _ => Present σ x) (Fault faulty) := by
      rw [hrow]
      exact gives_unlessFound (gives_createIndex hx)
    refine Prog.Meets.bind hfirst (fun _ hpresent => ?_) fun _ he => he
    refine (ih fun row' h => hknown row' (List.mem_cons_of_mem _ h)).mono fun r hr => ?_
    cases r with
    | error e => exact hr
    | ok u =>
      intro y hy
      rw [List.filterMap_cons_some hrow] at hy
      rcases List.mem_cons.mp hy with rfl | hy
      · exact hpresent
      · exact hr y hy

theorem gives_ensureIndexes (sch : Schema) (k : ServiceKind) :
    Gives faulty (indexes sch k) σ (ensureIndexes sch k) (fun _ => ∀ x ∈ indexes sch k, Present σ x)
      (Fault faulty) := by
  have hmem : ∀ {rows : List IndexRow} {row : IndexRow} {x : Index}, row ∈ rows → row.index sch = some x →
      x ∈ rows.filterMap (IndexRow.index sch) := fun hrow hx => List.mem_filterMap.mpr ⟨_, hrow, hx⟩
  cases k with
  | sessions =>
    refine gives_ensureRows _ fun row hrow => ?_
    obtain ⟨x, hx⟩ := index_of_kind sch (kind_sessionIndexRows sch row hrow)
    exact ⟨x, hx, hmem hrow hx⟩
  | artifacts =>
    refine gives_ensureRows _ fun row hrow => ?_
    obtain ⟨x, hx⟩ := index_of_kind sch (kind_artifactIndexRows sch row hrow)
    exact ⟨x, hx, hmem hrow hx⟩
  | memory =>
    refine (gives_unlessFound (gives_createIndex (List.mem_singleton.mpr rfl))).mono fun r hr => ?_
    cases r with
    | error e => exact hr
    | ok u => exact fun x hx => List.mem_singleton.mp hx ▸ hr

theorem gives_body (c : Call) : Gives faulty (c.wants U) σ (c.body U)
    (fun sch => c.schema U = some sch ∧ ∀ x ∈ c.wants U, Present σ x) (c.MayRaise U faulty) := by
  have hfault : ∀ {c : Call} {e}, Fault faulty e → c.MayRaise U faulty e := by
    rintro c e ⟨hfaulty, code, rfl⟩
    exact hfaulty
  cases c with
  | construct k sch ensure =>
    cases ensure with
    | false => exact ⟨rfl, fun x hx => by cases hx⟩
    | true => exact Prog.Meets.bind (gives_ensureIndexes sch k) (fun _ h => ⟨rfl, h⟩) fun _ he => hfault he
  | fromUri k uri =>
    cases h : Uri.parse U uri with
    | error e =>
      rw [Call.body, Setup.fromUri, h]
      exact ⟨k, uri, rfl, h⟩
    | ok parsed =>
      have hwants : (Call.fromUri k uri).wants U = indexes ⟨parsed.namespaceName, parsed.setPrefix⟩ k := by
        simp only [Call.wants, Call.schema, h]
      have hschema : (Call.fromUri k uri).schema U = some ⟨parsed.namespaceName, parsed.setPrefix⟩ := by
        simp only [Call.schema, h]
      rw [hwants, hschema, Call.body, Setup.fromUri, h]
      dsimp only
      rw [if_neg fun hmemory => hmemory.2 (Uri.scheme_of_parse h)]
      refine Prog.Meets.bind (gives_connect _ _) (fun _ _ => ?_) fun _ he => hfault he
      exact Prog.Meets.bind (gives_ensureIndexes _ k) (fun _ hall => ⟨rfl, hall⟩) fun _ he => hfault he

end Gives

end Runs

/-- However constructors and `from_uri` calls are interleaved, wherever they stop and whatever
fails, as long as nobody else has taken the names: a service that came up has all its indexes;
one whose requests did not fail comes up unless its URI is none, so that creating what is
there already, by others or by an attempt that failed, never is an error. -/
theorem services_set_up (U : Uri.Interpreter) (C : Cluster) (σ₀ : List Index) (h₀ : Unclaimed σ₀) (faulty : ℕ → Prop)
    (s : ServicePool) (hs : (service U C).Reach (Mild faulty) ⟨σ₀, []⟩ s) : SetUp U C σ₀ faulty s := by
  have hends : ∀ (i : ℕ) c p, s.procs[i]? = some ⟨c, p⟩ →
      Gives (faulty i) (c.wants U) s.world p (fun sch => c.schema U = some sch ∧ ∀ x ∈ c.wants U, Present s.world x)
        (c.MayRaise U (faulty i)) := by
    intro i c p hi
    obtain ⟨t, ht, rfl, hspawn, hts⟩ := hs.spawned hi (Nat.zero_le _)
    obtain ⟨-, hm⟩ := hts.moments_spawn hi
    refine hm.meets (gives_body c) fun u w q hu _ hmild hw hus hq => ?_
    refine legal_serve h₀ (added_of_reach ((ht.act hspawn).trans hu)) (fun x hx => ?_) hq
      (fun _ => Call.own_of_wants) hmild ?_
    · obtain ⟨c', -, hx⟩ := List.mem_flatMap.mp hx
      exact Call.own_of_wants hx
    · exact hw ▸ catalogue_grows hus
  exact ⟨fun i c sch hi => hends i c _ hi, fun i c e hi => hends i c _ hi, added_of_reach hs⟩

namespace Small

def sameName (x y : Index) : Bool := x.namespaceName = y.namespaceName ∧ x.name = y.name

theorem sameName_eq (x y : Index) (h : sameName x y) :
    x.namespaceName = y.namespaceName ∧ (x.name = y.name ∨ x.Alike y) := by
  obtain ⟨hspace, hname⟩ := of_decide_eq_true h
  exact ⟨hspace, .inl hname⟩

/-- A server that looks at names only. -/
def cluster : Cluster := ⟨sameName, sameName_eq⟩

def schema : Schema := { namespaceName := "ns".toList }

def longSchema : Schema := ⟨"ns".toList, "adk_user_state".toList⟩

/-- Two installations in one namespace set up their memories; one has for its prefix the name
of a set of the other. -/
def neighbours : ServicePool :=
  (service Uri.Small.python cluster).run [.spawn (.construct .memory longSchema true),
    .spawn (.construct .memory schema true), .step 1 .fair, .step 0 .fair] ⟨[], []⟩

theorem neighbours_reached : (service Uri.Small.python cluster).Reach (fun _ _ => True) ⟨[], []⟩ neighbours :=
  System.reach_run (System.permitted_of_forall fun _ _ _ => trivial)

/-- Two processes at once; the second one is told of a failure that was none, and tries again. -/
def actions : List (Action Call Weather) :=
  [.spawn (.construct .sessions schema true), .spawn (.construct .sessions schema true), .step 0 .fair,
    .step 1 .fair, .step 1 (.failed 9 true), .spawn (.construct .sessions schema true), .step 2 .fair, .step 0 .fair,
    .step 2 .fair]

def finalPool : ServicePool := (service Uri.Small.python cluster).run actions ⟨[], []⟩

theorem finalPool_reached : (service Uri.Small.python cluster).Reach (Mild (· = 1)) ⟨[], []⟩ finalPool :=
  System.reach_run (System.permitted_of_forall fun a ha s => by
    simp only [actions, List.mem_cons, List.not_mem_nil, or_false] at ha
    rcases ha with rfl | rfl | rfl | rfl | rfl | rfl | rfl | rfl | rfl <;> simp [Mild])

end Small

open Setup.Small in
theorem services_set_up_small : SetUp Uri.Small.python cluster [] (· = 1) finalPool ∧
    finalPool.world = indexes schema .sessions := by
  refine ⟨services_set_up _ _ _ (fun x hx => ?_) _ _ finalPool_reached, by decide⟩
  cases hx

/-- However installations share a namespace, and whatever their prefixes are, an index that is
added on a set of one of them is added by one of its own calls. -/
theorem installations_apart (U : Uri.Interpreter) (C : Cluster) (σ₀ : List Index) (s : ServicePool)
    (hs : (service U C).Reach (fun _ _ => True) ⟨σ₀, []⟩ s) (x : Index) (hx : x ∈ s.world) (hnew : x ∉ σ₀)
    (sch : Schema) (k : StorageSet) (hspace : x.namespaceName = sch.namespaceName) (hset : x.set = sch.setName k) :
    ∃ c ∈ s.calls, c.schema U = some sch ∧ x ∈ c.wants U := by
  obtain ⟨new, hworld, hwanted, -, -⟩ := added_of_reach hs
  rw [hworld] at hx
  obtain ⟨c, hc, hwants⟩ := List.mem_flatMap.mp (hwanted x ((List.mem_append.mp hx).resolve_left hnew))
  refine ⟨c, hc, ?_, hwants⟩
  obtain ⟨sch', k', hschema, hindex⟩ := Call.schema_of_wants hwants
  obtain ⟨t, -, rfl⟩ := index_of_mem hindex
  obtain ⟨hpre, -⟩ := setName_inj hset
  rw [hschema, Option.some.injEq, Schema.mk.injEq]
  exact ⟨hspace, hpre⟩

open Setup.Small in
theorem installations_apart_small : neighbours.world = [memoryIndex schema, memoryIndex longSchema] ∧
    (∃ c ∈ neighbours.calls, c.schema Uri.Small.python = some longSchema ∧
      memoryIndex longSchema ∈ c.wants Uri.Small.python) ∧
    ∃ c ∈ neighbours.calls, c.schema Uri.Small.python = some schema ∧ memoryIndex schema ∈ c.wants Uri.Small.python :=
  ⟨by decide,
    installations_apart Uri.Small.python cluster [] neighbours neighbours_reached (memoryIndex longSchema) (by decide)
      (by decide) longSchema .memory rfl rfl,
    installations_apart Uri.Small.python cluster [] neighbours neighbours_reached (memoryIndex schema) (by decide)
      (by decide) schema .memory rfl rfl⟩

end AdkAerospike.Setup
