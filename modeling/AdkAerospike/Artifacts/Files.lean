import AdkAerospike.Artifacts.Service

/-! The records of one file: its versions and the head that counts them, and what the
requests of `save_artifact` do to them in any weather. A file is tidy if its versions
lie below its counter and a query finds nothing else under its name. -/

namespace AdkAerospike.Artifacts

open Program Data Keys

variable {V : Type}

structure File where
  app : Str
  user : Str
  scope : Str
  filename : Str
  deriving DecidableEq

namespace File

def headKey (f : File) : Str := artifactHeadKey f.app f.user f.scope f.filename

def rowKey (f : File) (version : ℤ) : Str := artifactKey f.app f.user f.scope f.filename version

def aus (f : File) : Str := scopeTuple f.app f.user f.scope

/-- The identifiers hold no separator; the file name may. -/
structure Named (f : File) : Prop where
  app : Plain f.app
  user : Plain f.user
  scope : Plain f.scope

variable {f g : File} {v w : ℤ}

@[simp] theorem rowKey_inj : f.rowKey v = f.rowKey w ↔ v = w := by
  rw [rowKey, rowKey, artifactKey_eq_fileKey, artifactKey_eq_fileKey, fileKey_right_inj,
    (padInt_injective 8).eq_iff]

@[simp] theorem rowKey_ne_headKey : f.rowKey v ≠ g.headKey := by
  rw [rowKey, headKey, artifactKey_eq_fileKey, artifactHeadKey_eq_fileKey]
  exact fun h => padInt_ne_artifactHeadSuffix v
    (fileKey_suffix_inj (plain_padInt 8 v) plain_artifactHeadSuffix h)

theorem fileKey_eq_iff (hf : f.Named) (hg : g.Named) {x y : Str} (hx : Plain x) (hy : Plain y) :
    fileKey f.app f.user f.scope f.filename x = fileKey g.app g.user g.scope g.filename y ↔
      f = g ∧ x = y := by
  rw [fileKey_inj hf.app hg.app hf.user hg.user hf.scope hg.scope hx hy]
  cases f
  cases g
  simp [and_assoc]

theorem rowKey_eq_iff (hf : f.Named) (hg : g.Named) : f.rowKey v = g.rowKey w ↔ f = g ∧ v = w := by
  refine (fileKey_eq_iff hf hg (plain_padInt 8 v) (plain_padInt 8 w)).trans ?_
  rw [(padInt_injective 8).eq_iff]

theorem headKey_eq_iff (hf : f.Named) (hg : g.Named) : f.headKey = g.headKey ↔ f = g :=
  (fileKey_eq_iff hf hg plain_artifactHeadSuffix plain_artifactHeadSuffix).trans (and_iff_left rfl)

theorem aus_eq_iff (hf : f.Named) (hg : g.Named) :
    f.aus = g.aus ↔ f.app = g.app ∧ f.user = g.user ∧ f.scope = g.scope :=
  scopeTuple_inj hf.app hg.app hf.user hg.user

end File

/-- The number of versions that have been allocated. -/
def counter (f : File) (σ : Store V) : ℕ := ((σ.get f.headKey).bind Record.ver).getD 0

/-- A query for the file keeps the record. -/
def Record.listedFor (r : Record V) (f : File) : Prop :=
  r.aus = some f.aus ∧ r.fname = some f.filename ∧ r.data.isSome

/-- The head is a counter and nothing else, the versions of the file lie below it, and
what a query finds of the file are its versions. -/
structure Tidy (f : File) (σ : Store V) : Prop where
  head : ∀ r, σ.get f.headKey = some r → r = { ver := some (counter f σ) }
  below : ∀ (v : ℕ) r, σ.get (f.rowKey v) = some r → v < counter f σ
  listed : ∀ key r, σ.get key = some r → r.listedFor f → ∃ v : ℕ, key = f.rowKey v ∧ r.ver = some v

theorem tidy_empty (f : File) : Tidy f (∅ : Store V) :=
  ⟨fun _ h => (nomatch h), fun _ _ h => (nomatch h), fun _ _ h => (nomatch h)⟩

theorem counter_congr {f : File} {σ σ' : Store V} (h : σ'.get f.headKey = σ.get f.headKey) :
    counter f σ' = counter f σ := by rw [counter, counter, h]

/-- The version that is given out next has no record. -/
theorem vacant_counter {f : File} {σ : Store V} (h : ∀ (v : ℕ) r, σ.get (f.rowKey v) = some r → v < counter f σ) :
    σ.get (f.rowKey (counter f σ)) = none := by
  cases hr : σ.get (f.rowKey (counter f σ)) with
  | none => rfl
  | some r => exact absurd (h _ r hr) (lt_irrefl _)

/-! ### Requests of a save -/

section Requests
variable (cfg : ServerConfig V) (x : Server.Weather) (f : File) (σ : Store V)

/-- The operations that allocate a version. -/
def allocation : List Op := [.readVersion, .incrementVersion]

theorem onOperate_allocation (old : Option (Record V)) :
    cfg.table.onOperate allocation old =
      cfg.table.leave { old.getD {} with ver := some ((old.getD {}).ver.getD 0 + 1) } (old.getD {}).ver := by
  cases old <;> rfl

/-- The head after a version has been given out. -/
def advanced (f : File) (σ : Store V) : Record V :=
  { (σ.get f.headKey).getD {} with ver := some (counter f σ + 1) }

/-- A head that is a counter and nothing else remains one. -/
theorem advanced_eq {f : File} {σ : Store V} (h : ∀ r, σ.get f.headKey = some r → r = { ver := some (counter f σ) }) :
    advanced f σ = { ver := some (counter f σ + 1) } := by
  unfold advanced
  cases hr : σ.get f.headKey with
  | none => rfl
  | some r => rw [Option.getD_some, h r hr]

/-- An allocation reads the counter and leaves it advanced. -/
theorem onOperate_head : ∃ cur : Option ℕ, cur.getD 0 = counter f σ ∧
    cfg.table.onOperate allocation (σ.get f.headKey) = cfg.table.leave (advanced f σ) cur := by
  refine ⟨((σ.get f.headKey).getD {}).ver, ?_, ?_⟩
  · unfold counter
    cases σ.get f.headKey <;> rfl
  · rw [onOperate_allocation]
    unfold advanced counter
    cases σ.get f.headKey <;> rfl

/-- An allocation returns the counter and advances it, or fails, and may have advanced
it then as well. -/
theorem exec_allocation :
    let out := exec cfg x (.operate f.headKey allocation) σ
    (∀ key, key ≠ f.headKey → out.2.get key = σ.get key) ∧
    ((∃ cur : Option ℕ, out.1 = .ok cur ∧ cur.getD 0 = counter f σ ∧
        out.2.get f.headKey = some (advanced f σ)) ∨
      ∃ e, out.1 = .error e ∧ e ≠ .recordExists ∧
        (out.2.get f.headKey = σ.get f.headKey ∨ out.2.get f.headKey = some (advanced f σ))) := by
  intro out
  refine ⟨fun key hkey => Server.exec_get_of_notMem x (by simpa [Server.Req.keys] using hkey) σ, ?_⟩
  obtain ⟨cur, hcur, hop⟩ := onOperate_head cfg f σ
  have hnew : (σ.set f.headKey (some (advanced f σ))).get f.headKey = some (advanced f σ) := by
    rw [FMap.get_set, if_pos rfl]
  rcases Server.under_change_leave hop x with ⟨hans, hσ⟩ | ⟨e, hans, he, -, hσ⟩
  · exact .inl ⟨cur, hans, hcur, (congrArg (FMap.get · f.headKey) hσ).trans hnew⟩
  · refine .inr ⟨e, hans, he, ?_⟩
    rcases hσ with hσ | hσ
    · exact .inl (congrArg (FMap.get · f.headKey) hσ)
    · exact .inr ((congrArg (FMap.get · f.headKey) hσ).trans hnew)

theorem counter_of_advanced {f : File} {σ σ' : Store V} (h : σ'.get f.headKey = some (advanced f σ)) :
    counter f σ' = counter f σ + 1 := by
  rw [counter, h]
  rfl

/-- Where there is no record, it is put, or the request fails and the record may have
been put as well. -/
theorem exec_create_of_none {key : Str} (h : σ.get key = none) (row : Record V) :
    let out := exec cfg x (.create key row) σ
    (∀ key', key' ≠ key → out.2.get key' = σ.get key') ∧
    (out.1 = .ok () ∧ out.2.get key = some row ∨
      ∃ e, out.1 = .error e ∧ e ≠ .recordExists ∧ (out.2.get key = none ∨ out.2.get key = some row)) := by
  intro out
  refine ⟨fun key' hkey => Server.exec_get_of_notMem x (by simpa [Server.Req.keys] using hkey) σ, ?_⟩
  have hput : cfg.table.onCreate row (σ.get key) = cfg.table.leave row () := by
    rw [h]
    rfl
  have hnew : (σ.set key (some row)).get key = some row := by rw [FMap.get_set, if_pos rfl]
  rcases Server.under_change_leave hput x with ⟨hans, hσ⟩ | ⟨e, hans, he, -, hσ⟩
  · exact .inl ⟨hans, (congrArg (FMap.get · key) hσ).trans hnew⟩
  · refine .inr ⟨e, hans, he, ?_⟩
    rcases hσ with hσ | hσ
    · exact .inl ((congrArg (FMap.get · key) hσ).trans h)
    · exact .inr ((congrArg (FMap.get · key) hσ).trans hnew)

end Requests

/-! ### The program of a save -/

/-- The call saves a version of the file. -/
def Call.saves (f : File) : Call V → Prop
  | .save app user filename _ sessionId _ _ =>
    app = f.app ∧ user = f.user ∧ filename = f.filename ∧ artifactScopeId filename sessionId = some f.scope
  | _ => False

/-- The call deletes the file. -/
def Call.deletes (f : File) : Call V → Prop
  | .delete app user filename sessionId =>
    app = f.app ∧ user = f.user ∧ filename = f.filename ∧ artifactScopeId filename sessionId = some f.scope
  | _ => False

/-- The record that a save puts under a version, if its part is of a supported type. -/
def Call.row (f : File) (v : ℕ) : Call V → Option (Record V)
  | .save _ _ _ part _ customMetadata now =>
    match mimeForPart part, bytesForPart part with
    | .ok mime, .ok data => some (newRow f.app f.user f.scope f.filename v mime data now customMetadata)
    | _, _ => none
  | _ => none

/-- A save that has built its record. -/
def writing (f : File) (v : ℕ) (row : Record V) : Service V (Reply V) :=
  .ask (.create (f.rowKey v) row) fun x => (answer x).bind fun _ => .ret (.version v)

/-- A save that has been given a version. -/
def allocated (f : File) (c : Call V) (v : ℕ) : Service V (Reply V) :=
  match c.row f v with
  | some row => writing f v row
  | none => .raise (.inputValidation "Not supported artifact type.")

theorem parts_cases (part : Part) :
    (∃ mime data, mimeForPart part = .ok mime ∧ bytesForPart part = .ok data) ∨
      mimeForPart part = .error (.inputValidation "Not supported artifact type.") ∧
        bytesForPart part = .error (.inputValidation "Not supported artifact type.") := by
  obtain ⟨_ | blob, _ | text, _ | file⟩ := part
  · exact .inr ⟨rfl, rfl⟩
  all_goals exact .inl ⟨_, _, rfl, rfl⟩

theorem body_save {f : File} {c : Call V} (hc : c.saves f) :
    c.body = .ask (.operate f.headKey allocation) fun x : Except Server.Err (Option ℕ) =>
      match x with
      | .ok cur => allocated f c (cur.getD 0)
      | .error e => .raise (.server e) := by
  cases c with
  | save app user filename part sessionId customMetadata now =>
    obtain ⟨rfl, rfl, rfl, hscope⟩ := hc
    simp only [Call.body, saveArtifact, scopeId, hscope, Prog.bind_eq, Prog.pure_eq]
    refine congrArg (Prog.ask _) (funext fun x => ?_)
    cases x with
    | error e => rfl
    | ok cur =>
      rcases parts_cases part with ⟨mime, data, hm, hb⟩ | ⟨hm, hb⟩
      · simp only [allocated, Call.row, hm, hb]
        refine congrArg (Prog.ask _) (funext fun y => ?_)
        cases y <;> rfl
      · simp only [allocated, Call.row, hm, hb]
        rfl
  | _ => exact hc.elim

/-- The record of a save carries the names of its file. -/
theorem row_listedFor {f : File} {c : Call V} {v : ℕ} {row : Record V} (h : c.row f v = some row) :
    row.listedFor f ∧ row.ver = some v := by
  cases c with
  | save app user filename part sessionId customMetadata now =>
    simp only [Call.row] at h
    split at h
    · cases h
      exact ⟨⟨rfl, rfl, rfl⟩, rfl⟩
    · cases h
  | _ => cases h

end AdkAerospike.Artifacts
