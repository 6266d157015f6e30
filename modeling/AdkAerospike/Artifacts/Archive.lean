import AdkAerospike.Program.Owners
import AdkAerospike.Artifacts.Footprint
import AdkAerospike.Artifacts.Reference

/-! All that is stored of an artifact. The archive keeps with every version the time it was
saved at and its metadata, and answers the calls that list versions with them. Users whose
calls overlap with those of others have archives of their own. -/

namespace AdkAerospike.Artifacts

open Program Data Keys

variable {V : Type}

/-! ### Addresses -/

/-- The part of an address behind the user and, in a session, behind the session. -/
def versionPath (filename : Str) (v : ℕ) : Str :=
  "artifacts/".toList ++ (filename ++ "/versions".toList ++ '/' :: padNat 0 v)

/-- The part of an address behind the user. -/
def scopePath (scope rest : Str) : Str :=
  if scope = userScopeSid then rest else "sessions/".toList ++ (scope ++ '/' :: rest)

/-- The canonical address of a version of the file. -/
def File.uri (f : File) (v : ℕ) : Str :=
  "aerospike://apps/".toList ++
    (f.app ++ '/' :: ("users/".toList ++ (f.user ++ '/' :: scopePath f.scope (versionPath f.filename v))))

theorem canonicalUri_versionMeta (f : File) (r : Record V) :
    (versionMeta f.app f.user f.scope f.filename r).canonicalUri = f.uri (r.ver.getD 0) := by
  unfold versionMeta File.uri scopePath versionPath padNat
  split_ifs <;> simp

/-- The version stands behind the last slash. -/
theorem versionPath_inj {f f' : Str} {v v' : ℕ} : versionPath f v = versionPath f' v' ↔ f = f' ∧ v = v' := by
  have hdigits : ∀ n, '/' ∉ padNat 0 n := fun n => notMem_of_digits (padNat_digits 0 n) rfl
  unfold versionPath
  refine (List.append_right_inj _).trans ((append_sep_inj_right (hdigits v) (hdigits v')).trans ?_)
  exact and_congr (List.append_left_inj _) (padNat_injective 0).eq_iff

theorem scopePath_inj {s s' f f' : Str} {v v' : ℕ} (hs : '/' ∉ s) (hs' : '/' ∉ s') :
    scopePath s (versionPath f v) = scopePath s' (versionPath f' v') ↔ s = s' ∧ f = f' ∧ v = v' := by
  -- what follows the user begins with another letter in a session than outside
  have hapart : ∀ (g : Str) (n : ℕ) (x : Str), versionPath g n ≠ "sessions/".toList ++ x := by
    intro g n x h
    unfold versionPath at h
    simp only [String.reduceToList, List.cons_append, List.cons.injEq, Char.reduceEq, false_and] at h
  unfold scopePath
  split_ifs with hu hu' hu'
  · exact versionPath_inj.trans (and_iff_right (hu.trans hu'.symm)).symm
  · exact iff_of_false (hapart f v _) fun h => hu' (h.1.symm.trans hu)
  · exact iff_of_false (hapart f' v' _).symm fun h => hu (h.1.trans hu')
  · exact (List.append_right_inj _).trans ((append_sep_inj hs hs').trans (and_congr_right' versionPath_inj))

/-- The address of a version tells the user, the session, the name and the number apart,
whatever the name of the file is. -/
theorem canonical_uris_unambiguous (f g : File) (r r' : Record V) (ha : '/' ∉ f.app) (ha' : '/' ∉ g.app)
    (hu : '/' ∉ f.user) (hu' : '/' ∉ g.user) (hs : '/' ∉ f.scope) (hs' : '/' ∉ g.scope) :
    (versionMeta f.app f.user f.scope f.filename r).canonicalUri =
        (versionMeta g.app g.user g.scope g.filename r').canonicalUri ↔
      f = g ∧ r.ver.getD 0 = r'.ver.getD 0 := by
  have hrest := (append_sep_inj hu hu').trans (and_congr_right'
    (@scopePath_inj _ _ f.filename g.filename (r.ver.getD 0) (r'.ver.getD 0) hs hs'))
  have huri : f.uri (r.ver.getD 0) = g.uri (r'.ver.getD 0) ↔ f.app = g.app ∧ f.user = g.user ∧ f.scope = g.scope ∧
      f.filename = g.filename ∧ r.ver.getD 0 = r'.ver.getD 0 :=
    (List.append_right_inj _).trans
      ((append_sep_inj ha ha').trans (and_congr_right' ((List.append_right_inj _).trans hrest)))
  rw [canonicalUri_versionMeta, canonicalUri_versionMeta, huri]
  cases f
  cases g
  simp only [File.mk.injEq, and_assoc]

/-- File names that imitate the rest of an address. -/
theorem canonical_uris_unambiguous_small :
    let r : Record ℕ := { ver := some 1 }
    let f : File := ⟨['a'], ['u'], ['s'], "x/versions/1".toList⟩
    let g : File := ⟨['a'], ['u'], userScopeSid, "sessions/s/artifacts/x".toList⟩
    (versionMeta f.app f.user f.scope f.filename r).canonicalUri ≠
      (versionMeta g.app g.user g.scope g.filename r).canonicalUri := by
  intro r f g h
  have heq := (canonical_uris_unambiguous f g r r (by decide) (by decide) (by decide) (by decide) (by decide)
    (by decide)).mp h
  exact absurd heq.1 (by decide)

/-! ### The archive -/

structure Version (V : Type) where
  mime : Option Str
  data : ByteArray
  createTime : ℚ
  customMetadata : Dict V

namespace Version
variable (f : File) (v : ℕ) (x : Version V)

def content : Content := (x.mime, x.data)

/-- The record of the version. -/
def row : Record V := newRow f.app f.user f.scope f.filename v x.mime x.data x.createTime (some x.customMetadata)

/-- What is told of the version. -/
def info : ArtifactVersion V where
  version := v
  canonicalUri := f.uri v
  customMetadata := x.customMetadata
  createTime := x.createTime
  mimeType := x.mime

theorem versionMeta_row : versionMeta f.app f.user f.scope f.filename (x.row f v) = x.info f v := by
  refine (ArtifactVersion.mk.injEq ..).mpr ⟨rfl, canonicalUri_versionMeta f (x.row f v), rfl, rfl, rfl⟩

end Version

/-- The versions of every file, oldest first. -/
abbrev Archive (V : Type) := FMap File (List (Version V))

namespace Archive

def versions (M : Archive V) (f : File) : List (Version V) := (M.get f).getD []

/-- The archive without times and metadata. -/
def contents (M : Archive V) : Reference := M.mapValues fun l => l.map Version.content

theorem versions_insert (M : Archive V) (f g : File) (l : List (Version V)) :
    versions (M.insert f l) g = if g = f then l else M.versions g := by
  rw [versions, FMap.get_insert]
  split_ifs <;> rfl

theorem contents_eq (M : Archive V) (f : File) : M.contents.contents f = (M.versions f).map Version.content := by
  unfold Reference.contents versions contents
  rw [FMap.get_mapValues]
  cases M.get f <;> rfl

end Archive

/-- The number that a call names among `n` versions, the last one if it names none. -/
def pick (n : ℕ) : Option ℤ → Option ℕ
  | none => if n = 0 then none else some (n - 1)
  | some v => if v < 0 then none else some v.toNat

/-- The archive after a call. -/
def Call.archive : Call V → Archive V → Archive V
  | .save app user filename part sessionId customMetadata now, M =>
    match fileOf app user filename sessionId, mimeForPart part, bytesForPart part with
    | some f, .ok mime, .ok data => M.insert f (M.versions f ++ [⟨mime, data, now, customMetadata.getD ∅⟩])
    | _, _, _ => M
  | .delete app user filename sessionId, M =>
    match fileOf app user filename sessionId with
    | some f => M.insert f []
    | none => M
  | _, M => M

/-- The archive's answer to a call, and the archive after it. -/
def Call.archived : Call V → Archive V → Except Err (Reply V) × Archive V
  | .listArtifactVersions app user filename sessionId, M =>
    match fileOf app user filename sessionId with
    | none => (.error missingSession, M)
    | some f => (.ok (.artifactVersions ((M.versions f).mapIdx (Version.info f))), M)
  | .getArtifactVersion app user filename sessionId version, M =>
    match fileOf app user filename sessionId with
    | none => (.error missingSession, M)
    | some f =>
      (.ok (.artifactVersion ((pick (M.versions f).length version).bind fun v =>
        (M.versions f)[v]?.map (Version.info f v))), M)
  | c, M => ((c.reference M.contents).1, c.archive M)

/-- The calls that the archive answers: identifiers without separators, parts of a
supported type whose record fits. -/
def Call.Supported (cfg : ServerConfig V) : Call V → Prop
  | .listArtifactVersions app user _ sessionId => Plain app ∧ Plain user ∧ PlainSession sessionId
  | .getArtifactVersion app user _ sessionId _ => Plain app ∧ Plain user ∧ PlainSession sessionId
  | c => c.Compared cfg

/-! ### Archived stores -/

section Archived
variable {cfg : ServerConfig V} {M : Archive V} {N N' : Reference} {σ σ' : Store V} {f g : File}
  {app user filename : Str} {sessionId : Option Str}

theorem Mirrors.congr (h : Mirrors N σ) (hN : ∀ f, N'.contents f = N.contents f) : Mirrors N' σ := by
  refine ⟨fun f hf => ?_, fun f hf v => ?_, h.listed, h.known⟩
  · rw [hN, h.head f hf]
  · rw [hN, h.rows f hf]

/-- The store holds the record of each version, and nothing else. -/
structure Archived (M : Archive V) (σ : Store V) : Prop where
  mirrors : Mirrors M.contents σ
  rows : ∀ f : File, f.Named → ∀ (v : ℕ) x, (M.versions f)[v]? = some x → σ.get (f.rowKey v) = some (x.row f v)

namespace Archived

theorem empty : Archived ∅ (∅ : Store V) := ⟨.empty, fun _ _ _ _ h => (nomatch h)⟩

theorem counter_eq (h : Archived M σ) (hf : f.Named) : counter f σ = (M.versions f).length := by
  rw [h.mirrors.counter_eq hf, Archive.contents_eq, List.length_map]

/-- The record under a version is the one of the archive. -/
theorem get_rowKey (h : Archived M σ) (hf : f.Named) (v : ℕ) :
    σ.get (f.rowKey v) = (M.versions f)[v]?.map (Version.row f v) := by
  cases hx : (M.versions f)[v]? with
  | some x => exact h.rows f hf v x hx
  | none =>
    have hrow := h.mirrors.rows f hf v
    rw [Archive.contents_eq, List.getElem?_map, hx, Option.map_none, Option.map_eq_none_iff] at hrow
    exact hrow

/-- A store whose other files are as before. -/
theorem update (h : Archived M σ) {l : List (Version V)} (hmirrors : Mirrors (M.contents.insert f (l.map Version.content)) σ')
    (hrows : ∀ (v : ℕ) x, l[v]? = some x → σ'.get (f.rowKey v) = some (x.row f v))
    (hother : ∀ g : File, g.Named → g ≠ f → ∀ v : ℕ, σ'.get (g.rowKey v) = σ.get (g.rowKey v)) :
    Archived (M.insert f l) σ' := by
  refine ⟨hmirrors.congr fun g => ?_, fun g hg v x hx => ?_⟩
  · rw [Archive.contents_eq, Archive.versions_insert, Reference.contents_insert, Archive.contents_eq]
    split_ifs <;> rfl
  · rw [Archive.versions_insert] at hx
    by_cases hgf : g = f
    · rw [if_pos hgf] at hx
      rw [hgf]
      exact hrows v x hx
    · rw [if_neg hgf] at hx
      rw [hother g hg hgf]
      exact h.rows g hg v x hx

end Archived

/-! ### What each call leaves -/

/-- A call that only reads leaves the store alone. -/
def Call.Reads (c : Call V) : Prop := c.body.Uses fun q => q.keys = []

theorem Call.Reads.perform_snd {c : Call V} (hc : c.Reads) (σ : Store V) : (perform cfg c σ).2 = σ :=
  Prog.Uses.run_invariant (I := fun σ' => σ' = σ) hc (fun _ σ' hq h => (Server.exec_of_keys .fair hq σ').trans h) rfl

section Reads
variable {scope : Str} {version : Option ℤ}

theorem reads_query (aus : Str) : (query aus : Service V _).Uses fun q => q.keys = [] := ⟨rfl, uses_answer⟩

theorem reads_rowsFor : (rowsFor app user scope filename : Service V _).Uses fun q => q.keys = [] :=
  (reads_query _).bind fun _ => trivial

theorem reads_versionsFor : (versionsFor app user scope filename : Service V _).Uses fun q => q.keys = [] :=
  reads_rowsFor.bind fun _ => trivial

theorem reads_filenamesFor : (filenamesFor app user scope : Service V _).Uses fun q => q.keys = [] :=
  (reads_query _).bind fun records => by
    split <;> trivial

theorem reads_getRecord : (getRecord app user scope filename version : Service V _).Uses fun q => q.keys = [] := by
  have hget : ∀ v : ℤ, (getVersion app user scope filename v : Service V _).Uses fun q => q.keys = [] := fun v =>
    uses_unlessNotFound (Prog.Uses.bind ⟨rfl, uses_answer⟩ fun _ => trivial) trivial
  cases version with
  | some v => exact hget v
  | none =>
    refine reads_versionsFor.bind fun versions => ?_
    split
    · trivial
    · exact hget _

theorem reads_load : (Call.load app user filename sessionId version : Call V).Reads := by
  refine Prog.Uses.bind (uses_scopeId fun scope _ => reads_getRecord.bind fun r => ?_) fun _ => trivial
  cases r with
  | none => trivial
  | some r => exact (uses_ofExcept _).bind fun _ => trivial

theorem reads_listKeys : (Call.listKeys app user sessionId : Call V).Reads := by
  refine Prog.Uses.bind (reads_filenamesFor.bind fun shared => ?_) fun _ => trivial
  cases sessionId with
  | none => trivial
  | some session => exact reads_filenamesFor.bind fun _ => trivial

theorem reads_listVersions : (Call.listVersions app user filename sessionId : Call V).Reads :=
  Prog.Uses.bind (uses_scopeId fun _ _ => reads_versionsFor.bind fun _ => trivial) fun _ => trivial

end Reads

theorem perform_delete (cfg : ServerConfig V) (σ : Store V) (hf : f.Named) (hscope : artifactScopeId f.filename sessionId = some f.scope) :
    ∃ σ', perform cfg (.delete f.app f.user f.filename sessionId) σ = (.ok .done, σ') ∧
      ∀ g : File, g.Named → g ≠ f → ∀ v : ℕ, σ'.get (g.rowKey v) = σ.get (g.rowKey v) := by
  obtain ⟨σ₁, hrun₁, h₁⟩ := @alone_removeVersions V cfg f (versionsOf cfg f σ) σ
  obtain ⟨σ₂, hrun₂, h₂⟩ := @alone_removeQuietly V cfg f.headKey σ₁
  refine ⟨σ₂, ?_, fun g hg hgf v => ?_⟩
  · have hfile : fileOf f.app f.user f.filename sessionId = some f := by rw [fileOf_eq, hscope]; rfl
    refine (alone_scoped f.app f.user _ (fun _ => Reply.done) σ).trans ?_
    rw [hfile]
    simp only [Prog.bind_eq]
    rw [alone_bind_ok (alone_versionsFor f σ), alone_bind_ok hrun₁]
    change (Except.map _ (alone cfg (unlessNotFound (remove f.headKey) (.ret ())) σ₁).1,
      (alone cfg (unlessNotFound (remove f.headKey) (.ret ())) σ₁).2) = _
    rw [hrun₂]
    rfl
  · have hrow : ¬ ∃ w ∈ versionsOf cfg f σ, g.rowKey v = f.rowKey w := by
      rintro ⟨w, -, heq⟩
      exact hgf ((File.rowKey_eq_iff hg hf).mp heq).1
    rw [h₂, if_neg File.rowKey_ne_headKey, h₁, if_neg hrow]

namespace Archived

/-- The record that a read names is that of the version it names. -/
theorem alone_getRecord (h : Archived M σ) (hf : f.Named) (cfg : ServerConfig V) (version : Option ℤ) :
    alone cfg (getRecord f.app f.user f.scope f.filename version) σ =
      (.ok ((pick (M.versions f).length version).bind fun v => (M.versions f)[v]?.map (Version.row f v)), σ) := by
  cases version with
  | some v =>
    refine (alone_getVersion f v σ).trans ?_
    by_cases hv : v < 0
    · rw [h.mirrors.get_negative hf hv, pick, if_pos hv]
      rfl
    · have hcast : v = (v.toNat : ℤ) := by omega
      rw [pick, if_neg hv, Option.bind_some, hcast, h.get_rowKey hf]
      rfl
  | none =>
    refine (alone_getRecord_none f σ).trans ?_
    rcases List.eq_nil_or_concat' (M.versions f) with hnil | ⟨l, x, hl⟩
    · have hnone : versionsOf cfg f σ = [] := List.eq_nil_iff_forall_not_mem.mpr fun v hv => by
        simpa [Archive.contents_eq, hnil] using (h.mirrors.mem_versionsOf hf cfg).mp hv
      rw [hnone, hnil]
      rfl
    · have hx : (M.versions f)[l.length]? = some x := by simp [hl]
      have hrow := h.rows f hf _ x hx
      have hcounter : counter f σ = l.length + 1 := by simp [h.counter_eq hf, hl]
      have hpick : pick (M.versions f).length none = some l.length := by simp [pick, hl]
      rw [(h.mirrors.tidy hf).max_versionsOf hcounter hrow (h.mirrors.listed f hf _ _ hrow).1, hpick,
        Option.bind_some, Option.bind_some, h.get_rowKey hf]

/-- What a query finds of a file, in the order of its versions. -/
theorem sorted_rowsOf (h : Archived M σ) (hf : f.Named) (cfg : ServerConfig V) :
    ((rowsOf f.filename (cfg.arrange (cfg.table.found f.aus σ))).mergeSort fun a b => a.1 ≤ b.1).map
      (fun x => versionMeta f.app f.user f.scope f.filename x.2) = (M.versions f).mapIdx (Version.info f) := by
  set rows := (rowsOf f.filename (cfg.arrange (cfg.table.found f.aus σ))).mergeSort fun a b => a.1 ≤ b.1 with hrows
  have hfst : rows.map Prod.fst = List.range (M.versions f).length := by
    rw [hrows, List.map_mergeSort (s := fun a b : ℕ => a ≤ b) fun a _ b _ => rfl]
    refine (h.mirrors.sorted_versionsOf hf cfg).trans ?_
    rw [Archive.contents_eq, List.length_map]
  -- each record is that of its version
  have hrow : ∀ x ∈ rows, σ.get (f.rowKey x.1) = some x.2 := fun x hx => by
    obtain ⟨key, r, hget, hlist, rfl⟩ := (mem_rowsOf f σ).mp (List.mem_mergeSort.mp hx)
    obtain ⟨v, rfl, hver⟩ := (h.mirrors.tidy hf).listed key r hget hlist
    simpa [hver] using hget
  refine List.ext_getElem? fun v => ?_
  have hv : (rows[v]?).map Prod.fst = (List.range (M.versions f).length)[v]? := by rw [← hfst, List.getElem?_map]
  rw [List.getElem?_map, List.getElem?_mapIdx]
  cases hx : (M.versions f)[v]? with
  | none =>
    have hlen : (List.range (M.versions f).length)[v]? = none := by simpa using hx
    rw [hlen, Option.map_eq_none_iff] at hv
    rw [hv]
    rfl
  | some x =>
    rw [List.getElem?_range (List.getElem?_eq_some_iff.mp hx).1, Option.map_eq_some_iff] at hv
    obtain ⟨y, hy, rfl⟩ := hv
    have hget := hrow y (List.mem_of_getElem? hy)
    rw [h.rows f hf _ x hx, Option.some.injEq] at hget
    rw [hy, Option.map_some, Option.map_some, ← hget, Version.versionMeta_row]

end Archived

/-! ### Calls -/

/-- One call of the service is one call of the archive. -/
def Archives (cfg : ServerConfig V) (c : Call V) : Prop :=
  ∀ (M : Archive V) (σ : Store V), Archived M σ →
    (perform cfg c σ).1 = (c.archived M).1 ∧ Archived (c.archived M).2 (perform cfg c σ).2

/-- What the reference model answers to a call that only reads. -/
theorem archives_of_reads (hcfg : cfg.HeadsFit) {c : Call V} (hc : c.Compared cfg) (hreads : c.Reads)
    (harchived : ∀ M : Archive V, c.archived M = ((c.reference M.contents).1, M)) : Archives cfg c := by
  intro M σ h
  rw [hreads.perform_snd, harchived]
  exact ⟨(refines hcfg hc M.contents σ h.mirrors).1, h⟩

theorem archives_save (hcfg : cfg.HeadsFit) {part : Part} {customMetadata : Option (Dict V)} {now : ℚ}
    (hc : (Call.save app user filename part sessionId customMetadata now).Compared cfg) :
    Archives cfg (.save app user filename part sessionId customMetadata now) := by
  intro M σ h
  have hans := (refines_save hcfg hc M.contents σ h.mirrors).1
  refine ⟨hans, ?_⟩
  obtain ⟨ha, hu, hs, hfits⟩ := hc
  change Archived (Call.archive (.save app user filename part sessionId customMetadata now) M) _
  rw [Call.archive]
  cases hfile : fileOf app user filename sessionId with
  | none =>
    have hnone : artifactScopeId filename sessionId = none := by simpa [fileOf_eq] using hfile
    have hrun : (perform cfg (.save app user filename part sessionId customMetadata now) σ).2 = σ := by
      rw [perform, Call.body, saveArtifact, scopeId, hnone]
      rfl
    rw [hrun]
    exact h
  | some f =>
    obtain ⟨hf, rfl, rfl, rfl, hscope⟩ := named_of_fileOf ha hu hs hfile
    obtain ⟨row, hrow, hfit⟩ := hfits f (counter f σ)
    have hsaves : (Call.save f.app f.user f.filename part sessionId customMetadata now).saves f :=
      ⟨rfl, rfl, rfl, hscope⟩
    obtain ⟨σ', hrun, hsaved⟩ := (h.mirrors.tidy hf).perform_save hcfg hsaves hrow hfit
    obtain ⟨hlist, hver⟩ := row_listedFor hrow
    have hmirrors := h.mirrors.saved hf hsaved hlist hver
    rw [hrun]
    simp only [Call.row] at hrow
    split at hrow
    · next mime data hmime hdata =>
      cases hrow
      rw [hmime, hdata]
      refine h.update (by rwa [List.map_append, ← Archive.contents_eq]) (fun v x hx => ?_) fun g hg hgf v => ?_
      · by_cases hv : v = counter f σ
        · rw [h.counter_eq hf] at hv
          rw [hv, List.getElem?_append_right le_rfl, Nat.sub_self] at hx
          cases hx
          rw [hv, ← h.counter_eq hf]
          exact hsaved.row
        · have hrowKey : f.rowKey v ≠ f.rowKey (counter f σ) := fun heq =>
            hv (by exact_mod_cast File.rowKey_inj.mp heq)
          rw [hsaved.other _ File.rowKey_ne_headKey hrowKey]
          have hlt := (List.getElem?_eq_some_iff.mp hx).1
          rw [h.counter_eq hf] at hv
          rw [List.getElem?_append_left (by simp at hlt; omega)] at hx
          exact h.rows f hf v x hx
      · exact hsaved.other _ File.rowKey_ne_headKey fun heq => hgf ((File.rowKey_eq_iff hg hf).mp heq).1
    · cases hrow

theorem archives_delete (hc : (Call.delete app user filename sessionId : Call V).Compared cfg) :
    Archives cfg (.delete app user filename sessionId) := by
  intro M σ h
  have hrefines := refines_delete hc M.contents σ h.mirrors
  refine ⟨hrefines.1, ?_⟩
  obtain ⟨ha, hu, hs⟩ := hc
  change Archived (Call.archive (.delete app user filename sessionId) M) _
  rw [Call.reference] at hrefines
  rw [Call.archive]
  cases hfile : fileOf app user filename sessionId with
  | none =>
    have hrun : (perform cfg (.delete app user filename sessionId) σ).2 = σ := by
      refine (congrArg Prod.snd (alone_scoped app user _ (fun _ => Reply.done) σ)).trans ?_
      rw [hfile]
    rw [hrun]
    exact h
  | some f =>
    obtain ⟨hf, rfl, rfl, rfl, hscope⟩ := named_of_fileOf ha hu hs hfile
    obtain ⟨σ', hrun, hother⟩ := perform_delete cfg σ hf hscope
    rw [hfile, hrun] at hrefines
    rw [hrun]
    exact h.update (l := []) hrefines.2 (by simp) hother

theorem archives_listArtifactVersions
    (hc : (Call.listArtifactVersions app user filename sessionId : Call V).Supported cfg) :
    Archives cfg (.listArtifactVersions app user filename sessionId) := by
  intro M σ h
  obtain ⟨ha, hu, hs⟩ := hc
  have hrun : perform cfg (.listArtifactVersions app user filename sessionId) σ = _ :=
    alone_scoped app user _ Reply.artifactVersions σ
  rw [Call.archived, hrun]
  cases hfile : fileOf app user filename sessionId with
  | none => exact ⟨rfl, h⟩
  | some f =>
    obtain ⟨hf, rfl, rfl, rfl, -⟩ := named_of_fileOf ha hu hs hfile
    exact ⟨congrArg (fun l => Except.ok (Reply.artifactVersions l)) (h.sorted_rowsOf hf cfg), h⟩

theorem archives_getArtifactVersion {version : Option ℤ}
    (hc : (Call.getArtifactVersion app user filename sessionId version : Call V).Supported cfg) :
    Archives cfg (.getArtifactVersion app user filename sessionId version) := by
  intro M σ h
  obtain ⟨ha, hu, hs⟩ := hc
  have hrun : perform cfg (.getArtifactVersion app user filename sessionId version) σ = _ :=
    alone_scoped app user _ Reply.artifactVersion σ
  rw [Call.archived, hrun]
  cases hfile : fileOf app user filename sessionId with
  | none => exact ⟨rfl, h⟩
  | some f =>
    obtain ⟨hf, rfl, rfl, rfl, -⟩ := named_of_fileOf ha hu hs hfile
    dsimp only
    simp only [Prog.bind_eq, Prog.pure_eq]
    rw [alone_bind_ret, h.alone_getRecord hf cfg version]
    refine ⟨?_, h⟩
    simp only [Except.map]
    refine congrArg (fun x => Except.ok (Reply.artifactVersion x)) ?_
    cases pick (M.versions f).length version with
    | none => rfl
    | some v =>
      simp only [Option.bind_some, Option.map_map]
      exact congrArg (fun g => Option.map g _) (funext fun x => x.versionMeta_row f v)

theorem archives (hcfg : cfg.HeadsFit) {c : Call V} (hc : c.Supported cfg) : Archives cfg c := by
  cases c with
  | save => exact archives_save hcfg hc
  | load => exact archives_of_reads hcfg hc reads_load fun _ => rfl
  | listKeys => exact archives_of_reads hcfg hc reads_listKeys fun _ => rfl
  | delete => exact archives_delete hc
  | listVersions => exact archives_of_reads hcfg hc reads_listVersions fun _ => rfl
  | listArtifactVersions => exact archives_listArtifactVersions hc
  | getArtifactVersion => exact archives_getArtifactVersion hc

/-- In whatever sequence the calls are made, the service returns what the archive does. -/
theorem outputs_archived (hcfg : cfg.HeadsFit) {cs : List (Call V)} (hcs : ∀ c ∈ cs, c.Supported cfg) :
    outputs (perform cfg) cs ∅ = outputs Call.archived cs ∅ := by
  have hok : Admits (perform cfg) (fun _ c => c.Supported cfg) cs ∅ :=
    admits_of_forall (fun c hc _ => hcs c hc) ∅
  have hsim : List.Forall₂ Eq (outputs (perform cfg) cs ∅) (outputs Call.archived cs ∅) := by
    refine outputs_forall₂ (R := fun σ M => Archived M σ) ?_ hok Archived.empty
    intro c σ M hc h
    exact archives hcfg hc M σ h
  exact List.forall₂_eq_eq_eq ▸ hsim

end Archived

end AdkAerospike.Artifacts
