import Mathlib.Data.List.Dedup
import AdkAerospike.Data.Split
import AdkAerospike.Artifacts.Alone
import AdkAerospike.Artifacts.Concurrent

/-! What the artifact service is for: every file is a list of saved contents. The
service is compared with this model on sequences of complete calls. A store mirrors a
map of lists if each file has its contents as versions from zero on, a counter that is
their number, and nothing else is stored. -/

namespace AdkAerospike.Artifacts

open Program Data Keys

variable {V : Type}

/-! ### The reference model -/

/-- MIME type and bytes. -/
abbrev Content := Option Str × ByteArray

/-- The contents of every file, oldest first. -/
abbrev Reference := FMap File (List Content)

namespace Reference

def contents (M : Reference) (f : File) : List Content := (M.get f).getD []

/-- The names of the files in a scope that have a version. -/
def names (M : Reference) (app user scope : Str) : List Str :=
  (M.entries.filter fun e => e.1.app = app ∧ e.1.user = user ∧ e.1.scope = scope ∧ e.2 ≠ []).map
    fun e => e.1.filename

end Reference

/-- The content that a version names, the last one if no version is given. -/
def select (l : List Content) : Option ℤ → Option Content
  | none => l.getLast?
  | some v => if v < 0 then none else l[v.toNat]?

/-- What loading makes of a content. -/
def Content.load (V : Type) : Option Content → Except Err (Reply V)
  | none => .ok (.part none)
  | some x => (partFromBins ({ mime := x.1, data := some x.2 } : Record V)).map fun part => .part (some part)

/-- The file that a call names. File names that start with `user:` are shared by the
sessions of a user, all others belong to a session, which has to be given. -/
def fileOf (app user filename : Str) (sessionId : Option Str) : Option File :=
  if ['u', 's', 'e', 'r', ':'] <+: filename then some ⟨app, user, userScopeSid, filename⟩
  else sessionId.map fun session => ⟨app, user, session, filename⟩

def missingSession : Err := .inputValidation "session_id is required for non-user-scoped artifacts"

/-- The reference model's answer to a call, and the contents after it. -/
def Call.reference : Call V → Reference → Except Err (Reply V) × Reference
  | .save app user filename part sessionId _ _, M =>
    match fileOf app user filename sessionId, mimeForPart part, bytesForPart part with
    | none, _, _ => (.error missingSession, M)
    | some f, .ok mime, .ok data =>
      (.ok (.version (M.contents f).length), M.insert f (M.contents f ++ [(mime, data)]))
    | some _, .error e, _ => (.error e, M)
    | some _, .ok _, .error e => (.error e, M)
  | .load app user filename sessionId version, M =>
    match fileOf app user filename sessionId with
    | none => (.error missingSession, M)
    | some f => (Content.load V (select (M.contents f) version), M)
  | .listKeys app user sessionId, M =>
    (.ok (.keys (sortedSet (M.names app user userScopeSid ++
      (sessionId.map (M.names app user)).getD []))), M)
  | .delete app user filename sessionId, M =>
    match fileOf app user filename sessionId with
    | none => (.error missingSession, M)
    | some f => (.ok .done, M.insert f [])
  | .listVersions app user filename sessionId, M =>
    match fileOf app user filename sessionId with
    | none => (.error missingSession, M)
    | some f => (.ok (.versions (List.range (M.contents f).length)), M)
  | .listArtifactVersions .., M => (.ok .done, M)
  | .getArtifactVersion .., M => (.ok .done, M)

/-- A session id without separators, and not the word that stands for the user scope. -/
def PlainSession (sessionId : Option Str) : Prop := ∀ s, sessionId = some s → Plain s ∧ s ≠ userScopeSid

/-- The calls that are compared: identifiers without separators, parts of a supported
type whose record fits. -/
def Call.Compared (cfg : ServerConfig V) : Call V → Prop
  | .save app user filename part sessionId customMetadata now =>
    Plain app ∧ Plain user ∧ PlainSession sessionId ∧
      ∀ f v, ∃ row, (Call.save app user filename part sessionId customMetadata now).row f v = some row ∧
        cfg.fits row
  | .load app user _ sessionId _ => Plain app ∧ Plain user ∧ PlainSession sessionId
  | .listKeys app user sessionId => Plain app ∧ Plain user ∧ PlainSession sessionId
  | .delete app user _ sessionId => Plain app ∧ Plain user ∧ PlainSession sessionId
  | .listVersions app user _ sessionId => Plain app ∧ Plain user ∧ PlainSession sessionId
  | .listArtifactVersions .. => False
  | .getArtifactVersion .. => False

/-! ### Sorted lists -/

theorem sortedSet_congr {l l' : List Str} (h : ∀ x, x ∈ l ↔ x ∈ l') : sortedSet l = sortedSet l' := by
  have hperm : (sortedSet l).Perm (sortedSet l') :=
    (List.mergeSort_perm _ _).trans (((List.perm_ext_iff_of_nodup (List.nodup_dedup l)
      (List.nodup_dedup l')).mpr fun x => by simpa using h x).trans (List.mergeSort_perm _ _).symm)
  exact hperm.eq_of_pairwise' (List.pairwise_mergeSort' (· ≤ ·) l.dedup)
    (List.pairwise_mergeSort' (· ≤ ·) l'.dedup)

theorem mergeSort_eq_range {l : List ℕ} {n : ℕ} (hnodup : l.Nodup) (h : ∀ v, v ∈ l ↔ v < n) :
    (l.mergeSort fun a b => a ≤ b) = List.range n := by
  have hperm : (l.mergeSort fun a b => a ≤ b).Perm (List.range n) :=
    (List.mergeSort_perm _ _).trans ((List.perm_ext_iff_of_nodup hnodup List.nodup_range).mpr
      fun v => by simpa using h v)
  exact hperm.eq_of_pairwise' (List.pairwise_mergeSort' (· ≤ ·) l) (List.pairwise_lt_range.imp le_of_lt)

/-! ### Mirrored stores -/

section Mirror
variable {M : Reference} {σ σ' : Store V} {f g : File}

namespace Reference

theorem contents_insert (M : Reference) (f g : File) (l : List Content) :
    contents (M.insert f l) g = if g = f then l else M.contents g := by
  rw [contents, FMap.get_insert]
  split_ifs <;> rfl

theorem mem_names {app user scope x : Str} :
    x ∈ M.names app user scope ↔ M.contents ⟨app, user, scope, x⟩ ≠ [] := by
  simp only [names, List.mem_map, List.mem_filter, decide_eq_true_eq]
  constructor
  · rintro ⟨⟨f, l⟩, ⟨hmem, rfl, rfl, rfl, hl⟩, rfl⟩
    rw [contents, (FMap.mem_entries_iff M f).mp hmem]
    exact hl
  · intro h
    unfold contents at h
    cases hl : M.get ⟨app, user, scope, x⟩ with
    | none => exact absurd (by rw [hl]; rfl) h
    | some l =>
      rw [hl] at h
      exact ⟨⟨_, l⟩, ⟨(FMap.mem_entries_iff M _).mpr hl, rfl, rfl, rfl, h⟩, rfl⟩

end Reference

def Record.content (r : Record V) : Content := (r.mime, r.data.getD ByteArray.empty)

/-- Each file has its contents as versions from zero on and a head with their number.
Nothing else is stored. -/
structure Mirrors (M : Reference) (σ : Store V) : Prop where
  head : ∀ f : File, f.Named → σ.get f.headKey =
    if M.contents f = [] then none else some { ver := some (M.contents f).length }
  rows : ∀ f : File, f.Named → ∀ v : ℕ, (σ.get (f.rowKey v)).map Record.content = (M.contents f)[v]?
  listed : ∀ f : File, f.Named → ∀ (v : ℕ) r, σ.get (f.rowKey v) = some r → r.listedFor f ∧ r.ver = some v
  known : ∀ key r, σ.get key = some r → ∃ f : File, f.Named ∧ (key = f.headKey ∨ ∃ v : ℕ, key = f.rowKey v)

namespace Mirrors

theorem empty : Mirrors ∅ (∅ : Store V) :=
  ⟨fun _ _ => rfl, fun _ _ _ => rfl, fun _ _ _ _ h => (nomatch h), fun _ _ h => (nomatch h)⟩

theorem counter_eq (h : Mirrors M σ) (hf : f.Named) : counter f σ = (M.contents f).length := by
  rw [counter, h.head f hf]
  split_ifs with hnil
  · rw [hnil]
    rfl
  · rfl

/-- What carries an indexed bin is a version of its file. -/
theorem of_aus (h : Mirrors M σ) {key : Str} {r : Record V} {aus : Str} (hr : σ.get key = some r)
    (haus : r.aus = some aus) :
    ∃ g : File, g.Named ∧ g.aus = aus ∧ r.fname = some g.filename ∧ ∃ v : ℕ, key = g.rowKey v := by
  obtain ⟨g, hg, rfl | ⟨v, rfl⟩⟩ := h.known key r hr
  · rw [h.head g hg] at hr
    split_ifs at hr
    cases hr
    cases haus
  · obtain ⟨hlist, -⟩ := h.listed g hg v r hr
    exact ⟨g, hg, by simpa [hlist.1] using haus, hlist.2.1, v, rfl⟩

theorem tidy (h : Mirrors M σ) (hf : f.Named) : Tidy f σ := by
  refine ⟨fun r hr => ?_, fun v r hr => ?_, fun key r hr hlist => ?_⟩
  · rw [h.head f hf] at hr
    split_ifs at hr
    rw [h.counter_eq hf]
    exact (Option.some.inj hr).symm
  · have hrow := h.rows f hf v
    rw [hr] at hrow
    rw [h.counter_eq hf]
    exact (List.getElem?_eq_some_iff.mp hrow.symm).1
  · obtain ⟨g, hg, haus, hname, v, rfl⟩ := h.of_aus hr hlist.1
    have hfg : g = f := by
      obtain ⟨happ, huser, hscope⟩ := (File.aus_eq_iff hg hf).mp haus
      have hfile : g.filename = f.filename := by simpa [hlist.2.1] using hname.symm
      cases f
      cases g
      simp_all
    subst hfg
    exact ⟨v, rfl, (h.listed g hg v r hr).2⟩

/-- No record has a negative version. -/
theorem get_negative (h : Mirrors M σ) (hf : f.Named) {v : ℤ} (hv : v < 0) : σ.get (f.rowKey v) = none := by
  cases hr : σ.get (f.rowKey v) with
  | none => rfl
  | some r =>
    obtain ⟨g, hg, hkey | ⟨w, hkey⟩⟩ := h.known _ r hr
    · exact absurd hkey File.rowKey_ne_headKey
    · obtain ⟨-, hvw⟩ := (File.rowKey_eq_iff hf hg).mp hkey
      omega

/-- The versions that a query finds, in whatever order. -/
theorem mem_versionsOf (h : Mirrors M σ) (hf : f.Named) (cfg : ServerConfig V) {v : ℕ} :
    v ∈ versionsOf cfg f σ ↔ v < (M.contents f).length := by
  rw [(h.tidy hf).mem_versionsOf]
  have hrow := h.rows f hf v
  constructor
  · rintro ⟨r, hr, -⟩
    rw [hr] at hrow
    exact (List.getElem?_eq_some_iff.mp hrow.symm).1
  · intro hv
    rw [List.getElem?_eq_getElem hv, Option.map_eq_some_iff] at hrow
    obtain ⟨r, hr, -⟩ := hrow
    exact ⟨r, hr, (h.listed f hf v r hr).1⟩

/-- A query returns each version once. -/
theorem nodup_versionsOf (h : Mirrors M σ) (hf : f.Named) (cfg : ServerConfig V) :
    (versionsOf cfg f σ).Nodup := by
  have hperm : (versionsOf cfg f σ).Perm ((rowsOf f.filename (cfg.table.found f.aus σ)).map Prod.fst) :=
    (((cfg.arrange_perm _).filter _).map _).map _
  rw [hperm.nodup_iff]
  simp only [rowsOf, Server.Table.found, List.filter_map, List.map_map]
  apply List.Nodup.map_on
  · rintro ⟨key, r⟩ hmem ⟨key', r'⟩ hmem' hver
    simp only [List.mem_filter, Function.comp_apply, decide_eq_true_eq] at hmem hmem' hver
    have hget := (FMap.mem_entries_iff σ key).mp hmem.1.1
    have hget' := (FMap.mem_entries_iff σ key').mp hmem'.1.1
    obtain ⟨v, rfl, hv⟩ := (h.tidy hf).listed key r hget ⟨hmem.1.2, hmem.2⟩
    obtain ⟨v', rfl, hv'⟩ := (h.tidy hf).listed key' r' hget' ⟨hmem'.1.2, hmem'.2⟩
    have hvv : v = v' := by simpa [hv, hv'] using hver
    subst hvv
    rw [hget, Option.some.injEq] at hget'
    rw [hget']
  · exact (σ.nodupKeys.nodup.filter _).filter _

theorem sorted_versionsOf (h : Mirrors M σ) (hf : f.Named) (cfg : ServerConfig V) :
    ((versionsOf cfg f σ).mergeSort fun a b => a ≤ b) = List.range (M.contents f).length :=
  mergeSort_eq_range (h.nodup_versionsOf hf cfg) fun _ => h.mem_versionsOf hf cfg

/-- The record that a load reads has the content that the reference model has. -/
theorem alone_getRecord (h : Mirrors M σ) (hf : f.Named) (cfg : ServerConfig V) (version : Option ℤ) :
    ∃ r, alone cfg (getRecord f.app f.user f.scope f.filename version) σ = (.ok r, σ) ∧
      r.map Record.content = select (M.contents f) version := by
  cases version with
  | some v =>
    refine ⟨_, alone_getVersion f v σ, ?_⟩
    by_cases hv : v < 0
    · rw [h.get_negative hf hv, select, if_pos hv]
      rfl
    · have hcast : v = (v.toNat : ℤ) := by omega
      rw [select, if_neg hv, ← h.rows f hf, ← hcast]
  | none =>
    refine ⟨_, alone_getRecord_none f σ, ?_⟩
    rcases List.eq_nil_or_concat' (M.contents f) with hnil | ⟨l, x, hl⟩
    · have hnone : versionsOf cfg f σ = [] := List.eq_nil_iff_forall_not_mem.mpr fun v hv => by
        simpa [hnil] using (h.mem_versionsOf hf cfg).mp hv
      rw [hnone, hnil]
      rfl
    · have hlast := h.rows f hf l.length
      rw [hl, List.getElem?_append_right le_rfl, Nat.sub_self, List.getElem?_cons_zero,
        Option.map_eq_some_iff] at hlast
      obtain ⟨r, hr, hcontent⟩ := hlast
      have hcounter : counter f σ = l.length + 1 := by
        rw [h.counter_eq hf, hl, List.length_append, List.length_singleton]
      rw [(h.tidy hf).max_versionsOf hcounter hr (h.listed f hf _ r hr).1, hl, Option.bind_some, hr,
        select, List.getLast?_concat]
      exact congrArg some hcontent

/-- The names that a query for a scope finds. -/
theorem alone_filenamesFor (h : Mirrors M σ) (cfg : ServerConfig V) {app user scope : Str} (ha : Plain app)
    (hu : Plain user) (hs : Plain scope) :
    ∃ names, alone cfg (filenamesFor app user scope) σ = (.ok names, σ) ∧
      ∀ x, x ∈ names ↔ x ∈ M.names app user scope := by
  set records := cfg.arrange (cfg.table.found (scopeTuple app user scope) σ) with hrecords
  have hfound : ∀ r, r ∈ records ↔ ∃ key, σ.get key = some r ∧ r.aus = some (scopeTuple app user scope) :=
    fun r => ((cfg.arrange_perm _).mem_iff).trans Server.mem_found
  have hfile : ∀ r ∈ records, ∃ x v, r.fname = some x ∧
      σ.get (File.rowKey ⟨app, user, scope, x⟩ (v : ℕ)) = some r := fun r hr => by
    obtain ⟨key, hget, haus⟩ := (hfound r).mp hr
    obtain ⟨g, hg, hgaus, hname, v, rfl⟩ := h.of_aus hget haus
    obtain ⟨hga, hgu, hgs⟩ := (scopeTuple_inj hg.app ha hg.user hu).mp hgaus
    exact ⟨g.filename, v, hname, by rwa [← hga, ← hgu, ← hgs]⟩
  have hnames : records.mapM Record.fname = some (records.map fun r => r.fname.getD []) :=
    mapM_of_forall fun r hr => by
      obtain ⟨x, v, hx, -⟩ := hfile r hr
      rw [hx]
      rfl
  refine ⟨records.map fun r => r.fname.getD [], ?_, fun x => ?_⟩
  · have hquery : alone cfg (query (scopeTuple app user scope)) σ = (.ok records, σ) := rfl
    rw [filenamesFor, Prog.bind_eq, alone_bind_ok hquery]
    simp only [hnames]
    rfl
  · rw [Reference.mem_names, List.mem_map]
    constructor
    · rintro ⟨r, hr, rfl⟩
      obtain ⟨x, v, hx, hget⟩ := hfile r hr
      have hrow := h.rows ⟨app, user, scope, x⟩ ⟨ha, hu, hs⟩ v
      rw [hget] at hrow
      intro hnil
      rw [hx, Option.getD_some] at hnil
      rw [hnil] at hrow
      cases hrow
    · intro hx
      have hrow := h.rows ⟨app, user, scope, x⟩ ⟨ha, hu, hs⟩ 0
      rw [List.getElem?_eq_getElem (List.length_pos_iff.mpr hx), Option.map_eq_some_iff] at hrow
      obtain ⟨r, hr, -⟩ := hrow
      obtain ⟨hlist, -⟩ := h.listed _ ⟨ha, hu, hs⟩ 0 r hr
      exact ⟨r, (hfound r).mpr ⟨_, hr, hlist.1⟩, by rw [hlist.2.1]; rfl⟩

/-- A store whose other files are as before. -/
theorem update (h : Mirrors M σ) (hf : f.Named) {l : List Content}
    (hother : ∀ key, key ≠ f.headKey → (∀ v : ℕ, key ≠ f.rowKey v) → σ'.get key = σ.get key)
    (hhead : σ'.get f.headKey = if l = [] then none else some { ver := some l.length })
    (hrows : ∀ v : ℕ, (σ'.get (f.rowKey v)).map Record.content = l[v]?)
    (hlisted : ∀ (v : ℕ) r, σ'.get (f.rowKey v) = some r → r.listedFor f ∧ r.ver = some v) :
    Mirrors (M.insert f l) σ' := by
  have hotherHead : ∀ g : File, g.Named → g ≠ f → σ'.get g.headKey = σ.get g.headKey := fun g hg hgf =>
    hother _ (fun heq => hgf ((File.headKey_eq_iff hg hf).mp heq))
      fun v heq => File.rowKey_ne_headKey heq.symm
  have hotherRow : ∀ g : File, g.Named → g ≠ f → ∀ v : ℕ, σ'.get (g.rowKey v) = σ.get (g.rowKey v) :=
    fun g hg hgf v => hother _ File.rowKey_ne_headKey
      fun w heq => hgf ((File.rowKey_eq_iff hg hf).mp heq).1
  refine ⟨fun g hg => ?_, fun g hg v => ?_, fun g hg v r hr => ?_, fun key r hr => ?_⟩
  · rw [Reference.contents_insert]
    by_cases hgf : g = f
    · rw [if_pos hgf, hgf, hhead]
    · rw [if_neg hgf, hotherHead g hg hgf, h.head g hg]
  · rw [Reference.contents_insert]
    by_cases hgf : g = f
    · rw [if_pos hgf, hgf, hrows]
    · rw [if_neg hgf, hotherRow g hg hgf, h.rows g hg]
  · by_cases hgf : g = f
    · rw [hgf] at hr ⊢
      exact hlisted v r hr
    · rw [hotherRow g hg hgf] at hr
      exact h.listed g hg v r hr
  · by_cases hk : key = f.headKey
    · exact ⟨f, hf, .inl hk⟩
    · by_cases hkv : ∃ v : ℕ, key = f.rowKey v
      · exact ⟨f, hf, .inr hkv⟩
      · rw [hother key hk (not_exists.mp hkv)] at hr
        exact h.known key r hr

theorem saved (h : Mirrors M σ) (hf : f.Named) {row : Record V} (hs : Saved f row σ σ')
    (hlist : row.listedFor f) (hver : row.ver = some (counter f σ)) :
    Mirrors (M.insert f (M.contents f ++ [row.content])) σ' := by
  have hcounter := h.counter_eq hf
  have hold : ∀ v : ℕ, v ≠ counter f σ → σ'.get (f.rowKey v) = σ.get (f.rowKey v) := fun v hv =>
    hs.other _ File.rowKey_ne_headKey fun heq => hv (by exact_mod_cast File.rowKey_inj.mp heq)
  refine h.update hf (fun key hk hkv => hs.other key hk (hkv _)) ?_ (fun v => ?_) fun v r hr => ?_
  · rw [hs.head, if_neg (by simp), hcounter]
    simp
  · by_cases hv : v = counter f σ
    · rw [hv, hs.row, hcounter]
      simp
    · rw [hold v hv, h.rows f hf]
      rw [hcounter] at hv
      rcases lt_or_gt_of_ne hv with hlt | hgt
      · rw [List.getElem?_append_left hlt]
      · rw [List.getElem?_eq_none hgt.le, List.getElem?_eq_none (by simp; omega)]
  · by_cases hv : v = counter f σ
    · rw [hv, hs.row, Option.some.injEq] at hr
      rw [← hr, hv]
      exact ⟨hlist, hver⟩
    · rw [hold v hv] at hr
      exact h.listed f hf v r hr

/-- Removing what a query finds and then the head empties the file. -/
theorem deleted (h : Mirrors M σ) (hf : f.Named) (cfg : ServerConfig V)
    (hget : ∀ key, σ'.get key = if key = f.headKey then none
      else if ∃ v ∈ versionsOf cfg f σ, key = f.rowKey v then none else σ.get key) :
    Mirrors (M.insert f []) σ' := by
  have hgone : ∀ v : ℕ, σ'.get (f.rowKey v) = none := fun v => by
    rw [hget, if_neg File.rowKey_ne_headKey]
    split_ifs with hv
    · rfl
    · cases hr : σ.get (f.rowKey v) with
      | none => rfl
      | some r =>
        exact absurd ⟨v, (h.tidy hf).mem_versionsOf.mpr ⟨r, hr, (h.listed f hf v r hr).1⟩, rfl⟩ hv
  refine h.update hf (fun key hk hkv => ?_) ?_ (fun v => ?_) fun v r hr => ?_
  · have hother : ¬ ∃ v ∈ versionsOf cfg f σ, key = f.rowKey v := by
      rintro ⟨v, -, heq⟩
      exact hkv v heq
    rw [hget, if_neg hk, if_neg hother]
  · rw [hget, if_pos rfl, if_pos rfl]
  · rw [hgone]
    rfl
  · rw [hgone] at hr
    cases hr

end Mirrors

/-! ### Calls -/

theorem fileOf_eq (app user filename : Str) (sessionId : Option Str) :
    fileOf app user filename sessionId =
      (artifactScopeId filename sessionId).map fun scope => ⟨app, user, scope, filename⟩ := by
  unfold fileOf artifactScopeId
  split_ifs <;> rfl

theorem plain_userScopeSid : Plain userScopeSid := by decide

variable {cfg : ServerConfig V} {app user filename : Str} {sessionId : Option Str}

/-- What a call does that names a file: nothing without a session id, otherwise what
it does with the scope of the file. -/
theorem alone_scoped {α β : Type} (app user : Str) (k : Str → Service V α) (g : α → β) (σ : Store V) :
    alone cfg (((scopeId filename sessionId).bind k).bind fun a => .ret (g a)) σ =
      match fileOf app user filename sessionId with
      | none => (.error missingSession, σ)
      | some f => ((alone cfg (k f.scope) σ).1.map g, (alone cfg (k f.scope) σ).2) := by
  rw [fileOf_eq, alone_bind_ret]
  unfold scopeId
  cases artifactScopeId filename sessionId <;> rfl

theorem named_of_fileOf (ha : Plain app) (hu : Plain user) (hs : PlainSession sessionId)
    (h : fileOf app user filename sessionId = some f) :
    f.Named ∧ f.app = app ∧ f.user = user ∧ f.filename = filename ∧
      artifactScopeId filename sessionId = some f.scope := by
  rw [fileOf_eq, Option.map_eq_some_iff] at h
  obtain ⟨scope, hscope, rfl⟩ := h
  refine ⟨⟨ha, hu, ?_⟩, rfl, rfl, rfl, hscope⟩
  unfold artifactScopeId at hscope
  split_ifs at hscope
  · cases hscope
    exact plain_userScopeSid
  · exact (hs scope hscope).1

/-- One call of the service is one call of the reference model. -/
def Refines (cfg : ServerConfig V) (c : Call V) : Prop :=
  ∀ (M : Reference) (σ : Store V), Mirrors M σ →
    (perform cfg c σ).1 = (c.reference M).1 ∧ Mirrors (c.reference M).2 (perform cfg c σ).2

theorem refines_save (hcfg : cfg.HeadsFit) {part : Part} {customMetadata : Option (Dict V)} {now : ℚ}
    (hc : (Call.save app user filename part sessionId customMetadata now).Compared cfg) :
    Refines cfg (.save app user filename part sessionId customMetadata now) := by
  intro M σ h
  obtain ⟨ha, hu, hs, hfits⟩ := hc
  rw [Call.reference]
  cases hfile : fileOf app user filename sessionId with
  | none =>
    have hnone : artifactScopeId filename sessionId = none := by simpa [fileOf_eq] using hfile
    have hrun : perform cfg (.save app user filename part sessionId customMetadata now) σ =
        (.error missingSession, σ) := by
      rw [perform, Call.body, saveArtifact, scopeId, hnone]
      rfl
    rw [hrun]
    exact ⟨rfl, h⟩
  | some f =>
    obtain ⟨hf, rfl, rfl, rfl, hscope⟩ := named_of_fileOf ha hu hs hfile
    obtain ⟨row, hrow, hfit⟩ := hfits f (counter f σ)
    have hsaves : (Call.save f.app f.user f.filename part sessionId customMetadata now).saves f :=
      ⟨rfl, rfl, rfl, hscope⟩
    obtain ⟨σ', hrun, hsaved⟩ := (h.tidy hf).perform_save hcfg hsaves hrow hfit
    obtain ⟨hlist, hver⟩ := row_listedFor hrow
    have hmirrors := h.saved hf hsaved hlist hver
    rw [hrun]
    simp only [Call.row] at hrow
    split at hrow
    · next mime data hmime hdata =>
      cases hrow
      rw [hmime, hdata]
      exact ⟨by rw [h.counter_eq hf], hmirrors⟩
    · cases hrow

theorem refines_load {version : Option ℤ}
    (hc : (Call.load app user filename sessionId version : Call V).Compared cfg) :
    Refines cfg (.load app user filename sessionId version) := by
  intro M σ h
  obtain ⟨ha, hu, hs⟩ := hc
  rw [Call.reference]
  cases hfile : fileOf app user filename sessionId with
  | none =>
    have hrun : perform cfg (.load app user filename sessionId version) σ = (.error missingSession, σ) := by
      refine (alone_scoped app user _ Reply.part σ).trans ?_
      rw [hfile]
    rw [hrun]
    exact ⟨rfl, h⟩
  | some f =>
    obtain ⟨hf, rfl, rfl, rfl, hscope⟩ := named_of_fileOf ha hu hs hfile
    obtain ⟨r, hrun, hcontent⟩ := h.alone_getRecord hf cfg version
    rw [perform_load hscope hrun]
    refine ⟨?_, h⟩
    change loaded r = Content.load V (select (M.contents f) version)
    rw [← hcontent]
    cases r <;> rfl

theorem refines_listVersions
    (hc : (Call.listVersions app user filename sessionId : Call V).Compared cfg) :
    Refines cfg (.listVersions app user filename sessionId) := by
  intro M σ h
  obtain ⟨ha, hu, hs⟩ := hc
  have hrun : perform cfg (.listVersions app user filename sessionId) σ = _ :=
    alone_scoped app user _ Reply.versions σ
  rw [Call.reference, hrun]
  cases hfile : fileOf app user filename sessionId with
  | none => exact ⟨rfl, h⟩
  | some f =>
    obtain ⟨hf, rfl, rfl, rfl, -⟩ := named_of_fileOf ha hu hs hfile
    exact ⟨congrArg (fun vs => Except.ok (Reply.versions vs)) (h.sorted_versionsOf hf cfg), h⟩

theorem refines_delete (hc : (Call.delete app user filename sessionId : Call V).Compared cfg) :
    Refines cfg (.delete app user filename sessionId) := by
  intro M σ h
  obtain ⟨ha, hu, hs⟩ := hc
  have hrun : perform cfg (.delete app user filename sessionId) σ = _ :=
    alone_scoped app user _ (fun _ => Reply.done) σ
  rw [Call.reference, hrun]
  cases hfile : fileOf app user filename sessionId with
  | none => exact ⟨rfl, h⟩
  | some f =>
    obtain ⟨hf, rfl, rfl, rfl, -⟩ := named_of_fileOf ha hu hs hfile
    obtain ⟨σ₁, hrun₁, h₁⟩ := @alone_removeVersions V cfg f (versionsOf cfg f σ) σ
    obtain ⟨σ₂, hrun₂, h₂⟩ := @alone_removeQuietly V cfg f.headKey σ₁
    dsimp only
    simp only [Prog.bind_eq]
    rw [alone_bind_ok (alone_versionsFor f σ), alone_bind_ok hrun₁]
    change Except.map _ (alone cfg (unlessNotFound (remove f.headKey) (.ret ())) σ₁).1 = _ ∧
      Mirrors _ (alone cfg (unlessNotFound (remove f.headKey) (.ret ())) σ₁).2
    rw [hrun₂]
    exact ⟨rfl, h.deleted hf cfg fun key => by rw [h₂, h₁]⟩

theorem refines_listKeys (hc : (Call.listKeys app user sessionId : Call V).Compared cfg) :
    Refines cfg (.listKeys app user sessionId) := by
  intro M σ h
  obtain ⟨ha, hu, hs⟩ := hc
  obtain ⟨shared, hshared, hmem⟩ := h.alone_filenamesFor cfg ha hu plain_userScopeSid
  have hbody : perform cfg (.listKeys app user sessionId) σ =
      alone cfg ((listArtifactKeys app user sessionId).bind fun names => .ret (.keys names)) σ := rfl
  rw [hbody, Call.reference, listArtifactKeys]
  simp only [Prog.bind_eq, Prog.pure_eq]
  rw [Prog.bind_assoc, alone_bind_ok hshared]
  cases sessionId with
  | none =>
    refine ⟨?_, h⟩
    refine congrArg (fun names => Except.ok (Reply.keys names)) (sortedSet_congr fun x => ?_)
    simpa using hmem x
  | some session =>
    obtain ⟨own, hown, hmem'⟩ := h.alone_filenamesFor cfg ha hu (hs session rfl).1
    simp only
    rw [Prog.bind_assoc, alone_bind_ok hown]
    refine ⟨?_, h⟩
    refine congrArg (fun names => Except.ok (Reply.keys names)) (sortedSet_congr fun x => ?_)
    rw [List.mem_append, List.mem_append, hmem, hmem']
    rfl

theorem refines (hcfg : cfg.HeadsFit) {c : Call V} (hc : c.Compared cfg) : Refines cfg c := by
  cases c with
  | save => exact refines_save hcfg hc
  | load => exact refines_load hc
  | listKeys => exact refines_listKeys hc
  | delete => exact refines_delete hc
  | listVersions => exact refines_listVersions hc
  | listArtifactVersions => exact hc.elim
  | getArtifactVersion => exact hc.elim

end Mirror

namespace Small

theorem plainSession : PlainSession (some ['s']) := fun _ h => by
  cases h
  decide

end Small

end AdkAerospike.Artifacts
