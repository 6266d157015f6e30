import AdkAerospike.Artifacts.Files

/-! The calls of the service run alone and without faults, on a file that is tidy.
Each is described by what it returns and by the records it leaves; the order in which
a query returns records makes no difference. -/

namespace AdkAerospike.Artifacts

open Program Data Keys

variable {V : Type}

/-- A program run alone, in fair weather. -/
def alone {α : Type} (cfg : ServerConfig V) (p : Service V α) (σ : Store V) : Except Err α × Store V :=
  p.run (exec cfg .fair) σ

section Alone
variable {cfg : ServerConfig V} {f : File} {σ σ' : Store V} {α β : Type}

theorem alone_answer (x : Except Server.Err α) (σ : Store V) :
    alone cfg (answer x) σ = (x.mapError .server, σ) := by cases x <;> rfl

theorem alone_bind_ok {p : Service V α} {k : α → Service V β} {a : α} (h : alone cfg p σ = (.ok a, σ')) :
    alone cfg (p.bind k) σ = alone cfg (k a) σ' := Prog.run_bind_ok _ h

theorem alone_bind_ret (p : Service V α) (g : α → β) (σ : Store V) :
    alone cfg (p.bind fun a => .ret (g a)) σ = ((alone cfg p σ).1.map g, (alone cfg p σ).2) :=
  Prog.run_bind_ret _ p g σ

/-! ### Removing -/

/-- `remove` where a missing record is none to worry about. -/
theorem alone_removeQuietly (key : Str) (σ : Store V) :
    ∃ σ', alone cfg (unlessNotFound (remove key) (.ret ())) σ = (.ok (), σ') ∧
      ∀ key', σ'.get key' = if key' = key then none else σ.get key' := by
  unfold alone unlessNotFound
  rw [Prog.run_tryCatch]
  cases hr : σ.get key with
  | none =>
    have hrun : (remove key).run (exec cfg .fair) σ = (.error (.server .recordNotFound), σ) := by
      have hrefused : Server.Table.onRemove (σ.get key) = .error .recordNotFound := by rw [hr]; rfl
      change (answer (Server.change key Server.Table.onRemove σ).1).run (exec cfg .fair)
        (Server.change key Server.Table.onRemove σ).2 = _
      rw [Server.change_of_error hrefused]
      rfl
    refine ⟨σ, by rw [hrun]; rfl, fun key' => ?_⟩
    by_cases hk : key' = key
    · rw [if_pos hk, hk, hr]
    · rw [if_neg hk]
  | some r =>
    have hrun : (remove key).run (exec cfg .fair) σ = (.ok (), σ.set key none) := by
      have hdone : Server.Table.onRemove (σ.get key) = .ok ((), none) := by rw [hr]; rfl
      change (answer (Server.change key Server.Table.onRemove σ).1).run (exec cfg .fair)
        (Server.change key Server.Table.onRemove σ).2 = _
      rw [Server.change_of_ok hdone]
      rfl
    exact ⟨σ.set key none, by rw [hrun], fun key' => FMap.get_set σ key key' none⟩

theorem alone_removeVersions (f : File) (vs : List ℕ) (σ : Store V) :
    ∃ σ', alone cfg (removeVersions f.app f.user f.scope f.filename vs) σ = (.ok (), σ') ∧
      ∀ key, σ'.get key = if ∃ v ∈ vs, key = f.rowKey v then none else σ.get key := by
  induction vs generalizing σ with
  | nil => exact ⟨σ, rfl, fun key => by simp⟩
  | cons v vs ih =>
    obtain ⟨σ₁, hrun₁, h₁⟩ := @alone_removeQuietly V cfg (f.rowKey v) σ
    obtain ⟨σ₂, hrun₂, h₂⟩ := ih σ₁
    refine ⟨σ₂, (alone_bind_ok hrun₁).trans hrun₂, fun key => ?_⟩
    rw [h₂, h₁]
    by_cases hv : key = f.rowKey v
    · simp [hv]
    · by_cases hvs : ∃ u ∈ vs, key = f.rowKey u <;> simp [hv, hvs]

/-! ### Finding versions -/

/-- The versions that a query for the file finds. -/
def versionsOf (cfg : ServerConfig V) (f : File) (σ : Store V) : List ℕ :=
  (rowsOf f.filename (cfg.arrange (cfg.table.found f.aus σ))).map Prod.fst

theorem alone_versionsFor (f : File) (σ : Store V) :
    alone cfg (versionsFor f.app f.user f.scope f.filename) σ = (.ok (versionsOf cfg f σ), σ) := rfl

theorem mem_rowsOf (f : File) (σ : Store V) {x : ℕ × Record V} :
    x ∈ rowsOf f.filename (cfg.arrange (cfg.table.found f.aus σ)) ↔
      ∃ key r, σ.get key = some r ∧ r.listedFor f ∧ x = (r.ver.getD 0, r) := by
  simp only [rowsOf, List.mem_map, List.mem_filter, (cfg.arrange_perm _).mem_iff, Server.mem_found,
    decide_eq_true_eq]
  constructor
  · rintro ⟨r, ⟨⟨key, hget, haus⟩, hname, hdata⟩, rfl⟩
    exact ⟨key, r, hget, ⟨haus, hname, hdata⟩, rfl⟩
  · rintro ⟨key, r, hget, ⟨haus, hname, hdata⟩, rfl⟩
    exact ⟨r, ⟨⟨key, hget, haus⟩, hname, hdata⟩, rfl⟩

/-- A tidy file has a version exactly if the query finds it. -/
theorem Tidy.mem_versionsOf (h : Tidy f σ) {v : ℕ} :
    v ∈ versionsOf cfg f σ ↔ ∃ r, σ.get (f.rowKey v) = some r ∧ r.listedFor f := by
  rw [versionsOf, List.mem_map]
  constructor
  · rintro ⟨x, hx, rfl⟩
    obtain ⟨key, r, hget, hlist, rfl⟩ := (mem_rowsOf f σ).mp hx
    obtain ⟨u, rfl, hver⟩ := h.listed key r hget hlist
    refine ⟨r, ?_, hlist⟩
    simpa [hver] using hget
  · rintro ⟨r, hget, hlist⟩
    obtain ⟨u, hkey, hver⟩ := h.listed _ r hget hlist
    have huv : v = u := by exact_mod_cast File.rowKey_inj.mp hkey
    exact ⟨_, (mem_rowsOf f σ).mpr ⟨_, r, hget, hlist, rfl⟩, by simp [hver, huv]⟩

/-! ### Saving -/

/-- One integer fits a record. -/
def ServerConfig.HeadsFit (cfg : ServerConfig V) : Prop := ∀ n : ℕ, cfg.fits { ver := some n } = true

/-- What a save leaves. -/
structure Saved (f : File) (row : Record V) (σ σ' : Store V) : Prop where
  other : ∀ key, key ≠ f.headKey → key ≠ f.rowKey (counter f σ) → σ'.get key = σ.get key
  head : σ'.get f.headKey = some { ver := some (counter f σ + 1) }
  row : σ'.get (f.rowKey (counter f σ)) = some row

/-- A save on a tidy file returns the counter and stores its record there. -/
theorem Tidy.perform_save (h : Tidy f σ) (hcfg : cfg.HeadsFit) {c : Call V} (hc : c.saves f) {row : Record V}
    (hrow : c.row f (counter f σ) = some row) (hfits : cfg.fits row) :
    ∃ σ', perform cfg c σ = (.ok (.version (counter f σ)), σ') ∧ Saved f row σ σ' := by
  obtain ⟨old, hold, hop⟩ := onOperate_head cfg f σ
  rw [advanced_eq h.head] at hop
  set σ₁ := σ.set f.headKey (some { ver := some (counter f σ + 1) }) with hσ₁
  have hexec : exec cfg .fair (.operate f.headKey allocation) σ = (.ok old, σ₁) :=
    Server.change_of_ok (hop.trans (if_pos (hcfg _)))
  have hfree : σ₁.get (f.rowKey (counter f σ)) = none := by
    rw [hσ₁, FMap.get_set, if_neg File.rowKey_ne_headKey]
    exact vacant_counter h.below
  have hput : cfg.table.onCreate row (σ₁.get (f.rowKey (counter f σ))) = .ok ((), some row) := by
    rw [hfree]
    exact if_pos hfits
  refine ⟨σ₁.set (f.rowKey (counter f σ)) (some row), ?_, ⟨fun key hk hk' => ?_, ?_, ?_⟩⟩
  · have hcreate : exec cfg .fair (.create (f.rowKey (counter f σ)) row) σ₁ = (.ok (), _) := Server.change_of_ok hput
    have hprog : allocated f c (old.getD 0) = writing f (counter f σ) row := by
      rw [hold, allocated, hrow]
    rw [perform, body_save hc, Prog.run_ask, hexec]
    change Prog.run _ (allocated f c (old.getD 0)) _ = _
    rw [hprog, writing, Prog.run_ask, hcreate]
    rfl
  · rw [FMap.get_set, if_neg hk', FMap.get_set, if_neg hk]
  · rw [FMap.get_set, if_neg (Ne.symm File.rowKey_ne_headKey), FMap.get_set, if_pos rfl]
  · rw [FMap.get_set, if_pos rfl]

theorem counter_of_saved {row : Record V} (h : Saved f row σ σ') : counter f σ' = counter f σ + 1 := by
  rw [counter, h.head]
  rfl

/-- A save leaves its file tidy. -/
theorem Tidy.saved {row : Record V} (h : Tidy f σ) (hs : Saved f row σ σ')
    (hver : row.ver = some (counter f σ)) : Tidy f σ' := by
  have hcounter := counter_of_saved hs
  refine ⟨fun r hr => ?_, fun v r hr => ?_, fun key r hr hlist => ?_⟩
  · rw [hs.head, Option.some.injEq] at hr
    rw [← hr, hcounter]
  · rw [hcounter]
    by_cases hv : v = counter f σ
    · rw [hv]
      exact Nat.lt_succ_self _
    · have hne : f.rowKey v ≠ f.rowKey (counter f σ) := fun heq =>
        hv (by exact_mod_cast File.rowKey_inj.mp heq)
      rw [hs.other _ File.rowKey_ne_headKey hne] at hr
      exact Nat.lt_succ_of_lt (h.below v r hr)
  · by_cases hk : key = f.headKey
    · rw [hk, hs.head, Option.some.injEq] at hr
      rw [← hr] at hlist
      cases hlist.1
    · by_cases hk' : key = f.rowKey (counter f σ)
      · rw [hk', hs.row, Option.some.injEq] at hr
        exact ⟨_, hk', hr ▸ hver⟩
      · rw [hs.other key hk hk'] at hr
        exact h.listed key r hr hlist

/-! ### Loading -/

theorem alone_getVersion (f : File) (v : ℤ) (σ : Store V) :
    alone cfg (getVersion f.app f.user f.scope f.filename v) σ = (.ok (σ.get (f.rowKey v)), σ) := by
  have hget : (get (f.rowKey v)).run (exec cfg .fair) σ =
      ((Server.fetch (f.rowKey v) σ).mapError .server, σ) := alone_answer _ σ
  unfold alone getVersion unlessNotFound
  simp only [Prog.bind_eq, Prog.pure_eq]
  change Prog.run _ (Prog.tryCatch ((get (f.rowKey v)).bind fun r => .ret (some r)) _) σ = _
  rw [Prog.run_tryCatch, Prog.run_bind, hget, Server.fetch]
  cases σ.get (f.rowKey v) <;> rfl

/-- The record that a read without a version finds. -/
theorem alone_getRecord_none (f : File) (σ : Store V) :
    alone cfg (getRecord f.app f.user f.scope f.filename none) σ =
      (.ok ((versionsOf cfg f σ).max?.bind fun v => σ.get (f.rowKey v)), σ) := by
  rw [getRecord]
  simp only [Prog.bind_eq]
  rw [alone_bind_ok (alone_versionsFor f σ)]
  cases (versionsOf cfg f σ).max? with
  | none => rfl
  | some v => exact alone_getVersion f v σ

/-- The newest version is the one just below the counter. -/
theorem Tidy.max_versionsOf (h : Tidy f σ) {n : ℕ} {row : Record V} (hn : counter f σ = n + 1)
    (hrow : σ.get (f.rowKey n) = some row) (hlist : row.listedFor f) :
    (versionsOf cfg f σ).max? = some n := by
  rw [List.max?_eq_some_iff]
  refine ⟨h.mem_versionsOf.mpr ⟨row, hrow, hlist⟩, fun v hv => ?_⟩
  obtain ⟨r, hr, -⟩ := h.mem_versionsOf.mp hv
  have hlt := h.below v r hr
  omega

/-- What loading makes of the record it has read. -/
def loaded (r : Option (Record V)) : Except Err (Reply V) :=
  match r with
  | none => .ok (.part none)
  | some r => (partFromBins r).map fun part => .part (some part)

theorem perform_load {sessionId : Option Str} (hscope : artifactScopeId f.filename sessionId = some f.scope)
    {version : Option ℤ} {r : Option (Record V)}
    (hr : alone cfg (getRecord f.app f.user f.scope f.filename version) σ = (.ok r, σ)) :
    perform cfg (.load f.app f.user f.filename sessionId version) σ = (loaded r, σ) := by
  have hscoped : alone cfg (scopeId f.filename sessionId) σ = (.ok f.scope, σ) := by
    rw [scopeId, hscope]
    rfl
  change alone cfg ((loadArtifact f.app f.user f.filename sessionId version).bind fun p => .ret (Reply.part p)) σ = _
  rw [alone_bind_ret, loadArtifact]
  simp only [Prog.bind_eq, Prog.pure_eq]
  rw [alone_bind_ok hscoped, alone_bind_ok hr]
  cases r with
  | none => rfl
  | some r =>
    dsimp only [loaded]
    cases partFromBins r <;> rfl

end Alone

end AdkAerospike.Artifacts
