import AdkAerospike.Data.Split
import AdkAerospike.Program.Moments
import AdkAerospike.Artifacts.Archive

/-! Reads among saves. As long as nothing is deleted, a record that has been put stays, so
what is seen of a file at one moment is there at every later one. A read makes at most one
query and one get of what the query has shown: it returns what it would return alone at the
moment of its query. And what a save has returned is seen by all that starts afterwards. -/

namespace AdkAerospike.Artifacts

open Program Data Keys

variable {V : Type}

/-! ### Stores that only grow -/

/-- The call removes nothing. -/
def Call.keeps : Call V → Prop
  | .delete .. => False
  | _ => True

/-- Nothing is deleted; requests are answered in any order and weather. -/
def NoDeletes (_ : ServicePool V) : Action (Call V) Server.Weather → Prop
  | .spawn c => c.keeps
  | .step _ _ => True

/-- What calls that remove nothing ask for. -/
inductive Keeping : Req V → Prop
  | create (f : File) (v : ℕ) (row : Record V) (hrow : row.listedFor f ∧ row.ver = some v) :
      Keeping (.create (f.rowKey v) row)
  | allocate (f : File) : Keeping (.operate f.headKey allocation)
  | read {q : Req V} (hq : q.keys = []) : Keeping q

/-- A record with data is a version, and names its file and its number. -/
def Shelved (σ : Store V) : Prop := ∀ key r, σ.get key = some r → r.data.isSome →
  ∃ (f : File) (v : ℕ), key = f.rowKey v ∧ r.listedFor f ∧ r.ver = some v

/-- Versions have stayed and counters have not gone back. -/
structure Later (σ σ' : Store V) : Prop where
  kept : ∀ key r, σ.get key = some r → r.data.isSome → σ'.get key = some r
  counter : ∀ f, counter f σ ≤ counter f σ'

theorem Later.refl (σ : Store V) : Later σ σ := ⟨fun _ _ h _ => h, fun _ => le_rfl⟩

theorem Later.trans {σ σ' σ'' : Store V} (h : Later σ σ') (h' : Later σ' σ'') : Later σ σ'' where
  kept key r hr hdata := h'.kept key r (h.kept key r hr hdata) hdata
  counter f := (h.counter f).trans (h'.counter f)

section Requests
variable {cfg : ServerConfig V} {σ : Store V}

/-- A put that creates leaves a record that was there alone. -/
theorem exec_create_cases (cfg : ServerConfig V) (x : Server.Weather) (key : Str) (row : Record V) (σ : Store V) (key' : Str) :
    (exec cfg x (.create key row) σ).2.get key' = σ.get key' ∨
      key' = key ∧ σ.get key = none ∧ (exec cfg x (.create key row) σ).2.get key' = some row := by
  cases hr : σ.get key with
  | some r =>
    have hrefused : cfg.table.onCreate row (σ.get key) = .error .recordExists := by rw [hr]; rfl
    exact .inl (congrArg (FMap.get · key') (Server.under_change_error hrefused x).1)
  | none =>
    obtain ⟨hother, hkey⟩ := exec_create_of_none cfg x σ hr row
    by_cases hk : key' = key
    · subst hk
      rcases hkey with ⟨-, hnew⟩ | ⟨e, -, -, hnew | hnew⟩
      · exact .inr ⟨rfl, rfl, hnew⟩
      · exact .inl (hnew.trans hr.symm)
      · exact .inr ⟨rfl, rfl, hnew⟩
    · exact .inl (hother key' hk)

/-- An allocation leaves all records alone but the head, which it may advance. -/
theorem exec_allocation_cases (cfg : ServerConfig V) (x : Server.Weather) (f : File) (σ : Store V) (key : Str) :
    (exec cfg x (.operate f.headKey allocation) σ).2.get key = σ.get key ∨
      key = f.headKey ∧ (exec cfg x (.operate f.headKey allocation) σ).2.get key = some (advanced f σ) := by
  obtain ⟨hother, hhead⟩ := exec_allocation cfg x f σ
  by_cases hk : key = f.headKey
  · subst hk
    rcases hhead with ⟨cur, -, -, hnew⟩ | ⟨e, -, -, hnew | hnew⟩
    · exact .inr ⟨rfl, hnew⟩
    · exact .inl hnew
    · exact .inr ⟨rfl, hnew⟩
  · exact .inl (hother key hk)

/-- A head has no data. -/
theorem Shelved.head (h : Shelved σ) (f : File) : (advanced f σ).data = none := by
  unfold advanced
  cases hr : σ.get f.headKey with
  | none => rfl
  | some r =>
    cases hdata : r.data with
    | none => exact hdata
    | some b =>
      obtain ⟨g, v, hkey, -⟩ := h _ r hr (by rw [hdata]; rfl)
      exact absurd hkey.symm File.rowKey_ne_headKey

theorem Keeping.exec {q : Req V} (hq : Keeping q) (x : Server.Weather) (h : Shelved σ) :
    Shelved (exec cfg x q σ).2 ∧ Later σ (exec cfg x q σ).2 := by
  cases hq with
  | create f v row hrow =>
    refine ⟨fun key r hr hdata => ?_, fun key r hr _ => ?_, fun g => ?_⟩
    · rcases exec_create_cases cfg x (f.rowKey v) row σ key with hsame | ⟨rfl, -, hnew⟩
      · exact h key r (hsame.symm.trans hr) hdata
      · obtain rfl := Option.some.inj (hnew.symm.trans hr)
        exact ⟨f, v, rfl, hrow⟩
    · rcases exec_create_cases cfg x (f.rowKey v) row σ key with hsame | ⟨rfl, hnone, -⟩
      · exact hsame.trans hr
      · rw [hnone] at hr
        cases hr
    · refine (counter_congr ?_).ge
      rcases exec_create_cases cfg x (f.rowKey v) row σ g.headKey with hsame | ⟨hkey, -, -⟩
      · exact hsame
      · exact absurd hkey.symm File.rowKey_ne_headKey
  | allocate f =>
    refine ⟨fun key r hr hdata => ?_, fun key r hr hdata => ?_, fun g => ?_⟩
    · rcases exec_allocation_cases cfg x f σ key with hsame | ⟨-, hnew⟩
      · exact h key r (hsame.symm.trans hr) hdata
      · obtain rfl := Option.some.inj (hnew.symm.trans hr)
        rw [h.head f] at hdata
        cases hdata
    · rcases exec_allocation_cases cfg x f σ key with hsame | ⟨rfl, -⟩
      · exact hsame.trans hr
      · obtain ⟨g, v, hkey, -⟩ := h _ r hr hdata
        exact absurd hkey.symm File.rowKey_ne_headKey
    · by_cases hk : g.headKey = f.headKey
      · have hg : ∀ τ : Store V, Artifacts.counter g τ = Artifacts.counter f τ := fun τ => by
          rw [Artifacts.counter, Artifacts.counter, hk]
        rw [hg, hg]
        rcases exec_allocation_cases cfg x f σ f.headKey with hsame | ⟨-, hnew⟩
        · exact (counter_le_of_head (.inl hsame)).1
        · exact (counter_le_of_head (.inr hnew)).1
      · rcases exec_allocation_cases cfg x f σ g.headKey with hsame | ⟨hkey, -⟩
        · exact (counter_congr hsame).ge
        · exact absurd hkey hk
  | read hq =>
    rw [Artifacts.exec, Server.exec_of_keys x hq σ]
    exact ⟨h, .refl σ⟩

end Requests

/-! ### Runs -/

theorem Call.keeps.uses {c : Call V} (hc : c.keeps) : c.body.Uses Keeping := by
  have hreads : ∀ {p : Service V (Reply V)}, (p.Uses fun q => q.keys = []) → p.Uses Keeping := fun h =>
    h.mono fun _ hq => .read hq
  cases c with
  | save app user filename part sessionId customMetadata now =>
    cases hscope : artifactScopeId filename sessionId with
    | none =>
      simp only [Call.body, saveArtifact, scopeId, hscope]
      trivial
    | some scope =>
      have hsaves : (Call.save app user filename part sessionId customMetadata now : Call V).saves
          ⟨app, user, scope, filename⟩ := ⟨rfl, rfl, rfl, hscope⟩
      rw [body_save hsaves]
      refine ⟨.allocate _, fun x => ?_⟩
      cases x with
      | error e => trivial
      | ok cur =>
        dsimp only [allocated]
        split
        · next row hrow => exact ⟨.create _ _ row (row_listedFor hrow), fun y => by cases y <;> trivial⟩
        · trivial
  | load => exact hreads reads_load
  | listKeys => exact hreads reads_listKeys
  | delete => exact hc.elim
  | listVersions => exact hreads reads_listVersions
  | listArtifactVersions =>
    exact hreads (Prog.Uses.bind (uses_scopeId fun _ _ => reads_rowsFor.bind fun _ => trivial) fun _ => trivial)
  | getArtifactVersion =>
    exact hreads (Prog.Uses.bind (uses_scopeId fun _ _ => reads_getRecord.bind fun _ => trivial) fun _ => trivial)

/-- The store holds versions only, and no call under way removes anything. -/
structure Growing (s : ServicePool V) : Prop where
  shelved : Shelved s.world
  uses : ∀ p ∈ s.procs, p.prog.Uses Keeping

section Runs
variable {cfg : ServerConfig V} {s s' : ServicePool V}

theorem growing_start : Growing (⟨∅, []⟩ : ServicePool V) := ⟨fun _ _ h => (nomatch h), fun _ h => (nomatch h)⟩

theorem Growing.act (h : Growing s) {a : Action (Call V) Server.Weather} (ha : NoDeletes s a) :
    Growing ((service cfg).act a s) ∧ Later s.world ((service cfg).act a s).world := by
  rcases System.act_cases (Y := service cfg) a s with ⟨c, rfl, hact⟩ | ⟨i, x, -, -, hact⟩ |
    ⟨i, x, c, q, k, rfl, hi, -, hact⟩ <;> rw [hact]
  · refine ⟨⟨h.shelved, fun p hp => ?_⟩, .refl _⟩
    rcases List.mem_append.mp hp with hp | hp
    · exact h.uses p hp
    · rw [List.mem_singleton.mp hp]
      exact ha.uses
  · exact ⟨h, .refl _⟩
  · have hq := h.uses _ (List.mem_of_getElem? hi)
    obtain ⟨hshelved, hlater⟩ : Shelved (exec cfg x q s.world).2 ∧ Later s.world (exec cfg x q s.world).2 :=
      hq.1.exec x h.shelved
    refine ⟨⟨hshelved, fun p hp => ?_⟩, hlater⟩
    rcases List.mem_or_eq_of_mem_set hp with hp | rfl
    · exact h.uses p hp
    · exact hq.2 _

theorem Growing.reach (h : Growing s) (hs : (service cfg).Reach NoDeletes s s') :
    Growing s' ∧ Later s.world s'.world := by
  induction hs with
  | init => exact ⟨h, .refl _⟩
  | act _ ha ih => exact ⟨(ih.1.act ha).1, ih.2.trans (ih.1.act ha).2⟩

end Runs

/-! ### Reads -/

/-- Whenever the program comes to an end other than by a fault, it comes to what it comes to
alone, at a moment in between. -/
def Snaps {α : Type} (cfg : ServerConfig V) (p : Service V α) : Prop := ∀ (s s' : ServicePool V) (i : ℕ) (c : Call V)
  (r : Service V α), Growing s → System.Moments (service cfg) NoDeletes i c s p s' r → r.finished →
  (∀ code, r ≠ .raise (.server (.status code))) → ∃ t : ServicePool V, (service cfg).Reach NoDeletes s t ∧
    (service cfg).Reach NoDeletes t s' ∧ r.outcome = some (alone cfg p t.world).1

section Reads
variable {cfg : ServerConfig V} {α β : Type} {app user scope filename : Str}

theorem snaps_of_finished {p : Service V α} (hp : p.finished) : Snaps cfg p := fun s s' i c r _ hm _ _ => by
  refine ⟨s, .init, hm.reach, ?_⟩
  rw [hm.of_finished hp]
  exact Prog.outcome_of_finished hp _ _

/-- What is made of the outcome takes no request. -/
theorem Snaps.bind {p : Service V α} {f : α → Service V β} (hp : Snaps cfg p) (hf : ∀ a, (f a).finished) :
    Snaps cfg (p.bind f) := fun s s' i c r hs hm hr hfault => by
  rcases hm.bind hr with ⟨t, a, hma, hmf⟩ | ⟨e, hme, rfl⟩
  · obtain ⟨t', ht, ht', hout⟩ := hp s t i c _ hs hma rfl fun code h => by cases h
    refine ⟨t', ht, ht'.trans hmf.reach, ?_⟩
    have hrun : alone cfg p t'.world = (.ok a, (alone cfg p t'.world).2) := Prod.ext (Option.some.inj hout).symm rfl
    rw [alone_bind_ok hrun, hmf.of_finished (hf a)]
    exact Prog.outcome_of_finished (hf a) _ _
  · obtain ⟨t, ht, ht', hout⟩ := hp s s' i c _ hs hme rfl fun code h => by
      cases h
      exact hfault code rfl
    refine ⟨t, ht, ht', ?_⟩
    have hrun : alone cfg p t.world = (.error e, (alone cfg p t.world).2) := Prod.ext (Option.some.inj hout).symm rfl
    have hbind : alone cfg (p.bind f) t.world = (.error e, (alone cfg p t.world).2) := Prog.run_bind_error _ hrun
    rw [hbind]
    rfl

/-- A request that fails in bad weather only. -/
theorem snaps_single {q : Req V} {k : Ans q → Service V α} (hk : ∀ x, (k x).finished)
    (hfault : ∀ code applied σ, k (exec cfg (.failed code applied) q σ).1 = .raise (.server (.status code))) :
    Snaps cfg (.ask q k) := fun s s' i c r _ hm hr hne => by
  obtain ⟨t, x, ht, -, ha, -, ht', rfl⟩ := hm.single hk hr
  refine ⟨t, ht, (System.Reach.act .init ha).trans ht', ?_⟩
  cases x with
  | failed code applied => exact absurd (hfault code applied t.world) (hne code)
  | fair => exact Prog.outcome_of_finished (hk _) _ _

theorem snaps_query (aus : Str) : Snaps cfg (query aus : Service V _) :=
  snaps_single (fun x => by cases x <;> rfl) fun _ _ _ => rfl

theorem snaps_getVersion (v : ℤ) : Snaps cfg (getVersion app user scope filename v : Service V _) := by
  refine snaps_single (fun x => ?_) fun _ _ _ => rfl
  cases x with
  | ok r => rfl
  | error e =>
    change Prog.finished (if Err.server e = .server .recordNotFound then .ret none else
      .raise (Err.server e) : Service V (Option (Record V))) = true
    split_ifs <;> rfl

theorem snaps_rowsFor : Snaps cfg (rowsFor app user scope filename : Service V _) := (snaps_query _).bind fun _ => rfl

theorem snaps_filenamesFor : Snaps cfg (filenamesFor app user scope : Service V _) :=
  (snaps_query _).bind fun records => by
    split <;> rfl

theorem snaps_versionsFor : Snaps cfg (versionsFor app user scope filename : Service V _) :=
  snaps_rowsFor.bind fun _ => rfl

/-- A version key is made of the indexed value and the file name. -/
theorem File.rowKey_congr {f g : File} (haus : f.aus = g.aus) (hname : f.filename = g.filename) (v : ℤ) :
    f.rowKey v = g.rowKey v := by
  have hkey : ∀ f : File, f.rowKey v = f.aus ++ sep :: (f.filename ++ sep :: padInt 8 v) := fun f => by
    simp [File.rowKey, File.aus, scopeTuple, artifactKey_eq_fileKey, fileKey]
  rw [hkey, hkey, haus, hname]

/-- What a query shows of a file is under the keys of its versions. -/
theorem Shelved.get_listed {σ : Store V} (h : Shelved σ) {f : File} {v : ℕ} (hv : v ∈ versionsOf cfg f σ) :
    ∃ r, σ.get (f.rowKey v) = some r ∧ r.data.isSome := by
  obtain ⟨x, hx, rfl⟩ := List.mem_map.mp hv
  obtain ⟨key, r, hget, hlist, rfl⟩ := (mem_rowsOf f σ).mp hx
  obtain ⟨g, w, rfl, hg, hver⟩ := h key r hget hlist.2.2
  refine ⟨r, ?_, hlist.2.2⟩
  have haus : f.aus = g.aus := Option.some.inj (hlist.1.symm.trans hg.1)
  have hname : f.filename = g.filename := Option.some.inj (hlist.2.1.symm.trans hg.2.1)
  rw [hver, Option.getD_some, File.rowKey_congr haus hname]
  exact hget

theorem snaps_getRecord (f : File) (version : Option ℤ) :
    Snaps cfg (getRecord f.app f.user f.scope f.filename version : Service V _) := by
  cases version with
  | some v => exact snaps_getVersion v
  | none =>
    intro s s' i c r hs hm hr hfault
    rcases hm.bind hr with ⟨t, vs, hvs, hmf⟩ | ⟨e, he, rfl⟩
    · obtain ⟨u, hu, hut, hout⟩ := snaps_versionsFor s t i c _ hs hvs rfl fun code h => by cases h
      rw [alone_versionsFor] at hout
      obtain rfl : vs = versionsOf cfg f u.world := Except.ok.inj (Option.some.inj hout)
      cases hmax : (versionsOf cfg f u.world).max? with
      | none =>
        rw [hmax] at hmf
        refine ⟨u, hu, hut.trans hmf.reach, ?_⟩
        rw [hmf.of_finished rfl, alone_getRecord_none, hmax]
        rfl
      | some v =>
        rw [hmax] at hmf
        obtain ⟨t', ht, ht', hout'⟩ := snaps_getVersion v t s' i c _ (hs.reach (hu.trans hut)).1 hmf hr hfault
        -- the record is there from the query on
        obtain ⟨row, hrow, hdata⟩ := (hs.reach hu).1.shelved.get_listed (List.max?_mem hmax)
        have hlater := ((hs.reach hu).1.reach (hut.trans ht)).2.kept _ _ hrow hdata
        refine ⟨u, hu, (hut.trans ht).trans ht', ?_⟩
        rw [hout', alone_getVersion, alone_getRecord_none, hmax, Option.bind_some, hrow, hlater]
    · obtain ⟨t, ht, ht', hout⟩ := snaps_versionsFor s s' i c _ hs he rfl fun code h => by
        cases h
        exact hfault code rfl
      rw [alone_versionsFor] at hout
      cases hout

/-- A call that reads one file. -/
def Call.looks : Call V → Prop
  | .load .. | .listVersions .. | .listArtifactVersions .. | .getArtifactVersion .. => True
  | _ => False

/-- What follows the choice of a scope, if there is one. -/
theorem snaps_scoped {sessionId : Option Str} {k : Str → Service V α} (hk : ∀ scope, Snaps cfg (k scope)) :
    Snaps cfg ((scopeId filename sessionId).bind k) := by
  unfold scopeId
  cases artifactScopeId filename sessionId with
  | none => exact snaps_of_finished rfl
  | some scope => exact hk scope

theorem Call.looks.snaps {c : Call V} (hc : c.looks) : Snaps cfg c.body := by
  cases c with
  | load app user filename sessionId version =>
    refine Snaps.bind (snaps_scoped fun scope => ?_) fun _ => rfl
    refine (snaps_getRecord ⟨app, user, scope, filename⟩ version).bind fun r => ?_
    cases r with
    | none => rfl
    | some r =>
      change Prog.finished ((ofExcept (partFromBins r)).bind fun x => .ret (some x)) = true
      cases partFromBins r <;> rfl
  | listVersions app user filename sessionId =>
    exact (snaps_scoped fun scope => snaps_versionsFor.bind fun _ => rfl).bind fun _ => rfl
  | listArtifactVersions app user filename sessionId =>
    exact (snaps_scoped fun scope => snaps_rowsFor.bind fun _ => rfl).bind fun _ => rfl
  | getArtifactVersion app user filename sessionId version =>
    exact (snaps_scoped fun scope => (snaps_getRecord ⟨app, user, scope, filename⟩ version).bind fun _ => rfl).bind
      fun _ => rfl
  | _ => exact hc.elim

/-- As long as nothing is deleted, a call that reads a file and ends other than by a fault
comes to what it comes to alone, in a state that the store was in while it was under way. -/
theorem reads_are_snapshots (cfg : ServerConfig V) (s s' : ServicePool V)
    (hs : (service cfg).Reach NoDeletes ⟨∅, []⟩ s) (c : Call V) (hc : c.looks)
    (hs' : (service cfg).Reach NoDeletes ((service cfg).act (.spawn c) s) s')
    (p : Proc (Req V) Ans Err (Reply V) (Call V)) (hp : s'.procs[s.procs.length]? = some p) (r : Except Err (Reply V))
    (hr : p.prog.outcome = some r) (hfault : ∀ code, r ≠ .error (.server (.status code))) :
    ∃ t : ServicePool V, (service cfg).Reach NoDeletes ((service cfg).act (.spawn c) s) t ∧
      (service cfg).Reach NoDeletes t s' ∧ (perform cfg c t.world).1 = r := by
  have hkeeps : c.keeps := by cases c <;> trivial
  obtain ⟨rfl, hm⟩ := hs'.moments_spawn hp
  have hgrowing : Growing ((service cfg).act (.spawn p.call) s) := ((growing_start.reach hs).1.act (a := .spawn p.call) hkeeps).1
  have hdone : p.prog.finished := by rw [← Prog.outcome_isSome, hr]; rfl
  obtain ⟨t, ht, ht', hout⟩ := hc.snaps _ s' _ _ p.prog hgrowing hm hdone fun code h => by
    rw [h] at hr
    exact hfault code (Option.some.inj hr).symm
  exact ⟨t, ht, ht', Option.some.inj (hout.symm.trans hr)⟩

end Reads

/-! ### Saves -/

section Saves
variable {cfg : ServerConfig V} {s s' : ServicePool V} {f : File} {c : Call V} {i : ℕ}

/-- A put that says so has put the record. -/
theorem get_of_created {x : Server.Weather} {key : Str} {row : Record V} {σ : Store V}
    (h : (exec cfg x (.create key row) σ).1 = .ok ()) : (exec cfg x (.create key row) σ).2.get key = some row := by
  cases hr : σ.get key with
  | some r =>
    have hrefused : cfg.table.onCreate row (σ.get key) = .error .recordExists := by rw [hr]; rfl
    obtain ⟨-, e, hans, -⟩ := Server.under_change_error hrefused x
    cases hans.symm.trans h
  | none =>
    rcases (exec_create_of_none cfg x σ hr row).2 with ⟨-, hnew⟩ | ⟨e, hans, -⟩
    · exact hnew
    · cases hans.symm.trans h

/-- A save that returns was given a version by the counter, which went on, and has then put
the record of the version. -/
theorem moments_save (hc : c.saves f) {reply : Reply V}
    (hm : System.Moments (service cfg) NoDeletes i c s c.body s' (.ret reply)) :
    ∃ v, reply = .version v ∧ ∃ t₁ t₂ t₃ : ServicePool V, (service cfg).Reach NoDeletes s t₁ ∧ counter f t₁.world = v ∧
      (service cfg).Reach NoDeletes t₁ t₂ ∧ counter f t₂.world = v + 1 ∧ (service cfg).Reach NoDeletes t₂ t₃ ∧
      (∃ row, c.row f v = some row ∧ t₃.world.get (f.rowKey v) = some row) ∧ (service cfg).Reach NoDeletes t₃ s' := by
  rw [body_save hc] at hm
  cases hm with
  | ask hs hq ha hw hnext =>
    rename_i t₁ x
    have hserve : (service cfg).serve c x (.operate f.headKey allocation) t₁.world =
        exec cfg x (.operate f.headKey allocation) t₁.world := rfl
    rw [hserve] at hw hnext
    obtain ⟨-, ⟨cur, hans, hcur, hnew⟩ | ⟨e, hans, -⟩⟩ := exec_allocation cfg x f t₁.world
    · rw [hans] at hnext
      dsimp only at hnext
      rw [hcur] at hnext
      have hafter := counter_of_advanced hnew
      rw [← hw] at hafter
      unfold allocated at hnext
      cases hrow : c.row f (counter f t₁.world) with
      | none =>
        rw [hrow] at hnext
        cases hnext.of_finished rfl
      | some row =>
        rw [hrow] at hnext
        obtain ⟨t₂, y, ht₂, -, ha₂, hw₂, hlast, heq⟩ := hnext.single (fun z => by cases z <;> rfl) rfl
        change _ = (answer (exec cfg y (.create (f.rowKey (counter f t₁.world)) row) t₂.world).1).bind _ at heq
        cases hcreated : (exec cfg y (.create (f.rowKey (counter f t₁.world)) row) t₂.world).1 with
        | error e =>
          rw [hcreated] at heq
          cases heq
        | ok u =>
          rw [hcreated] at heq
          refine ⟨_, Prog.ret.inj heq, t₁, _, _, hs, rfl, .act .init ha, hafter, ht₂.act ha₂, ⟨row, hrow, ?_⟩, hlast⟩
          rw [hw₂]
          exact get_of_created hcreated
    · rw [hans] at hnext
      cases hnext.of_finished rfl

end Saves

/-! ### What is seen of a save -/

/-- The call saves or reads the file, or lists files among which it is. -/
def Call.concerns (f : File) : Call V → Prop
  | .save app user filename _ sessionId _ _ | .load app user filename sessionId _ | .delete app user filename sessionId
  | .listVersions app user filename sessionId | .listArtifactVersions app user filename sessionId
  | .getArtifactVersion app user filename sessionId _ =>
    app = f.app ∧ user = f.user ∧ filename = f.filename ∧ artifactScopeId filename sessionId = some f.scope
  | .listKeys app user sessionId => app = f.app ∧ user = f.user ∧ (f.scope = userScopeSid ∨ sessionId = some f.scope)

/-- The reply shows that the file has the version, under which the record has been put, and
none of what it shows is older. `σ` is the store when it is given. -/
def Shows (f : File) (v : ℕ) (row : Record V) (σ : Store V) : Call V → Reply V → Prop
  | .save .., .version w => v < w
  | .load _ _ _ _ (some n), .part x => n = v → ∃ part, partFromBins row = .ok part ∧ x = some part
  | .load _ _ _ _ none, .part x => ∃ (w : ℕ) (r : Record V) (part : Part), v ≤ w ∧ σ.get (f.rowKey w) = some r ∧
      partFromBins r = .ok part ∧ x = some part
  | .listKeys .., .keys names => f.filename ∈ names
  | .listVersions .., .versions vs => v ∈ vs
  | .listArtifactVersions .., .artifactVersions l => versionMeta f.app f.user f.scope f.filename row ∈ l
  | .getArtifactVersion _ _ _ _ (some n), .artifactVersion x =>
    n = v → x = some (versionMeta f.app f.user f.scope f.filename row)
  | .getArtifactVersion _ _ _ _ none, .artifactVersion x => ∃ (w : ℕ) (r : Record V), v ≤ w ∧
      σ.get (f.rowKey w) = some r ∧ x = some (versionMeta f.app f.user f.scope f.filename r)
  | _, _ => False

/-- The store has the version. -/
structure Has (f : File) (v : ℕ) (row : Record V) (σ : Store V) : Prop where
  shelved : Shelved σ
  get : σ.get (f.rowKey v) = some row
  listed : row.listedFor f
  ver : row.ver = some v

section Has
variable {cfg : ServerConfig V} {f : File} {v : ℕ} {row : Record V} {σ σ' : Store V}

theorem Has.later (h : Has f v row σ) (hσ' : Shelved σ') (hlater : Later σ σ') : Has f v row σ' where
  shelved := hσ'
  get := hlater.kept _ _ h.get h.listed.2.2
  listed := h.listed
  ver := h.ver

theorem Has.mem_rowsOf (h : Has f v row σ) (cfg : ServerConfig V) :
    (v, row) ∈ rowsOf f.filename (cfg.arrange (cfg.table.found f.aus σ)) :=
  (Artifacts.mem_rowsOf f σ).mpr ⟨_, row, h.get, h.listed, by rw [h.ver]; rfl⟩

theorem Has.mem_versionsOf (h : Has f v row σ) (cfg : ServerConfig V) : v ∈ versionsOf cfg f σ :=
  List.mem_map.mpr ⟨_, h.mem_rowsOf cfg, rfl⟩

/-- The record that is read with no version asked for. -/
theorem Has.newest (h : Has f v row σ) (cfg : ServerConfig V) : ∃ (w : ℕ) (r : Record V), v ≤ w ∧
    σ.get (f.rowKey w) = some r ∧ r.data.isSome ∧
      alone cfg (getRecord f.app f.user f.scope f.filename none) σ = (.ok (some r), σ) := by
  have hv := h.mem_versionsOf cfg
  obtain ⟨w, hmax⟩ := Option.isSome_iff_exists.mp (List.isSome_max?_of_mem hv)
  obtain ⟨r, hr, hdata⟩ := h.shelved.get_listed (List.max?_mem hmax)
  refine ⟨w, r, (List.max?_eq_some_iff.mp hmax).2 v hv, hr, hdata, ?_⟩
  rw [alone_getRecord_none, hmax, Option.bind_some, hr]

/-- A query for the names of a scope finds the file. -/
theorem Has.mem_names (h : Has f v row σ) {names : List Str}
    (hnames : (alone cfg (filenamesFor f.app f.user f.scope) σ).1 = .ok names) : f.filename ∈ names := by
  have hquery : alone cfg (query (scopeTuple f.app f.user f.scope)) σ =
      (.ok (cfg.arrange (cfg.table.found f.aus σ)), σ) := rfl
  rw [filenamesFor, Prog.bind_eq, alone_bind_ok hquery] at hnames
  cases hmap : (cfg.arrange (cfg.table.found f.aus σ)).mapM Record.fname with
  | none =>
    rw [hmap] at hnames
    cases hnames
  | some names' =>
    rw [hmap] at hnames
    obtain rfl : names' = names := Except.ok.inj hnames
    have hmem : row ∈ cfg.arrange (cfg.table.found f.aus σ) :=
      (cfg.arrange_perm _).mem_iff.mpr (Server.mem_found.mpr ⟨_, h.get, h.listed.1⟩)
    obtain ⟨name, hname, heq⟩ := mem_of_mapM hmap hmem
    obtain rfl := Option.some.inj (heq.symm.trans h.listed.2.1)
    exact hname

end Has

section Seen
variable {cfg : ServerConfig V} {f : File} {v : ℕ} {row : Record V} {σ σ' : Store V} {c : Call V}

theorem of_loaded {r : Option (Record V)} {reply : Reply V} (h : loaded r = .ok reply) :
    r = none ∧ reply = .part none ∨ ∃ x part, r = some x ∧ partFromBins x = .ok part ∧ reply = .part (some part) := by
  cases r with
  | none => exact .inl ⟨rfl, (Except.ok.inj h).symm⟩
  | some x =>
    cases hpart : partFromBins x with
    | error e =>
      rw [loaded, hpart] at h
      cases h
    | ok part =>
      rw [loaded, hpart] at h
      exact .inr ⟨x, part, rfl, hpart, (Except.ok.inj h).symm⟩

/-- What a call that reads a file shows alone. -/
theorem Has.shows (h : Has f v row σ) (hc : c.looks) (hf : c.concerns f) {reply : Reply V}
    (hrun : (perform cfg c σ).1 = .ok reply) (hlater : Later σ σ') : Shows f v row σ' c reply := by
  have hfile : ∀ {sessionId : Option Str}, artifactScopeId f.filename sessionId = some f.scope →
      fileOf f.app f.user f.filename sessionId = some f := fun hscope => by
    rw [fileOf_eq, hscope]
    rfl
  cases c with
  | load app user filename sessionId version =>
    obtain ⟨rfl, rfl, rfl, hscope⟩ := hf
    cases version with
    | some n =>
      rw [perform_load hscope (alone_getVersion f n σ)] at hrun
      rcases of_loaded hrun with ⟨hnone, rfl⟩ | ⟨r, part, hr, hpart, rfl⟩
      · rintro rfl
        rw [h.get] at hnone
        cases hnone
      · rintro rfl
        obtain rfl := Option.some.inj (h.get.symm.trans hr)
        exact ⟨part, hpart, rfl⟩
    | none =>
      obtain ⟨w, r, hw, hr, hdata, hnewest⟩ := h.newest cfg
      rw [perform_load hscope hnewest] at hrun
      rcases of_loaded (r := some r) hrun with ⟨hnone, -⟩ | ⟨r', part, hr', hpart, rfl⟩
      · cases hnone
      · obtain rfl := Option.some.inj hr'
        exact ⟨w, r, part, hw, hlater.kept _ _ hr hdata, hpart, rfl⟩
  | listVersions app user filename sessionId =>
    obtain ⟨rfl, rfl, rfl, hscope⟩ := hf
    have halone : perform cfg (.listVersions f.app f.user f.filename sessionId) σ = _ :=
      alone_scoped f.app f.user _ Reply.versions σ
    rw [halone, hfile hscope] at hrun
    rw [← Except.ok.inj hrun]
    exact List.mem_mergeSort.mpr (h.mem_versionsOf cfg)
  | listArtifactVersions app user filename sessionId =>
    obtain ⟨rfl, rfl, rfl, hscope⟩ := hf
    have halone : perform cfg (.listArtifactVersions f.app f.user f.filename sessionId) σ = _ :=
      alone_scoped f.app f.user _ Reply.artifactVersions σ
    rw [halone, hfile hscope] at hrun
    rw [← Except.ok.inj hrun]
    exact List.mem_map.mpr ⟨(v, row), List.mem_mergeSort.mpr (h.mem_rowsOf cfg), rfl⟩
  | getArtifactVersion app user filename sessionId version =>
    obtain ⟨rfl, rfl, rfl, hscope⟩ := hf
    have halone : perform cfg (.getArtifactVersion f.app f.user f.filename sessionId version) σ = _ :=
      alone_scoped f.app f.user _ Reply.artifactVersion σ
    rw [halone, hfile hscope] at hrun
    dsimp only at hrun
    simp only [Prog.bind_eq, Prog.pure_eq] at hrun
    rw [alone_bind_ret] at hrun
    cases version with
    | some n =>
      have hget : alone cfg (getRecord f.app f.user f.scope f.filename (some n)) σ = (.ok (σ.get (f.rowKey n)), σ) :=
        alone_getVersion f n σ
      rw [hget] at hrun
      rw [← Except.ok.inj hrun]
      rintro rfl
      rw [h.get]
      rfl
    | none =>
      obtain ⟨w, r, hw, hr, hdata, hnewest⟩ := h.newest cfg
      rw [hnewest] at hrun
      rw [← Except.ok.inj hrun]
      exact ⟨w, r, hw, hlater.kept _ _ hr hdata, rfl⟩
  | _ => exact hc.elim

/-- A list of names that is made in the end has been given the file by one of its queries. -/
theorem Has.mem_keys {s s' : ServicePool V} {i : ℕ} (hs : Growing s) (h : Has f v row s.world) {app user : Str} {sessionId : Option Str}
    (hf : (Call.listKeys app user sessionId : Call V).concerns f) {reply : Reply V}
    (hm : System.Moments (service cfg) NoDeletes i c s (Call.listKeys app user sessionId).body s' (.ret reply)) :
    ∃ names, reply = .keys names ∧ f.filename ∈ names := by
  obtain ⟨rfl, rfl, hscope⟩ := hf
  -- what each query shows
  have hquery : ∀ {t t' : ServicePool V} {scope : Str} {names : List Str}, (service cfg).Reach NoDeletes s t →
      System.Moments (service cfg) NoDeletes i c t (filenamesFor f.app f.user scope) t' (.ret names) → f.scope = scope →
      f.filename ∈ names := fun {t t' scope names} ht hnames heq => by
    obtain ⟨u, hu, -, hout⟩ := snaps_filenamesFor t t' i c _ (hs.reach ht).1 hnames rfl fun code h => by cases h
    obtain ⟨hgrown, hlater⟩ := hs.reach (ht.trans hu)
    rw [← heq] at hout
    exact (h.later hgrown.shelved hlater).mem_names (Option.some.inj hout).symm
  have hsorted : ∀ {x : Str} {names : List Str}, x ∈ names → x ∈ sortedSet names := fun hx =>
    List.mem_mergeSort.mpr (List.mem_dedup.mpr hx)
  rcases hm.bind rfl with ⟨t, names, hkeys, hlast⟩ | ⟨e, -, he⟩
  · refine ⟨names, Prog.ret.inj (hlast.of_finished rfl), ?_⟩
    rcases hkeys.bind rfl with ⟨t₁, shared, hshared, hrest⟩ | ⟨e, -, he⟩
    · have hreach₁ := hshared.reach
      cases sessionId with
      | none =>
        obtain rfl := Prog.ret.inj (hrest.of_finished rfl)
        exact hsorted (hquery .init hshared (hscope.resolve_right fun h => by cases h))
      | some session =>
        rcases hrest.bind rfl with ⟨t₂, own, hown, hend⟩ | ⟨e, -, he⟩
        · obtain rfl := Prog.ret.inj (hend.of_finished rfl)
          refine hsorted (List.mem_append.mpr ?_)
          rcases hscope with hscope | hscope
          · exact .inl (hquery .init hshared hscope)
          · exact .inr (hquery hreach₁ hown (Option.some.inj hscope).symm)
        · cases he
    · cases he
  · cases he

end Seen

/-- As long as nothing is deleted, all that is started after a save has returned sees what
it has saved: later saves get greater versions, lists have the file and the version, reads
of the version give what was saved, and reads with no version one that is no older. -/
theorem completed_saves_are_seen (cfg : ServerConfig V) (s s' : ServicePool V)
    (hs : (service cfg).Reach NoDeletes ⟨∅, []⟩ s) (hs' : (service cfg).Reach NoDeletes s s') (f : File) (i j v : ℕ)
    (c c' : Call V) (reply : Reply V) (hc : c.saves f) (hi : s.procs[i]? = some ⟨c, .ret (.version v)⟩)
    (hc' : c'.concerns f) (hlate : s.procs.length ≤ j) (hj : s'.procs[j]? = some ⟨c', .ret reply⟩) :
    ∃ row, c.row f v = some row ∧ Shows f v row s'.world c' reply := by
  -- the save
  obtain ⟨t₀, ht₀, rfl, hkeeps, hts⟩ := hs.spawned hi (Nat.zero_le _)
  obtain ⟨-, hm⟩ := hts.moments_spawn hi
  obtain ⟨w, hw, t₁, t₂, t₃, ht₁, -, ht₂, hcounter, ht₃, ⟨row, hrow, hget⟩, hend⟩ := moments_save hc hm
  obtain rfl := (Reply.version.inj hw)
  have hgrowing₀ : Growing ((service cfg).act (.spawn c) t₀) := ((growing_start.reach ht₀).1.act (a := .spawn c) hkeeps).1
  have hgrowing₃ := (hgrowing₀.reach ((ht₁.trans ht₂).trans ht₃)).1
  have hhas : Has f v row t₃.world := ⟨hgrowing₃.shelved, hget, (row_listedFor hrow).1, (row_listedFor hrow).2⟩
  have hnext : v < counter f s.world := by
    have hlater := ((hgrowing₀.reach (ht₁.trans ht₂)).1.reach (ht₃.trans hend)).2.counter f
    omega
  -- the call that is started afterwards
  obtain ⟨u, hu, rfl, hkeeps', hus⟩ := hs'.spawned hj hlate
  obtain ⟨-, hm'⟩ := hus.moments_spawn hj
  have hgrowing : Growing ((service cfg).act (.spawn c') u) :=
    (((growing_start.reach hs).1.reach hu).1.act (a := .spawn c') hkeeps').1
  have hhas' : Has f v row u.world := by
    obtain ⟨hgrown, hlater⟩ := hgrowing₃.reach (hend.trans hu)
    exact hhas.later hgrown.shelved hlater
  refine ⟨row, hrow, ?_⟩
  by_cases hlooks : c'.looks
  · obtain ⟨t, ht, ht', hout⟩ := hlooks.snaps _ _ _ _ _ hgrowing hm' rfl fun code h => by cases h
    obtain ⟨hgrown, hlater⟩ := hgrowing.reach ht
    exact (hhas'.later hgrown.shelved hlater).shows hlooks hc' (Option.some.inj hout).symm (hgrown.reach ht').2
  · cases c' with
    | save app user filename part sessionId customMetadata now =>
      have hsaves : (Call.save app user filename part sessionId customMetadata now : Call V).saves f := hc'
      obtain ⟨w, rfl, t, -, -, ht, hcount, -⟩ := moments_save hsaves hm'
      have hmono := ((growing_start.reach hs).1.reach hu).2.counter f
      have hmono' := (hgrowing.reach ht).2.counter f
      change v < w
      change counter f u.world ≤ _ at hmono'
      omega
    | listKeys app user sessionId =>
      obtain ⟨names, rfl, hmem⟩ := hhas'.mem_keys hgrowing hc' hm'
      exact hmem
    | delete => exact hkeeps'.elim
    | _ => exact absurd trivial hlooks

namespace Small

/-- A version is saved; then it is read with no version named, while another one is given
out and put. -/
def reading : ServicePool ℕ × ServicePool ℕ :=
  let s := (service cfg).run [.spawn (save ['b']), .step 0 .fair, .step 0 .fair] ⟨∅, []⟩
  (s, (service cfg).run [.spawn (.getArtifactVersion ['a'] ['u'] ['f'] (some ['s']) none), .spawn (save ['c']),
    .step 2 .fair, .step 1 .fair, .step 2 .fair, .step 1 .fair] s)

theorem reach_reading : (service cfg).Reach NoDeletes ⟨∅, []⟩ reading.1 ∧
    (service cfg).Reach NoDeletes reading.1 reading.2 :=
  ⟨System.reach_run ⟨trivial, trivial, trivial, trivial⟩,
    System.reach_run ⟨trivial, trivial, trivial, trivial, trivial, trivial, trivial⟩⟩

end Small

open Artifacts.Small in
theorem reads_are_snapshots_small :
    ∃ t : ServicePool ℕ, (perform cfg (.getArtifactVersion ['a'] ['u'] ['f'] (some ['s']) none) t.world).1 =
      .ok (.artifactVersion (some ⟨0, File.uri file 0, ∅, 0, some ['b']⟩)) :=
  (reads_are_snapshots cfg reading.1 reading.2 reach_reading.1 (.getArtifactVersion ['a'] ['u'] ['f'] (some ['s']) none)
    trivial (System.reach_run ⟨trivial, trivial, trivial, trivial, trivial, trivial⟩) _ rfl _ rfl
    (fun _ h => by cases h)).imp fun _ h => h.2.2

open Artifacts.Small in
theorem completed_saves_are_seen_small : ∃ row, (save ['b']).row file 0 = some row ∧
    Shows file 0 row reading.2.world (save ['c']) (.version 1) :=
  completed_saves_are_seen cfg reading.1 reading.2 reach_reading.1 reach_reading.2 file 0 2 0 (save ['b']) (save ['c'])
    (.version 1) (save_saves _) rfl (save_saves ['c']) (by decide) rfl

end AdkAerospike.Artifacts
