import AdkAerospike.Artifacts.Footprint
import AdkAerospike.Artifacts.Concurrent
import AdkAerospike.Artifacts.Alone

/-! Saves that fail with no fault of the server. A save is given its version before the
part is looked at and before the record is put, so one that fails may have used up a
number. The counter of the file is all that it can have changed, and the counter is a
record of its own: to every call but the saves and deletes of the file the store is the
same as before. -/

namespace AdkAerospike.Artifacts

open Program Data Keys

variable {V : Type}

/-! ### The counter of a file and everything else -/

def counting (f : File) : Server.Party Str Str := ⟨{f.headKey}, ∅⟩

def besides (f : File) : Server.Party Str Str := ⟨{key | key ≠ f.headKey}, Set.univ⟩

theorem counting_apart (f : File) : (counting f).Apart (besides f) where
  keys := by simp [counting, besides]
  values := by simp [counting, besides]

/-- The call neither saves nor deletes the file. -/
def Call.Passes (f : File) (c : Call V) : Prop := ∀ g, c.saves g ∨ c.deletes g → g.headKey ≠ f.headKey

theorem Call.exists_madeFor (c : Call V) : ∃ app user, c.madeFor app user := by
  cases c <;> exact ⟨_, _, rfl, rfl⟩

section Besides
variable {cfg : ServerConfig V} {f : File} {σ σ' : Store V}

theorem Asked.besides {app user : Str} {counts : File → Prop} (hcounts : ∀ g, counts g → g.headKey ≠ f.headKey)
    {q : Req V} (hq : Asked app user counts q) : q.Within cfg.table (besides f) := by
  have hrow : ∀ scope filename (v : ℤ), artifactKey app user scope filename v ≠ f.headKey :=
    fun scope filename v => File.rowKey_ne_headKey (f := ⟨app, user, scope, filename⟩)
  cases hq with
  | query scope => exact Set.mem_univ _
  | get scope filename v => exact hrow scope filename v
  | create scope filename v row haus => exact ⟨hrow scope filename v, fun _ _ => Set.mem_univ _⟩
  | remove scope filename v => exact hrow scope filename v
  | allocate scope filename h => exact hcounts _ h
  | removeHead scope filename h => exact hcounts _ h

theorem Call.Passes.besides {c : Call V} (hc : c.Passes f) : c.body.Uses (Server.Req.Within cfg.table (besides f)) := by
  obtain ⟨app, user, hmade⟩ := c.exists_madeFor
  exact hmade.asks.mono fun _ hq => hq.besides hc

theorem headKey_notMem {q : Req V} (hq : q.Within cfg.table (besides f)) : f.headKey ∉ q.keys := by
  cases q with
  | create key row => simpa [Server.Req.keys] using Ne.symm hq.1
  | put key row => simpa [Server.Req.keys] using Ne.symm hq.1
  | remove key => simpa [Server.Req.keys] using Ne.symm hq
  | operate key op => simpa [Server.Req.keys] using Ne.symm hq
  | get key => simp [Server.Req.keys]
  | batchRead keys => simp [Server.Req.keys]
  | query aus => simp [Server.Req.keys]

/-- Such a call leaves the counter alone. -/
theorem Call.Passes.head {c : Call V} (hc : c.Passes f) (σ : Store V) :
    (perform cfg c σ).2.get f.headKey = σ.get f.headKey := by
  have huses : c.body.Uses (Server.Req.Within cfg.table (Artifacts.besides f)) := hc.besides
  refine huses.run_invariant (I := fun σ' : Store V => σ'.get f.headKey = σ.get f.headKey) ?_ rfl
  intro q σ' hq hσ
  exact (Server.exec_get_of_notMem .fair (headKey_notMem hq) σ').trans hσ

/-- Such a call sees no difference between stores that differ in the counter only. -/
theorem Call.Passes.alike {c : Call V} (hc : c.Passes f) (h : cfg.table.Alike (Artifacts.besides f) σ σ') :
    (perform cfg c σ).1 = (perform cfg c σ').1 :=
  (hc.besides.run_alike (fun _ _ _ hq h => h.exec .fair hq) h).1

end Besides

/-! ### Counters of reachable stores -/

/-- The head of the file is a counter and nothing else. -/
def Tallied (f : File) (σ : Store V) : Prop := ∀ r, σ.get f.headKey = some r → r = { ver := some (counter f σ) }

section Tallied
variable {cfg : ServerConfig V} {f : File} {σ σ' : Store V}

theorem Tallied.congr (h : Tallied f σ) (hhead : σ'.get f.headKey = σ.get f.headKey) : Tallied f σ' := by
  intro r hr
  rw [counter_congr hhead]
  exact h r (hhead ▸ hr)

theorem tallied_of_advanced (h : Tallied f σ) (hhead : σ'.get f.headKey = some (advanced f σ)) : Tallied f σ' := by
  intro r hr
  rw [counter_of_advanced hhead, ← advanced_eq h]
  exact Option.some.inj (hr.symm.trans hhead)

theorem tallied_of_none (hhead : σ.get f.headKey = none) : Tallied f σ := by
  intro r hr
  rw [hhead] at hr
  cases hr

/-- Every request keeps a counter a counter, in any weather. -/
theorem Asked.tallied {app user : Str} {counts : File → Prop} {q : Req V} (hq : Asked app user counts q)
    (x : Server.Weather) (h : Tallied f σ) : Tallied f (exec cfg x q σ).2 := by
  by_cases hkeys : f.headKey ∈ q.keys
  · have hrow : ∀ scope filename (v : ℤ), artifactKey app user scope filename v ≠ f.headKey :=
      fun scope filename v => File.rowKey_ne_headKey (f := ⟨app, user, scope, filename⟩)
    cases hq with
    | query scope => simp [Server.Req.keys] at hkeys
    | get scope filename v => simp [Server.Req.keys] at hkeys
    | create scope filename v row haus =>
      exact absurd (List.mem_singleton.mp hkeys).symm (hrow scope filename v)
    | remove scope filename v => exact absurd (List.mem_singleton.mp hkeys).symm (hrow scope filename v)
    | allocate scope filename hcounts =>
      rw [← List.mem_singleton.mp hkeys]
      obtain ⟨-, ⟨cur, -, -, hhead⟩ | ⟨e, -, -, hhead | hhead⟩⟩ := exec_allocation cfg x f σ
      · exact tallied_of_advanced h hhead
      · exact h.congr hhead
      · exact tallied_of_advanced h hhead
    | removeHead scope filename hcounts =>
      rw [← List.mem_singleton.mp hkeys]
      rcases Server.under_snd x σ (Server.change f.headKey Server.Table.onRemove σ) with hσ | hσ
      · exact h.congr (congrArg (FMap.get · f.headKey) hσ)
      · refine tallied_of_none ((congrArg (FMap.get · f.headKey) hσ).trans ?_)
        exact (Server.exec_remove_get (T := cfg.table) f.headKey f.headKey σ).trans (if_pos rfl)
  · exact h.congr (Server.exec_get_of_notMem x hkeys σ)

/-- Whatever calls have run, in any order and weather. -/
theorem tallied_of_reach {s : ServicePool V} (hs : (service cfg).Reach (fun _ _ => True) ⟨∅, []⟩ s) (f : File) :
    Tallied f s.world := by
  have huses := hs.uses (F := fun _ q => ∃ app user counts, Asked app user counts q) (I := Tallied f)
    (fun _ c _ => by
      obtain ⟨app, user, hmade⟩ := c.exists_madeFor
      exact hmade.asks.mono fun _ hq => ⟨_, _, _, hq⟩)
    (fun _ _ x _ _ _ _ ⟨_, _, _, hq⟩ h => hq.tallied x h) (tallied_of_none rfl) rfl
  exact huses.1

/-- The counter has no indexed bin, so no query finds it. -/
theorem Tallied.filed (h : Tallied f σ) : cfg.table.Filed (besides f) σ := by
  rintro key r i hr hi -
  show key ≠ f.headKey
  rintro rfl
  rw [h r hr] at hi
  cases hi

end Tallied

/-! ### How a save ends -/

/-- What a save in fair weather can come to. -/
inductive Ends (cfg : ServerConfig V) (f : File) (σ : Store V) : Except Err (Reply V) × Store V → Prop
  | refused (hbig : cfg.fits (advanced f σ) = false) : Ends cfg f σ (.error (.server .recordTooBig), σ)
  | failed (e : Err) : Ends cfg f σ (.error e, σ.set f.headKey (some (advanced f σ)))
  | saved (σ' : Store V) : Ends cfg f σ (.ok (.version (counter f σ)), σ')

/-- The version is given out first, and what goes wrong later does not take it back. -/
theorem perform_ends (cfg : ServerConfig V) {f : File} {c : Call V} (hc : c.saves f) (σ : Store V) :
    Ends cfg f σ (perform cfg c σ) := by
  obtain ⟨cur, hcur, hop⟩ := onOperate_head cfg f σ
  rw [perform, body_save hc, Prog.run_ask]
  by_cases hfits : cfg.fits (advanced f σ) = true
  · have hexec : exec cfg .fair (.operate f.headKey allocation) σ =
        (.ok cur, σ.set f.headKey (some (advanced f σ))) := Server.change_of_ok (hop.trans (if_pos hfits))
    rw [hexec]
    change Ends cfg f σ (Prog.run _ (allocated f c (cur.getD 0)) _)
    rw [hcur, allocated]
    cases hrow : c.row f (counter f σ) with
    | none => exact .failed _
    | some row =>
      dsimp only
      rw [writing, Prog.run_ask]
      set σ₁ := σ.set f.headKey (some (advanced f σ))
      cases hput : cfg.table.onCreate row (σ₁.get (f.rowKey (counter f σ))) with
      | error e =>
        have hcreate : exec cfg .fair (.create (f.rowKey (counter f σ)) row) σ₁ = (.error e, σ₁) :=
          Server.change_of_error hput
        rw [hcreate]
        exact .failed _
      | ok out =>
        have hcreate : exec cfg .fair (.create (f.rowKey (counter f σ)) row) σ₁ = (.ok out.1, _) :=
          Server.change_of_ok hput
        rw [hcreate]
        exact .saved _
  · have hexec : exec cfg .fair (.operate f.headKey allocation) σ = (.error .recordTooBig, σ) :=
      Server.change_of_error (hop.trans (if_neg hfits))
    rw [hexec]
    exact .refused (by simpa using hfits)

/-- A save returns the counter or nothing. -/
theorem version_of_perform {cfg : ServerConfig V} {f : File} {c : Call V} (hc : c.saves f) {σ : Store V} {v : ℕ}
    (h : (perform cfg c σ).1 = .ok (.version v)) : v = counter f σ := by
  have hends := perform_ends cfg hc σ
  generalize perform cfg c σ = out at h hends
  cases hends with
  | refused hbig => cases h
  | failed e => cases h
  | saved σ' =>
    cases h
    rfl

/-- To all others an advanced counter makes no difference. -/
theorem Tallied.alike_advanced {f : File} {σ : Store V} (h : Tallied f σ) (cfg : ServerConfig V) :
    cfg.table.Alike (besides f) σ (σ.set f.headKey (some (advanced f σ))) := by
  have hwrites : cfg.table.Writes (counting f) σ (σ.set f.headKey (some (advanced f σ))) := by
    refine .inr ⟨f.headKey, rfl, _, rfl, ?_⟩
    rintro r hr i hi
    cases hr
    rw [advanced_eq h] at hi
    cases hi
  exact hwrites.unseen h.filed (counting_apart f)

/-- The store after several complete calls. -/
def after (cfg : ServerConfig V) (cs : List (Call V)) (σ : Store V) : Store V :=
  cs.foldl (fun σ c => (perform cfg c σ).2) σ

theorem counter_after {cfg : ServerConfig V} {f : File} {cs : List (Call V)} (hcs : ∀ c ∈ cs, c.Passes f) (σ : Store V) :
    counter f (after cfg cs σ) = counter f σ := by
  induction cs generalizing σ with
  | nil => rfl
  | cons c cs ih =>
    have hc : c.Passes f := hcs c (by simp)
    have hrest : ∀ c' ∈ cs, c'.Passes f := fun c' hc' => hcs c' (by simp [hc'])
    calc counter f (after cfg cs (perform cfg c σ).2) = counter f (perform cfg c σ).2 := ih hrest _
      _ = counter f σ := counter_congr (hc.head σ)

/-- What a failed save of the file leaves behind. -/
theorem failed_save_leaves {cfg : ServerConfig V} {f : File} {σ σ' : Store V} (h : Tallied f σ) {c : Call V}
    (hc : c.saves f) {e : Err} (hfail : perform cfg c σ = (.error e, σ')) :
    cfg.table.Alike (besides f) σ σ' ∧ (counter f σ' = counter f σ ∨ counter f σ' = counter f σ + 1) ∧
      (cfg.HeadsFit → counter f σ' = counter f σ + 1) := by
  have hends := perform_ends cfg hc σ
  rw [hfail] at hends
  cases hends with
  | refused hbig =>
    refine ⟨.refl _ _ _, .inl rfl, fun hfits => ?_⟩
    rw [advanced_eq h, hfits] at hbig
    cases hbig
  | failed e =>
    have hcounter : counter f (σ.set f.headKey (some (advanced f σ))) = counter f σ + 1 :=
      counter_of_advanced (by rw [FMap.get_set, if_pos rfl])
    exact ⟨h.alike_advanced cfg, .inr hcounter, fun _ => hcounter⟩

/-- A save that fails for want of a session id changes nothing. One that fails later shows
in the versions of its own file only: all other calls, listing the versions of any file
among them, return what they would have returned, and so does the next save, or one more;
one more if the record was too big, as its number has been used up. -/
theorem failed_save_shows_in_versions_only (cfg : ServerConfig V) (hcfg : cfg.HeadsFit) (s : ServicePool V)
    (hs : (service cfg).Reach (fun _ _ => True) ⟨∅, []⟩ s) (app user filename : Str) (part : Part)
    (sessionId : Option Str) (customMetadata : Option (Dict V)) (now : ℚ) (e : Err) (σ' : Store V)
    (hfail : perform cfg (.save app user filename part sessionId customMetadata now) s.world = (.error e, σ')) :
    (artifactScopeId filename sessionId = none → σ' = s.world) ∧
    ∀ scope, artifactScopeId filename sessionId = some scope →
      (∀ c : Call V, c.Passes ⟨app, user, scope, filename⟩ →
        (perform cfg c σ').1 = (perform cfg c s.world).1) ∧
      ∀ (cs : List (Call V)) (c : Call V) (v v' : ℕ), (∀ c' ∈ cs, c'.Passes ⟨app, user, scope, filename⟩) →
        c.saves ⟨app, user, scope, filename⟩ →
        (perform cfg c (after cfg cs s.world)).1 = .ok (.version v) →
        (perform cfg c (after cfg cs σ')).1 = .ok (.version v') →
        (v' = v ∨ v' = v + 1) ∧ (e = .server .recordTooBig → v' = v + 1) := by
  refine ⟨fun hscope => ?_, fun scope hscope => ?_⟩
  · simp only [perform, Call.body, saveArtifact, scopeId, hscope, Prog.bind_eq, Prog.bind, Prog.run_raise,
      Prod.mk.injEq] at hfail
    exact hfail.2.symm
  · have hsaves : (Call.save app user filename part sessionId customMetadata now).saves
        ⟨app, user, scope, filename⟩ := ⟨rfl, rfl, rfl, hscope⟩
    obtain ⟨halike, hcounter, hused⟩ := failed_save_leaves (tallied_of_reach hs _) hsaves hfail
    refine ⟨fun c hc => (hc.alike halike).symm, fun cs c v v' hcs hc hv hv' => ?_⟩
    have hv := version_of_perform hc hv
    have hv' := version_of_perform hc hv'
    rw [counter_after hcs] at hv hv'
    have hone := hused hcfg
    omega

namespace Small

/-- Three bytes are too many. -/
def tight : ServerConfig ℕ := { cfg with fits := fun r => (r.data.getD ByteArray.empty).size < 3 }

def saveBytes (data : List UInt8) : Call ℕ :=
  .save ['a'] ['u'] ['f'] { inlineData := some ⟨none, some ⟨data.toArray⟩⟩ } (some ['s']) none 0

theorem saveBytes_saves (data : List UInt8) : (saveBytes data).saves file := ⟨rfl, rfl, rfl, rfl⟩

end Small

open Artifacts.Small in
theorem failed_save_shows_in_versions_only_small :
    ∃ σ' v v', perform tight (saveBytes [1, 2, 3]) ∅ = (.error (.server .recordTooBig), σ') ∧
      (perform tight (.listVersions ['a'] ['u'] ['f'] (some ['s'])) σ').1 =
        (perform tight (.listVersions ['a'] ['u'] ['f'] (some ['s'])) ∅).1 ∧
      (perform tight (saveBytes [1]) ∅).1 = .ok (.version v) ∧
      (perform tight (saveBytes [1]) σ').1 = .ok (.version v') ∧ v' = v + 1 := by
  have h := failed_save_shows_in_versions_only tight (fun _ => rfl) ⟨∅, []⟩ .init ['a'] ['u'] ['f']
    { inlineData := some ⟨none, some ⟨#[1, 2, 3]⟩⟩ } (some ['s']) none 0 (.server .recordTooBig) _ rfl
  obtain ⟨hothers, hnext⟩ := h.2 ['s'] rfl
  refine ⟨_, 0, 1, rfl, hothers _ (by rintro g (hg | hg) <;> cases hg), rfl, rfl, ?_⟩
  exact (hnext [] (saveBytes [1]) 0 1 (by simp) (saveBytes_saves [1]) rfl rfl).2 rfl

open Artifacts.Small in
/-- The record is too big, and its number is gone. -/
theorem oversized_save_uses_up_version :
    ¬ ∀ (s : ServicePool ℕ) (c next : Call ℕ) (e : Err) (σ' : Store ℕ) (v v' : ℕ),
      (service tight).Reach (fun _ _ => True) ⟨∅, []⟩ s → c.saves file → next.saves file →
      perform tight c s.world = (.error e, σ') → (perform tight next s.world).1 = .ok (.version v) →
      (perform tight next σ').1 = .ok (.version v') → v' = v := by
  intro h
  have hsame := h ⟨∅, []⟩ (saveBytes [1, 2, 3]) (saveBytes [1]) (.server .recordTooBig) _ 0 1 .init
    (saveBytes_saves _) (saveBytes_saves _) rfl rfl rfl
  cases hsame

end AdkAerospike.Artifacts
