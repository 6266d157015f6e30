import AdkAerospike.Artifacts.Concurrent
import AdkAerospike.Artifacts.Alone
import AdkAerospike.Artifacts.Footprint

/-! Saves and deletes of one file that run at the same time, every request
succeeding. A delete removes the versions it has found and then the counter; a save
that was given a version before and writes its record after leaves it above the new
counter. As long as the counter is removed only when no version is stored and none is
held, the file stays tidy. -/

namespace AdkAerospike.Artifacts

open Program Data Keys

variable {V : Type}

/-- The requests of `delete_artifact`. -/
inductive DeleteRequest (f : File) : Req V → Prop
  | query : DeleteRequest f (.query f.aus)
  | row (v : ℕ) : DeleteRequest f (.remove (f.rowKey v))
  | head : DeleteRequest f (.remove f.headKey)

section Requests
variable {f : File} {F : Req V → Prop}

theorem uses_removeQuietly {key : Str} (h : F (.remove key)) :
    (unlessNotFound (remove key) (.ret ()) : Service V Unit).Uses F :=
  uses_unlessNotFound ⟨h, uses_answer⟩ trivial

theorem uses_delete {c : Call V} (hc : c.deletes f) : c.body.Uses (DeleteRequest f) := by
  cases c with
  | delete app user filename sessionId =>
    obtain ⟨rfl, rfl, rfl, hscope⟩ := hc
    have hversions : (versionsFor f.app f.user f.scope f.filename : Service V _).Uses (DeleteRequest f) := by
      refine Prog.Uses.bind (Prog.Uses.bind ⟨.query, uses_answer⟩ fun _ => trivial) fun _ => trivial
    have hloop : ∀ vs, (removeVersions f.app f.user f.scope f.filename vs : Service V _).Uses
        (DeleteRequest f) := fun vs => by
      induction vs with
      | nil => trivial
      | cons v vs ih => exact Prog.Uses.bind (uses_removeQuietly (.row v)) fun _ => ih
    simp only [Call.body, deleteArtifact, scopeId, hscope, Prog.bind_eq, Prog.pure_eq]
    exact Prog.Uses.bind (hversions.bind fun vs => (hloop vs).bind fun _ => uses_removeQuietly .head)
      fun _ => trivial
  | _ => exact hc.elim

/-- A delete does not hold a version. -/
theorem ne_writing_of_uses {p : Service V (Reply V)} (hp : p.Uses (DeleteRequest f)) (v : ℕ)
    (row : Record V) : p ≠ writing f v row := by
  rintro rfl
  cases hp.1

end Requests

/-! ### Tidy files -/

section Tidy
variable {f : File} {σ σ' : Store V}

/-- Records that are gone, but for the head, leave the file tidy. -/
theorem Tidy.shrink (h : Tidy f σ) (hhead : σ'.get f.headKey = σ.get f.headKey)
    (hkeys : ∀ key, σ'.get key = σ.get key ∨ σ'.get key = none) : Tidy f σ' := by
  have hcounter : counter f σ' = counter f σ := counter_congr hhead
  have hget : ∀ key r, σ'.get key = some r → σ.get key = some r := fun key r hr => by
    rcases hkeys key with heq | heq <;> rw [heq] at hr
    · exact hr
    · cases hr
  refine ⟨fun r hr => ?_, fun v r hr => ?_, fun key r hr hlist => h.listed key r (hget key r hr) hlist⟩
  · rw [hcounter]
    exact h.head r (hget _ r hr)
  · rw [hcounter]
    exact h.below v r (hget _ r hr)

theorem Tidy.saves {c : Call V} {p p' : Service V (Reply V)} (h : Tidy f σ) (hs : Saves f c σ p p' σ')
    (hbelow : ∀ v row, p = writing f v row → v < counter f σ) : Tidy f σ' := by
  have hallocated : (∀ key, key ≠ f.headKey → σ'.get key = σ.get key) →
      σ'.get f.headKey = some (advanced f σ) → Tidy f σ' := fun hkeys hhead => by
    have hcounter := counter_of_advanced hhead
    rw [advanced_eq h.head] at hhead
    refine ⟨fun r hr => ?_, fun v r hr => ?_, fun key r hr hlist => ?_⟩
    · rw [hhead, Option.some.injEq] at hr
      rw [← hr, hcounter]
    · rw [hkeys _ File.rowKey_ne_headKey] at hr
      rw [hcounter]
      exact Nat.lt_succ_of_lt (h.below v r hr)
    · by_cases hk : key = f.headKey
      · rw [hk, hhead, Option.some.injEq] at hr
        rw [← hr] at hlist
        cases hlist.1
      · rw [hkeys key hk] at hr
        exact h.listed key r hr hlist
  have hwritten : ∀ {v : ℕ} {row : Record V}, v < counter f σ → c.row f v = some row →
      (∀ key, key ≠ f.rowKey v → σ'.get key = σ.get key) →
      (σ'.get (f.rowKey v) = none ∨ σ'.get (f.rowKey v) = some row) → Tidy f σ' :=
    fun {v} {row} hv hrow hkeys hnew => by
      have hhead : σ'.get f.headKey = σ.get f.headKey := hkeys _ (Ne.symm File.rowKey_ne_headKey)
      have hcounter : counter f σ' = counter f σ := counter_congr hhead
      refine ⟨fun r hr => ?_, fun u r hr => ?_, fun key r hr hlist => ?_⟩
      · rw [hcounter]
        exact h.head r (hhead ▸ hr)
      · rw [hcounter]
        by_cases hu : u = v
        · rw [hu]
          exact hv
        · rw [hkeys _ fun heq => hu (by exact_mod_cast File.rowKey_inj.mp heq)] at hr
          exact h.below u r hr
      · by_cases hk : key = f.rowKey v
        · rcases hnew with hnew | hnew <;> rw [hk, hnew] at hr
          · cases hr
          · cases hr
            exact ⟨v, hk, (row_listedFor hrow).2⟩
        · rw [hkeys key hk] at hr
          exact h.listed key r hr hlist
  cases hs with
  | idle hfin => exact h
  | allocate hc hkeys hhead => exact hallocated hkeys hhead
  | refused hc he hkeys hhead =>
    rcases hhead with hhead | hhead
    · refine h.shrink hhead fun key => .inl ?_
      by_cases hk : key = f.headKey
      · rw [hk, hhead]
      · exact hkeys key hk
    · exact hallocated hkeys hhead
  | write hrow hkeys hnew => exact hwritten (hbelow _ _ rfl) hrow hkeys (.inr hnew)
  | lost he hrow hkeys hnew => exact hwritten (hbelow _ _ rfl) hrow hkeys hnew

end Tidy

/-! ### Pools of saves and deletes -/

/-- Saves and deletes of the file are started, and every request succeeds. -/
def SavesAndDeletes (f : File) (_ : ServicePool V) : Action (Call V) Server.Weather → Prop
  | .spawn c => c.saves f ∨ c.deletes f
  | .step _ x => x = .fair

/-- No version of the file is stored, and no save holds one. -/
structure Cleared (f : File) (s : ServicePool V) : Prop where
  rows : ∀ v : ℕ, s.world.get (f.rowKey v) = none
  held : ∀ (i : ℕ) p v row, s.procs[i]? = some p → p.prog ≠ writing f v row

/-- The counter is removed only when the file is cleared. -/
def ClearedFirst (f : File) (s : ServicePool V) (a : Action (Call V) Server.Weather) : Prop :=
  SavesAndDeletes f s a ∧ ∀ i x, a = .step i x → System.next s i = some (.remove f.headKey) → Cleared f s

/-- The reservations hold, the file is tidy, and every call is a save or a delete. -/
structure Racing (f : File) (s : ServicePool V) : Prop extends Reserved f s where
  tidy : Tidy f s.world
  calls : ∀ (i : ℕ) p, s.procs[i]? = some p → Stage f p.call p.prog ∨ p.prog.Uses (DeleteRequest f)

section Racing
variable {cfg : ServerConfig V} {f : File} {s : ServicePool V}

theorem Racing.spawn (h : Racing f s) {c : Call V} (hc : c.saves f ∨ c.deletes f) :
    Racing f ⟨s.world, s.procs ++ [⟨c, c.body⟩]⟩ := by
  have hbody : ∀ v row, c.body ≠ writing f v row := by
    rcases hc with hc | hc
    · exact body_ne_writing hc
    · exact ne_writing_of_uses (uses_delete hc)
  refine ⟨h.toReserved.spawn hbody, h.tidy, fun i p hi => ?_⟩
  rcases System.getElem?_concat hi with ⟨hi, -⟩ | ⟨rfl, -⟩
  · exact h.calls i p hi
  · exact hc.imp .start uses_delete

theorem Racing.save (h : Racing f s) {i : ℕ} {p : Proc (Req V) Ans Err (Reply V) (Call V)}
    (hi : s.procs[i]? = some p) (hp : Stage f p.call p.prog) (x : Server.Weather) :
    Racing f ⟨(p.prog.step (exec cfg x) s.world).2,
      s.procs.set i ⟨p.call, (p.prog.step (exec cfg x) s.world).1⟩⟩ := by
  have hs := saves_of_stage hp cfg x fun v row hw => h.vacant i p v row hi hw
  refine ⟨h.toReserved.step hi hs, h.tidy.saves hs fun v row hw => h.below i p v row hi hw, fun j q hj => ?_⟩
  rcases System.getElem?_set_cases hj with ⟨-, rfl⟩ | ⟨-, hj'⟩
  · exact .inl (saves_stage hs hp)
  · exact h.calls j q hj'

/-- What a request of a delete leaves of the store. -/
theorem DeleteRequest.effect {q : Req V} (hq : DeleteRequest f q) (cfg : ServerConfig V) (σ : Store V) :
    (exec cfg .fair q σ).2 = σ ∨
      (∃ v : ℕ, q = .remove (f.rowKey v) ∧
        ∀ key, (exec cfg .fair q σ).2.get key = if key = f.rowKey v then none else σ.get key) ∨
      q = .remove f.headKey ∧
        ∀ key, (exec cfg .fair q σ).2.get key = if key = f.headKey then none else σ.get key := by
  cases hq with
  | query => exact .inl rfl
  | row v => exact .inr (.inl ⟨v, rfl, fun key => Server.exec_remove_get _ key σ⟩)
  | head => exact .inr (.inr ⟨rfl, fun key => Server.exec_remove_get _ key σ⟩)

/-- Fewer records under an unchanged counter keep the reservations. -/
theorem Reserved.shrink (h : Reserved f s) {i : ℕ} {c : Call V} {p' : Service V (Reply V)} {σ' : Store V}
    (hp' : ∀ v row, p' ≠ writing f v row) (hcounter : counter f σ' = counter f s.world)
    (hkeys : ∀ key, σ'.get key = s.world.get key ∨ σ'.get key = none) :
    Reserved f ⟨σ', s.procs.set i ⟨c, p'⟩⟩ := by
  refine h.replace (fun j q v row _ hj hq => ⟨?_, ?_⟩) (fun v row hw => absurd hw (hp' v row))
    fun v r hr => ?_
  · rw [hcounter]
    exact h.below j q v row hj hq
  · rcases hkeys (f.rowKey v) with heq | heq <;> rw [heq]
    exact h.vacant j q v row hj hq
  · rcases hkeys (f.rowKey v) with heq | heq <;> rw [heq] at hr
    · rw [hcounter]
      exact h.rows v r hr
    · cases hr

theorem Racing.delete (h : Racing f s) {i : ℕ} {p : Proc (Req V) Ans Err (Reply V) (Call V)}
    (hi : s.procs[i]? = some p) (hp : p.prog.Uses (DeleteRequest f))
    (hclear : System.next s i = some (.remove f.headKey) → Cleared f s) :
    Racing f ⟨(p.prog.step (exec cfg .fair) s.world).2,
      s.procs.set i ⟨p.call, (p.prog.step (exec cfg .fair) s.world).1⟩⟩ := by
  have hcalls : ∀ {p' : Service V (Reply V)}, p'.Uses (DeleteRequest f) → ∀ (j : ℕ) q,
      (s.procs.set i ⟨p.call, p'⟩)[j]? = some q → Stage f q.call q.prog ∨ q.prog.Uses (DeleteRequest f) :=
    fun hp' j q hj => by
      rcases System.getElem?_set_cases hj with ⟨-, rfl⟩ | ⟨-, hj'⟩
      · exact .inr hp'
      · exact h.calls j q hj'
  obtain ⟨c, prog⟩ := p
  cases prog with
  | ret a =>
    exact ⟨h.toReserved.shrink (fun v row hw => nomatch hw) rfl fun _ => .inl rfl, h.tidy, hcalls trivial⟩
  | raise e =>
    exact ⟨h.toReserved.shrink (fun v row hw => nomatch hw) rfl fun _ => .inl rfl, h.tidy, hcalls trivial⟩
  | ask q k =>
    have hnext : System.next s i = some q := by simp [System.next, hi]
    obtain ⟨hq, hk⟩ := hp
    rw [Prog.step_ask]
    generalize hans : (exec cfg .fair q s.world).1 = ans
    have hp' : ∀ v row, k ans ≠ writing f v row := ne_writing_of_uses (hk ans)
    rcases hq.effect cfg s.world with hσ | ⟨v, rfl, hσ⟩ | ⟨rfl, hσ⟩
    · rw [hσ]
      exact ⟨h.toReserved.shrink hp' rfl fun _ => .inl rfl, h.tidy, hcalls (hk ans)⟩
    · have hkeys : ∀ key, (exec cfg .fair (.remove (f.rowKey v)) s.world).2.get key = s.world.get key ∨
          (exec cfg .fair (.remove (f.rowKey v)) s.world).2.get key = none := fun key => by
        rw [hσ]
        split_ifs
        · exact .inr rfl
        · exact .inl rfl
      have hhead : (exec cfg .fair (.remove (f.rowKey v)) s.world).2.get f.headKey =
          s.world.get f.headKey := by rw [hσ, if_neg (Ne.symm File.rowKey_ne_headKey)]
      exact ⟨h.toReserved.shrink hp' (counter_congr hhead) hkeys, h.tidy.shrink hhead hkeys, hcalls (hk ans)⟩
    · -- the counter goes, and there is nothing that it was needed for
      have hcleared := hclear hnext
      have hrow : ∀ v : ℕ, (exec cfg .fair (.remove f.headKey) s.world).2.get (f.rowKey v) = none := fun v => by
        rw [hσ, if_neg File.rowKey_ne_headKey]
        exact hcleared.rows v
      refine ⟨h.toReserved.replace (fun j q v row _ hj hq => absurd hq (hcleared.held j q v row hj))
        (fun v row hw => absurd hw (hp' v row)) fun v r hr => ?_, ⟨fun r hr => ?_, fun v r hr => ?_,
          fun key r hr hlist => ?_⟩, hcalls (hk ans)⟩
      · rw [hrow] at hr
        cases hr
      · rw [hσ, if_pos rfl] at hr
        cases hr
      · rw [hrow] at hr
        cases hr
      · rw [hσ] at hr
        split_ifs at hr
        obtain ⟨v, rfl, -⟩ := h.tidy.listed key r hr hlist
        rw [hcleared.rows v] at hr
        cases hr

theorem Racing.of_reach {s₀ : ServicePool V} (h₀ : Racing f s₀)
    (hs : (service cfg).Reach (ClearedFirst f) s₀ s) : Racing f s := by
  refine hs.invariant h₀ fun s a h ha => ?_
  cases a with
  | spawn c => exact h.spawn ha.1
  | step i x =>
    obtain rfl : x = .fair := ha.1
    cases hi : s.procs[i]? with
    | none =>
      rw [System.act_step_none _ hi]
      exact h
    | some p =>
      rw [System.act_step _ hi]
      rcases h.calls i p hi with hp | hp
      · exact h.save hi hp .fair
      · exact h.delete hi hp (ha.2 i .fair rfl)

theorem racing_start {σ : Store V} (h : Tidy f σ) : Racing f ⟨σ, []⟩ where
  below _ _ _ _ hi := nomatch hi
  vacant _ _ _ _ hi := nomatch hi
  apart _ _ _ _ _ _ _ _ hi := nomatch hi
  rows := h.below
  tidy := h
  calls _ _ hi := nomatch hi

end Racing

/-- However saves and deletes of one file are interleaved, if the counter is removed
only when no version is stored and none is held by a save, then a further save run
alone returns, and loading the file then returns what it has saved. -/
theorem further_save_is_loaded (cfg : ServerConfig V) (hcfg : cfg.HeadsFit) (f : File) (σ₀ : Store V)
    (h₀ : Tidy f σ₀) (s : ServicePool V) (hs : (service cfg).Reach (ClearedFirst f) ⟨σ₀, []⟩ s)
    (c : Call V) (hc : c.saves f) (row : Record V) (hrow : c.row f (counter f s.world) = some row)
    (hfits : cfg.fits row) (sessionId : Option Str)
    (hscope : artifactScopeId f.filename sessionId = some f.scope) :
    ∃ v σ', perform cfg c s.world = (.ok (.version v), σ') ∧
      perform cfg (.load f.app f.user f.filename sessionId none) σ' = (loaded (some row), σ') := by
  have h := (racing_start h₀).of_reach hs
  obtain ⟨σ', hsave, hsaved⟩ := h.tidy.perform_save hcfg hc hrow hfits
  obtain ⟨hlist, hver⟩ := row_listedFor hrow
  have hmax : (versionsOf cfg f σ').max? = some (counter f s.world) :=
    (h.tidy.saved hsaved hver).max_versionsOf (counter_of_saved hsaved) hsaved.row hlist
  refine ⟨_, σ', hsave, perform_load hscope ?_⟩
  rw [alone_getRecord_none, hmax, Option.bind_some, hsaved.row]

namespace Small

def delete : Call ℕ := .delete ['a'] ['u'] ['f'] (some ['s'])

theorem delete_deletes : (delete).deletes file := ⟨rfl, rfl, rfl, rfl⟩

theorem headsFit : cfg.HeadsFit := fun _ => rfl

/-- A save and a delete one after the other. -/
def turn : List (Action (Call ℕ) Server.Weather) :=
  [.spawn (save ['b']), .step 0 .fair, .step 0 .fair, .spawn delete, .step 1 .fair, .step 1 .fair,
    .step 1 .fair]

/-- A save has been given a version when a delete begins, and writes its record when
the delete has ended. -/
def overtaken : List (Action (Call ℕ) Server.Weather) :=
  [.spawn (save ['b']), .step 0 .fair, .step 0 .fair, .spawn (save ['c']), .step 1 .fair, .spawn delete,
    .step 2 .fair, .step 2 .fair, .step 2 .fair, .step 1 .fair]

theorem reach_turn : (service cfg).Reach (ClearedFirst file) ⟨∅, []⟩ ((service cfg).run turn ⟨∅, []⟩) := by
  have hspawn : ∀ {s : ServicePool ℕ} {c : Call ℕ}, c.saves file ∨ c.deletes file →
      ClearedFirst file s (.spawn c) := fun hc => ⟨hc, fun _ _ h => nomatch h⟩
  have hstep : ∀ {s : ServicePool ℕ} {i : ℕ} {q : Req ℕ}, System.next s i = some q →
      q ≠ .remove file.headKey → ClearedFirst file s (.step i .fair) := fun hq hne =>
    ⟨rfl, fun j x hj hnext => by
      cases hj
      rw [hq] at hnext
      exact absurd (Option.some.inj hnext) hne⟩
  refine System.reach_run ⟨hspawn (.inl (save_saves _)), hstep rfl (fun h => nomatch h),
    hstep rfl (fun h => nomatch h), hspawn (.inr delete_deletes), hstep rfl (fun h => nomatch h),
    hstep rfl ?_, ⟨rfl, fun _ _ _ _ => ⟨fun v => ?_, fun i p v row hi => ?_⟩⟩, trivial⟩
  · have hne : file.rowKey (0 : ℕ) ≠ file.headKey := File.rowKey_ne_headKey
    exact fun h => hne (Server.Req.remove.inj h)
  · change (FMap.set ∅ file.headKey (some ({ ver := some 1 } : Record ℕ))).get (file.rowKey v) = none
    rw [FMap.get_set, if_neg File.rowKey_ne_headKey]
    rfl
  · match i with
    | 0 =>
      cases hi
      exact fun h => nomatch h
    | 1 =>
      cases hi
      exact fun h => nomatch h
    | n + 2 => cases hi

theorem reach_overtaken :
    (service cfg).Reach (SavesAndDeletes file) ⟨∅, []⟩ ((service cfg).run overtaken ⟨∅, []⟩) := by
  refine System.reach_run (System.permitted_of_forall fun a ha s => ?_)
  simp only [overtaken, List.mem_cons, List.not_mem_nil, or_false] at ha
  rcases ha with rfl | rfl | rfl | rfl | rfl | rfl | rfl | rfl | rfl | rfl
  all_goals first | rfl | exact .inl (save_saves _) | exact .inr delete_deletes

end Small

open Artifacts.Small in
theorem further_save_is_loaded_small :
    ∃ v σ', perform cfg (save ['d']) ((service cfg).run turn ⟨∅, []⟩).world = (.ok (.version v), σ') ∧
      perform cfg (.load ['a'] ['u'] ['f'] (some ['s']) none) σ' =
        (.ok (.part (some { inlineData := some ⟨some ['d'], some ByteArray.empty⟩ })), σ') :=
  further_save_is_loaded cfg headsFit file ∅ (tidy_empty file) _ reach_turn (save ['d']) (save_saves _) _ rfl
    rfl (some ['s']) rfl

open Artifacts.Small in
/-- A further save gets the first version again and is hidden behind the record of the
save that was overtaken; the one after it does not return. -/
theorem overtaken_save_hides_later_saves :
    (service cfg).Reach (SavesAndDeletes file) ⟨∅, []⟩ ((service cfg).run overtaken ⟨∅, []⟩) ∧
    (∀ p ∈ ((service cfg).run overtaken ⟨∅, []⟩).procs, p.prog.finished) ∧
    ∃ σ' σ'', perform cfg (save ['d']) ((service cfg).run overtaken ⟨∅, []⟩).world =
        (.ok (.version 0), σ') ∧
      perform cfg (.load ['a'] ['u'] ['f'] (some ['s']) none) σ' =
        (.ok (.part (some { inlineData := some ⟨some ['c'], some ByteArray.empty⟩ })), σ') ∧
      perform cfg (save ['e']) σ' = (.error (.server .recordExists), σ'') := by
  refine ⟨reach_overtaken, ?_, _, _, rfl, rfl, rfl⟩
  decide

end AdkAerospike.Artifacts
