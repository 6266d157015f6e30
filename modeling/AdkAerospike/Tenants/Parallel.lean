import AdkAerospike.Tenants
import AdkAerospike.Artifacts.Archive

/-! Users whose calls overlap. Each user makes one call after the other, and the calls of
different users are interleaved request by request. As nothing of a user is seen by another,
every call returns what it returns when the calls of its user are all there are. -/

namespace AdkAerospike

open Program Data Keys Server

variable {V : Type}

/-- A user whose ids hold no separator. -/
abbrev User := { u : Str × Str // Plain u.1 ∧ Plain u.2 }

theorem User.apart {o o' : User} (h : o' ≠ o) : (tenant o'.1.1 o'.1.2).Apart (tenant o.1.1 o.1.2) :=
  tenant_apart o'.2.1 o.2.1 o'.2.2 o.2.2 fun heq => h (Subtype.ext heq)

/-! ### The artifact service -/

namespace Artifacts

section Parallel
variable {cfg : ServerConfig V}

def ownedBy (o : User) (c : Call V) : Prop := c.madeFor o.1.1 o.1.2

instance (o : User) : DecidablePred (ownedBy o : Call V → Prop)
  | .save .. | .load .. | .listKeys .. | .delete .. => inferInstanceAs (Decidable (_ ∧ _))
  | .listVersions .. | .listArtifactVersions .. | .getArtifactVersion .. => inferInstanceAs (Decidable (_ ∧ _))

theorem slices (cfg : ServerConfig V) (x : Weather) :
    (service cfg).Slices x ownedBy (fun o => Req.Within cfg.table (tenant o.1.1 o.1.2)) (fun _ _ => Eq) (fun _ => True)
      fun o σ σ' => cfg.table.Filed (tenant o.1.1 o.1.2) σ ∧ cfg.table.Alike (tenant o.1.1 o.1.2) σ σ' where
  heeds hc := (Call.madeFor.within hc).heeds
  own _ hq _ h :=
    ⟨(h.2.exec x hq).1, exec_filed (stable_table cfg) x h.1 hq (.inl rfl), (h.2.exec x hq).2⟩
  other ho _ hq _ h :=
    ⟨exec_filed (stable_table cfg) x h.1 hq (.inr (User.apart ho)),
      (exec_unseen (stable_table cfg) x h.1 hq (User.apart ho)).symm.trans h.2⟩

theorem alone_eq_perform (cfg : ServerConfig V) : (service cfg).alone .fair = perform cfg := rfl

/-- However the calls of the users are interleaved, each call that has ended has returned
what an archive of its user alone answers, times, metadata and addresses included. -/
theorem parallel_users_match_archive (hcfg : cfg.HeadsFit) (s : ServicePool V)
    (hs : (service cfg).Reach ((service cfg).Turns .fair ownedBy fun _ => True) ⟨∅, []⟩ s) (o : User)
    (hsupported : ∀ c ∈ s.calls, ownedBy o c → c.Supported cfg) (i : ℕ)
    (p : Proc (Req V) Ans Err (Reply V) (Call V)) (r : Except Err (Reply V))
    (hi : (System.ownCalls ownedBy o s)[i]? = some p) (hr : p.prog.outcome = some r) :
    (outputs Call.archived (s.calls.filter fun c => ownedBy o c) ∅)[i]? = some r := by
  have hcalls : ∀ c ∈ s.calls.filter fun c => ownedBy o c, c.Supported cfg := fun c hc => by
    obtain ⟨hmem, hown⟩ := List.mem_filter.mp hc
    exact hsupported c hmem (by simpa using hown)
  have halone := (slices cfg .fair).outcome hs rfl (fun _ => ∅)
    (fun _ => ⟨fun _ _ _ h => (nomatch h), .refl _ _ _⟩) hi hr
  rw [alone_eq_perform, outputs_archived hcfg hcalls] at halone
  exact halone

end Parallel

namespace Small

/-- Two users save files of the same name at the same time, then one of them reads. -/
def sideBySide : ServicePool ℕ :=
  (service cfg).run [.spawn (save ['b']), .spawn (.save ['a'] ['v'] ['f'] { text := some ['y'] } (some ['s']) none 3),
    .step 0 .fair, .step 1 .fair, .step 1 .fair, .step 0 .fair,
    .spawn (.getArtifactVersion ['a'] ['u'] ['f'] (some ['s']) none), .step 2 .fair, .step 2 .fair] ⟨∅, []⟩

def user : User := ⟨(['a'], ['u']), by decide, by decide⟩

theorem reach_sideBySide :
    (service cfg).Reach ((service cfg).Turns .fair ownedBy fun _ => True) ⟨∅, []⟩ sideBySide := by
  have hother : (['v'] : Str) ≠ ['u'] := by decide
  refine System.reach_run ⟨⟨fun o _ p hp => ?_, .inl ⟨user, rfl, rfl⟩⟩,
    ⟨fun o ho p hp hown => ?_, .inl ⟨⟨(['a'], ['v']), by decide, by decide⟩, rfl, rfl⟩⟩, ⟨rfl, trivial⟩, ⟨rfl, trivial⟩,
    ⟨rfl, trivial⟩, ⟨rfl, trivial⟩, ⟨fun o ho p hp hown => ?_, .inl ⟨user, rfl, rfl⟩⟩, ⟨rfl, trivial⟩, ⟨rfl, trivial⟩,
    trivial⟩
  · cases hp
  · rw [List.mem_singleton.mp hp] at hown
    exact absurd (ho.2.trans hown.2.symm) hother
  · rcases List.mem_pair.mp hp with rfl | rfl <;> rfl

end Small

open Artifacts.Small in
theorem parallel_users_match_archive_small :
    (outputs Call.archived [save ['b'], .getArtifactVersion ['a'] ['u'] ['f'] (some ['s']) none] ∅)[1]? =
      some (.ok (.artifactVersion (some ⟨0, File.uri ⟨['a'], ['u'], ['s'], ['f']⟩ 0, ∅, 0, some ['b']⟩))) :=
  parallel_users_match_archive (fun _ => rfl) sideBySide reach_sideBySide user (fun c hc hown => by
    have hother : (['v'] : Str) ≠ ['u'] := by decide
    change c ∈ [_, _, _] at hc
    simp only [List.mem_cons, List.not_mem_nil, or_false] at hc
    rcases hc with rfl | rfl | rfl
    · exact ⟨by decide, by decide, plainSession, fun f v => ⟨_, rfl, rfl⟩⟩
    · exact absurd hown.2 hother
    · exact ⟨by decide, by decide, plainSession⟩) 1 _ _ rfl rfl

end Artifacts

/-! ### Both services -/

namespace Tenants

section Parallel
variable {cfg : Config V}

def ownedBy (o : User) (c : Call V) : Prop := c.madeFor o.1.1 o.1.2

instance (o : User) : DecidablePred (ownedBy o : Call V → Prop)
  | .artifact c => inferInstanceAs (Decidable (Artifacts.ownedBy o c))
  | .memory _ (.addSession ..) | .memory _ (.addEvents ..) | .memory _ (.search ..) =>
    inferInstanceAs (Decidable (_ ∧ _))

theorem slices (cfg : Config V) (x : Weather) :
    (services cfg).Slices x ownedBy (fun o => Within cfg o.1.1 o.1.2) (fun _ _ => Eq) (fun _ => True)
      fun o w w' => Filed cfg o.1.1 o.1.2 w ∧ Alike cfg o.1.1 o.1.2 w w' where
  heeds hc := (Call.madeFor.within hc).heeds
  own _ hq _ h := ⟨(alike_exec x h.2 hq).1, filed_exec x h.1 hq (.inl rfl), (alike_exec x h.2 hq).2⟩
  other ho _ hq _ h := by
    have hunseen := alike_exec_of_apart x h.1 hq (User.apart ho)
    exact ⟨filed_exec x h.1 hq (.inr (User.apart ho)), hunseen.1.symm.trans h.2.1, hunseen.2.symm.trans h.2.2⟩

/-- However the calls of the users are interleaved, each call of either service that has
ended has returned what it returns when the calls of its user alone are made, one after
the other. -/
theorem parallel_users_unaffected (cfg : Config V) (x : Weather) (s : ServicesPool V)
    (hs : (services cfg).Reach ((services cfg).Turns x ownedBy fun _ => True) ⟨(∅, ∅), []⟩ s) (o : User) (i : ℕ)
    (p : Proc (Req V) Ans Err (Reply V) (Call V)) (r : Except Err (Reply V))
    (hi : (System.ownCalls ownedBy o s)[i]? = some p) (hr : p.prog.outcome = some r) :
    (outputs (perform cfg x) (s.calls.filter fun c => ownedBy o c) (∅, ∅))[i]? = some r :=
  (slices cfg x).outcome hs rfl (fun _ => (∅, ∅))
    (fun _ => ⟨⟨fun _ _ _ h => (nomatch h), fun _ _ _ h => (nomatch h)⟩, .refl _ _ _, .refl _ _ _⟩) hi hr

end Parallel

namespace Small

/-- One user saves a file while another one's memories are written. -/
def sideBySide : ServicesPool ℕ :=
  (services cfg).run [.spawn (.memory inst (.addEvents ['a'] ['v'] [event] (some ['s']))), .step 0 .fair,
    .spawn (.artifact (Artifacts.Small.save ['b'])), .step 1 .fair, .step 0 .fair, .step 0 .fair, .step 1 .fair,
    .step 0 .fair] ⟨(∅, ∅), []⟩

def users : User × User := (⟨(['a'], ['u']), by decide, by decide⟩, ⟨(['a'], ['v']), by decide, by decide⟩)

theorem reach_sideBySide :
    (services cfg).Reach ((services cfg).Turns .fair ownedBy fun _ => True) ⟨(∅, ∅), []⟩ sideBySide := by
  have hother : (['v'] : Str) ≠ ['u'] := by decide
  refine System.reach_run ⟨⟨fun o _ p hp => ?_, .inl ⟨users.2, rfl, rfl⟩⟩, ⟨rfl, trivial⟩,
    ⟨fun o ho p hp hown => ?_, .inl ⟨users.1, rfl, rfl⟩⟩, ⟨rfl, trivial⟩, ⟨rfl, trivial⟩, ⟨rfl, trivial⟩,
    ⟨rfl, trivial⟩, ⟨rfl, trivial⟩, trivial⟩
  · cases hp
  · rw [List.mem_singleton.mp hp] at hown
    exact absurd (hown.2.trans ho.2.symm) hother

end Small

open Tenants.Small in
theorem parallel_users_unaffected_small :
    (outputs (perform cfg .fair) [.artifact (Artifacts.Small.save ['b'])] (∅, ∅))[0]? =
      some (.ok (.inl (.version 0))) :=
  parallel_users_unaffected cfg .fair sideBySide reach_sideBySide users.1 0 _ _ rfl rfl

end Tenants

end AdkAerospike
