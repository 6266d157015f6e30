import AdkAerospike.Server.Parties
import AdkAerospike.Artifacts.Files

/-! The requests of the artifact calls. All of them name the user's own keys and values;
records are created as versions only, and the counter of a file is touched by the calls
that save or delete it. -/

namespace AdkAerospike.Artifacts

open Program Data Keys

variable {V : Type}

theorem stable_table (cfg : ServerConfig V) : cfg.table.Stable where
  blank := rfl
  merge _ _ := rfl
  apply ops r := Server.index_foldl Record.aus (fun x op => by cases op <;> rfl) ops (r, none)

/-- The requests of a user's calls that touch the counters in `counts`. -/
inductive Asked (app user : Str) (counts : File → Prop) : Req V → Prop
  | query (scope : Str) : Asked app user counts (.query (scopeTuple app user scope))
  | get (scope filename : Str) (v : ℤ) : Asked app user counts (.get (artifactKey app user scope filename v))
  | create (scope filename : Str) (v : ℤ) (row : Record V) (haus : row.aus = some (scopeTuple app user scope)) :
      Asked app user counts (.create (artifactKey app user scope filename v) row)
  | remove (scope filename : Str) (v : ℤ) :
      Asked app user counts (.remove (artifactKey app user scope filename v))
  | allocate (scope filename : Str) (h : counts ⟨app, user, scope, filename⟩) :
      Asked app user counts (.operate (artifactHeadKey app user scope filename) allocation)
  | removeHead (scope filename : Str) (h : counts ⟨app, user, scope, filename⟩) :
      Asked app user counts (.remove (artifactHeadKey app user scope filename))

section Asks
variable {app user scope filename : Str} {counts : File → Prop}

/-- Every request of the program is one of these. -/
abbrev Asks {α : Type} (app user : Str) (counts : File → Prop) (p : Service V α) : Prop :=
  p.Uses (Asked app user counts)

theorem uses_answer {α : Type} {F : Req V → Prop} (x : Except Server.Err α) : (answer x : Service V α).Uses F := by
  cases x <;> trivial

theorem uses_ofExcept {α : Type} {F : Req V → Prop} (x : Except Err α) : (ofExcept x : Service V α).Uses F := by
  cases x <;> trivial

theorem uses_unlessNotFound {α : Type} {F : Req V → Prop} {p h : Service V α} (hp : p.Uses F) (hh : h.Uses F) :
    (unlessNotFound p h).Uses F := hp.tryCatch fun e => by
  split_ifs
  · exact hh
  · trivial

/-- What follows the choice of a scope may use that it is the scope of the file. -/
theorem uses_scopeId {α : Type} {F : Req V → Prop} {sessionId : Option Str} {k : Str → Service V α}
    (hk : ∀ scope, artifactScopeId filename sessionId = some scope → (k scope).Uses F) :
    ((scopeId filename sessionId).bind k).Uses F := by
  unfold scopeId
  cases hscope : artifactScopeId filename sessionId with
  | none => trivial
  | some scope => exact hk scope hscope

theorem asks_query : Asks app user counts (query (scopeTuple app user scope) : Service V _) :=
  ⟨.query scope, uses_answer⟩

theorem asks_rowsFor : Asks app user counts (rowsFor app user scope filename : Service V _) :=
  asks_query.bind fun _ => trivial

theorem asks_versionsFor : Asks app user counts (versionsFor app user scope filename : Service V _) :=
  asks_rowsFor.bind fun _ => trivial

theorem asks_filenamesFor : Asks app user counts (filenamesFor app user scope : Service V _) :=
  asks_query.bind fun records => by
    split <;> trivial

theorem asks_getVersion (version : ℤ) :
    Asks app user counts (getVersion app user scope filename version : Service V _) :=
  uses_unlessNotFound (Prog.Uses.bind ⟨.get scope filename version, uses_answer⟩ fun _ => trivial) trivial

theorem asks_getRecord (version : Option ℤ) :
    Asks app user counts (getRecord app user scope filename version : Service V _) := by
  cases version with
  | some v => exact asks_getVersion v
  | none =>
    refine asks_versionsFor.bind fun versions => ?_
    split
    · trivial
    · exact asks_getVersion _

theorem asks_removeVersions (vs : List ℕ) :
    Asks app user counts (removeVersions app user scope filename vs : Service V _) := by
  induction vs with
  | nil => trivial
  | cons v vs ih =>
    exact Prog.Uses.bind (uses_unlessNotFound ⟨.remove scope filename v, uses_answer⟩ trivial) fun _ => ih

theorem asks_save (part : Part) (sessionId : Option Str) (customMetadata : Option (Dict V)) (now : ℚ)
    (hcounts : ∀ scope, artifactScopeId filename sessionId = some scope → counts ⟨app, user, scope, filename⟩) :
    Asks app user counts (saveArtifact app user filename part sessionId customMetadata now) := by
  refine uses_scopeId fun scope hscope => ?_
  refine Prog.Uses.bind (Prog.Uses.bind ⟨.allocate scope filename (hcounts scope hscope), uses_answer⟩
    fun _ => trivial) fun version => ?_
  refine (uses_ofExcept _).bind fun mime => ?_
  refine (uses_ofExcept _).bind fun data => ?_
  exact Prog.Uses.bind ⟨.create scope filename version _ rfl, uses_answer⟩ fun _ => trivial

theorem asks_load (sessionId : Option Str) (version : Option ℤ) :
    Asks app user counts (loadArtifact app user filename sessionId version : Service V _) := by
  refine uses_scopeId fun scope _ => ?_
  refine (asks_getRecord version).bind fun r => ?_
  cases r with
  | none => trivial
  | some r => exact (uses_ofExcept _).bind fun _ => trivial

theorem asks_listKeys (sessionId : Option Str) :
    Asks app user counts (listArtifactKeys app user sessionId : Service V _) := by
  refine asks_filenamesFor.bind fun shared => ?_
  cases sessionId with
  | none => trivial
  | some session => exact asks_filenamesFor.bind fun _ => trivial

theorem asks_delete (sessionId : Option Str)
    (hcounts : ∀ scope, artifactScopeId filename sessionId = some scope → counts ⟨app, user, scope, filename⟩) :
    Asks app user counts (deleteArtifact app user filename sessionId : Service V _) := by
  refine uses_scopeId fun scope hscope => ?_
  refine asks_versionsFor.bind fun versions => ?_
  refine (asks_removeVersions versions).bind fun _ => ?_
  exact uses_unlessNotFound ⟨.removeHead scope filename (hcounts scope hscope), uses_answer⟩ trivial

theorem asks_listVersions (sessionId : Option Str) :
    Asks app user counts (listVersions app user filename sessionId : Service V _) :=
  uses_scopeId fun _ _ => asks_versionsFor.bind fun _ => trivial

theorem asks_listArtifactVersions (sessionId : Option Str) :
    Asks app user counts (listArtifactVersions app user filename sessionId : Service V _) :=
  uses_scopeId fun _ _ => asks_rowsFor.bind fun _ => trivial

theorem asks_getArtifactVersion (sessionId : Option Str) (version : Option ℤ) :
    Asks app user counts (getArtifactVersion app user filename sessionId version : Service V _) :=
  uses_scopeId fun _ _ => (asks_getRecord version).bind fun _ => trivial

end Asks

def Call.madeFor (app user : Str) : Call V → Prop
  | .save app' user' .. | .load app' user' .. | .listKeys app' user' .. | .delete app' user' .. =>
    app' = app ∧ user' = user
  | .listVersions app' user' .. | .listArtifactVersions app' user' .. | .getArtifactVersion app' user' .. =>
    app' = app ∧ user' = user

/-- The counters that a call touches are those of the files that it saves or deletes. -/
theorem Call.madeFor.asks {app user : Str} {c : Call V} (hc : c.madeFor app user) :
    Asks app user (fun f => c.saves f ∨ c.deletes f) c.body := by
  cases c <;> obtain ⟨rfl, rfl⟩ := hc
  case save =>
    exact (asks_save _ _ _ _ fun scope hscope => .inl ⟨rfl, rfl, rfl, hscope⟩).bind fun _ => trivial
  case load => exact (asks_load _ _).bind fun _ => trivial
  case listKeys => exact (asks_listKeys _).bind fun _ => trivial
  case delete =>
    exact (asks_delete _ fun scope hscope => .inr ⟨rfl, rfl, rfl, hscope⟩).bind fun _ => trivial
  case listVersions => exact (asks_listVersions _).bind fun _ => trivial
  case listArtifactVersions => exact (asks_listArtifactVersions _).bind fun _ => trivial
  case getArtifactVersion => exact (asks_getArtifactVersion _ _).bind fun _ => trivial

end AdkAerospike.Artifacts
