import AdkAerospike.Program.Contract
import AdkAerospike.Server.Legal
import AdkAerospike.Server.Parties
import AdkAerospike.Data.Split
import AdkAerospike.Artifacts.Footprint
import AdkAerospike.Artifacts.Parts
import AdkAerospike.Artifacts.Concurrent

/-! What the calls raise, whatever else is going on. A record that has an index value has a
file name, so listing never misses one; a record that is missing is never an error; and what
is read back as text is text, but for inline data that was called plain text and is none. -/

namespace AdkAerospike.Artifacts

open Program Data Keys

variable {V : Type}

/-! ### What is to be blamed -/

/-- The call names a file that belongs to a session, and no session. -/
def Call.scopeless : Call V → Prop
  | .save _ _ filename _ sessionId _ _ | .load _ _ filename sessionId _ | .delete _ _ filename sessionId
  | .listVersions _ _ filename sessionId | .listArtifactVersions _ _ filename sessionId
  | .getArtifactVersion _ _ filename sessionId _ => artifactScopeId filename sessionId = none
  | .listKeys .. => False

/-- The part that is to be saved. -/
def Call.part : Call V → Option Part
  | .save _ _ _ part _ _ _ => some part
  | _ => none

def Call.loads : Call V → Prop
  | .load .. => True
  | _ => False

/-- Inline data that is called plain text and is not UTF-8. -/
def Part.Garbled (part : Part) : Prop :=
  ∃ blob, part.inlineData = some blob ∧ blob.mimeType = some textPlain ∧ ¬ (blob.data.getD ByteArray.empty).IsValidUTF8

/-- One of the calls is to save such a part. -/
def Tainted (cs : List (Call V)) : Prop := ∃ c ∈ cs, ∃ part, c.part = some part ∧ part.Garbled

/-- What a call may raise when the calls `cs` are made: the error of a fault, and for a
reason of its own no more than this. -/
def MayRaise (cs : List (Call V)) (c : Call V) : Err → Prop
  | .server (.status _) => True
  | .server .recordTooBig | .server .recordExists => c.part.isSome
  | .server .recordNotFound => False
  | .inputValidation message =>
    c.scopeless ∧ message = "session_id is required for non-user-scoped artifacts" ∨
      (∃ part, c.part = some part ∧ part.payload = none) ∧ message = "Not supported artifact type."
  | .unicodeDecode => c.loads ∧ Tainted cs
  | .keyError => False

/-! ### Records -/

/-- A record with an index value has a file name, and plain text is text. -/
structure Readable (cs : List (Call V)) (r : Record V) : Prop where
  fname : r.aus.isSome → r.fname.isSome
  text : r.mime = some textPlain → (r.data.getD ByteArray.empty).IsValidUTF8 ∨ Tainted cs

section Records
variable {cfg : ServerConfig V} {cs : List (Call V)}

theorem closed_readable (cfg : ServerConfig V) (cs : List (Call V)) : cfg.table.Closed (Readable cs) where
  blank := ⟨fun h => (nomatch h), fun h => (nomatch h)⟩
  merge _ h := h
  apply ops r h := by
    have hact : ∀ (x : Record V × Option ℕ) op, some ({ (Op.act x op).1 with ver := none } : Record V) =
        some { x.1 with ver := none } := fun x op => by cases op <;> rfl
    have hsame := Option.some.inj (Server.index_foldl (fun r : Record V => some { r with ver := none }) hact ops (r, none))
    obtain ⟨haus, hname, hmime, hdata⟩ : (ops.foldl Op.act (r, none)).1.aus = r.aus ∧
        (ops.foldl Op.act (r, none)).1.fname = r.fname ∧ (ops.foldl Op.act (r, none)).1.mime = r.mime ∧
        (ops.foldl Op.act (r, none)).1.data = r.data := by
      simp only [Record.mk.injEq] at hsame
      tauto
    change Readable cs (ops.foldl Op.act (r, none)).1
    exact ⟨by rw [haus, hname]; exact h.fname, by rw [hmime, hdata]; exact h.text⟩

/-- What a save puts. -/
theorem readable_newRow {c : Call V} (hc : c ∈ cs) {part : Part} (hpart : c.part = some part) {mime : Option Str}
    {data : ByteArray} (hmime : mimeForPart part = .ok mime) (hdata : bytesForPart part = .ok data)
    (app user scope filename : Str) (version : ℕ) (now : ℚ) (customMetadata : Option (Dict V)) :
    Readable cs (newRow app user scope filename version mime data now customMetadata) := by
  refine ⟨fun _ => rfl, fun htext => ?_⟩
  change data.IsValidUTF8 ∨ _
  have hencoded : ∀ s : Str, (encode s).IsValidUTF8 := fun s => (String.ofList s).isValidUTF8
  obtain ⟨inline, text, file⟩ := part
  cases inline with
  | some blob =>
    obtain rfl := Except.ok.inj hdata
    by_cases hvalid : (blob.data.getD ByteArray.empty).IsValidUTF8
    · exact .inl hvalid
    · exact .inr ⟨c, hc, _, hpart, blob, rfl, (Except.ok.inj hmime).trans htext, hvalid⟩
  | none =>
    refine .inl ?_
    cases text with
    | some s =>
      obtain rfl := Except.ok.inj hdata
      exact hencoded s
    | none =>
      cases file with
      | some file =>
        obtain rfl := Except.ok.inj hdata
        exact hencoded _
      | none => cases hdata

/-! ### Contracts -/

/-- The answer is trusted to hold readable records, or an error that the request has. -/
def Fair (cfg : ServerConfig V) (cs : List (Call V)) (q : Req V) (x : Ans q) : Prop :=
  Server.Legal cfg.table (Readable cs) q x ∧
    ∀ e, Server.errorOf q x = some e → (∃ code, e = .status code) ∨ cfg.table.Refuses q e

def Fault (e : Err) : Prop := ∃ code, e = .server (.status code)

theorem Fault.mayRaise {c : Call V} {e : Err} (h : Fault e) : MayRaise cs c e := by
  obtain ⟨code, rfl⟩ := h
  trivial

/-- Whatever is answered fairly, the program ends so. -/
abbrev Gives (cfg : ServerConfig V) (cs : List (Call V)) {α : Type} (p : Service V α) (P : α → Prop) (E : Err → Prop) : Prop :=
  p.Meets (Server.Req.Puts (Readable cs)) (Fair cfg cs) (Prog.Yields P E)

section Gives
variable {α β : Type} {P : α → Prop} {P' : β → Prop} {E E' : Err → Prop} {app user scope filename : Str}

theorem Gives.bind {p : Service V α} {f : α → Service V β} (hp : Gives cfg cs p P E) (hf : ∀ a, P a → Gives cfg cs (f a) P' E) :
    Gives cfg cs (p.bind f) P' E :=
  Prog.Meets.bind hp hf fun _ he => he

theorem Gives.mono {p : Service V α} (hp : Gives cfg cs p P E) (hE : ∀ e, E e → E' e) : Gives cfg cs p P E' :=
  Prog.Meets.mono hp fun r hr => by
    cases r with
    | ok a => exact hr
    | error e => exact hE e hr

/-- A request and what is made of its answer. -/
theorem gives_answer {q : Req V} {k : Ans q → Service V α} (hq : q.Puts (Readable cs))
    (hk : ∀ x, Fair cfg cs q x → Gives cfg cs (k x) P E) : Gives cfg cs (.ask q k) P E := ⟨hq, hk⟩

theorem gives_query (aus : Str) : Gives cfg cs (query aus : Service V _)
    (fun rs => ∀ r ∈ rs, Readable cs r ∧ r.aus = some aus) Fault := by
  refine gives_answer trivial fun x hx => ?_
  cases x with
  | ok rs => exact hx.1 rs rfl
  | error e =>
    rcases hx.2 e rfl with ⟨code, rfl⟩ | hrefused
    · exact ⟨code, rfl⟩
    · cases hrefused

/-- A record that is not there is caught. -/
theorem gives_unlessNotFound {p h : Service V α} (hp : Gives cfg cs p P fun e => Fault e ∨ e = .server .recordNotFound)
    (hh : Gives cfg cs h P Fault) : Gives cfg cs (unlessNotFound p h) P Fault := by
  refine Prog.Meets.tryCatch hp (fun _ ha => ha) fun e he => ?_
  split_ifs with hnone
  · exact hh
  · exact he.resolve_right hnone

theorem gives_getVersion (v : ℤ) : Gives cfg cs (getVersion app user scope filename v : Service V _)
    (fun o => ∀ r, o = some r → Readable cs r) Fault := by
  refine gives_unlessNotFound (Gives.bind (P := Readable cs) (gives_answer trivial fun x hx => ?_) fun r hr r' hr' => ?_)
    fun r hr => by cases hr
  · cases x with
    | ok r => exact hx.1 r rfl
    | error e =>
      rcases hx.2 e rfl with ⟨code, rfl⟩ | rfl
      · exact .inl ⟨code, rfl⟩
      · exact .inr rfl
  · cases hr'
    exact hr

/-- A removal of what may be gone already. -/
theorem gives_remove (key : Str) : Gives cfg cs (unlessNotFound (remove key) (.ret ()) : Service V _) (fun _ => True) Fault := by
  refine gives_unlessNotFound (gives_answer trivial fun x hx => ?_) trivial
  cases x with
  | ok u => trivial
  | error e =>
    rcases hx.2 e rfl with ⟨code, rfl⟩ | rfl
    · exact .inl ⟨code, rfl⟩
    · exact .inr rfl

theorem gives_rowsFor : Gives cfg cs (rowsFor app user scope filename : Service V _) (fun _ => True) Fault :=
  (gives_query _).bind fun _ _ => trivial

theorem gives_versionsFor : Gives cfg cs (versionsFor app user scope filename : Service V _) (fun _ => True) Fault :=
  gives_rowsFor.bind fun _ _ => trivial

theorem gives_filenamesFor : Gives cfg cs (filenamesFor app user scope : Service V _) (fun _ => True) Fault := by
  refine (gives_query _).bind fun rs hrs => ?_
  have hnames : rs.mapM Record.fname = some (rs.map fun r => r.fname.getD []) := mapM_of_forall fun r hr => by
    obtain ⟨hreadable, haus⟩ := hrs r hr
    obtain ⟨name, hname⟩ := Option.isSome_iff_exists.mp (hreadable.fname (by rw [haus]; rfl))
    rw [hname]
    rfl
  rw [hnames]
  trivial

theorem gives_getRecord (version : Option ℤ) : Gives cfg cs (getRecord app user scope filename version : Service V _)
    (fun o => ∀ r, o = some r → Readable cs r) Fault := by
  cases version with
  | some v => exact gives_getVersion v
  | none =>
    refine gives_versionsFor.bind fun vs _ => ?_
    split
    · exact fun r hr => by cases hr
    · exact gives_getVersion _

theorem gives_removeVersions (vs : List ℕ) :
    Gives cfg cs (removeVersions app user scope filename vs : Service V _) (fun _ => True) Fault := by
  induction vs with
  | nil => trivial
  | cons v vs ih => exact (gives_remove _).bind fun _ _ => ih

end Gives

/-! ### Calls -/

section Calls
variable {c : Call V} {α β : Type} {filename : Str} {sessionId : Option Str}

theorem gives_scoped {k : Str → Service V α} {g : α → β}
    (hscope : artifactScopeId filename sessionId = none → c.scopeless)
    (hk : ∀ scope, Gives cfg cs (k scope) (fun _ => True) (MayRaise cs c)) :
    Gives cfg cs (((scopeId filename sessionId).bind k).bind fun a => .ret (g a)) (fun _ => True) (MayRaise cs c) := by
  refine Gives.bind (P := fun _ => True) ?_ fun _ _ => trivial
  unfold scopeId
  cases h : artifactScopeId filename sessionId with
  | none => exact .inl ⟨hscope h, rfl⟩
  | some scope => exact hk scope

theorem gives_save {app user : Str} {part : Part} {customMetadata : Option (Dict V)} {now : ℚ}
    (hc : Call.save app user filename part sessionId customMetadata now ∈ cs) :
    Gives cfg cs (Call.save app user filename part sessionId customMetadata now).body (fun _ => True)
      (MayRaise cs (.save app user filename part sessionId customMetadata now)) := by
  refine gives_scoped (g := Reply.version) (fun h => h) fun scope => ?_
  have hsaves : ∀ e, e = .recordTooBig ∨ e = .recordExists →
      MayRaise cs (.save app user filename part sessionId customMetadata now) (.server e) := fun e he => by
    rcases he with rfl | rfl <;> rfl
  refine Gives.bind (P := fun _ => True) (Gives.bind (P := fun _ => True) (gives_answer trivial fun x hx => ?_)
    fun _ _ => trivial) fun version _ => ?_
  · cases x with
    | ok cur => trivial
    | error e =>
      rcases hx.2 e rfl with ⟨code, rfl⟩ | rfl | ⟨hnone, -⟩
      · trivial
      · rfl
      · cases hnone
  rcases parts_cases part with ⟨mime, data, hmime, hdata⟩ | ⟨hmime, -⟩
  · rw [hmime, hdata]
    refine gives_answer (readable_newRow hc rfl hmime hdata ..) fun x hx => ?_
    cases x with
    | ok u => trivial
    | error e =>
      rcases hx.2 e rfl with ⟨code, rfl⟩ | hrefused
      · trivial
      · exact hsaves e hrefused
  · rw [hmime]
    refine .inr ⟨⟨part, rfl, ?_⟩, rfl⟩
    obtain ⟨_ | blob, _ | text, _ | file⟩ := part
    all_goals first | rfl | cases hmime

/-- A part that is read back. -/
theorem gives_partFromBins {r : Record V} (hr : Readable cs r) (hc : c.loads) :
    Gives cfg cs (ofExcept (partFromBins r)) (fun _ => True) (MayRaise cs c) := by
  by_cases htext : r.mime = some textPlain
  · rw [partFromBins_of_plain htext]
    rcases hr.text htext with hvalid | htainted
    · obtain ⟨s, hs⟩ := (decode_eq_ok_iff _).mpr hvalid
      rw [hs]
      trivial
    · unfold decode
      split
      · trivial
      · exact ⟨hc, htainted⟩
  · rw [partFromBins_of_ne htext]
    trivial

theorem gives_body (hc : c ∈ cs) : Gives cfg cs c.body (fun _ => True) (MayRaise cs c) := by
  have hfault : ∀ e, Fault e → MayRaise cs c e := fun _ h => h.mayRaise
  cases c with
  | save app user filename part sessionId customMetadata now => exact gives_save hc
  | load app user filename sessionId version =>
    refine gives_scoped (g := Reply.part) (fun h => h) fun scope => ?_
    refine ((gives_getRecord version).mono hfault).bind fun o ho => ?_
    cases o with
    | none => trivial
    | some r =>
      have hloads : (Call.load app user filename sessionId version : Call V).loads := trivial
      exact (gives_partFromBins (ho r rfl) hloads).bind fun _ _ => trivial
  | listKeys app user sessionId =>
    refine Gives.bind (P := fun _ => True) ((gives_filenamesFor.mono hfault).bind fun shared _ => ?_) fun _ _ => trivial
    cases sessionId with
    | none => trivial
    | some session => exact (gives_filenamesFor.mono hfault).bind fun _ _ => trivial
  | delete app user filename sessionId =>
    refine gives_scoped (g := fun _ => Reply.done) (fun h => h) fun scope => ?_
    refine (gives_versionsFor.mono hfault).bind fun vs _ => ?_
    exact ((gives_removeVersions vs).mono hfault).bind fun _ _ => (gives_remove _).mono hfault
  | listVersions app user filename sessionId =>
    exact gives_scoped (g := Reply.versions) (fun h => h) fun scope =>
      (gives_versionsFor.mono hfault).bind fun _ _ => trivial
  | listArtifactVersions app user filename sessionId =>
    exact gives_scoped (g := Reply.artifactVersions) (fun h => h) fun scope =>
      (gives_rowsFor.mono hfault).bind fun _ _ => trivial
  | getArtifactVersion app user filename sessionId version =>
    exact gives_scoped (g := Reply.artifactVersion) (fun h => h) fun scope =>
      ((gives_getRecord version).mono hfault).bind fun _ _ => trivial

end Calls

end Records

/-- However calls and faults fall together, and whatever the identifiers are, a call raises
the error of a fault or has a reason of its own: a session id that is missing, a part of no
supported type, a record that is too big or has been put by another save, and for a load
data that some save was given as plain text and is none. It never raises that a record was
not found, nor that a bin is missing. -/
theorem calls_raise_for_a_reason (cfg : ServerConfig V) (s : ServicePool V)
    (hs : (service cfg).Reach (fun _ _ => True) ⟨∅, []⟩ s) (i : ℕ) (c : Call V) (e : Err)
    (hi : s.procs[i]? = some ⟨c, .raise e⟩) : MayRaise s.calls c e := by
  have hserve : ∀ (c : Call V) (x : Server.Weather) (q : Req V) (σ : Store V), q.Puts (Readable s.calls) →
      Server.All (Readable s.calls) σ →
      Fair cfg s.calls q (exec cfg x q σ).1 ∧ Server.All (Readable s.calls) (exec cfg x q σ).2 := fun _ x q σ hq h =>
    ⟨⟨h.legal q x, fun _ he => Server.refuses_of_errorOf cfg.table x q σ he⟩, h.exec (closed_readable cfg s.calls) hq x⟩
  have hmeets := ((hs.calling (List.Subset.refl _)).meets (I := Server.All (Readable s.calls))
    (fun _ c hc => gives_body (hc.2 c rfl)) hserve (fun _ _ h => nomatch h) rfl).2 i _ hi
  exact hmeets

namespace Small

/-- Inline data that is called plain text is saved, and loaded again. -/
def garbled : ServicePool ℕ :=
  (service cfg).run [.spawn (.save ['a'] ['u'] ['f'] { inlineData := some ⟨some textPlain, some ⟨#[255]⟩⟩ } (some ['s']) none 0),
    .step 0 .fair, .step 0 .fair, .spawn (.load ['a'] ['u'] ['f'] (some ['s']) (some 0)), .step 1 .fair] ⟨∅, []⟩

end Small

open Artifacts.Small in
theorem calls_raise_for_a_reason_garbled :
    MayRaise garbled.calls (.load ['a'] ['u'] ['f'] (some ['s']) (some 0)) .unicodeDecode :=
  calls_raise_for_a_reason cfg garbled (System.reach_run (System.permitted_of_forall fun _ _ _ => trivial)) 1 _ _ rfl

end AdkAerospike.Artifacts
