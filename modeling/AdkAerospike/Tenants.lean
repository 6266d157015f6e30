import AdkAerospike.Program.Sum
import AdkAerospike.Server.Parties
import AdkAerospike.Artifacts.Footprint
import AdkAerospike.Memory.Service

/-! The users of the artifact and the memory service. Every key and every indexed value
that a call names begins with its app and user, whatever session ids, file names, event
ids and texts it is given; purging and listing go through the index and stay there. Two
users whose ids hold no separator thus share no record and no indexed value. -/

namespace AdkAerospike

open Program Data Keys Server

/-- The strings that begin with the ids of a user. -/
def userStrings (app user : Str) : Set Str := {x | ∃ rest, x = scopeTuple app user rest}

/-- A user as a party to a set of records. -/
def tenant (app user : Str) : Party Str Str := ⟨userStrings app user, userStrings app user⟩

theorem tenant_apart {app user app' user' : Str} (ha : Plain app) (ha' : Plain app') (hu : Plain user)
    (hu' : Plain user') (hne : (app, user) ≠ (app', user')) : (tenant app user).Apart (tenant app' user') := by
  have hdisjoint : Disjoint (userStrings app user) (userStrings app' user') :=
    Set.disjoint_left.mpr fun x ⟨rest, hrest⟩ ⟨rest', hrest'⟩ => by
      obtain ⟨rfl, rfl, -⟩ := (scopeTuple_inj ha ha' hu hu').mp (hrest.symm.trans hrest')
      exact hne rfl
  exact ⟨hdisjoint, hdisjoint⟩

variable {V : Type}

/-! ### Artifacts -/

namespace Artifacts
variable {cfg : ServerConfig V}

/-- What a user's calls ask for names keys and values of the user only. -/
theorem Asked.within {app user : Str} {counts : File → Prop} {q : Req V} (hq : Asked app user counts q) :
    q.Within cfg.table (tenant app user) := by
  cases hq with
  | query scope => exact ⟨scope, rfl⟩
  | get scope filename v => exact ⟨_, rfl⟩
  | create scope filename v row haus =>
    refine ⟨⟨_, rfl⟩, fun i hi => ⟨scope, ?_⟩⟩
    exact Option.some.inj (hi.symm.trans haus)
  | remove scope filename v => exact ⟨_, rfl⟩
  | allocate scope filename h => exact ⟨_, rfl⟩
  | removeHead scope filename h => exact ⟨_, rfl⟩

theorem Call.madeFor.within {app user : Str} {c : Call V} (hc : c.madeFor app user) :
    c.body.Uses (Req.Within cfg.table (tenant app user)) := hc.asks.mono fun _ hq => hq.within

end Artifacts

/-! ### Memory -/

namespace Memory
variable (cfg : ServerConfig V)

theorem stable_table : cfg.table.Stable where
  blank := rfl
  merge _ _ := rfl
  apply ops r := Server.index_foldl Record.aus (fun x op => by cases op <;> rfl) ops (r, none)

/-- Every request names keys and values of the user only. -/
abbrev For {α : Type} (app user : Str) (p : Service V α) : Prop :=
  p.Uses (Req.Within cfg.table (tenant app user))

section For
variable {cfg} (app user session : Str)

theorem for_upsertMemory (inst : Instance V) (e : Codec.Event V) (text : Str) :
    For cfg app user (upsertMemory inst app user session e text) := by
  refine Uses.upsertMemory ⟨⟨_, rfl⟩, fun i hi => ?_⟩ fun _ _ => ⟨_, rfl⟩
  cases hi
  exact ⟨session, rfl⟩

theorem for_addSession (inst : Instance V) (events : List (Codec.Event V)) :
    For cfg app user (addSessionToMemory inst app user session events) := by
  have hpurge : For cfg app user (purgeSessionMemories app user session) :=
    Uses.purgeSessionMemories ⟨session, rfl⟩ (fun _ _ => ⟨_, rfl⟩) fun _ => ⟨_, rfl⟩
  exact hpurge.bind fun _ => Uses.addAll fun e _ text _ => for_upsertMemory app user session inst e text

theorem for_addAbsent (inst : Instance V) (events : List (Codec.Event V)) :
    For cfg app user (addAbsent inst app user session events) := by
  refine Uses.addAbsent (fun e _ key hkey => ?_) fun e _ text _ => for_upsertMemory app user session inst e text
  rw [List.mem_singleton.mp hkey]
  exact ⟨_, rfl⟩

theorem for_search (inst : Instance V) (text : Str) : For cfg app user (searchMemory inst app user text) := by
  refine Uses.searchMemory (fun ts key hkey => ?_) fun cs key hkey => ?_
  · obtain ⟨t, -, rfl⟩ := List.mem_map.mp hkey
    exact ⟨_, rfl⟩
  · obtain ⟨c, -, rfl⟩ := List.mem_map.mp hkey
    exact ⟨_, rfl⟩

end For

def Call.madeFor (app user : Str) : Call V → Prop
  | .addSession app' user' .. | .addEvents app' user' .. | .search app' user' .. => app' = app ∧ user' = user

theorem Call.madeFor.within (inst : Instance V) {app user : Str} {c : Call V} (hc : c.madeFor app user) :
    For cfg app user (c.body inst) := by
  cases c <;> obtain ⟨rfl, rfl⟩ := hc
  case addSession => exact (for_addSession _ _ _ _ _).bind fun _ => trivial
  case addEvents => exact (for_addAbsent _ _ _ _ _).bind fun _ => trivial
  case search => exact (for_search _ _ _ _).bind fun _ => trivial

end Memory

/-! ### Both services -/

namespace Tenants

abbrev Req (V : Type) := Artifacts.Req V ⊕ Memory.Req V

abbrev Ans : Req V → Type := SumAns Artifacts.Ans Memory.Ans

abbrev Err := Artifacts.Err ⊕ Memory.Err

abbrev Reply (V : Type) := Artifacts.Reply V ⊕ Memory.Reply V

/-- The artifacts set and the memory set. -/
abbrev World (V : Type) := Artifacts.Store V × Memory.Store V

inductive Call (V : Type) where
  | artifact (c : Artifacts.Call V)
  | memory (inst : Memory.Instance V) (c : Memory.Call V)

def Call.body : Call V → Prog (Req V) Ans Err (Reply V)
  | .artifact c => .inl Sum.inl Sum.inl c.body
  | .memory inst c => .inr Sum.inr Sum.inr (c.body inst)

def Call.madeFor (app user : Str) : Call V → Prop
  | .artifact c => c.madeFor app user
  | .memory _ c => c.madeFor app user

structure Config (V : Type) where
  artifacts : Artifacts.ServerConfig V
  memory : Memory.ServerConfig V

def exec (cfg : Config V) (x : Weather) : (q : Req V) → World V → Ans q × World V :=
  serveSum (Artifacts.exec cfg.artifacts x) (Memory.exec cfg.memory x)

/-- Calls of both services on one server. -/
def services (cfg : Config V) : System (Req V) Ans Err (Reply V) (World V) (Call V) Weather where
  body := Call.body
  serve _ := exec cfg

abbrev ServicesPool (V : Type) := Pool (Req V) Ans Err (Reply V) (World V) (Call V)

/-- One complete call with no other call in between. -/
def perform (cfg : Config V) (x : Weather) (c : Call V) (w : World V) : Except Err (Reply V) × World V :=
  c.body.run (exec cfg x) w

section Isolation
variable {cfg : Config V} {app user app' user' : Str} {w w' : World V}

def Within (cfg : Config V) (app user : Str) : Req V → Prop :=
  Sum.elim (Req.Within cfg.artifacts.table (tenant app user)) (Req.Within cfg.memory.table (tenant app user))

theorem Call.madeFor.within {c : Call V} (hc : c.madeFor app user) : c.body.Uses (Within cfg app user) := by
  cases c with
  | artifact c => exact (Artifacts.Call.madeFor.within hc).inl
  | memory inst c => exact (Memory.Call.madeFor.within cfg.memory inst hc).inr

/-- Records of the user lie under the user's keys. -/
def Filed (cfg : Config V) (app user : Str) (w : World V) : Prop :=
  cfg.artifacts.table.Filed (tenant app user) w.1 ∧ cfg.memory.table.Filed (tenant app user) w.2

/-- The worlds look the same to the user. -/
def Alike (cfg : Config V) (app user : Str) (w w' : World V) : Prop :=
  cfg.artifacts.table.Alike (tenant app user) w.1 w'.1 ∧ cfg.memory.table.Alike (tenant app user) w.2 w'.2

theorem filed_exec (x : Weather) (h : Filed cfg app user w) {q : Req V} (hq : Within cfg app' user' q)
    (hp : tenant app' user' = tenant app user ∨ (tenant app' user').Apart (tenant app user)) :
    Filed cfg app user (exec cfg x q w).2 := by
  cases q with
  | inl q => exact ⟨exec_filed (Artifacts.stable_table _) x h.1 hq hp, h.2⟩
  | inr q => exact ⟨h.1, exec_filed (Memory.stable_table _) x h.2 hq hp⟩

theorem alike_exec_of_apart (x : Weather) (h : Filed cfg app user w) {q : Req V}
    (hq : Within cfg app' user' q) (hp : (tenant app' user').Apart (tenant app user)) :
    Alike cfg app user w (exec cfg x q w).2 := by
  cases q with
  | inl q => exact ⟨exec_unseen (Artifacts.stable_table _) x h.1 hq hp, .refl _ _ _⟩
  | inr q => exact ⟨.refl _ _ _, exec_unseen (Memory.stable_table _) x h.2 hq hp⟩

theorem alike_exec (x : Weather) (h : Alike cfg app user w w') {q : Req V} (hq : Within cfg app user q) :
    (exec cfg x q w).1 = (exec cfg x q w').1 ∧ Alike cfg app user (exec cfg x q w).2 (exec cfg x q w').2 := by
  cases q with
  | inl q =>
    obtain ⟨hans, hnext⟩ := h.1.exec x hq
    exact ⟨hans, hnext, h.2⟩
  | inr q =>
    obtain ⟨hans, hnext⟩ := h.2.exec x hq
    exact ⟨hans, h.1, hnext⟩

theorem alike_perform (x : Weather) (h : Alike cfg app user w w') {c : Call V} (hc : c.madeFor app user) :
    (perform cfg x c w).1 = (perform cfg x c w').1 ∧
      Alike cfg app user (perform cfg x c w).2 (perform cfg x c w').2 :=
  hc.within.run_alike (fun _ _ _ hq h => alike_exec x h hq) h

/-- The calls started are made for users whose ids hold no separator; all calls are
answered in any order and in any weather. -/
def AnyUser (_ : ServicesPool V) : Action (Call V) Weather → Prop
  | .spawn c => ∃ app user, Plain app ∧ Plain user ∧ c.madeFor app user
  | .step _ _ => True

/-- The same for calls of one user. -/
def Serves (app user : Str) (_ : ServicesPool V) : Action (Call V) Weather → Prop
  | .spawn c => c.madeFor app user
  | .step _ _ => True

theorem filed_of_reach (ha : Plain app) (hu : Plain user) {s : ServicesPool V}
    (hs : (services cfg).Reach AnyUser ⟨(∅, ∅), []⟩ s) : Filed cfg app user s.world := by
  refine (hs.uses (F := fun _ q => ∃ app' user', Plain app' ∧ Plain user' ∧ Within cfg app' user' q)
    (I := Filed cfg app user) ?_ ?_ ⟨fun _ _ _ h => (nomatch h), fun _ _ _ h => (nomatch h)⟩ rfl).1
  · rintro s c ⟨app', user', ha', hu', hc⟩
    exact hc.within.mono fun q hq => ⟨app', user', ha', hu', hq⟩
  · rintro s i x c q - - ⟨app', user', ha', hu', hq⟩ hI
    refine filed_exec x hI hq ?_
    by_cases heq : (app', user') = (app, user)
    · cases heq
      exact .inl rfl
    · exact .inr (tenant_apart ha' ha hu' hu heq)

/-- Whatever calls are made for one user of either service, all calls of both services
for another user return what they would have returned without them. -/
theorem other_user_unaffected (cfg : Config V) (s₀ : ServicesPool V)
    (hs₀ : (services cfg).Reach AnyUser ⟨(∅, ∅), []⟩ s₀) (app user app' user' : Str)
    (ha : Plain app) (hu : Plain user) (ha' : Plain app') (hu' : Plain user')
    (hne : (app, user) ≠ (app', user')) (s : ServicesPool V)
    (hs : (services cfg).Reach (Serves app user) ⟨s₀.world, []⟩ s)
    (ds : List (Call V)) (hds : ∀ d ∈ ds, d.madeFor app' user') (x : Weather) :
    outputs (perform cfg x) ds s.world = outputs (perform cfg x) ds s₀.world := by
  have hapart := tenant_apart ha ha' hu hu' hne
  have hfiled₀ : Filed cfg app' user' s₀.world := filed_of_reach ha' hu' hs₀
  have hinv : Filed cfg app' user' s.world ∧ Alike cfg app' user' s₀.world s.world := by
    refine (hs.uses (F := fun _ => Within cfg app user)
      (I := fun w => Filed cfg app' user' w ∧ Alike cfg app' user' s₀.world w) (fun _ _ hc => hc.within) ?_
      ⟨hfiled₀, .refl _ _ _, .refl _ _ _⟩ rfl).1
    rintro s i x c q - - hq ⟨hfiled, halike⟩
    have hstep := alike_exec_of_apart x hfiled hq hapart
    exact ⟨filed_exec x hfiled hq (.inr hapart), halike.1.trans hstep.1, halike.2.trans hstep.2⟩
  have hok : Admits (perform cfg x) (fun _ d => d.madeFor app' user') ds s₀.world :=
    admits_of_forall (fun d hd _ => hds d hd) _
  have hsim : List.Forall₂ Eq (outputs (perform cfg x) ds s₀.world) (outputs (perform cfg x) ds s.world) := by
    refine outputs_forall₂ (R := Alike cfg app' user') ?_ hok hinv.2
    intro d w w' hd h
    exact alike_perform x h hd
  exact (List.forall₂_eq_eq_eq ▸ hsim : _ = _).symm

end Isolation

namespace Small

def cfg : Config ℕ := ⟨Artifacts.Small.cfg, Memory.Small.cfg⟩

def inst : Memory.Instance ℕ := Memory.Small.inst

def event : Codec.Event ℕ where
  id := ['e', ':', 'f']
  timestamp := 1
  author := ['u']
  isPartial := false
  stateDelta := ∅
  content := some (some [⟨some "Red fox".toList, 0⟩])
  rest := 0

/-- User `u` saves a file and adds a session, with separators in the ids. -/
def busy : ServicesPool ℕ :=
  (services cfg).run (System.turns .fair 4 0
    [.artifact (.save ['a'] ['u'] "v:f".toList { text := some ['x'] } (some "s:t".toList) none 0),
      .memory inst (.addSession ['a'] ['u'] "v:s".toList [event])]) ⟨(∅, ∅), []⟩

theorem reach_busy : (services cfg).Reach (Serves ['a'] ['u']) ⟨(∅, ∅), []⟩ busy := by
  refine System.reach_run (System.permitted_of_forall fun a ha s => ?_)
  rcases System.mem_turns ha with ⟨c, hc, rfl⟩ | ⟨j, rfl⟩
  · simp only [List.mem_cons, List.not_mem_nil, or_false] at hc
    rcases hc with rfl | rfl
    · exact ⟨rfl, rfl⟩
    · exact ⟨rfl, rfl⟩
  · trivial

/-- What user `v` asks then. -/
def asked : List (Call ℕ) :=
  [.artifact (.listKeys ['a'] ['v'] (some ['s'])), .memory inst (.search ['a'] ['v'] "fox".toList)]

theorem asked_madeFor : ∀ d ∈ asked, d.madeFor ['a'] ['v'] := fun d hd => by
  simp only [asked, List.mem_cons, List.not_mem_nil, or_false] at hd
  rcases hd with rfl | rfl
  · exact ⟨rfl, rfl⟩
  · exact ⟨rfl, rfl⟩

end Small

open Tenants.Small in
theorem other_user_unaffected_small :
    (['a'], ['u']) ≠ ((['a'], ['v']) : Str × Str) ∧ (∀ d ∈ asked, d.madeFor ['a'] ['v']) ∧
      outputs (perform cfg .fair) asked busy.world = outputs (perform cfg .fair) asked (∅, ∅) :=
  ⟨by decide, asked_madeFor, other_user_unaffected cfg ⟨(∅, ∅), []⟩ .init ['a'] ['u'] ['a'] ['v']
    (by decide) (by decide) (by decide) (by decide) (by decide) busy reach_busy asked asked_madeFor .fair⟩

end Tenants

end AdkAerospike
