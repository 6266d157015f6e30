import AdkAerospike.Program.Owing
import AdkAerospike.Sessions.Manifest.Consistent

/-! Creations, deletions and listings that run at the same time. A creation that has
put its row owes the manifest entry until it has appended it, so rows and manifests
agree up to what the unfinished calls owe. That breaks in two ways only: an entry is
appended beside one that is already there, or an entry is removed, by a deletion or
by the pruning of a listing, after its row has come into being again. -/

namespace AdkAerospike.Sessions

open Program Data Codec Keys

variable {V P α : Type}

/-! ### What a creation owes -/

/-- The append of a session's manifest entry. -/
def entryOf (a : Addr) (q : Req V P) : Prop :=
  q = .operate (manifestPk a.app a.user) [.listAppend a.id] none

/-- The answer of an operation is not an error. -/
def Answered : (q : Req V P) → Ans q → Prop
  | .operate _ _ _, x => Except.isOk (x : Except Err (OpResult V P))
  | _, _ => True

/-- After a put that succeeds, the entry is owed. -/
def PutOwes (a : Addr) : (q : Req V P) → Ans q → Service V P α → Prop
  | .put _ _, x, p => (x : Except Err Unit) = .ok () → p.Owes (entryOf a) Answered
  | _, _, _ => True

theorem owes_writeAll (a : Addr) (pre : List (Key × List (Op V P))) (f : Unit → Service V P α) :
    ((writeAll (pre ++ [(manifestPk a.app a.user, [.listAppend a.id])])).bind f).Owes (entryOf a) Answered := by
  induction pre with
  | nil => exact .inl rfl
  | cons x pre ih =>
    refine .inr fun y hy => ?_
    rcases (y : Except Err (OpResult V P)) with e | z
    · cases hy
    · exact ih

theorem follows_put (a : Addr) (key : Key) (r : Record V P) {K : Unit → Service V P α}
    (howes : (K ()).Owes (entryOf a) Answered) (hK : (K ()).Follows (PutOwes a)) (n : ℕ) :
    ((writeRetryingOverload (put key r) false n).bind K).Follows (PutOwes a) := by
  induction n with
  | zero =>
    intro x
    rcases (x : Except Err Unit) with e | u
    · exact ⟨nofun, trivial⟩
    · exact ⟨fun _ => howes, hK⟩
  | succ n ih =>
    intro x
    rcases (x : Except Err Unit) with e | u
    · refine ⟨nofun, ?_⟩
      cases e with
      | deviceOverload => exact ih
      | maxErrorRate => exact ih
      | _ => trivial
    · exact ⟨fun _ => howes, hK⟩

/-- A creation owes its entry from the moment its row is put. -/
theorem follows_create (env : Env V P) (app user : Str) (state : Dict V) (sessionId : Option Str) (fresh : Str)
    (now : ℚ) :
    ((Call.create app user state sessionId fresh now).body env).Follows
      (PutOwes ⟨app, user, chooseId sessionId fresh⟩) := by
  have hbody := body_create env app user state sessionId fresh now
  dsimp only at hbody
  rw [hbody]
  generalize (⟨app, user, chooseId sessionId fresh⟩ : Addr) = a
  generalize partitionState state = d
  refine follows_put a _ _ ?_ ?_ _
  · exact Or.inr fun _ _ => owes_writeAll a (sharedWrites a d) _
  have hrest : ((writeAll (followWrites a d)).bind fun _ => (readMerged a d now).bind fun s =>
      (.ret (.session s) : Service V P (Reply V))).Uses (FollowRequest a) := by
    have huses := (uses_createRest a d now (P := P)).bind (P := FollowRequest a)
      (f := fun s => (.ret (.session s) : Service V P (Reply V))) fun _ => trivial
    rw [createRest_eq, Prog.bind_assoc] at huses
    exact huses
  refine fun _ => ⟨trivial, hrest.follows fun q x p' hq => ?_⟩
  cases hq <;> trivial

/-! ### One request -/

/-- The call creates the session. -/
def Call.opens (a : Addr) : Call V → Prop
  | .create app user _ sessionId fresh _ => a = ⟨app, user, chooseId sessionId fresh⟩
  | _ => False

theorem Call.opens.unique {c : Call V} {a b : Addr} (ha : c.opens a) (hb : c.opens b) : b = a := by
  cases c with
  | create app user state sessionId fresh now => exact Eq.trans hb (Eq.symm ha)
  | _ => cases ha

/-- The requests of creations, deletions and listings with identifiers without separators. -/
def RaceRequest (q : Req V P) : Call V → Prop
  | .create app user _ sessionId fresh _ =>
    Addr.Named ⟨app, user, chooseId sessionId fresh⟩ ∧ CreateRequest ⟨app, user, chooseId sessionId fresh⟩ q
  | .delete a => a.Named ∧ DeleteRequest a q
  | .listForUser app user => (Plain app ∧ Plain user) ∧ ListRequest app user q
  | _ => False

/-- The request appends no entry that is already there, removes no entry whose row
exists, and is not refused for the size of its record. -/
structure Undisputed (cfg : ServerConfig V P) (q : Req V P) (w : World V P) : Prop where
  fresh : ∀ app user id, q = .operate (manifestPk app user) [.listAppend id] none → id ∉ ids app user w
  stale : ∀ app user id, q = .operate (manifestPk app user) [.listRemoveByValue id] none →
    id ∈ ids app user w → row ⟨app, user, id⟩ w = none
  room : ∀ key ops, q = .operate key ops none →
    (cfg.onRecord ops none (w.store.get key)).1 ≠ .error .recordTooBig

theorem onRecord_creates (cfg : ServerConfig V P) {ops : List (Op V P)} (hops : ops.any Op.creates)
    (old : Option (Record V P)) (hroom : (cfg.onRecord ops none old).1 ≠ .error .recordTooBig) :
    (cfg.onRecord ops none old).1.isOk := by
  have hwrites : ops.any Op.writes := by
    obtain ⟨op, hop, hc⟩ := List.any_eq_true.mp hops
    exact List.any_eq_true.mpr ⟨op, hop, by cases op <;> first | rfl | exact hc⟩
  cases old with
  | none =>
    simp only [ServerConfig.onRecord, hops, ServerConfig.commitRecord] at hroom ⊢
    split_ifs at hroom ⊢ <;> first | rfl | contradiction
  | some r =>
    simp only [ServerConfig.onRecord, hwrites, ServerConfig.commitRecord] at hroom ⊢
    split_ifs at hroom ⊢ <;> first | rfl | contradiction

section Step
variable {cfg : ServerConfig V P} {owed : Addr → Prop} {w : World V P} {c : Call V} {q : Req V P}

/-- What a request does to the agreement of rows and manifests: nothing, or it puts a
row, or it settles a debt. -/
inductive Effect (cfg : ServerConfig V P) (owed : Addr → Prop) (c : Call V) :
    (q : Req V P) → Ans q → World V P → Prop
  | none {q : Req V P} {x : Ans q} {w' : World V P} (h : Consistent cfg owed w')
      (hx : ∀ a, c.opens a → ¬ entryOf a q ∧ Answered q x) : Effect cfg owed c q x w'
  | put {a : Addr} {key : Key} {r : Record V P} {w' : World V P} (ha : c.opens a)
      (h : Consistent cfg (fun b => owed b ∨ b = a) w') : Effect cfg owed c (.put key r) (.ok ()) w'
  | settle {a : Addr} {q : Req V P} {x : Ans q} {w' : World V P} (ha : c.opens a)
      (h : Consistent cfg (fun b => owed b ∧ b ≠ a) w') : Effect cfg owed c q x w'

theorem Consistent.effect (h : Consistent cfg owed w) (hq : RaceRequest q c) (hu : Undisputed cfg q w)
    (inst : ℕ) : Effect cfg owed c q (exec cfg inst .calm q w).1 (exec cfg inst .calm q w).2 := by
  have hcreated : ∀ (key : Key) (ops : List (Op V P)), q = .operate key ops none → ops.any Op.creates →
      Answered (.operate key ops none) (exec cfg inst .calm (.operate key ops none) w).1 := by
    intro key ops hop hcreates
    have hok := onRecord_creates cfg hcreates _ (hu.room key ops hop)
    rw [← ServerConfig.operate_fst] at hok
    exact hok
  have haside : ∀ key : Key, key.set ≠ .sessions → ∀ key' ∈ [key], Aside key' := fun key hset key' hkey => by
    rw [List.mem_singleton.mp hkey]
    exact aside_of_set hset
  cases c with
  | create app user state sessionId fresh now =>
    obtain ⟨ha, hq⟩ := hq
    generalize hb : (⟨app, user, chooseId sessionId fresh⟩ : Addr) = a at ha hq
    have hopens : (Call.create app user state sessionId fresh now).opens a := hb.symm
    cases hq with
    | row d now' =>
      rcases h.exec_put inst ha (tagged_newRow a d now' : Tagged a (newRow a d now' : Record V P)) with
        ⟨hok, hw'⟩ | ⟨-, hsame⟩
      · rw [hok]
        exact .put hopens hw'
      · refine .none (h.frame ?_ (fun b _ => .inl ?_) fun _ _ _ _ => ?_) fun b hb => ⟨nofun, trivial⟩
        · rw [hsame]
          exact h.fitting
        · unfold Sessions.row
          rw [hsame]
        · rw [hsame]
    | cacheSet =>
      exact .none (h.exec_aside inst .calm nofun) fun b hb => ⟨nofun, trivial⟩
    | follow hq =>
      cases hq with
      | app d => exact .none (h.exec_aside inst .calm (haside _ nofun)) fun b hb => ⟨nofun, hcreated _ _ rfl rfl⟩
      | user d => exact .none (h.exec_aside inst .calm (haside _ nofun)) fun b hb => ⟨nofun, hcreated _ _ rfl rfl⟩
      | manifest =>
        refine .settle hopens ?_
        exact h.exec_addEntry inst ha (hu.fresh _ _ _ rfl) (onRecord_creates cfg rfl _ (hu.room _ _ rfl))
      | read keys =>
        exact .none (h.exec_aside inst .calm nofun) fun b hb => ⟨nofun, trivial⟩
  | delete a =>
    obtain ⟨ha, hq⟩ := hq
    cases hq with
    | get => exact .none (h.exec_aside inst .calm nofun) nofun
    | segment g =>
      refine .none (h.exec_aside inst .calm fun key hkey => ?_) nofun
      rw [List.mem_singleton.mp hkey]
      exact aside_segmentPk ha g
    | row => exact .none (h.exec_removeRow inst ha) nofun
    | cachePop => exact .none (h.exec_aside inst .calm nofun) nofun
    | manifest =>
      exact .none (h.exec_dropEntry inst ha.app ha.user (hu.stale _ _ _ rfl)) nofun
  | listForUser app user =>
    obtain ⟨⟨happ, huser⟩, hq⟩ := hq
    cases hq with
    | get => exact .none (h.exec_aside inst .calm nofun) nofun
    | rows keys => exact .none (h.exec_aside inst .calm nofun) nofun
    | manifest id =>
      exact .none (h.exec_dropEntry inst happ huser (hu.stale _ _ _ rfl)) nofun
  | append a e clock => cases hq
  | get a config => cases hq
  | listForApp app => cases hq

/-- The rows that such calls put carry their labels. -/
theorem RaceRequest.labels (hq : RaceRequest q c) (key : Key) (r : Record V P) (hput : q = .put key r) :
    Labels key r := by
  subst hput
  cases c with
  | create app user state sessionId fresh now =>
    obtain ⟨ha, hq⟩ := hq
    cases hq with
    | row d now' => exact labels_newRow ha d now'
    | follow hq => cases hq
  | delete a => cases hq.2
  | listForUser app user => cases hq.2
  | append a e clock => cases hq
  | get a config => cases hq
  | listForApp app => cases hq

end Step

/-! ### Pools -/

/-- The pools of the session service. -/
abbrev ServicePool (V P : Type) := Pool (Req V P) Ans Err (Reply V) (World V P) (Issued V)

/-- Some creation of the session owes its entry. -/
def OwedIn (s : ServicePool V P) (a : Addr) : Prop :=
  ∃ (i : ℕ) (p : Proc (Req V P) Ans Err (Reply V) (Issued V)),
    s.procs[i]? = some p ∧ p.call.call.opens a ∧ p.prog.Owes (entryOf a) Answered

/-- Rows and manifests agree up to what is owed, and the calls keep to their requests. -/
structure Racing (cfg : ServerConfig V P) (s : ServicePool V P) : Prop where
  consistent : Consistent cfg (OwedIn s) s.world
  labelled : Labelled s.world
  uses : ∀ (i : ℕ) (p : Proc (Req V P) Ans Err (Reply V) (Issued V)), s.procs[i]? = some p →
    p.prog.Uses fun q => RaceRequest q p.call.call
  follows : ∀ (i : ℕ) (p : Proc (Req V P) Ans Err (Reply V) (Issued V)), s.procs[i]? = some p →
    ∀ a, p.call.call.opens a → p.prog.Follows (PutOwes a)

/-- The calls started create, delete or list sessions with identifiers without
separators; their requests are answered in any order and without faults. -/
def Calmly (_ : ServicePool V P) : Action (Issued V) Weather → Prop
  | .spawn ⟨_, .create app user _ sessionId fresh _⟩ => Addr.Named ⟨app, user, chooseId sessionId fresh⟩
  | .spawn ⟨_, .delete a⟩ => a.Named
  | .spawn ⟨_, .listForUser app user⟩ => Plain app ∧ Plain user
  | .spawn _ => False
  | .step _ x => x = .calm

/-- No request is disputed when it is answered. -/
def Peaceful (cfg : ServerConfig V P) (s : ServicePool V P) : Action (Issued V) Weather → Prop
  | .spawn _ => True
  | .step i _ => ∀ q, System.next s i = some q → Undisputed cfg q s.world

section Race
variable {env : Env V P} {cfg : ServerConfig V P} {s : ServicePool V P}

theorem raceRequest_body (env : Env V P) (cfg : ServerConfig V P) {l : Issued V} (hl : Calmly s (.spawn l)) :
    ((service env cfg).body l).Uses fun q => RaceRequest q l.call := by
  obtain ⟨inst, c⟩ := l
  cases c with
  | create app user state sessionId fresh now =>
    exact Prog.Uses.bind ((uses_createSession app user state sessionId fresh now).mono fun _ hq => ⟨hl, hq⟩)
      fun _ => trivial
  | delete a => exact Prog.Uses.bind ((uses_deleteSession a).mono fun _ hq => ⟨hl, hq⟩) fun _ => trivial
  | listForUser app user =>
    exact Prog.Uses.bind ((uses_listSessionsForUser app user).mono fun _ hq => ⟨hl, hq⟩) fun _ => trivial
  | append a e clock => cases hl
  | get a config => cases hl
  | listForApp app => cases hl

theorem Racing.spawn (h : Racing cfg s) (env : Env V P) {l : Issued V} (hl : Calmly s (.spawn l)) :
    Racing cfg ((service env cfg).act (.spawn l) s) := by
  refine ⟨h.consistent.mono fun b ⟨i, p, hi, hb, ho⟩ => ⟨i, p, ?_, hb, ho⟩, h.labelled, fun i p hi => ?_,
    fun i p hi a ha => ?_⟩
  · exact (List.getElem?_append_left (List.getElem?_eq_some_iff.mp hi).1).trans hi
  · rcases System.getElem?_concat hi with ⟨hi, -⟩ | ⟨rfl, -⟩
    · exact h.uses i p hi
    · exact raceRequest_body env cfg hl
  · rcases System.getElem?_concat hi with ⟨hi, -⟩ | ⟨rfl, -⟩
    · exact h.follows i p hi a ha
    · obtain ⟨inst, c⟩ := l
      cases c with
      | create app user state sessionId fresh now =>
        obtain rfl : a = ⟨app, user, chooseId sessionId fresh⟩ := ha
        exact follows_create env app user state sessionId fresh now
      | _ => cases ha

/-- What a call owed and was not settled by its request it still owes. -/
theorem owedIn_set {i : ℕ} {l : Issued V} {q : Req V P} {k : Ans q → Service V P (Reply V)} {w : World V P}
    {x : Ans q} (hi : s.procs[i]? = some ⟨l, .ask q k⟩) {b : Addr} (hb : OwedIn s b)
    (hkeep : l.call.opens b → ¬ entryOf b q ∧ Answered q x) :
    OwedIn (⟨w, s.procs.set i ⟨l, k x⟩⟩ : ServicePool V P) b := by
  obtain ⟨j, p, hj, hopens, howes⟩ := hb
  by_cases hji : j = i
  · subst hji
    rw [hi, Option.some.injEq] at hj
    subst hj
    obtain ⟨hne, hx⟩ := hkeep hopens
    refine ⟨j, ⟨l, k x⟩, ?_, hopens, howes.step hne hx⟩
    exact List.getElem?_set_self (List.getElem?_eq_some_iff.mp hi).1
  · exact ⟨j, p, (List.getElem?_set_ne (Ne.symm hji)).trans hj, hopens, howes⟩

theorem Racing.step (h : Racing cfg s) {i : ℕ} {l : Issued V} {q : Req V P}
    {k : Ans q → Service V P (Reply V)} (hi : s.procs[i]? = some ⟨l, .ask q k⟩)
    (hu : Undisputed cfg q s.world) :
    Racing cfg ⟨(exec cfg l.inst .calm q s.world).2,
      s.procs.set i ⟨l, k (exec cfg l.inst .calm q s.world).1⟩⟩ := by
  have huses : RaceRequest q l.call ∧ ∀ x, (k x).Uses fun q => RaceRequest q l.call := h.uses i _ hi
  have hself : ∀ x : Ans q, (s.procs.set i ⟨l, k x⟩)[i]? = some ⟨l, k x⟩ := fun x =>
    List.getElem?_set_self (List.getElem?_eq_some_iff.mp hi).1
  have heffect := h.consistent.effect huses.1 hu l.inst
  have hlabelled : Labelled (exec cfg l.inst .calm q s.world).2 :=
    h.labelled.exec huses.1.labels l.inst .calm
  generalize exec cfg l.inst .calm q s.world = done at heffect hlabelled
  obtain ⟨x, w'⟩ := done
  refine ⟨?_, hlabelled, fun j p hj => ?_, fun j p hj a ha => ?_⟩
  · cases heffect with
    | none hc hx => exact hc.mono fun b hb => owedIn_set hi hb (hx b)
    | put ha hc =>
      refine hc.mono fun b hb => ?_
      rcases hb with hb | rfl
      · exact owedIn_set hi hb fun _ => ⟨nofun, trivial⟩
      · have hfollows : ∀ y, PutOwes b _ y (k y) ∧ (k y).Follows (PutOwes b) := h.follows i _ hi b ha
        exact ⟨i, _, hself _, ha, (hfollows (.ok ())).1 rfl⟩
    | settle ha hc =>
      refine hc.mono fun b hb => owedIn_set hi hb.1 fun hopens => ?_
      exact absurd (ha.unique hopens) hb.2
  · rcases System.getElem?_set_cases hj with ⟨rfl, rfl⟩ | ⟨-, hj⟩
    · exact huses.2 _
    · exact h.uses j p hj
  · rcases System.getElem?_set_cases hj with ⟨rfl, rfl⟩ | ⟨-, hj⟩
    · have hfollows : ∀ y, PutOwes a _ y (k y) ∧ (k y).Follows (PutOwes a) := h.follows j _ hi a ha
      exact (hfollows _).2
    · exact h.follows j p hj a ha

theorem racing_empty (cfg : ServerConfig V P) : Racing cfg (⟨.empty, []⟩ : ServicePool V P) where
  consistent := consistent_empty cfg _
  labelled key r app hr := by cases hr
  uses i p hi := by cases hi
  follows i p hi := by cases hi

theorem racing_of_reach (hs : (service env cfg).Reach (fun s a => Calmly s a ∧ Peaceful cfg s a) ⟨.empty, []⟩ s) :
    Racing cfg s := by
  refine hs.invariant (I := Racing cfg) (racing_empty cfg) ?_
  rintro s a h ⟨hcalm, hpeace⟩
  rcases System.act_cases (Y := service env cfg) a s with ⟨l, rfl, hact⟩ | ⟨i, c, -, -, hact⟩ |
    ⟨i, c, l, q, k, rfl, hi, hnext, hact⟩
  · exact h.spawn env hcalm
  · rw [hact]
    exact h
  · rw [hact]
    obtain rfl : c = .calm := hcalm
    exact h.step hi (hpeace q hnext)

/-- Once every call has finished nothing is owed. -/
theorem Racing.settled (h : Racing cfg s) (hdone : ∀ p ∈ s.procs, p.prog.finished) :
    Consistent cfg (fun _ => False) s.world := by
  refine h.consistent.mono fun b ⟨i, p, hi, _, ho⟩ => ?_
  have hfin := hdone p (List.mem_of_getElem? hi)
  rw [ho.not_finished] at hfin
  cases hfin

/-! ### Listing by the app index -/

/-- The sessions of one user in a listing of the app. -/
def idsOfUser (user : Str) (l : List (Session V)) : List Str :=
  (l.filter fun s => s.addr.user = user).map fun s => s.addr.id

theorem perform_listForApp (env : Env V P) (cfg : ServerConfig V P) (inst : ℕ) (app : Str) (w : World V P) :
    ∃ l, perform env cfg ⟨inst, .listForApp app⟩ w = (.ok (.sessions l), w) ∧ ∀ user,
      idsOfUser user l = (w.store.entries.filter fun x => x.1.set = .sessions ∧ x.2.app = some app ∧
        x.2.uid.getD [] = user).map fun x => x.2.sid.getD [] := by
  refine ⟨_, rfl, fun user => ?_⟩
  unfold idsOfUser ServerConfig.query
  induction w.store.entries with
  | nil => rfl
  | cons x l ih =>
    by_cases hset : x.1.set = .sessions
    · by_cases happ : x.2.app = some app
      · by_cases huser : x.2.uid.getD [] = user
        · simpa [hset, happ, huser] using ih
        · simpa [hset, happ, huser] using ih
      · simpa [hset, happ] using ih
    · simpa [hset] using ih

theorem mem_entries_iff {w : World V P} {key : Key} {r : Record V P} :
    (⟨key, r⟩ : Sigma fun _ : Key => Record V P) ∈ w.store.entries ↔ w.store.get key = some r :=
  AList.mem_lookup_iff.symm

/-- The index names each row of the user that exists once. -/
theorem Racing.idsOfUser (h : Racing cfg s) {app user : Str} {l : List (Session V)}
    (hl : Sessions.idsOfUser user l = (s.world.store.entries.filter fun x => x.1.set = .sessions ∧
      x.2.app = some app ∧ x.2.uid.getD [] = user).map fun x => x.2.sid.getD []) :
    (Sessions.idsOfUser user l).Nodup ∧ ∀ id, id ∈ Sessions.idsOfUser user l ↔
      Addr.Named ⟨app, user, id⟩ ∧ (row ⟨app, user, id⟩ s.world).isSome := by
  have hentry : ∀ x ∈ s.world.store.entries.filter fun x => x.1.set = .sessions ∧
      x.2.app = some app ∧ x.2.uid.getD [] = user,
      Addr.Named ⟨app, user, x.2.sid.getD []⟩ ∧ x.1 = Addr.sessionPk ⟨app, user, x.2.sid.getD []⟩ ∧
        s.world.store.get x.1 = some x.2 := by
    rintro ⟨key, r⟩ hx
    obtain ⟨hmem, hx⟩ := List.mem_filter.mp hx
    simp only [decide_eq_true_eq] at hx
    have hget := mem_entries_iff.mp hmem
    obtain ⟨⟨app', user', id'⟩, hnamed, hkey, htag⟩ := h.labelled key r app hget hx.1 hx.2.1
    have happ : app = app' := Option.some.inj (hx.2.1.symm.trans htag.app)
    have huser : user' = user := by simpa [htag.uid] using hx.2.2
    subst happ huser
    simp only [htag.sid, Option.getD_some]
    exact ⟨hnamed, hkey, hget⟩
  rw [hl]
  refine ⟨List.Nodup.map_on (fun x hx y hy hxy => ?_) ?_, fun id => ?_⟩
  · obtain ⟨-, hkx, hgx⟩ := hentry x hx
    obtain ⟨-, hky, hgy⟩ := hentry y hy
    have hkeys : x.1 = y.1 := by rw [hkx, hky, hxy]
    rw [hkeys, hgy, Option.some.injEq] at hgx
    exact Sigma.ext hkeys (heq_of_eq hgx.symm)
  · exact (List.NodupKeys.nodup s.world.store.nodupKeys).filter _
  · rw [List.mem_map]
    constructor
    · rintro ⟨x, hx, rfl⟩
      obtain ⟨hnamed, hkey, hget⟩ := hentry x hx
      refine ⟨hnamed, ?_⟩
      rw [row, ← hkey, hget]
      rfl
    · rintro ⟨hnamed, hr⟩
      obtain ⟨r, hr⟩ := Option.isSome_iff_exists.mp hr
      have htag := (h.consistent.live _ r hnamed hr).1
      refine ⟨⟨Addr.sessionPk ⟨app, user, id⟩, r⟩, List.mem_filter.mpr ⟨mem_entries_iff.mpr hr, ?_⟩, ?_⟩
      · simp [htag.app, htag.uid, Addr.sessionPk]
      · simp [htag.sid]

end Race

/-- Once all calls have finished, listing a user's sessions shows every row that
exists exactly once and nothing else, as the listing of the app does, if no request
was disputed. -/
theorem listing_exact_after_race (env : Env V P) (cfg : ServerConfig V P) (s : ServicePool V P)
    (hs : (service env cfg).Reach (fun s a => Calmly s a ∧ Peaceful cfg s a) ⟨.empty, []⟩ s)
    (hdone : ∀ p ∈ s.procs, p.prog.finished) (inst : ℕ) (app user : Str) (happ : Plain app)
    (huser : Plain user) :
    ∃ l w' l', perform env cfg ⟨inst, .listForUser app user⟩ s.world = (.ok (.sessions l), w') ∧
      perform env cfg ⟨inst, .listForApp app⟩ s.world = (.ok (.sessions l'), s.world) ∧
      (l.map fun s => s.addr.id).Nodup ∧
      (∀ id, id ∈ l.map (fun s => s.addr.id) ↔
        Addr.Named ⟨app, user, id⟩ ∧ (row ⟨app, user, id⟩ s.world).isSome) ∧
      (l.map fun s => s.addr.id).Perm (idsOfUser user l') := by
  have hrace := racing_of_reach hs
  obtain ⟨l, w', hlist, hnodup, hiff⟩ := (hrace.settled hdone).list env inst happ huser
  obtain ⟨l', hlist', hids⟩ := perform_listForApp env cfg inst app s.world
  obtain ⟨hnodup', hiff'⟩ := hrace.idsOfUser (hids user)
  refine ⟨l, w', l', hlist, hlist', hnodup, hiff, ?_⟩
  exact (List.perm_ext_iff_of_nodup hnodup hnodup').mpr fun id => (hiff id).trans (hiff' id).symm

namespace Small

def founding : Issued ℕ := ⟨0, .create ['a'] ['u'] ∅ (some ['s']) [] 1⟩

def deletion : Issued ℕ := ⟨1, .delete addr⟩

/-- A session is created by a complete call. -/
def founded : ServicePool ℕ (Event ℕ) :=
  (service env cfg).run (System.turns .calm 5 0 [founding]) ⟨.empty, []⟩

/-- Its deletion stops after the row is gone, the session is created again, and then
the deletion goes on. -/
def overtaken : ServicePool ℕ (Event ℕ) :=
  (service env cfg).run ([.spawn deletion] ++ List.replicate 4 (.step 1 .calm) ++ [.spawn founding] ++
    List.replicate 5 (.step 2 .calm) ++ List.replicate 2 (.step 1 .calm)) founded

/-- While the session is deleted, another one is created and the user's sessions are listed:
the listing finds the entry without a row before the deletion has taken it off. -/
def crossing : ServicePool ℕ (Event ℕ) :=
  (service env cfg).run ([.spawn deletion, .spawn ⟨0, .create ['a'] ['u'] ∅ (some ['t']) [] 2⟩,
    .spawn ⟨2, .listForUser ['a'] ['u']⟩] ++ List.replicate 2 (.step 1 .calm) ++ List.replicate 3 (.step 2 .calm) ++
    List.replicate 2 (.step 1 .calm) ++ List.replicate 2 (.step 3 .calm) ++ List.replicate 2 (.step 2 .calm) ++
    [.step 3 .calm, .step 1 .calm, .step 1 .calm]) founded

/-- A request that is not disputed. -/
def agreed (w : World ℕ (Event ℕ)) : Req ℕ (Event ℕ) → Bool
  | .operate key ops none =>
    (match (cfg.onRecord ops none (w.store.get key)).1 with
      | .error .recordTooBig => false
      | _ => true) &&
    match ops with
    | [.listAppend id] => id ∉ ((w.store.get key).bind (·.sman)).getD []
    | [.listRemoveByValue id] => key = manifestPk ['a'] ['u'] && (row ⟨['a'], ['u'], id⟩ w).isNone
    | _ => true
  | _ => true

/-- Users with one manifest have one row for each id. -/
theorem sessionPk_of_manifestPk {app user app' user' : Str} (h : manifestPk app user = manifestPk app' user') (id : Str) :
    Addr.sessionPk ⟨app, user, id⟩ = Addr.sessionPk ⟨app', user', id⟩ := by
  have hkey : (app ++ sep :: (user ++ [sep])) ++ sessionManifestSuffix = (app' ++ sep :: (user' ++ [sep])) ++ sessionManifestSuffix := by
    simpa [manifestPk, sessionManifestKey] using h
  have hsplit : ∀ app user : Str, sessionKey app user id = (app ++ sep :: (user ++ [sep])) ++ id := fun _ _ => by
    simp [sessionKey]
  have hsession : sessionKey app user id = sessionKey app' user' id := by
    rw [hsplit, hsplit, List.append_cancel_right hkey]
  exact congrArg (Key.mk .sessions) hsession

theorem undisputed_of_agreed {w : World ℕ (Event ℕ)} {q : Req ℕ (Event ℕ)} (h : agreed w q) : Undisputed cfg q w := by
  refine ⟨fun app user id hq => ?_, fun app user id hq _ => ?_, fun key ops hq hbig => ?_⟩
  · subst hq
    exact of_decide_eq_true ((Bool.and_eq_true _ _).mp h).2
  · subst hq
    obtain ⟨hkey, hrow⟩ := (Bool.and_eq_true _ _).mp ((Bool.and_eq_true _ _).mp h).2
    rw [row, sessionPk_of_manifestPk (of_decide_eq_true hkey)]
    exact Option.isNone_iff_eq_none.mp hrow
  · subst hq
    have hroom := ((Bool.and_eq_true _ _).mp h).1
    rw [hbig] at hroom
    cases hroom

def answersAgreed (s : ServicePool ℕ (Event ℕ)) : Action (Issued ℕ) Weather → Bool
  | .spawn _ => true
  | .step i _ => (System.next s i).all (agreed s.world)

theorem peaceful_of_test {s : ServicePool ℕ (Event ℕ)} {x : Action (Issued ℕ) Weather} (hcalm : Calmly s x)
    (h : answersAgreed s x) : Calmly s x ∧ Peaceful cfg s x := by
  refine ⟨hcalm, ?_⟩
  cases x with
  | spawn l => trivial
  | step i x =>
    intro q hq
    rw [answersAgreed, hq] at h
    exact undisputed_of_agreed h

theorem reach_founded : (service env cfg).Reach (fun s a => Calmly s a ∧ Peaceful cfg s a) ⟨.empty, []⟩ founded := by
  refine System.reach_run (System.permitted_of_passes (fun x hx s h => peaceful_of_test ?_ h) (by decide +kernel))
  rcases System.mem_turns hx with ⟨l, hl, rfl⟩ | ⟨j, rfl⟩
  · rw [List.mem_singleton.mp hl]
    exact named_addr
  · rfl

theorem reach_crossing : (service env cfg).Reach (fun s a => Calmly s a ∧ Peaceful cfg s a) ⟨.empty, []⟩ crossing := by
  refine reach_founded.trans
    (System.reach_run (System.permitted_of_passes (fun x hx s h => peaceful_of_test ?_ h) (by decide +kernel)))
  have hnamed : Addr.Named ⟨['a'], ['u'], ['t']⟩ := ⟨by decide, by decide, by decide, by decide⟩
  cases x with
  | spawn l =>
    simp only [List.reduceReplicate, List.cons_append, List.nil_append, List.mem_cons, Action.spawn.injEq, reduceCtorEq,
      List.not_mem_nil, or_false] at hx
    rcases hx with rfl | rfl | rfl
    · exact named_addr
    · exact hnamed
    · exact ⟨by decide, by decide⟩
  | step i c =>
    simp only [List.reduceReplicate, List.cons_append, List.nil_append, List.mem_cons, Action.step.injEq, reduceCtorEq,
      List.not_mem_nil, or_false, false_or] at hx
    casesm* _ ∨ _ <;> exact hx.2

theorem reach_overtaken : (service env cfg).Reach Calmly ⟨.empty, []⟩ overtaken := by
  refine (reach_founded.mono fun _ _ h => h.1).trans (System.reach_run (System.permitted_of_forall fun a ha s => ?_))
  simp only [List.mem_append, List.mem_singleton, List.mem_replicate, ne_eq] at ha
  rcases ha with (((rfl | ⟨-, rfl⟩) | rfl) | ⟨-, rfl⟩) | ⟨-, rfl⟩
  · exact named_addr
  · rfl
  · exact named_addr
  · rfl
  · rfl

end Small

open Sessions.Small in
/-- The session that was created while the other one was deleted is listed alone. -/
theorem listing_exact_after_race_small :
    ∃ l w' l', perform env cfg ⟨0, .listForUser ['a'] ['u']⟩ crossing.world = (.ok (.sessions l), w') ∧
      perform env cfg ⟨0, .listForApp ['a']⟩ crossing.world = (.ok (.sessions l'), crossing.world) ∧
      ['t'] ∈ l.map (fun s => s.addr.id) ∧ ['s'] ∉ l.map (fun s => s.addr.id) ∧
      (l.map fun s => s.addr.id).Perm (idsOfUser ['u'] l') := by
  have hdone : ∀ b ∈ crossing.procs.map fun p => p.prog.finished, b = true := by decide +kernel
  obtain ⟨l, w', l', hlist, hlist', -, hiff, hperm⟩ := listing_exact_after_race env cfg crossing reach_crossing
    (fun p hp => hdone _ (List.mem_map.mpr ⟨p, hp, rfl⟩)) 0 ['a'] ['u'] (by decide) (by decide)
  have hthere : (row ⟨['a'], ['u'], ['t']⟩ crossing.world).isSome := by decide +kernel
  have hgone : (row ⟨['a'], ['u'], ['s']⟩ crossing.world).isSome = false := by decide +kernel
  refine ⟨l, w', l', hlist, hlist', (hiff ['t']).mpr ⟨⟨by decide, by decide, by decide, by decide⟩, hthere⟩, fun hs => ?_, hperm⟩
  have hsome := ((hiff ['s']).mp hs).2
  rw [hgone] at hsome
  cases hsome

open Sessions.Small in
/-- The deletion takes the entry of the new session off the manifest. -/
theorem recreated_session_unlisted :
    (service env cfg).Reach Calmly ⟨.empty, []⟩ overtaken ∧
    (∀ p ∈ overtaken.procs, p.prog.finished) ∧
    ∃ l w', perform env cfg ⟨0, .listForUser ['a'] ['u']⟩ overtaken.world = (.ok (.sessions l), w') ∧
      ¬ ∀ id, id ∈ l.map (fun s => s.addr.id) ↔
        Addr.Named ⟨['a'], ['u'], id⟩ ∧ (row ⟨['a'], ['u'], id⟩ overtaken.world).isSome := by
  have hdone : ∀ p ∈ overtaken.procs.map fun p => p.prog.finished, p = true := by decide +kernel
  refine ⟨reach_overtaken, fun p hp => hdone _ (List.mem_map.mpr ⟨p, hp, rfl⟩), [], _, rfl, fun hiff => ?_⟩
  cases (hiff ['s']).mpr ⟨named_addr, by decide +kernel⟩

end AdkAerospike.Sessions
