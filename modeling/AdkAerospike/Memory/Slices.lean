import AdkAerospike.Program.Owners
import AdkAerospike.Tenants
import AdkAerospike.Memory.Index
import AdkAerospike.Memory.Resume

/-! Memories of several sessions added at the same time. The rows of a session are its own,
but the posting lists of a user are shared by all of its sessions: a session's slice of a
list are the references with its session id. Calls for other sessions leave that slice
alone, so rows and lists end up as if the calls had been made one after the other. -/

namespace AdkAerospike.Memory

open Program Data Keys Codec Server

variable {V : Type}

/-! ### Sections of the store -/

/-- A session whose ids hold no separator, and which is not called `kw`. -/
structure Section where
  app : Str
  user : Str
  session : Str
  plainApp : Plain app
  plainUser : Plain user
  plainSession : Plain session
  notKw : session ≠ memoryKwPrefix

namespace Section
variable (o : Section)

def rowKey (e : Str) : Str := memoryKey o.app o.user o.session e

def aus : Str := scopeTuple o.app o.user o.session

def listKey (t : Str) : Str := memoryPostingKey o.app o.user t

variable {o} {o' : Section}

theorem eq_of_fields (h : o.app = o'.app) (h' : o.user = o'.user) (h'' : o.session = o'.session) : o = o' := by
  cases o
  cases o'
  simp_all

theorem rowKey_eq_iff {e e' : Str} : o.rowKey e = o'.rowKey e' ↔ o = o' ∧ e = e' := by
  refine (memoryKey_inj o.plainApp o'.plainApp o.plainUser o'.plainUser o.plainSession o'.plainSession).trans ?_
  constructor
  · rintro ⟨ha, hu, hs, he⟩
    exact ⟨eq_of_fields ha hu hs, he⟩
  · rintro ⟨rfl, rfl⟩
    exact ⟨rfl, rfl, rfl, rfl⟩

theorem aus_eq_iff : o.aus = o'.aus ↔ o = o' := by
  refine (scopeTuple_inj o.plainApp o'.plainApp o.plainUser o'.plainUser).trans ?_
  constructor
  · rintro ⟨ha, hu, hs⟩
    exact eq_of_fields ha hu hs
  · rintro rfl
    exact ⟨rfl, rfl, rfl⟩

theorem rowKey_ne_posting {e a u t : Str} (ha : Plain a) (hu : Plain u) : o.rowKey e ≠ memoryPostingKey a u t := by
  intro h
  rw [memoryPostingKey_eq_memoryKey] at h
  exact o.notKw ((memoryKey_inj o.plainApp ha o.plainUser hu o.plainSession plain_memoryKwPrefix).mp h).2.2.1

/-- A section as a party to the memory set. -/
def party (o : Section) : Party Str Str := ⟨{key | ∃ e, key = o.rowKey e}, {o.aus}⟩

/-- The posting rows, which all sections share. -/
def lists : Party Str Str := ⟨{key | ∃ a u t, Plain a ∧ Plain u ∧ key = memoryPostingKey a u t}, ∅⟩

theorem party_apart (h : o ≠ o') : o.party.Apart o'.party where
  keys := Set.disjoint_left.mpr fun _ ⟨_, he⟩ ⟨_, he'⟩ => h (rowKey_eq_iff.mp (he.symm.trans he')).1
  values := Set.disjoint_singleton.mpr fun heq => h (aus_eq_iff.mp heq)

theorem lists_apart : lists.Apart o.party where
  keys := Set.disjoint_left.mpr fun _ ⟨_, _, _, ha, hu, hkey⟩ ⟨_, he⟩ => rowKey_ne_posting ha hu (he.symm.trans hkey)
  values := Set.empty_disjoint _

end Section

/-- Every record is a row of a section or a posting row, whose references name sessions
that are sections. -/
def Known (σ : Store V) : Prop := ∀ key r, σ.get key = some r →
  (∃ (o : Section) (e : Str), key = o.rowKey e ∧ r.aus = some o.aus) ∨
    ∃ a u t l, Plain a ∧ Plain u ∧ key = memoryPostingKey a u t ∧ r = { postings := some l } ∧
      ∀ ref ∈ l, Plain ref.sid ∧ ref.sid ≠ memoryKwPrefix

section Known
variable {cfg : ServerConfig V} {σ σ' : Store V} {o : Section}

theorem Known.filed (h : Known σ) : cfg.table.Filed o.party σ := by
  intro key r i hr hi hmem
  rcases h key r hr with ⟨o', e, rfl, haus⟩ | ⟨a, u, t, l, -, -, -, rfl, -⟩
  · have heq : o'.aus = o.aus := (Option.some.inj (haus.symm.trans hi)).trans hmem
    exact ⟨e, by rw [Section.aus_eq_iff.mp heq]⟩
  · cases hi

/-- A posting row has no other bin, and its references name sections. -/
theorem Known.list (h : Known σ) {a u t : Str} (ha : Plain a) (hu : Plain u) {r : Record V}
    (hr : σ.get (memoryPostingKey a u t) = some r) :
    ∃ l, r = { postings := some l } ∧ ∀ ref ∈ l, Plain ref.sid ∧ ref.sid ≠ memoryKwPrefix := by
  rcases h _ r hr with ⟨o, e, hkey, -⟩ | ⟨a', u', t', l, -, -, -, hl⟩
  · exact absurd hkey.symm (Section.rowKey_ne_posting ha hu)
  · exact ⟨l, hl⟩

theorem Known.set (h : Known σ) {key : Str} {v : Option (Record V)}
    (hv : ∀ r, v = some r → Known ((∅ : Store V).set key (some r))) : Known (σ.set key v) := by
  intro key' r hr
  rw [FMap.get_set] at hr
  split_ifs at hr with hk
  · refine hv r hr key' r ?_
    rw [FMap.get_set, if_pos hk]
  · exact h key' r hr

/-- One record alone is known. -/
theorem known_single {key : Str} {r : Record V} (h : (∃ (o : Section) (e : Str), key = o.rowKey e ∧ r.aus = some o.aus) ∨
    ∃ a u t l, Plain a ∧ Plain u ∧ key = memoryPostingKey a u t ∧ r = { postings := some l } ∧
      ∀ ref ∈ l, Plain ref.sid ∧ ref.sid ≠ memoryKwPrefix) : Known ((∅ : Store V).set key (some r)) := by
  intro key' r' hr
  rw [FMap.get_set] at hr
  split_ifs at hr with hk
  · cases hr
    rw [hk]
    exact h
  · cases hr

end Known

/-! ### Requests -/

/-- What the calls that add to a section ask for. -/
inductive Adds (o : Section) : Req V → Prop
  | put (e : Str) (bins : Record V) (haus : bins.aus = some o.aus) : Adds o (.put (o.rowKey e) bins)
  | remove (e : Str) : Adds o (.remove (o.rowKey e))
  | read (e : Str) : Adds o (.batchRead [o.rowKey e])
  | query : Adds o (.query o.aus)
  | append (t : Str) (ref : Ref) (hsid : ref.sid = o.session) : Adds o (.operate (o.listKey t) [.append ref, .read])
  | take (t : Str) (ref : Ref) (hsid : ref.sid = o.session) : Adds o (.operate (o.listKey t) [.removeByValue ref])

theorem Adds.within {o : Section} {q : Req V} (hq : Adds o q) (cfg : ServerConfig V) :
    q.Within cfg.table o.party ∨ q.Within cfg.table Section.lists := by
  cases hq with
  | put e bins haus => exact .inl ⟨⟨e, rfl⟩, fun i hi => Option.some.inj (hi.symm.trans haus)⟩
  | remove e => exact .inl ⟨e, rfl⟩
  | read e => exact .inl fun key hkey => ⟨e, List.mem_singleton.mp hkey⟩
  | query => exact .inl rfl
  | append t ref => exact .inr ⟨_, _, t, o.plainApp, o.plainUser, rfl⟩
  | take t ref => exact .inr ⟨_, _, t, o.plainApp, o.plainUser, rfl⟩

/-- The list that was read is not to be trimmed. -/
def Brief (x : Except Server.Err (Option (List Ref))) : Prop := ∃ l, x = .ok l ∧ (l.getD []).length ≤ maxPostingListSize

/-- The answer is no error, or that there is no record. -/
def Passed (x : Except Server.Err (Option (List Ref))) : Prop := (∃ l, x = .ok l) ∨ x = .error .recordNotFound

/-- Answers after which the calls that add go on alike. -/
def SameTo : (q : Req V) → Ans q → Ans q → Prop
  | .operate _ [.removeByValue _], x, x' => Passed x ∧ Passed x'
  | .operate _ _, x, x' => Brief x ∧ Brief x'
  | _, x, x' => x = x'

section Heeds
variable {o : Section}

abbrev Heeds {α : Type} (o : Section) (p : Service V α) : Prop := p.Heeds (Adds o) SameTo

theorem heeds_answer {α : Type} (x : Except Server.Err α) : Heeds o (answer x : Service V α) := by
  cases x <;> trivial

theorem heeds_of_eq_ret {p : Service V Unit} (h : p = .ret ()) : Heeds o p := by
  rw [h]
  trivial

theorem heeds_appendPostingRefs {ref : Ref} (href : ref.sid = o.session) (tokens : List Str) :
    Heeds o (appendPostingRefs o.app o.user ref tokens : Service V Unit) := by
  induction tokens with
  | nil => trivial
  | cons t ts ih =>
    have hdone : ∀ x : Except Server.Err (Option (List Ref)), Brief x →
        ((answer x : Service V _).bind fun result => if (result.getD []).length ≤ maxPostingListSize then .ret ()
          else (operate (o.listKey t) [.removeFirst ((result.getD []).length - maxPostingListSize)]).bind
            fun _ => .ret ()) = .ret () := by
      rintro _ ⟨l, rfl, hl⟩
      exact if_pos hl
    refine Prog.Heeds.bind (p := appendPostingRef o.app o.user t ref) ⟨.append t ref href, fun x x' hx => ?_⟩ fun _ => ih
    exact ⟨(hdone x hx.1).trans (hdone x' hx.2).symm, heeds_of_eq_ret (hdone x hx.1)⟩

theorem heeds_removePostingRefs {ref : Ref} (href : ref.sid = o.session) (tokens : List Str) :
    Heeds o (removePostingRefs o.app o.user ref tokens : Service V Unit) := by
  induction tokens with
  | nil => trivial
  | cons t ts ih =>
    have hdone : ∀ x : Except Server.Err (Option (List Ref)), Passed x →
        (((answer x : Service V _).bind fun _ => .ret ()).tryCatch fun e =>
          if e = .server .recordNotFound then .ret () else .raise e) = (.ret () : Service V Unit) := by
      rintro _ (⟨l, rfl⟩ | rfl) <;> rfl
    refine Prog.Heeds.bind (p := unlessNotFound (operate (o.listKey t) [.removeByValue ref]))
      ⟨.take t ref href, fun x x' hx => ?_⟩ fun _ => ih
    exact ⟨(hdone x hx.1).trans (hdone x' hx.2).symm, heeds_of_eq_ret (hdone x hx.1)⟩

variable {inst : Instance V} {e : Event V} {events : List (Event V)}

theorem heeds_upsert (e : Event V) (text : Str) : Heeds o (upsertMemory inst o.app o.user o.session e text) :=
  Prog.Heeds.bind ⟨.put e.id _ rfl, fun x _ hx => ⟨congrArg answer hx, heeds_answer x⟩⟩
    fun _ => heeds_appendPostingRefs rfl _

theorem heeds_addSession : Heeds o (addSessionToMemory inst o.app o.user o.session events) := by
  have hpurge : Heeds o (purgeSessionMemories o.app o.user o.session : Service V Unit) := by
    refine Prog.Heeds.bind ⟨.query, fun x _ hx => ⟨congrArg answer hx, heeds_answer x⟩⟩ fun rs => ?_
    induction rs with
    | nil => trivial
    | cons r rs ih =>
      refine Prog.Heeds.bind (p := purgeRow o.app o.user o.session r) ?_ fun _ => ih
      have hlast : Heeds o (unlessNotFound (remove (memoryKey o.app o.user o.session (r.eid.getD []))) :
          Service V Unit) := by
        refine ⟨.remove (r.eid.getD []), fun x _ hx => ⟨by rw [hx], ?_⟩⟩
        refine Prog.Heeds.tryCatch ((heeds_answer x).bind fun _ => trivial) fun e => ?_
        split_ifs <;> trivial
      unfold purgeRow
      dsimp only
      split_ifs
      · exact Prog.Heeds.bind (heeds_removePostingRefs rfl _) fun _ => hlast
      · exact hlast
  refine hpurge.bind fun _ => ?_
  induction events with
  | nil => trivial
  | cons e es ih =>
    refine Prog.Heeds.bind (p := addEvent inst o.app o.user o.session e) ?_ fun _ => ih
    unfold addEvent
    split
    · trivial
    · exact heeds_upsert e _

theorem heeds_addAbsent : Heeds o (addAbsent inst o.app o.user o.session events) := by
  induction events with
  | nil => trivial
  | cons e es ih =>
    refine Prog.Heeds.bind (p := addEventIfAbsent inst o.app o.user o.session e) ?_ fun _ => ih
    unfold addEventIfAbsent
    split
    · trivial
    · refine Prog.Heeds.bind (p := batchRead [memoryKey o.app o.user o.session e.id])
        ⟨.read e.id, fun x _ hx => ⟨congrArg answer hx, heeds_answer x⟩⟩ fun rows => ?_
      split
      · trivial
      · exact heeds_upsert e _

end Heeds

/-! ### What a request leaves -/

section Lists
variable {cfg : ServerConfig V} {σ : Store V} {o o' : Section} {q : Req V}

theorem exec_take (hcfg : cfg.Ample) (key : Str) (ref : Ref) (σ : Store V) :
    exec cfg .fair (.operate key [.removeByValue ref]) σ =
      match σ.get key with
      | some r => (.ok none, σ.set key (some (r.drop ref)))
      | none => (.error .recordNotFound, σ) := by
  cases hr : σ.get key with
  | none =>
    have hop : cfg.table.onOperate [.removeByValue ref] (σ.get key) = .error .recordNotFound := by rw [hr]; rfl
    exact Server.change_of_error hop
  | some r =>
    have hop : cfg.table.onOperate [.removeByValue ref] (σ.get key) = .ok (none, some (r.drop ref)) := by
      rw [hr]
      exact if_pos (hcfg _)
    exact Server.change_of_ok hop

/-- What a request makes of a posting list. -/
def relist (key : Str) : Req V → List Ref → List Ref
  | .operate key' [.append ref, .read], l => if key = key' then l ++ [ref] else l
  | .operate key' [.removeByValue ref], l => if key = key' then l.filter fun x => x ≠ ref else l
  | _, l => l

theorem relist_append (key key' : Str) (ref : Ref) (l : List Ref) :
    relist key (.operate key' [.append ref, .read] : Req V) l = if key = key' then l ++ [ref] else l := rfl

theorem relist_take (key key' : Str) (ref : Ref) (l : List Ref) :
    relist key (.operate key' [.removeByValue ref] : Req V) l = if key = key' then l.filter fun x => x ≠ ref else l := rfl

theorem refs_set (key key' : Str) (r : Record V) :
    Record.refs ((σ.set key (some r)).get key') = if key' = key then Record.refs (some r) else Record.refs (σ.get key') := by
  rw [FMap.get_set]
  split_ifs <;> rfl

/-- The posting lists after a request of a section. -/
theorem Adds.postings (hcfg : cfg.Ample) (h : Known σ) (hq : Adds o q) {a u : Str} (t : Str) (ha : Plain a) (hu : Plain u) :
    postings a u t (exec cfg .fair q σ).2 = relist (memoryPostingKey a u t) q (postings a u t σ) := by
  have hrow : ∀ {q : Req V} {e : Str}, q.keys = [o.rowKey e] →
      Memory.postings a u t (exec cfg .fair q σ).2 = Memory.postings a u t σ := fun hkeys => by
    unfold Memory.postings
    rw [exec, Server.exec_get_of_notMem .fair (by simpa [hkeys] using (Section.rowKey_ne_posting ha hu).symm)]
  cases hq with
  | put e bins => exact hrow rfl
  | remove e => exact hrow rfl
  | read e => exact congrArg (Memory.postings a u t) (Server.exec_of_keys .fair rfl σ)
  | query => exact congrArg (Memory.postings a u t) (Server.exec_of_keys .fair rfl σ)
  | append t' ref =>
    rw [exec_append hcfg, relist_append]
    unfold Memory.postings
    rw [refs_set]
    split_ifs with hk
    · rw [hk]
      rfl
    · rfl
  | take t' ref =>
    rw [exec_take hcfg, relist_take]
    unfold Memory.postings
    cases hr : σ.get (o.listKey t') with
    | none =>
      split_ifs with hk
      · rw [hk, hr]
        rfl
      · rfl
    | some r =>
      rw [refs_set]
      split_ifs with hk
      · obtain ⟨l, rfl, -⟩ := h.list o.plainApp o.plainUser hr
        rw [hk, hr]
        rfl
      · rfl

theorem Adds.known (hcfg : cfg.Ample) (h : Known σ) (hq : Adds o q) : Known (exec cfg .fair q σ).2 := by
  have hsid : ∀ {ref : Ref}, ref.sid = o.session → Plain ref.sid ∧ ref.sid ≠ memoryKwPrefix := fun href =>
    href ▸ ⟨o.plainSession, o.notKw⟩
  cases hq with
  | put e bins haus =>
    obtain ⟨r, hr, hput⟩ : ∃ r : Record V, r.aus = bins.aus ∧
        cfg.table.onPut bins (σ.get (o.rowKey e)) = .ok ((), some r) := by
      cases σ.get (o.rowKey e) with
      | none => exact ⟨bins, rfl, if_pos (hcfg _)⟩
      | some r₀ => exact ⟨{ bins with postings := r₀.postings }, rfl, if_pos (hcfg _)⟩
    have hexec : exec cfg .fair (.put (o.rowKey e) bins) σ = _ := Server.change_of_ok hput
    rw [hexec]
    refine h.set fun r' hr' => known_single (.inl ⟨o, e, rfl, ?_⟩)
    cases hr'
    exact hr.trans haus
  | remove e =>
    intro key r hr
    have hget := Server.exec_remove_get (T := cfg.table) (o.rowKey e) key σ
    rw [exec, hget] at hr
    split_ifs at hr
    exact h key r hr
  | read e =>
    rw [exec, Server.exec_of_keys .fair rfl σ]
    exact h
  | query =>
    rw [exec, Server.exec_of_keys .fair rfl σ]
    exact h
  | append t ref href =>
    obtain ⟨l, hl, hnew⟩ : ∃ l, Record.add ref (σ.get (o.listKey t)) = { postings := some l } ∧
        ∀ x ∈ l, Plain x.sid ∧ x.sid ≠ memoryKwPrefix := by
      cases hr : σ.get (o.listKey t) with
      | none => exact ⟨[ref], rfl, fun x hx => List.mem_singleton.mp hx ▸ hsid href⟩
      | some r =>
        obtain ⟨l, rfl, hl⟩ := h.list o.plainApp o.plainUser hr
        refine ⟨l ++ [ref], rfl, fun x hx => ?_⟩
        rcases List.mem_append.mp hx with hx | hx
        · exact hl x hx
        · exact List.mem_singleton.mp hx ▸ hsid href
    rw [exec_append hcfg, hl]
    refine h.set fun r hr => known_single (.inr ⟨_, _, t, l, o.plainApp, o.plainUser, rfl, ?_, hnew⟩)
    exact (Option.some.inj hr).symm
  | take t ref href =>
    rw [exec_take hcfg]
    cases hr : σ.get (o.listKey t) with
    | none => exact h
    | some r =>
      obtain ⟨l, rfl, hl⟩ := h.list o.plainApp o.plainUser hr
      refine h.set fun r' hr' => known_single (.inr ⟨_, _, t, l.filter fun x => x ≠ ref, o.plainApp, o.plainUser, rfl, ?_,
        fun x hx => hl x (List.mem_of_mem_filter hx)⟩)
      cases hr'
      rfl

end Lists

/-! ### Slices -/

/-- The session that a call adds to. -/
def Call.place : Call V → Option (Str × Str × Str)
  | .addSession app user session _ => some (app, user, session)
  | .addEvents app user _ session => some (app, user, scopedSessionId session)
  | .search .. => none

def ownedBy (o : Section) (l : Instance V × Call V) : Prop := l.2.place = some (o.app, o.user, o.session)

instance (o : Section) : DecidablePred (ownedBy o : Instance V × Call V → Prop) := fun _ =>
  inferInstanceAs (Decidable (_ = _))

/-- What the section has of the first store is the second one: its rows, and of the posting
lists of its user the references with its session id. -/
structure Slice (cfg : ServerConfig V) (o : Section) (σ σ' : Store V) : Prop where
  known : Known σ
  known' : Known σ'
  rows : cfg.table.Alike o.party σ σ'
  lists : ∀ t, postings o.app o.user t σ' = (postings o.app o.user t σ).filter fun ref => ref.sid = o.session

section Slices
variable {cfg : ServerConfig V} {σ σ' : Store V} {o o' : Section} {q : Req V}

theorem Slice.empty (o : Section) : Slice cfg o ∅ ∅ :=
  ⟨fun _ _ h => (nomatch h), fun _ _ h => (nomatch h), .refl _ _ _, fun _ => rfl⟩

/-- A posting row is of no session's rows. -/
theorem Known.alike (h : Known σ) (hq : q.Within cfg.table Section.lists) :
    cfg.table.Alike o.party σ (exec cfg .fair q σ).2 :=
  exec_unseen (stable_table cfg) .fair h.filed hq Section.lists_apart

/-- The references of other sessions are left alone. -/
theorem Adds.filter_relist (hq : Adds o' q) (ho : o' ≠ o) (t : Str) (l : List Ref) :
    (relist (memoryPostingKey o.app o.user t) q l).filter (fun ref => ref.sid = o.session) =
      l.filter fun ref => ref.sid = o.session := by
  have hsid : ∀ {t' : Str} {ref : Ref}, ref.sid = o'.session →
      memoryPostingKey o.app o.user t = o'.listKey t' → ref.sid ≠ o.session := fun href hkey heq => by
    obtain ⟨happ, huser, -⟩ := (memoryPostingKey_inj o.plainApp o'.plainApp o.plainUser o'.plainUser).mp hkey
    exact ho (Section.eq_of_fields happ.symm huser.symm (href.symm.trans heq))
  cases hq with
  | append t' ref href =>
    rw [relist_append]
    split_ifs with hkey
    · simp [hsid href hkey]
    · rfl
  | take t' ref href =>
    rw [relist_take]
    split_ifs with hkey
    · rw [List.filter_filter]
      refine List.filter_congr fun x _ => ?_
      by_cases hx : x = ref
      · simp [hx, hsid href hkey]
      · simp [hx]
    · rfl
  | _ => rfl

/-- The references of the section itself are changed as the whole list is. -/
theorem Adds.relist_filter (hq : Adds o q) (t : Str) (l : List Ref) :
    (relist (memoryPostingKey o.app o.user t) q l).filter (fun ref => ref.sid = o.session) =
      relist (memoryPostingKey o.app o.user t) q (l.filter fun ref => ref.sid = o.session) := by
  cases hq with
  | append t' ref href =>
    rw [relist_append, relist_append]
    split_ifs
    · rw [List.filter_append, List.filter_cons_of_pos (by simpa using href), List.filter_nil]
    · rfl
  | take t' ref href =>
    rw [relist_take, relist_take]
    split_ifs
    · rw [List.filter_filter, List.filter_filter]
      exact List.filter_congr fun _ _ => Bool.and_comm _ _
    · rfl
  | _ => rfl

/-- The answers to a request of the section, on a store whose lists are short. -/
theorem Slice.sameTo (hcfg : cfg.Ample) (h : Slice cfg o σ σ') (hq : Adds o q) (hshort : Short (exec cfg .fair q σ).2) :
    SameTo q (exec cfg .fair q σ).1 (exec cfg .fair q σ').1 := by
  cases hq with
  | put e bins haus =>
    exact (h.rows.exec .fair (q := .put (o.rowKey e) bins)
      ⟨⟨e, rfl⟩, fun i hi => Option.some.inj (hi.symm.trans haus)⟩).1
  | remove e => exact (h.rows.exec .fair (q := .remove (o.rowKey e)) ⟨e, rfl⟩).1
  | read e =>
    exact (h.rows.exec .fair (q := .batchRead [o.rowKey e]) fun key hkey => ⟨e, List.mem_singleton.mp hkey⟩).1
  | query => exact (h.rows.exec .fair (q := .query o.aus) rfl).1
  | append t ref =>
    have hlen := hshort (o.listKey t)
    rw [exec_append hcfg, refs_set, if_pos rfl] at hlen
    have hslice : Record.refs (σ'.get (o.listKey t)) =
        (Record.refs (σ.get (o.listKey t))).filter fun ref => ref.sid = o.session := h.lists t
    have hle := List.length_filter_le (fun ref : Ref => decide (ref.sid = o.session)) (Record.refs (σ.get (o.listKey t)))
    rw [← hslice] at hle
    have hall : (Record.refs (σ.get (o.listKey t)) ++ [ref]).length ≤ maxPostingListSize := hlen
    have hread : ∀ τ : Store V, (exec cfg .fair (.operate (o.listKey t) [.append ref, .read]) τ).1 =
        .ok (some (Record.refs (τ.get (o.listKey t)) ++ [ref])) := fun τ => by rw [exec_append hcfg]
    refine ⟨⟨_, hread σ, hall⟩, ⟨_, hread σ', ?_⟩⟩
    simp only [Option.getD_some, List.length_append] at hall ⊢
    omega
  | take t ref =>
    have hpassed : ∀ τ : Store V, Passed (exec cfg .fair (.operate (o.listKey t) [.removeByValue ref]) τ).1 := fun τ => by
      rw [exec_take hcfg]
      cases τ.get (o.listKey t) with
      | none => exact .inr rfl
      | some r => exact .inl ⟨none, rfl⟩
    exact ⟨hpassed σ, hpassed σ'⟩

theorem Slice.own (hcfg : cfg.Ample) (h : Slice cfg o σ σ') (hq : Adds o q) :
    Slice cfg o (exec cfg .fair q σ).2 (exec cfg .fair q σ').2 where
  known := hq.known hcfg h.known
  known' := hq.known hcfg h.known'
  rows := by
    rcases hq.within cfg with hrow | hlist
    · exact (h.rows.exec .fair hrow).2
    · exact ((h.known.alike hlist).symm.trans h.rows).trans (h.known'.alike hlist)
  lists t := by
    rw [hq.postings hcfg h.known' t o.plainApp o.plainUser, hq.postings hcfg h.known t o.plainApp o.plainUser,
      hq.relist_filter, h.lists]

theorem Slice.other (hcfg : cfg.Ample) (h : Slice cfg o σ σ') (ho : o' ≠ o) (hq : Adds o' q) :
    Slice cfg o (exec cfg .fair q σ).2 σ' where
  known := hq.known hcfg h.known
  known' := h.known'
  rows := by
    have hunseen : cfg.table.Alike o.party σ (exec cfg .fair q σ).2 := by
      rcases hq.within cfg with hrow | hlist
      · exact exec_unseen (stable_table cfg) .fair h.known.filed hrow (Section.party_apart ho)
      · exact h.known.alike hlist
    exact hunseen.symm.trans h.rows
  lists t := by
    rw [hq.postings hcfg h.known t o.plainApp o.plainUser, hq.filter_relist ho, h.lists]

theorem slices (hcfg : cfg.Ample) : (service cfg).Slices .fair ownedBy Adds (fun _ => SameTo) Short (Slice cfg) where
  heeds := by
    rintro o ⟨inst, c⟩ h
    cases c with
    | addSession app user session events =>
      obtain ⟨rfl, rfl, rfl⟩ : app = o.app ∧ user = o.user ∧ session = o.session := by simpa using Option.some.inj h
      exact heeds_addSession.bind fun _ => trivial
    | addEvents app user events session =>
      obtain ⟨rfl, rfl, hsession⟩ : app = o.app ∧ user = o.user ∧ scopedSessionId session = o.session := by
        simpa using Option.some.inj h
      refine Prog.Heeds.bind (p := addEventsToMemory inst o.app o.user events session) ?_ fun _ => trivial
      rw [addEventsToMemory, hsession]
      exact heeds_addAbsent
    | search app user text => cases h
  own _ hq hshort h := ⟨h.sameTo hcfg hq hshort, h.own hcfg hq⟩
  other ho _ hq _ h := h.other hcfg ho hq

end Slices

end AdkAerospike.Memory
