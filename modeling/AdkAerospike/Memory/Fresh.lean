import AdkAerospike.Memory.Search
import AdkAerospike.Memory.Words

/-! Finding a memory that was just added. Its reference stands at the end of the
posting list of each of its tokens, and a search for one token reads the list from the
front until it has seen as many different event ids as it takes candidates. So the new
event is found, and found first, exactly if fewer are in front of it. -/

namespace AdkAerospike.Memory

open Program Data Keys Codec

variable {V : Type}

/-! ### Gathering up to the limit -/

theorem dedup_length_congr {α : Type} [DecidableEq α] {l l' : List α} (h : ∀ x, x ∈ l ↔ x ∈ l') :
    l.dedup.length = l'.dedup.length :=
  ((List.perm_ext_iff_of_nodup l.nodup_dedup l'.nodup_dedup).mpr fun x => by simp [h]).length_eq

namespace Candidates

/-- How many event ids there are among the candidates and the references. -/
def idCount (cs : Candidates) (refs : List Ref) : ℕ := (cs.map Prod.fst ++ refs.map Ref.eid).dedup.length

theorem offer_ids (cs : Candidates) (ref : Ref) :
    (cs.offer ref).map Prod.fst =
      if ref.eid ∈ cs.map Prod.fst then cs.map Prod.fst else cs.map Prod.fst ++ [ref.eid] := by
  unfold offer
  cases hfind : cs.find? fun c => c.1 = ref.eid with
  | none =>
    have hnew : ref.eid ∉ cs.map Prod.fst := fun hmem => by
      obtain ⟨c, hc, heq⟩ := List.mem_map.mp hmem
      simpa [heq] using List.find?_eq_none.mp hfind c hc
    rw [if_neg hnew, List.map_append]
    rfl
  | some prev =>
    have hold : ref.eid ∈ cs.map Prod.fst := by
      have heq : prev.1 = ref.eid := by simpa using List.find?_some hfind
      exact List.mem_map.mpr ⟨prev, List.mem_of_find?_eq_some hfind, heq⟩
    rw [if_pos hold]
    dsimp only
    split_ifs
    · rw [List.map_map]
      refine List.map_congr_left fun c _ => ?_
      simp only [Function.comp_apply]
      split_ifs with hc
      · exact hc.symm
      · rfl
    · rfl

theorem nodup_offer {cs : Candidates} (h : (cs.map Prod.fst).Nodup) (ref : Ref) :
    ((cs.offer ref).map Prod.fst).Nodup := by
  rw [offer_ids]
  split_ifs with hmem
  · exact h
  · exact h.append (List.nodup_singleton _) (by simpa using hmem)

theorem idCount_offer (cs : Candidates) (ref : Ref) (refs : List Ref) :
    idCount (cs.offer ref) refs = idCount cs (ref :: refs) := by
  refine dedup_length_congr fun x => ?_
  rw [offer_ids]
  split_ifs with hmem
  · simp only [List.mem_append, List.map_cons, List.mem_cons]
    constructor
    · rintro (h | h)
      · exact .inl h
      · exact .inr (.inr h)
    · rintro (h | rfl | h)
      · exact .inl h
      · exact .inl hmem
      · exact .inr h
  · simp

theorem idCount_nil {cs : Candidates} (h : (cs.map Prod.fst).Nodup) : idCount cs [] = cs.length := by
  rw [idCount, List.map_nil, List.append_nil, h.dedup, List.length_map]

theorem length_le_idCount {cs : Candidates} (h : (cs.map Prod.fst).Nodup) (refs : List Ref) :
    cs.length ≤ idCount cs refs := by
  have hsub : cs.map Prod.fst ⊆ (cs.map Prod.fst ++ refs.map Ref.eid).dedup := fun x hx =>
    List.mem_dedup.mpr (List.mem_append_left _ hx)
  rw [idCount, ← List.length_map Prod.fst]
  exact (List.subperm_of_subset h hsub).length_le

theorem gather_cons {ref : Ref} (href : ref.eid ≠ [] ∧ ref.sid ≠ []) (refs : List Ref) (cs : Candidates) :
    gather (ref :: refs) cs =
      if maxSearchCandidates ≤ (cs.offer ref).length then cs.offer ref else gather refs (cs.offer ref) := by
  rw [gather, if_neg (by simp [href.1, href.2])]

/-- While the limit is not reached, gathering goes on. -/
theorem gather_append_of_lt {refs : List Ref} (hrefs : ∀ ref ∈ refs, ref.eid ≠ [] ∧ ref.sid ≠ [])
    (more : List Ref) {cs : Candidates} (hcs : (cs.map Prod.fst).Nodup)
    (hlt : idCount cs refs < maxSearchCandidates) : gather (refs ++ more) cs = gather more (gather refs cs) := by
  induction refs generalizing cs with
  | nil => rfl
  | cons ref refs ih =>
    have href := hrefs ref (by simp)
    rw [← idCount_offer] at hlt
    have hgo := (length_le_idCount (nodup_offer hcs ref) refs).trans_lt hlt
    rw [List.cons_append, gather_cons href, gather_cons href, if_neg (by omega), if_neg (by omega)]
    exact ih (fun r hr => hrefs r (by simp [hr])) (nodup_offer hcs ref) hlt

/-- Once it is reached, what follows is not looked at. -/
theorem gather_append_of_le {refs : List Ref} (hrefs : ∀ ref ∈ refs, ref.eid ≠ [] ∧ ref.sid ≠ [])
    (more : List Ref) {cs : Candidates} (hcs : (cs.map Prod.fst).Nodup) (hroom : cs.length < maxSearchCandidates)
    (hle : maxSearchCandidates ≤ idCount cs refs) : gather (refs ++ more) cs = gather refs cs := by
  induction refs generalizing cs with
  | nil =>
    rw [idCount_nil hcs] at hle
    omega
  | cons ref refs ih =>
    have href := hrefs ref (by simp)
    rw [List.cons_append, gather_cons href, gather_cons href]
    split_ifs with hfull
    · rfl
    · rw [← idCount_offer] at hle
      exact ih (fun r hr => hrefs r (by simp [hr])) (nodup_offer hcs ref) (by omega) hle

theorem mem_offer {cs : Candidates} {ref : Ref} {c : Str × Str × ℚ} (h : c ∈ cs.offer ref) :
    c ∈ cs ∨ c = ref.candidate := by
  unfold offer at h
  split at h
  · simpa [Ref.candidate] using h
  · split_ifs at h
    · obtain ⟨d, hd, rfl⟩ := List.mem_map.mp h
      split_ifs
      · exact .inr rfl
      · exact .inl hd
    · exact .inl h

/-- A candidate comes from a reference. -/
theorem mem_gather {refs : List Ref} {cs : Candidates} {c : Str × Str × ℚ} (h : c ∈ gather refs cs) :
    c ∈ cs ∨ ∃ ref ∈ refs, c = ref.candidate := by
  induction refs generalizing cs with
  | nil => exact .inl h
  | cons ref refs ih =>
    have hoffer : c ∈ cs.offer ref → c ∈ cs ∨ ∃ r ∈ ref :: refs, c = r.candidate := fun hc => by
      rcases mem_offer hc with hc | hc
      · exact .inl hc
      · exact .inr ⟨ref, by simp, hc⟩
    have hrest : ∀ cs', (c ∈ cs' → c ∈ cs ∨ ∃ r ∈ ref :: refs, c = r.candidate) → c ∈ gather refs cs' →
        c ∈ cs ∨ ∃ r ∈ ref :: refs, c = r.candidate := fun cs' hcs' hc => by
      rcases ih hc with hc | ⟨r, hr, hc⟩
      · exact hcs' hc
      · exact .inr ⟨r, by simp [hr], hc⟩
    rw [gather] at h
    split_ifs at h
    · exact hrest cs .inl h
    · exact hoffer h
    · exact hrest _ hoffer h

/-- A reference with an id of its own at the end of a list. -/
theorem gather_concat {refs : List Ref} (hrefs : ∀ ref ∈ refs, ref.eid ≠ [] ∧ ref.sid ≠ []) {ref : Ref}
    (href : ref.eid ≠ [] ∧ ref.sid ≠ []) (hnew : ∀ r ∈ refs, r.eid ≠ ref.eid) :
    gather (refs ++ [ref]) [] = gather refs [] ++
      if (refs.map Ref.eid).dedup.length < maxSearchCandidates then [ref.candidate] else [] := by
  have hnil : (([] : Candidates).map Prod.fst).Nodup := .nil
  split_ifs with hlt
  · have hfind : (gather refs []).find? (fun c => c.1 = ref.eid) = none := by
      refine List.find?_eq_none.mpr fun c hc => ?_
      rcases mem_gather hc with hc | ⟨r, hr, rfl⟩
      · cases hc
      · exact fun heq => hnew r hr (of_decide_eq_true heq)
    have hoffer : (gather refs []).offer ref = gather refs [] ++ [ref.candidate] := by
      rw [offer, hfind]
      rfl
    rw [gather_append_of_lt hrefs [ref] hnil hlt, gather_cons href]
    split_ifs
    · exact hoffer
    · exact hoffer
  · rw [List.append_nil]
    exact gather_append_of_le hrefs [ref] hnil (by decide) (not_lt.mp hlt)

end Candidates

/-! ### Stores that calls leave -/

/-- Ids as calls use them. -/
structure Ref.Spelled (ref : Ref) : Prop where
  event : ref.eid ≠ []
  session : ref.sid ≠ []
  plain : Plain ref.sid
  notKw : ref.sid ≠ memoryKwPrefix

/-- A row carries the event id of its key, and references have ids as calls use them. -/
structure Spelled (σ : Store V) : Prop where
  row : ∀ id : Id, id.Named → ∀ r, σ.get id.key = some r → r.eid = some id.event
  refs : ∀ key, ∀ ref ∈ Record.refs (σ.get key), ref.Spelled

/-- The requests of calls with such ids. -/
def Writes : Req V → Prop
  | .put key bins => (∃ id : Id, id.Named ∧ key = id.key ∧ bins.eid = some id.event) ∧ bins.postings = none
  | .operate key ops => (∃ app user t, Plain app ∧ Plain user ∧ key = memoryPostingKey app user t) ∧
      ∀ ref, .append ref ∈ ops → ref.Spelled
  | .create _ _ => False
  | _ => True

section Spelled
variable {cfg : ServerConfig V} {σ : Store V}

theorem mem_refs_act {ops : List Op} {x : Record V × Option (List Ref)} {ref : Ref}
    (h : ref ∈ Record.refs (some (ops.foldl Op.act x).1)) : ref ∈ Record.refs (some x.1) ∨ .append ref ∈ ops := by
  induction ops generalizing x with
  | nil => exact .inl h
  | cons op ops ih =>
    have hfirst : ref ∈ Record.refs (some (Op.act x op).1) → ref ∈ Record.refs (some x.1) ∨ .append ref ∈ op :: ops := by
      cases op with
      | append r =>
        simp only [Record.refs, Op.act, Option.bind_some, Option.getD_some, List.mem_append, List.mem_singleton]
        rintro (h | rfl)
        · exact .inl h
        · exact .inr (by simp)
      | read => exact .inl
      | removeFirst count =>
        cases hl : x.1.postings with
        | none => simp [Record.refs, Op.act, hl]
        | some l =>
          simp only [Record.refs, Op.act, hl, Option.bind_some, Option.map_some, Option.getD_some]
          exact fun h => .inl (List.mem_of_mem_drop h)
      | removeByValue r =>
        cases hl : x.1.postings with
        | none => simp [Record.refs, Op.act, hl]
        | some l =>
          simp only [Record.refs, Op.act, hl, Option.bind_some, Option.map_some, Option.getD_some]
          exact fun h => .inl (List.mem_filter.mp h).1
    rcases ih h with h | h
    · exact hfirst h
    · exact .inr (List.mem_cons_of_mem _ h)

theorem get_exec_put (cfg : ServerConfig V) (key key' : Str) (bins : Record V) (σ : Store V) :
    (exec cfg .fair (.put key bins) σ).2.get key' = σ.get key' ∨ key' = key ∧
      (exec cfg .fair (.put key bins) σ).2.get key' =
        some ((σ.get key).elim bins fun r => { bins with postings := r.postings }) := by
  rcases Server.change_get_cases key key' (cfg.table.onPut bins) σ with hsame | ⟨hk, a, ha⟩
  · exact .inl hsame
  · exact .inr ⟨hk, Server.Table.leave_eq_ok ha⟩

theorem get_exec_operate (cfg : ServerConfig V) (key key' : Str) (ops : List Op) (σ : Store V) :
    (exec cfg .fair (.operate key ops) σ).2.get key' = σ.get key' ∨ key' = key ∧
      (exec cfg .fair (.operate key ops) σ).2.get key' =
        some (ops.foldl Op.act ((σ.get key).getD {}, none)).1 := by
  rcases Server.change_get_cases key key' (cfg.table.onOperate ops) σ with hsame | ⟨hk, a, ha⟩
  · exact .inl hsame
  · refine .inr ⟨hk, ?_⟩
    cases hr : σ.get key with
    | some r =>
      rw [hr] at ha
      exact Server.Table.leave_eq_ok ha
    | none =>
      rw [hr] at ha
      simp only [Server.Table.onOperate] at ha
      split_ifs at ha
      exact Server.Table.leave_eq_ok ha

theorem Spelled.exec {q : Req V} (hq : Writes q) (h : Spelled σ) : Spelled (exec cfg .fair q σ).2 := by
  cases q with
  | create key bins => cases hq
  | get key => exact h
  | batchRead keys => exact h
  | query value => exact h
  | remove key =>
    have hcases : ∀ key', (Memory.exec cfg .fair (.remove key) σ).2.get key' = σ.get key' ∨
        (Memory.exec cfg .fair (.remove key) σ).2.get key' = none := fun key' => by
      rw [Memory.exec, Server.exec_remove_get]
      split_ifs <;> simp
    refine ⟨fun id hid r hr => ?_, fun key' ref href => ?_⟩
    · rcases hcases id.key with heq | heq <;> rw [heq] at hr
      · exact h.row id hid r hr
      · cases hr
    · rcases hcases key' with heq | heq <;> rw [heq] at href
      · exact h.refs key' ref href
      · cases href
  | put key bins =>
    obtain ⟨⟨id, hid, rfl, heid⟩, hnone⟩ := hq
    have hcases := fun key' => get_exec_put cfg id.key key' bins σ
    refine ⟨fun j hj r hr => ?_, fun key' ref href => ?_⟩
    · rcases hcases j.key with heq | ⟨hk, heq⟩ <;> rw [heq] at hr
      · exact h.row j hj r hr
      · obtain rfl : j = id := (Id.key_inj hj hid).mp hk
        cases hr
        cases σ.get j.key <;> exact heid
    · rcases hcases key' with heq | ⟨-, heq⟩ <;> rw [heq] at href
      · exact h.refs key' ref href
      · have hold := h.refs id.key ref
        cases hr : σ.get id.key with
        | none =>
          rw [hr] at href
          simp [Record.refs, hnone] at href
        | some r =>
          rw [hr] at href hold
          exact hold href
  | operate key ops =>
    obtain ⟨⟨app, user, t, ha, hu, rfl⟩, happend⟩ := hq
    have hcases := fun key' => get_exec_operate cfg (memoryPostingKey app user t) key' ops σ
    refine ⟨fun j hj r hr => ?_, fun key' ref href => ?_⟩
    · rcases hcases j.key with heq | ⟨hk, -⟩
      · rw [heq] at hr
        exact h.row j hj r hr
      · exact absurd hk (Id.key_ne_posting hj ha hu)
    · rcases hcases key' with heq | ⟨-, heq⟩ <;> rw [heq] at href
      · exact h.refs key' ref href
      · rcases mem_refs_act href with hold | hnew
        · have := h.refs (memoryPostingKey app user t) ref
          cases hr : σ.get (memoryPostingKey app user t) with
          | none =>
            rw [hr] at hold
            cases hold
          | some r =>
            rw [hr] at hold this
            exact this hold
        · exact happend ref hnew

end Spelled

/-- The calls that are considered: no id is empty or holds a separator, and no session
is called `kw`. -/
def Call.Spelled : Call V → Prop
  | .addSession app user session events =>
    Plain app ∧ Plain user ∧ Plain session ∧ session ≠ [] ∧ session ≠ memoryKwPrefix ∧ ∀ e ∈ events, e.id ≠ []
  | .addEvents app user events session =>
    Plain app ∧ Plain user ∧ (∀ s, session = some s → Plain s ∧ s ≠ memoryKwPrefix) ∧ ∀ e ∈ events, e.id ≠ []
  | .search .. => True

section Uses
variable {app user session : Str} {inst : Instance V}

theorem scopedSessionId_spelled {s : Option Str} (h : ∀ x, s = some x → Plain x ∧ x ≠ memoryKwPrefix) :
    Plain (scopedSessionId s) ∧ scopedSessionId s ≠ [] ∧ scopedSessionId s ≠ memoryKwPrefix := by
  unfold scopedSessionId
  split
  · decide
  · decide
  · next x hne => exact ⟨(h _ rfl).1, hne, (h _ rfl).2⟩

variable (ha : Plain app) (hu : Plain user)
include ha hu

theorem uses_upsertMemory (hs : Plain session) (hne : session ≠ []) (hkw : session ≠ memoryKwPrefix) {e : Event V}
    (he : e.id ≠ []) (text : Str) : (upsertMemory inst app user session e text).Uses Writes := by
  have happend : ∀ t, Writes (.operate (memoryPostingKey app user t) [.append ⟨e.id, session, e.timestamp⟩, .read] :
      Req V) := fun t => by
    refine ⟨⟨app, user, t, ha, hu, rfl⟩, fun r hr => ?_⟩
    simp only [List.mem_cons, Op.append.injEq, reduceCtorEq, List.not_mem_nil, or_false] at hr
    exact hr ▸ ⟨he, hne, hs, hkw⟩
  exact Prog.Uses.bind ⟨⟨⟨⟨app, user, session, e.id⟩, ⟨ha, hu, hs, hkw, he⟩, rfl, rfl⟩, rfl⟩, uses_answer⟩
    fun _ => Uses.appendPostingRefs happend (fun t _ => ⟨⟨app, user, t, ha, hu, rfl⟩, by simp⟩) _

theorem uses_addSessionToMemory (hs : Plain session) (hne : session ≠ []) (hkw : session ≠ memoryKwPrefix)
    {events : List (Event V)} (hids : ∀ e ∈ events, e.id ≠ []) :
    (addSessionToMemory inst app user session events).Uses Writes := by
  have hpurge : (purgeSessionMemories app user session : Service V Unit).Uses Writes :=
    Uses.purgeSessionMemories trivial (fun t _ => ⟨⟨app, user, t, ha, hu, rfl⟩, by simp⟩) fun _ => trivial
  exact hpurge.bind fun _ => Uses.addAll fun e he text _ => uses_upsertMemory ha hu hs hne hkw (hids e he) text

theorem uses_addAbsent (hs : Plain session) (hne : session ≠ []) (hkw : session ≠ memoryKwPrefix)
    {events : List (Event V)} (hids : ∀ e ∈ events, e.id ≠ []) :
    (addAbsent inst app user session events).Uses Writes :=
  Uses.addAbsent (fun _ _ => trivial) fun e he text _ => uses_upsertMemory ha hu hs hne hkw (hids e he) text

end Uses

/-- Calls with such ids leave such stores, whether they return or raise. -/
theorem Spelled.perform {cfg : ServerConfig V} {σ : Store V} (h : Spelled σ) {l : Instance V × Call V}
    (hl : l.2.Spelled) : Spelled (perform cfg l σ).2 := by
  have hrun : ∀ {p : Service V (Reply V)}, p.Uses Writes → Spelled (p.run (Memory.exec cfg .fair) σ).2 := fun hp =>
    hp.run_invariant (fun _ _ hq hv => hv.exec hq) h
  obtain ⟨inst, c⟩ := l
  cases c with
  | addSession app user session events =>
    obtain ⟨ha, hu, hs, hne, hkw, hids⟩ := hl
    exact hrun (Prog.Uses.bind (uses_addSessionToMemory ha hu hs hne hkw hids) fun _ => trivial)
  | addEvents app user events session =>
    obtain ⟨ha, hu, hs, hids⟩ := hl
    obtain ⟨hs, hne, hkw⟩ := scopedSessionId_spelled hs
    exact hrun (Prog.Uses.bind (uses_addAbsent ha hu hs hne hkw hids) fun _ => trivial)
  | search app user text =>
    obtain ⟨reply, heq⟩ := perform_search cfg inst app user text σ
    rw [heq]
    exact h

theorem spelled_stored {cfg : ServerConfig V} {cs : List (Instance V × Call V)} (hcs : ∀ l ∈ cs, l.2.Spelled) :
    Spelled (stored cfg cs) := by
  have hempty : Spelled (∅ : Store V) := ⟨fun _ _ _ h => (nomatch h), fun _ _ h => (nomatch h)⟩
  unfold stored
  generalize (∅ : Store V) = σ at hempty
  induction cs generalizing σ with
  | nil => exact hempty
  | cons l cs ih => exact ih (fun l' hl' => hcs l' (by simp [hl'])) _ (hempty.perform (hcs l (by simp)))

/-! ### Adding one event -/

/-- Everything that a complete addition of an absent event changes. -/
theorem addEvents_singleton {cfg : ServerConfig V} {inst : Instance V} {app user text : Str} {session : Option Str}
    {e : Event V} {σ σ' : Store V} (htext : memoryText e = some text)
    (habsent : σ.get (memoryKey app user (scopedSessionId session) e.id) = none)
    (hrun : perform cfg (inst, .addEvents app user [e] session) σ = (.ok .done, σ')) (key : Str) :
    σ'.get key = atTokens app user (inst.tokenize text)
      (fun r => some (Record.push ⟨e.id, scopedSessionId session, e.timestamp⟩ r)) key
      (atKey (memoryKey app user (scopedSessionId session) e.id)
        (fun _ => some (inst.newRow app user (scopedSessionId session) e text)) key (σ.get key)) := by
  set s := scopedSessionId session
  have hstops : ((Call.addEvents app user [e] session).body inst).StopsOn Halts :=
    Prog.StopsOn.bind (stopsOn_addAbsent app user s inst [e]) fun _ => trivial
  have hample := (alone_ample hstops hrun).1
  have hupsert : Leaves cfg.ample (upsertMemory inst app user s e text) σ _ :=
    (leaves_put cfg.ample_ample habsent _).bind fun σ₁ _ =>
      leaves_appendPostingRefs cfg.ample_ample app user _ (inst.nodup_tokenize text) σ₁
  obtain ⟨σ₂, hrun₂, hget⟩ := hupsert
  have hread : alone cfg.ample (batchRead [memoryKey app user s e.id]) σ = (.ok [none], σ) :=
    congrArg (fun r => (Except.ok [r], σ)) habsent
  have hadd : alone cfg.ample (addEventIfAbsent inst app user s e) σ = (.ok (), σ₂) := by
    rw [addEventIfAbsent, htext]
    simp only [Prog.bind_eq]
    rw [alone_bind_ok hread]
    exact hrun₂
  have hall : alone cfg.ample (addAbsent inst app user s [e]) σ = (.ok (), σ₂) := (alone_bind_ok hadd).trans rfl
  have hbody : alone cfg.ample ((Call.addEvents app user [e] session).body inst) σ = (.ok .done, σ₂) :=
    alone_bind_ok hall
  rw [hbody, Prod.mk.injEq] at hample
  rw [← hample.2]
  exact hget key

/-- The references that the call leaves in front of the new one. -/
def kept (app user t : Str) (σ : Store V) : List Ref :=
  (postings app user t σ).drop ((postings app user t σ).length + 1 - maxPostingListSize)

/-- The id of the event occurs nowhere in the store. -/
def NewIn (e : Event V) (σ : Store V) : Prop :=
  ∀ key r, σ.get key = some r → r.eid ≠ some e.id ∧ ∀ ref ∈ Record.refs (some r), ref.eid ≠ e.id

/-- The event is later than everything in the store. -/
def LatestIn (e : Event V) (σ : Store V) : Prop :=
  ∀ key r, σ.get key = some r → (∀ ts, r.ts = some ts → ts < e.timestamp) ∧
    ∀ ref ∈ Record.refs (some r), ref.ts < e.timestamp

/-- `format_timestamp` takes the timestamps of the user's rows that have the token. -/
def Instance.FormatsHits (inst : Instance V) (app user t : Str) (σ : Store V) : Prop :=
  ∀ key r, σ.get key = some r → r.app = some app → r.uid = some user → overlap [t] r ≠ 0 →
    ∀ ts, r.ts = some ts → ts ≠ 0 → inst.Formats ts

/-- The entry of the row is returned as the first one. -/
def ReturnsFirst (inst : Instance V) (row : Record V) (out : Except Err (Reply V)) : Prop :=
  ∃ m rest, inst.memoryEntryFromBins row = .ok m ∧ out = .ok (.memories (m :: rest))

section First
variable {cfg : ServerConfig V} {app user session t text : Str} {σ : Store V} {refs : List Ref}

/-- With one token in the query, overlaps are at most one. -/
theorem overlap_singleton_le (t : Str) (r : Record V) : overlap [t] r ≤ 1 := by
  have hnodup : ((r.keywords.getD []).dedup.filter fun x => x ∈ [t]).Nodup := (List.nodup_dedup _).filter _
  have hsub : ((r.keywords.getD []).dedup.filter fun x => x ∈ [t]) ⊆ [t] := fun x hx => by
    simpa using (List.mem_filter.mp hx).2
  exact (List.subperm_of_subset hnodup hsub).length_le

theorem candidatesOf_singleton (t : Str) (σ : Store V) :
    candidatesOf app user [t] σ = Candidates.gather (postings app user t σ) [] := by
  rw [candidatesOf, List.map_singleton, Candidates.gatherAll]
  split_ifs <;> rfl

/-- The hits among the references in front of the last one. -/
def frontHits (app user t : Str) (refs : List Ref) (σ : Store V) : List ((ℕ × ℚ) × Record V) :=
  scoredRows app user [t] ((Candidates.gather refs []).map fun c => (c, σ.get (memoryKey app user c.2.1 c.1)))

/-- A hit that comes from one of the references. -/
theorem mem_frontHits (hσ : Spelled σ) (ha : Plain app) (hu : Plain user) (hrefs : ∀ ref ∈ refs, ref.Spelled)
    {x : (ℕ × ℚ) × Record V} (hx : x ∈ frontHits app user t refs σ) :
    ∃ ref ∈ refs, x.1.1 ≤ 1 ∧ x.1.2 = ref.ts ∧ x.2.eid = some ref.eid := by
  rw [frontHits, scoredRows, List.filterMap_map, List.mem_filterMap] at hx
  obtain ⟨c, hc, hx⟩ := hx
  rcases Candidates.mem_gather hc with hc | ⟨ref, href, rfl⟩
  · cases hc
  · have hid : Id.Named ⟨app, user, ref.sid, ref.eid⟩ :=
      ⟨ha, hu, (hrefs ref href).plain, (hrefs ref href).notKw, (hrefs ref href).event⟩
    have hrow := hσ.row _ hid
    simp only [Function.comp_apply, Ref.candidate] at hx
    cases hr : σ.get (memoryKey app user ref.sid ref.eid) with
    | none =>
      rw [hr] at hx
      cases hx
    | some r =>
      rw [hr] at hx
      dsimp only at hx
      split_ifs at hx
      obtain rfl := Option.some.inj hx
      exact ⟨ref, href, overlap_singleton_le t r, rfl, hrow r hr⟩

/-- Below the limit, the row of the last reference is a hit behind those in front. -/
theorem hits_concat {last : Ref} {row : Record V} (hspelled : ∀ ref ∈ refs ++ [last], ref.Spelled)
    (hpost : postings app user t σ = refs ++ [last]) (hrow : σ.get (memoryKey app user last.sid last.eid) = some row)
    (hnew : ∀ ref ∈ refs, ref.eid ≠ last.eid) (happ : row.app = some app) (huser : row.uid = some user)
    (hmatch : overlap [t] row ≠ 0) :
    hits app user [t] σ = frontHits app user t refs σ ++
      if (refs.map Ref.eid).dedup.length < maxSearchCandidates then [((overlap [t] row, last.ts), row)] else [] := by
  have hlast := hspelled last (by simp)
  have hnamed : ∀ ref ∈ refs, ref.eid ≠ [] ∧ ref.sid ≠ [] := fun ref href =>
    ⟨(hspelled ref (List.mem_append_left _ href)).event, (hspelled ref (List.mem_append_left _ href)).session⟩
  rw [hits, candidatesOf_singleton, hpost, Candidates.gather_concat hnamed ⟨hlast.event, hlast.session⟩ hnew,
    List.map_append, scoredRows, List.filterMap_append]
  split_ifs
  · simp only [List.map_singleton, List.filterMap_cons, List.filterMap_nil, Ref.candidate, hrow]
    rw [if_pos ⟨happ, huser, hmatch⟩]
    rfl
  · rfl

/-- What a search for the token returns: the entries of the best hits. -/
theorem perform_search_token (cfg : ServerConfig V) (ht : t ∈ tokenMatches text) {inst : Instance V} (hk : 0 ≤ inst.topK)
    (hformat : inst.FormatsHits app user t σ) : ∃ entries,
      perform cfg (inst, .search app user t) σ = (.ok (.memories entries), σ) ∧
      List.Forall₂ (fun x m => inst.memoryEntryFromBins x.2 = .ok m) (best rankLe inst.topK.toNat (hits app user [t] σ))
        entries := by
  have hmade : ∀ x ∈ best rankLe inst.topK.toNat (hits app user [t] σ), ∃ m, inst.memoryEntryFromBins x.2 = .ok m :=
    fun x hx => by
      obtain ⟨⟨c, hfound⟩, -, happ, huser, hmatch⟩ := found_of_scored (mem_of_mem_best hx)
      obtain ⟨c', -, hget⟩ := List.mem_map.mp hfound
      exact inst.isOk_entry (hformat _ x.2 (Prod.mk.inj hget).2 happ huser hmatch)
  obtain ⟨entries, hentries⟩ := exists_mapM hmade
  have hrun := alone_searchMemory cfg inst app user t σ
  rw [inst.tokenize_self ht, sliceTo_ranked hk, hentries] at hrun
  exact ⟨entries, alone_bind_ok hrun, forall₂_of_mapM hentries⟩

/-- A hit that is later than all in front of it, and overlaps at all, is the best one. -/
theorem best_latest (hσ : Spelled σ) (ha : Plain app) (hu : Plain user) (hrefs : ∀ ref ∈ refs, ref.Spelled)
    (row : Record V) {n k : ℕ} {ts : ℚ} (hmatch : 1 ≤ n) (hlatest : ∀ ref ∈ refs, ref.ts < ts) (hk : 0 < k) :
    ∃ rest, best rankLe k (frontHits app user t refs σ ++ [((n, ts), row)]) = ((n, ts), row) :: rest := by
  refine best_eq_cons rankLe_trans rankLe_total (List.mem_append_right _ (List.mem_singleton_self _)) (fun y hy hne hle => ?_) hk
  rcases List.mem_append.mp hy with hy | hy
  · obtain ⟨ref, href, hone, hts, -⟩ := mem_frontHits hσ ha hu hrefs hy
    have hearlier := hlatest ref href
    rw [← hts] at hearlier
    rcases Prod.Lex.le_iff.mp (of_decide_eq_true hle) with hover | ⟨-, hlate⟩
    · exact absurd hover (by simp only [ofLex_toLex]; omega)
    · exact absurd hlate (not_le.mpr hearlier)
  · exact hne (List.mem_singleton.mp hy)

/-- A search for a token of an event whose reference ends the posting list: the event
comes first, exactly if there are not too many others in front of its reference. -/
theorem search_first_iff (hσ : Spelled σ) (ha : Plain app) (hu : Plain user) (ht : t ∈ tokenMatches text)
    {e : Event V} (inst : Instance V)
    (hrow : σ.get (memoryKey app user session e.id) = some (inst.newRow app user session e text))
    (hpost : postings app user t σ = refs ++ [⟨e.id, session, e.timestamp⟩])
    (hnew : ∀ ref ∈ refs, ref.eid ≠ e.id) (hlatest : ∀ ref ∈ refs, ref.ts < e.timestamp)
    {inst' : Instance V} (hk : 1 ≤ inst'.topK) (hformat : inst'.FormatsHits app user t σ) :
    ReturnsFirst inst' (inst.newRow app user session e text) (perform cfg (inst', .search app user t) σ).1 ↔
      (refs.map Ref.eid).dedup.length < maxSearchCandidates := by
  set row := inst.newRow app user session e text with hrowdef
  have hspelled : ∀ ref ∈ refs ++ [(⟨e.id, session, e.timestamp⟩ : Ref)], ref.Spelled := fun ref href =>
    hσ.refs (memoryPostingKey app user t) ref (show ref ∈ postings app user t σ by rw [hpost]; exact href)
  have hrefs : ∀ ref ∈ refs, ref.Spelled := fun ref href => hspelled ref (List.mem_append_left _ href)
  have hmatch : 1 ≤ overlap [t] row := by
    have hmem : t ∈ ((inst.tokenize text).dedup.filter fun x => x ∈ [t]) := by simp [inst.mem_tokenize, ht]
    exact List.length_pos_of_mem hmem
  obtain ⟨entries, hrun, hall⟩ := perform_search_token cfg ht (by omega) hformat
  rw [hits_concat hspelled hpost hrow hnew rfl rfl (by omega)] at hall
  rw [hrun]
  split_ifs at hall with hlt
  · refine ⟨fun _ => hlt, fun _ => ?_⟩
    have hpos : 0 < inst'.topK.toNat := by omega
    obtain ⟨rest, hbest⟩ := best_latest hσ ha hu hrefs row hmatch hlatest hpos
    rw [hbest] at hall
    cases hall with
    | cons hm _ => exact ⟨_, _, hm, rfl⟩
  · refine ⟨?_, fun h => absurd h hlt⟩
    rintro ⟨m, rest, hm, hfirst⟩
    obtain rfl : entries = m :: rest := Reply.memories.inj (Except.ok.inj hfirst)
    rw [List.append_nil] at hall
    -- an entry that is returned is that of one of the rows in front
    cases hfound : best rankLe inst'.topK.toNat (frontHits app user t refs σ) with
    | nil =>
      rw [hfound] at hall
      cases hall
    | cons x xs =>
      rw [hfound] at hall
      cases hall with
      | cons hx _ =>
        have hmem : x ∈ best rankLe inst'.topK.toNat (frontHits app user t refs σ) := by simp [hfound]
        obtain ⟨ref, href, -, -, heid⟩ := mem_frontHits hσ ha hu hrefs (mem_of_mem_best hmem)
        have hid : x.2.eid = row.eid := (inst'.id_of_entry hx).symm.trans (inst'.id_of_entry hm)
        rw [heid, hrowdef] at hid
        exact absurd (Option.some.inj hid) (hnew ref href)

/-- The same for an event that has just been added. -/
theorem added_first_iff (hσ : Spelled σ) (inst : Instance V) {session : Option Str} {e : Event V} {text : Str}
    (hcall : (Call.addEvents app user [e] session).Spelled) (htext : memoryText e = some text)
    (ht : t ∈ tokenMatches text) (hnew : NewIn e σ) (hlatest : LatestIn e σ) {σ' : Store V}
    (hadd : perform cfg (inst, .addEvents app user [e] session) σ = (.ok .done, σ')) {inst' : Instance V}
    (hk : 1 ≤ inst'.topK) (hformat : inst'.FormatsHits app user t σ') :
    ReturnsFirst inst' (inst.newRow app user (scopedSessionId session) e text)
        (perform cfg (inst', .search app user t) σ').1 ↔
      ((kept app user t σ).map Ref.eid).dedup.length < maxSearchCandidates := by
  have hσ' : Spelled σ' := by
    have hafter : Spelled (perform cfg (inst, .addEvents app user [e] session) σ).2 := hσ.perform hcall
    rwa [hadd] at hafter
  obtain ⟨ha, hu, hs, hids⟩ := hcall
  obtain ⟨hs, -, hkw⟩ := scopedSessionId_spelled hs
  have hid : Id.Named ⟨app, user, scopedSessionId session, e.id⟩ := ⟨ha, hu, hs, hkw, hids e (by simp)⟩
  have habsent : σ.get (memoryKey app user (scopedSessionId session) e.id) = none := by
    cases hr : σ.get (memoryKey app user (scopedSessionId session) e.id) with
    | none => rfl
    | some r => exact absurd (hσ.row _ hid r hr) (hnew _ r hr).1
  have hget := addEvents_singleton htext habsent hadd
  have hrefs : ∀ ref ∈ kept app user t σ, ref.eid ≠ e.id ∧ ref.ts < e.timestamp := fun ref href => by
    have hmem : ref ∈ Record.refs (σ.get (memoryPostingKey app user t)) := List.mem_of_mem_drop href
    cases hr : σ.get (memoryPostingKey app user t) with
    | none =>
      rw [hr] at hmem
      cases hmem
    | some r =>
      rw [hr] at hmem
      exact ⟨(hnew _ r hr).2 ref hmem, (hlatest _ r hr).2 ref hmem⟩
  refine search_first_iff hσ' ha hu ht inst ?_ ?_ (fun ref href => (hrefs ref href).1)
    (fun ref href => (hrefs ref href).2) hk hformat
  · rw [hget]
    exact (atTokens_key hid ha hu).trans (if_pos rfl)
  · have hlen : (postings app user t σ).length + 1 - maxPostingListSize ≤ (postings app user t σ).length := by
      have : 1 ≤ maxPostingListSize := by decide
      omega
    have hpost : σ'.get (memoryPostingKey app user t) = some (Record.push ⟨e.id, scopedSessionId session, e.timestamp⟩
        (σ.get (memoryPostingKey app user t))) := by
      rw [hget, atTokens_posting ha hu ha hu, if_pos ⟨rfl, rfl, inst.mem_tokenize.mpr ht⟩]
      exact congrArg (fun r => some (Record.push _ r)) (atKey_posting hid ha hu)
    rw [postings, hpost, Record.refs_push, kept, ← List.drop_append_of_le_length hlen, postings]

end First

/-- Right after an event with a new id and the latest timestamp has been added, a search
for one of its tokens returns it first, exactly if the references left in front of its
own name fewer events than a search takes candidates. `format_timestamp` takes the
timestamps of the rows that match. -/
theorem fresh_memory_first_iff (cfg : ServerConfig V) (cs : List (Instance V × Call V))
    (hcs : ∀ l ∈ cs, l.2.Spelled) (inst : Instance V) {app user : Str} {session : Option Str} {e : Event V}
    (hcall : (Call.addEvents app user [e] session).Spelled) {text t : Str} (htext : memoryText e = some text)
    (ht : t ∈ tokenMatches text) (hnew : NewIn e (stored cfg cs)) (hlatest : LatestIn e (stored cfg cs))
    {σ' : Store V} (hadd : perform cfg (inst, .addEvents app user [e] session) (stored cfg cs) = (.ok .done, σ'))
    {inst' : Instance V} (hk : 1 ≤ inst'.topK) (hformat : inst'.FormatsHits app user t σ') :
    ReturnsFirst inst' (inst.newRow app user (scopedSessionId session) e text)
        (perform cfg (inst', .search app user t) σ').1 ↔
      ((kept app user t (stored cfg cs)).map Ref.eid).dedup.length < maxSearchCandidates :=
  added_first_iff (spelled_stored hcs) inst hcall htext ht hnew hlatest hadd hk hformat

/-! ### A crowded token -/

/-- A record of the store is the row of an entry, or it holds references to entries. -/
theorem Exact.entry_or_refs {M : Reference V} {σ : Store V} (h : Exact M σ) {key : Str} {r : Record V}
    (hr : σ.get key = some r) :
    (∃ id x, M.get id = some x ∧ r = id.row x) ∨
      (r.eid = none ∧ r.ts = none) ∧
        ∀ ref ∈ Record.refs (some r), ∃ id x, M.get id = some x ∧ id.event = ref.eid ∧ x.ts = ref.ts := by
  rcases h.known key r hr with ⟨id, hid, rfl⟩ | ⟨app, user, t, ha, hu, rfl, l, rfl⟩
  · rw [h.rows id hid, Option.map_eq_some_iff] at hr
    obtain ⟨x, hx, rfl⟩ := hr
    exact .inl ⟨id, x, hx, rfl⟩
  · refine .inr ⟨⟨rfl, rfl⟩, fun ref href => ?_⟩
    have hmem : ref ∈ postings app user t σ := by
      rw [postings, hr]
      exact href
    obtain ⟨x, hx, -, hts⟩ := ((h.index app user t ha hu).2 ref).mp hmem
    exact ⟨_, x, hx, rfl, hts.symm⟩

/-- A store against its map: an id that no entry has is new. -/
theorem Exact.newIn {M : Reference V} {σ : Store V} (h : Exact M σ) {e : Event V}
    (hM : ∀ id x, M.get id = some x → id.event ≠ e.id) : NewIn e σ := by
  intro key r hr
  rcases h.entry_or_refs hr with ⟨id, x, hx, rfl⟩ | ⟨⟨heid, -⟩, hrefs⟩
  · exact ⟨fun heq => hM id x hx (Option.some.inj heq), fun ref href => by cases href⟩
  · refine ⟨by simp [heid], fun ref href => ?_⟩
    obtain ⟨id, x, hx, hid, -⟩ := hrefs ref href
    rw [← hid]
    exact hM id x hx

theorem Exact.latestIn {M : Reference V} {σ : Store V} (h : Exact M σ) {e : Event V}
    (hM : ∀ id x, M.get id = some x → x.ts < e.timestamp) : LatestIn e σ := by
  intro key r hr
  rcases h.entry_or_refs hr with ⟨id, x, hx, rfl⟩ | ⟨⟨-, hts⟩, hrefs⟩
  · exact ⟨fun ts heq => Option.some.inj heq ▸ hM id x hx, fun ref href => by cases href⟩
  · refine ⟨by simp [hts], fun ref href => ?_⟩
    obtain ⟨id, x, hx, -, hxts⟩ := hrefs ref href
    rw [← hxts]
    exact hM id x hx

theorem Exact.formatsHits {M : Reference V} {σ : Store V} (h : Exact M σ) {inst : Instance V}
    (hM : ∀ id x, M.get id = some x → inst.Formats x.ts) (app user t : Str) : inst.FormatsHits app user t σ := by
  intro key r hr _ _ _ ts hts _
  rcases h.entry_or_refs hr with ⟨id, x, hx, rfl⟩ | ⟨⟨-, hnone⟩, -⟩
  · exact Option.some.inj hts ▸ hM id x hx
  · cases hnone.symm.trans hts

namespace Small

/-- Event `n` of a run of events with the same text. -/
def repeated (n : ℕ) : Event ℕ := event (List.replicate (n + 1) 'x') "red".toList 1

/-- `n` of them, added in one call. -/
def crowd (n : ℕ) : List (Instance ℕ × Call ℕ) :=
  [(inst, .addEvents ['a'] ['u'] ((List.range n).map repeated) (some ['s']))]

def newest : Event ℕ := event ['y'] "red".toList 2

theorem spelled_addEvents {events : List (Event ℕ)} (h : ∀ e ∈ events, e.id ≠ []) :
    (Call.addEvents ['a'] ['u'] events (some ['s'])).Spelled := by
  refine ⟨by decide, by decide, fun s hs => ?_, h⟩
  cases hs
  decide

theorem spelled_newest : (Call.addEvents ['a'] ['u'] [newest] (some ['s'])).Spelled :=
  spelled_addEvents fun e he => by
    rw [List.mem_singleton.mp he]
    decide

section Crowd
variable {n : ℕ}

theorem spelled_crowd : ∀ l ∈ crowd n, l.2.Spelled := fun l hl => by
  rw [List.mem_singleton.mp hl]
  refine spelled_addEvents fun e he => ?_
  obtain ⟨i, -, rfl⟩ := List.mem_map.mp he
  simp [repeated, event]

theorem remembered_crowd :
    remembered (crowd n) = ((List.range n).map repeated).foldl (Reference.addAbsent inst ['a'] ['u'] ['s']) ∅ := rfl

theorem length_crowd : (remembered (crowd n)).entries.length ≤ n := by
  have hlen := @Reference.length_foldl_addAbsent ℕ ∅ ['a'] ['u'] inst ['s'] ((List.range n).map repeated)
  rw [← remembered_crowd, List.length_map, List.length_range] at hlen
  simpa using hlen

theorem exact_crowd (hn : n ≤ maxPostingListSize) : Exact (remembered (crowd n)) (stored cfg (crowd n)) := by
  refine (run_exact (fun _ => rfl) Exact.empty (fun l hl => ?_) fun cs hcs => ?_).2
  · have hspelled := spelled_crowd l hl
    rw [List.mem_singleton.mp hl] at hspelled ⊢
    exact hspelled
  · refine Reference.capped_of_length ?_
    rcases List.prefix_cons_iff.mp hcs with rfl | ⟨cs', rfl, hcs'⟩
    · exact Nat.zero_le _
    · rw [List.prefix_nil.mp hcs']
      exact length_crowd.trans hn

/-- Where the entries of the crowd come from. -/
theorem get_crowd {id : Id} {x : Entry ℕ} (h : (remembered (crowd n)).get id = some x) :
    ∃ i, id.event = List.replicate (i + 1) 'x' ∧ x = inst.entry (repeated i) "red".toList := by
  rw [remembered_crowd] at h
  rcases Reference.get_foldl_addAbsent h with h | ⟨e, he, text, htext, rfl, rfl⟩
  · cases h
  · obtain ⟨i, -, rfl⟩ := List.mem_map.mp he
    obtain rfl : "red".toList = text := Option.some.inj htext
    exact ⟨i, rfl, rfl⟩

theorem newIn_crowd (hn : n ≤ maxPostingListSize) : NewIn newest (stored cfg (crowd n)) :=
  (exact_crowd hn).newIn fun id x hx => by
    obtain ⟨i, hid, -⟩ := get_crowd hx
    rw [hid]
    simp [newest, event, List.replicate_succ]

theorem latestIn_crowd (hn : n ≤ maxPostingListSize) : LatestIn newest (stored cfg (crowd n)) :=
  (exact_crowd hn).latestIn fun id x hx => by
    obtain ⟨i, -, rfl⟩ := get_crowd hx
    show (1 : ℚ) < 2
    decide +kernel

/-- The posting list names every event of the crowd. -/
theorem le_length_kept_crowd (hn : n < maxPostingListSize) :
    n ≤ ((kept ['a'] ['u'] "red".toList (stored cfg (crowd n))).map Ref.eid).dedup.length := by
  have hexact := exact_crowd hn.le
  have hlen : (postings ['a'] ['u'] "red".toList (stored cfg (crowd n))).length ≤ n := by
    rw [hexact.length_postings (by decide) (by decide), Reference.refs, List.length_map]
    exact (List.length_filter_le _ _).trans length_crowd
  have hdrop : (postings ['a'] ['u'] "red".toList (stored cfg (crowd n))).length + 1 - maxPostingListSize = 0 := by
    omega
  have hnodup : ((List.range n).map fun i => List.replicate (i + 1) 'x').Nodup := by
    refine List.Nodup.map (fun i j h => ?_) List.nodup_range
    have hlens := congrArg List.length h
    simpa using hlens
  have hsub : ((List.range n).map fun i => List.replicate (i + 1) 'x') ⊆
      ((kept ['a'] ['u'] "red".toList (stored cfg (crowd n))).map Ref.eid).dedup := by
    intro x hx
    obtain ⟨i, hi, rfl⟩ := List.mem_map.mp hx
    have hin : repeated i ∈ (List.range n).map repeated := List.mem_map_of_mem hi
    obtain ⟨y, hy⟩ := Option.isSome_iff_exists.mp
      (@Reference.isSome_of_mem ℕ ∅ ['a'] ['u'] inst ['s'] (repeated i) _ "red".toList hin rfl)
    rw [← remembered_crowd] at hy
    have hred : "red".toList ∈ y.keywords := by
      obtain ⟨j, -, rfl⟩ := get_crowd hy
      exact inst.mem_tokenize.mpr (by decide +kernel)
    rw [List.mem_dedup, List.mem_map]
    refine ⟨⟨List.replicate (i + 1) 'x', ['s'], y.ts⟩, ?_, rfl⟩
    rw [kept, hdrop, List.drop_zero]
    exact ((hexact.index ['a'] ['u'] "red".toList (by decide) (by decide)).2 _).mpr ⟨y, hy, hred, rfl⟩
  have hle := (List.subperm_of_subset hnodup hsub).length_le
  rwa [List.length_map, List.length_range] at hle

/-- One more event can be added to the crowd. -/
theorem add_newest (hn : n < maxPostingListSize) :
    ∃ σ', perform cfg (inst, .addEvents ['a'] ['u'] [newest] (some ['s'])) (stored cfg (crowd n)) = (.ok .done, σ') ∧
      inst.FormatsHits ['a'] ['u'] "red".toList σ' := by
  have hcap : Reference.Capped ([newest].foldl (Reference.addAbsent inst ['a'] ['u'] ['s']) (remembered (crowd n))) := by
    refine Reference.capped_of_length ((Reference.length_foldl_addAbsent [newest]).trans ?_)
    have := @length_crowd n
    simp only [List.length_singleton]
    omega
  have hroom : cfg.Ample := fun _ => rfl
  obtain ⟨σ', hrun, hexact⟩ := (exact_crowd hn.le).addAbsent hroom
    (fun e he => by rw [List.mem_singleton.mp he]; exact ⟨by decide, by decide, by decide, by decide, by decide⟩) hcap
  refine ⟨σ', alone_bind_ok hrun, hexact.formatsHits (fun id x hx => formats_early ?_) _ _ _⟩
  rcases Reference.get_foldl_addAbsent hx with hx | ⟨e, he, text, htext, rfl, rfl⟩
  · obtain ⟨i, -, rfl⟩ := get_crowd hx
    show (1 : ℚ) < 253402300800
    decide +kernel
  · rw [List.mem_singleton.mp he]
    show (2 : ℚ) < 253402300800
    decide +kernel

end Crowd

end Small

open Memory.Small in
theorem fresh_memory_first_iff_small :
    ((kept ['a'] ['u'] "red".toList (stored cfg (crowd 2))).map Ref.eid).dedup.length < maxSearchCandidates ∧
    ∃ σ', inst.FormatsHits ['a'] ['u'] "red".toList σ' ∧
      perform cfg (inst, .addEvents ['a'] ['u'] [Small.newest] (some ['s'])) (stored cfg (crowd 2)) = (.ok .done, σ') ∧
      ReturnsFirst inst (inst.newRow ['a'] ['u'] ['s'] Small.newest "red".toList)
        (perform cfg (inst, .search ['a'] ['u'] "red".toList) σ').1 := by
  have hn : 2 < maxPostingListSize := by decide
  have hfew : ((kept ['a'] ['u'] "red".toList (stored cfg (crowd 2))).map Ref.eid).dedup.length <
      maxSearchCandidates := by decide +kernel
  obtain ⟨σ', hadd, hformat⟩ := add_newest hn
  have ht : "red".toList ∈ tokenMatches "red".toList := by decide +kernel
  have hk : (1 : ℤ) ≤ inst.topK := by decide
  exact ⟨hfew, σ', hformat, hadd, (fresh_memory_first_iff cfg (crowd 2) spelled_crowd inst spelled_newest rfl ht
    (newIn_crowd hn.le) (latestIn_crowd hn.le) hadd hk hformat).mpr hfew⟩

open Memory.Small in
/-- Behind as many older events with the same word as a search takes candidates, the
event that was just added is not returned first. -/
theorem crowd_hides_newest :
    (∀ l ∈ crowd maxSearchCandidates, l.2.Spelled) ∧ NewIn Small.newest (stored cfg (crowd maxSearchCandidates)) ∧
    LatestIn Small.newest (stored cfg (crowd maxSearchCandidates)) ∧ "red".toList ∈ tokenMatches "red".toList ∧
    ∃ σ', inst.FormatsHits ['a'] ['u'] "red".toList σ' ∧
      perform cfg (inst, .addEvents ['a'] ['u'] [Small.newest] (some ['s'])) (stored cfg (crowd maxSearchCandidates)) =
        (.ok .done, σ') ∧
      ¬ ReturnsFirst inst (inst.newRow ['a'] ['u'] ['s'] Small.newest "red".toList)
        (perform cfg (inst, .search ['a'] ['u'] "red".toList) σ').1 := by
  have hn : maxSearchCandidates < maxPostingListSize := by decide
  have ht : "red".toList ∈ tokenMatches "red".toList := by decide +kernel
  have hk : (1 : ℤ) ≤ inst.topK := by decide
  have hcount := le_length_kept_crowd hn
  obtain ⟨σ', hadd, hformat⟩ := add_newest hn
  refine ⟨spelled_crowd, newIn_crowd hn.le, latestIn_crowd hn.le, ht, σ', hformat, hadd, fun hfirst => ?_⟩
  have hlt := (added_first_iff (spelled_stored spelled_crowd) inst spelled_newest rfl ht (newIn_crowd hn.le)
    (latestIn_crowd hn.le) hadd hk hformat).mp hfirst
  omega

end AdkAerospike.Memory
