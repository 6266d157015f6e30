import AdkAerospike.Memory.Slices

/-! Calls that overlap when they are for different sessions, and run one after the other
when they are for the same one. Each session has of the map what its own calls make of it,
and so the store at the end is exact for the map that all calls, in the order in which they
were started, make when none of them overlap. -/

namespace AdkAerospike.Memory

open Program Data Keys Codec

variable {V : Type}

/-! ### The map of a session -/

/-- The entries of a session, by event id. -/
def Reference.part (M : Reference V) (P : Str × Str × Str) (e : Str) : Option (Entry V) := M.get ⟨P.1, P.2.1, P.2.2, e⟩

/-- The calls for a session. -/
def callsFor (P : Str × Str × Str) (cs : List (Instance V × Call V)) : List (Instance V × Call V) :=
  cs.filter fun l => l.2.place = some P

namespace Reference
variable {M M' : Reference V} {P : Str × Str × Str} {app user session : Str} {inst : Instance V}

theorem part_insert (id : Id) (x : Entry V) :
    part (M.insert id x) P = if P = (id.app, id.user, id.session) then Function.update (M.part P) id.event (some x) else M.part P := by
  funext e
  unfold part
  rw [FMap.get_insert]
  obtain ⟨a, u, s⟩ := P
  obtain ⟨a', u', s', e'⟩ := id
  by_cases hP : (a, u, s) = (a', u', s')
  · simp only [Prod.mk.injEq] at hP
    obtain ⟨rfl, rfl, rfl⟩ := hP
    by_cases he : e = e'
    · simp [he]
    · simp [he]
  · rw [if_neg hP, if_neg fun h => hP (by simp_all)]

theorem part_add_of_ne (hP : P ≠ (app, user, session)) (M : Reference V) (e : Event V) :
    part (add inst app user session M e) P = M.part P := by
  unfold add
  split
  · rfl
  · rw [part_insert, if_neg hP]

theorem part_add_congr (hM : M.part (app, user, session) = M'.part (app, user, session)) (e : Event V) :
    part (add inst app user session M e) (app, user, session) = part (add inst app user session M' e) (app, user, session) := by
  unfold add
  split
  · exact hM
  · rw [part_insert, part_insert, hM]

theorem part_addAbsent_of_ne (hP : P ≠ (app, user, session)) (M : Reference V) (e : Event V) :
    part (addAbsent inst app user session M e) P = M.part P := by
  unfold addAbsent
  split_ifs
  · rfl
  · exact part_add_of_ne hP M e

theorem part_addAbsent_congr (hM : M.part (app, user, session) = M'.part (app, user, session)) (e : Event V) :
    part (addAbsent inst app user session M e) (app, user, session) =
      part (addAbsent inst app user session M' e) (app, user, session) := by
  have hget : M.get ⟨app, user, session, e.id⟩ = M'.get ⟨app, user, session, e.id⟩ := congrFun hM e.id
  unfold addAbsent
  rw [hget]
  split_ifs
  · exact hM
  · exact part_add_congr hM e

theorem part_purge (M : Reference V) :
    part (M.purge app user session) P = if P = (app, user, session) then fun _ => none else M.part P := by
  funext e
  unfold part purge
  rw [FMap.get_restrict]
  obtain ⟨a, u, s⟩ := P
  by_cases hP : (a, u, s) = (app, user, session)
  · simp_all
  · have hne : ¬ (a = app ∧ u = user ∧ s = session) := by simpa using hP
    rw [if_neg hP, if_pos (decide_eq_true hne)]

/-- A fold of steps that leave a session alone. -/
theorem part_foldl {β : Type} {f : Reference V → β → Reference V} (hf : ∀ M b, part (f M b) P = M.part P) (bs : List β)
    (M : Reference V) : part (bs.foldl f M) P = M.part P := by
  induction bs generalizing M with
  | nil => rfl
  | cons b bs ih => exact (ih _).trans (hf M b)

/-- A fold of steps that heed a session only. -/
theorem part_foldl_congr {β : Type} {f : Reference V → β → Reference V}
    (hf : ∀ M M' b, M.part P = M'.part P → part (f M b) P = part (f M' b) P) (bs : List β) (hM : M.part P = M'.part P) :
    part (bs.foldl f M) P = part (bs.foldl f M') P := by
  induction bs generalizing M M' with
  | nil => exact hM
  | cons b bs ih => exact ih (hf M M' b hM)

end Reference

section Reference
variable {M M' : Reference V} {P : Str × Str × Str} {l : Instance V × Call V}

theorem part_reference_of_ne (hl : l.2.place ≠ some P) (M : Reference V) :
    (l.2.reference l.1 M).part P = M.part P := by
  obtain ⟨inst, c⟩ := l
  cases c with
  | addSession app user session events =>
    have hP : P ≠ (app, user, session) := fun h => hl (congrArg some h.symm)
    exact (Reference.part_foldl (Reference.part_add_of_ne hP) events _).trans
      ((Reference.part_purge M).trans (if_neg hP))
  | addEvents app user events session =>
    have hP : P ≠ (app, user, scopedSessionId session) := fun h => hl (congrArg some h.symm)
    exact Reference.part_foldl (Reference.part_addAbsent_of_ne hP) events M
  | search app user text => rfl

theorem part_reference_congr (hl : l.2.place = some P) (hM : M.part P = M'.part P) :
    (l.2.reference l.1 M).part P = (l.2.reference l.1 M').part P := by
  obtain ⟨inst, c⟩ := l
  cases c with
  | addSession app user session events =>
    cases hl
    refine Reference.part_foldl_congr (fun _ _ e h => Reference.part_add_congr h e) events ?_
    rw [Reference.part_purge, Reference.part_purge, if_pos rfl, if_pos rfl]
  | addEvents app user events session =>
    cases hl
    exact Reference.part_foldl_congr (fun _ _ e h => Reference.part_addAbsent_congr h e) events hM
  | search app user text => cases hl

/-- A session's entries are those that its own calls leave. -/
theorem part_remembered (P : Str × Str × Str) (cs : List (Instance V × Call V)) :
    (remembered cs).part P = (remembered (callsFor P cs)).part P := by
  suffices h : ∀ M M' : Reference V, M.part P = M'.part P →
      Reference.part (cs.foldl (fun M l => l.2.reference l.1 M) M) P =
        Reference.part ((callsFor P cs).foldl (fun M l => l.2.reference l.1 M) M') P from h ∅ ∅ rfl
  induction cs with
  | nil => exact fun _ _ h => h
  | cons l cs ih =>
    intro M M' hM
    unfold callsFor
    by_cases hl : l.2.place = some P
    · rw [List.filter_cons_of_pos (by simpa using hl)]
      exact ih _ _ (part_reference_congr hl hM)
    · rw [List.filter_cons_of_neg (by simpa using hl)]
      exact ih _ _ ((part_reference_of_ne hl M).trans hM)

/-- The calls for one session leave nothing to the others. -/
theorem get_remembered_callsFor (cs : List (Instance V × Call V)) {id : Id} {x : Entry V}
    (h : (remembered (callsFor P cs)).get id = some x) :
    P = (id.app, id.user, id.session) ∧ (remembered cs).get id = some x := by
  have hpart : (remembered (callsFor P cs)).part (id.app, id.user, id.session) id.event = some x := h
  by_cases hP : P = (id.app, id.user, id.session)
  · refine ⟨hP, ?_⟩
    rw [← hP, ← part_remembered, hP] at hpart
    exact hpart
  · have hnone : callsFor (id.app, id.user, id.session) (callsFor P cs) = [] := by
      unfold callsFor
      rw [List.filter_filter, List.filter_eq_nil_iff]
      intro l _ hl
      simp only [Bool.and_eq_true, decide_eq_true_eq] at hl
      exact hP (Option.some.inj (hl.2.symm.trans hl.1))
    rw [part_remembered, hnone] at hpart
    cases hpart

/-- The lists of references of one session are no longer than those of all. -/
theorem capped_callsFor {cs : List (Instance V × Call V)} (h : (remembered cs).Capped) :
    (remembered (callsFor P cs)).Capped := fun app user t => by
  refine le_trans (List.Subperm.length_le (List.subperm_of_subset Reference.nodup_refs fun ref href => ?_)) (h app user t)
  obtain ⟨x, hx, ht, hts⟩ := Reference.mem_refs.mp href
  exact Reference.mem_refs.mpr ⟨x, (get_remembered_callsFor cs hx).2, ht, hts⟩

end Reference

/-! ### Runs -/

/-- Calls are well named, a call for a session is started when the earlier ones have ended,
and requests are answered without a fault. No posting list becomes longer than it may be. -/
def OneAtATime (cfg : ServerConfig V)
    (s : Pool (Req V) Ans Err (Reply V) (Store V) (Instance V × Call V)) :
    Action (Instance V × Call V) Server.Weather → Prop
  | .spawn l => l.2.WellNamed ∧ ∀ p ∈ s.procs, p.call.2.place = l.2.place → p.prog.finished
  | .step i c => c = .fair ∧ Short ((service cfg).act (.step i c) s).world

section Parallel
variable {cfg : ServerConfig V} {s : Pool (Req V) Ans Err (Reply V) (Store V) (Instance V × Call V)}

theorem scopedSessionId_plain {session : Option Str} (h : ∀ s, session = some s → Plain s ∧ s ≠ memoryKwPrefix) :
    Plain (scopedSessionId session) ∧ scopedSessionId session ≠ memoryKwPrefix := by
  unfold scopedSessionId
  split
  · decide
  · decide
  · exact h _ rfl

theorem exists_ownedBy {l : Instance V × Call V} (hl : l.2.WellNamed) {P : Str × Str × Str} (hP : l.2.place = some P) :
    ∃ o, ownedBy o l := by
  obtain ⟨inst, c⟩ := l
  cases c with
  | addSession app user session events => exact ⟨⟨app, user, session, hl.1, hl.2.1, hl.2.2.1, hl.2.2.2.1⟩, rfl⟩
  | addEvents app user events session =>
    have hscoped := scopedSessionId_plain hl.2.2.1
    exact ⟨⟨app, user, scopedSessionId session, hl.1, hl.2.1, hscoped.1, hscoped.2⟩, rfl⟩
  | search app user text => cases hP

theorem silent_search (inst : Instance V) (app user text : Str) :
    (service cfg).Silent .fair (inst, .search app user text) := by
  have hread : ∀ keys : List Str, (batchRead keys : Service V _).Uses fun q => ∀ σ, (exec cfg .fair q σ).2 = σ :=
    fun keys => ⟨fun σ => Server.exec_of_keys .fair rfl σ, fun x => by cases x <;> trivial⟩
  have hsearch : (searchMemory inst app user text).Uses fun q => ∀ σ, (exec cfg .fair q σ).2 = σ := by
    unfold searchMemory
    dsimp only
    split_ifs
    · trivial
    refine (hread _).bind fun rows => ?_
    split_ifs
    · trivial
    · refine (hread _).bind fun found => ?_
      cases (sliceTo (ranked (scoredRows app user (inst.tokenize text) _)) inst.topK).mapM
        fun x => inst.memoryEntryFromBins x.2 <;> trivial
  exact hsearch.bind fun _ => trivial

theorem OneAtATime.turns {a : Action (Instance V × Call V) Server.Weather} (ha : OneAtATime cfg s a) :
    (service cfg).Turns .fair ownedBy Short s a := by
  cases a with
  | spawn l =>
    refine ⟨fun o ho p hp hown => ha.2 p hp (hown.trans ho.symm), ?_⟩
    obtain ⟨inst, c⟩ := l
    cases c with
    | search app user text => exact .inr (silent_search inst app user text)
    | _ => exact .inl (exists_ownedBy ha.1 rfl)
  | step i c => exact ha

/-- A list is without repetitions if its parts are. -/
theorem nodup_of_filter {β γ : Type} [DecidableEq β] [DecidableEq γ] (f : β → γ) {l : List β}
    (h : ∀ a ∈ l, (l.filter fun b => f b = f a).Nodup) : l.Nodup := by
  rw [List.nodup_iff_count_le_one]
  intro a
  by_cases ha : a ∈ l
  · have hone := List.nodup_iff_count_le_one.mp (h a ha) a
    rwa [List.count_filter (by simp)] at hone
  · rw [List.count_eq_zero_of_not_mem ha]
    exact Nat.zero_le _

theorem wellNamed_of_reach (hs : (service cfg).Reach (OneAtATime cfg) ⟨∅, []⟩ s) : ∀ l ∈ s.calls, l.2.WellNamed := by
  refine hs.invariant (I := fun s => ∀ l ∈ s.calls, l.2.WellNamed) (fun l hl => by cases hl) ?_
  rintro s (l | ⟨i, c⟩) h ha l' hl'
  · rw [System.calls_spawn] at hl'
    rcases List.mem_append.mp hl' with hl' | hl'
    · exact h l' hl'
    · exact List.mem_singleton.mp hl' ▸ ha.1
  · rw [System.calls_step] at hl'
    exact h l' hl'

section Alone
variable {cs : List (Instance V × Call V)}

/-- The calls for one session, when they are made one after the other. -/
theorem run_callsFor (hcfg : cfg.Ample) (hcs : ∀ l ∈ cs, l.2.WellNamed)
    (hcap : ∀ cs', cs' <+: cs → (remembered cs').Capped) (P : Str × Str × Str) :
    List.Forall₂ Settled (callsFor P cs) (outputs (perform cfg) (callsFor P cs) ∅) ∧
      Exact (remembered (callsFor P cs)) (stored cfg (callsFor P cs)) := by
  refine run_exact hcfg Exact.empty (fun l hl => hcs l (List.mem_of_mem_filter hl)) fun cs'' hcs'' => ?_
  obtain ⟨cs', hcs', rfl⟩ := List.prefix_filter_iff.mp hcs''
  exact capped_callsFor (hcap cs' hcs')

/-- They are no searches, and so all of them return. -/
theorem ok_of_callsFor {P : Str × Str × Str} {outs : List (Except Err (Reply V))}
    (h : List.Forall₂ Settled (callsFor P cs) outs) {out : Except Err (Reply V)} (hout : out ∈ outs) :
    ∃ reply, out = .ok reply := by
  obtain ⟨l, hl, hok | ⟨app, user, text, ts, e, hsearch, -⟩⟩ := exists_of_forall₂ h hout
  · exact hok
  · have hplace := of_decide_eq_true (List.mem_filter.mp hl).2
    rw [hsearch] at hplace
    cases hplace

end Alone

/-- Every session has of the store what its own calls leave when they are made alone. -/
structure Assembled (cfg : ServerConfig V) (cs : List (Instance V × Call V)) (σ : Store V) : Prop where
  slice (o : Section) : Slice cfg o σ (stored cfg (callsFor (o.app, o.user, o.session) cs))
  alone (P : Str × Str × Str) : Exact (remembered (callsFor P cs)) (stored cfg (callsFor P cs))

namespace Assembled
variable {cs : List (Instance V × Call V)} {σ : Store V}

theorem known (h : Assembled cfg cs σ) : Known σ :=
  (h.slice ⟨[], [], [], by decide, by decide, by decide, by decide⟩).known

/-- An entry is in the map of all calls if it is in that of its session. -/
theorem get (cs : List (Instance V × Call V)) (id : Id) :
    (remembered cs).get id = (remembered (callsFor (id.app, id.user, id.session) cs)).get id :=
  congrFun (part_remembered (id.app, id.user, id.session) cs) id.event

theorem named (h : Assembled cfg cs σ) {id : Id} {x : Entry V} (hx : (remembered cs).get id = some x) :
    id.Named ∧ x.keywords.Nodup :=
  (h.alone (id.app, id.user, id.session)).named id x ((get cs id).symm.trans hx)

theorem row (h : Assembled cfg cs σ) (o : Section) (e : Str) :
    σ.get (o.rowKey e) = (stored cfg (callsFor (o.app, o.user, o.session) cs)).get (o.rowKey e) :=
  (h.slice o).rows.get _ ⟨e, rfl⟩

/-- A reference names a session. -/
theorem session (h : Assembled cfg cs σ) {app user t : Str} (ha : Plain app) (hu : Plain user) {ref : Ref}
    (href : ref ∈ postings app user t σ) : Plain ref.sid ∧ ref.sid ≠ memoryKwPrefix := by
  unfold postings at href
  cases hr : σ.get (memoryPostingKey app user t) with
  | none =>
    rw [hr] at href
    cases href
  | some r =>
    obtain ⟨l, rfl, hl⟩ := h.known.list ha hu hr
    rw [hr] at href
    exact hl ref href

/-- Of one session a list holds the references of its entries with the word. -/
theorem mem_postings_of (h : Assembled cfg cs σ) (o : Section) {t : Str} {ref : Ref} (hsession : o.session = ref.sid) :
    ref ∈ postings o.app o.user t σ ↔ ∃ x, (remembered cs).get ⟨o.app, o.user, ref.sid, ref.eid⟩ = some x ∧
      t ∈ x.keywords ∧ ref.ts = x.ts := by
  have hindex := ((h.alone (o.app, o.user, o.session)).index o.app o.user t o.plainApp o.plainUser).2 ref
  rw [(h.slice o).lists t, ← hsession] at hindex
  rw [get, ← hsession]
  refine Iff.trans ?_ hindex
  simp [hsession]

theorem mem_postings (h : Assembled cfg cs σ) {app user t : Str} (ha : Plain app) (hu : Plain user) {ref : Ref} :
    ref ∈ postings app user t σ ↔ ∃ x, (remembered cs).get ⟨app, user, ref.sid, ref.eid⟩ = some x ∧
      t ∈ x.keywords ∧ ref.ts = x.ts := by
  constructor
  · intro href
    have hsession := h.session ha hu href
    exact (h.mem_postings_of ⟨app, user, ref.sid, ha, hu, hsession.1, hsession.2⟩ rfl).mp href
  · rintro ⟨x, hx, htail⟩
    have hid := (h.named hx).1
    exact (h.mem_postings_of ⟨app, user, ref.sid, ha, hu, hid.session, hid.notKw⟩ rfl).mpr ⟨x, hx, htail⟩

theorem nodup_postings (h : Assembled cfg cs σ) {app user t : Str} (ha : Plain app) (hu : Plain user) :
    (postings app user t σ).Nodup := by
  refine nodup_of_filter Ref.sid fun ref href => ?_
  have hsession := h.session ha hu href
  let o : Section := ⟨app, user, ref.sid, ha, hu, hsession.1, hsession.2⟩
  rw [← (h.slice o).lists t]
  exact ((h.alone (app, user, ref.sid)).index app user t ha hu).1

/-- The parts of the sessions make up the whole. -/
theorem exact (h : Assembled cfg cs σ) : Exact (remembered cs) σ where
  named _ _ hx := h.named hx
  rows id hid := by
    let o : Section := ⟨id.app, id.user, id.session, hid.app, hid.user, hid.session, hid.notKw⟩
    rw [get]
    exact (h.row o id.event).trans ((h.alone (id.app, id.user, id.session)).rows id hid)
  index app user t ha hu := ⟨h.nodup_postings ha hu, fun ref => h.mem_postings ha hu⟩
  known key r hr := by
    rcases h.known key r hr with ⟨o, e, rfl, -⟩ | ⟨a, u, t, l, ha, hu, rfl, rfl, -⟩
    · rw [h.row] at hr
      exact (h.alone (o.app, o.user, o.session)).known _ _ hr
    · exact .inr ⟨a, u, t, ha, hu, rfl, l, rfl⟩

end Assembled

/-- However the calls for different sessions are interleaved, when all have ended no add has
failed, and the rows and the posting lists are exact for the map that the calls make one
after the other, in the order in which they were started. -/
theorem parallel_sessions_exact (hcfg : cfg.Ample)
    (hs : (service cfg).Reach (OneAtATime cfg) ⟨∅, []⟩ s)
    (hcap : ∀ cs, cs <+: s.calls → (remembered cs).Capped) (hfin : ∀ p ∈ s.procs, p.prog.finished) :
    (∀ p ∈ s.procs, p.call.2.place ≠ none → ∃ reply, p.prog = .ret reply) ∧ Exact (remembered s.calls) s.world := by
  have hnamed := wellNamed_of_reach hs
  have hrun := run_callsFor hcfg hnamed hcap
  have hturns := hs.mono fun _ _ ha => ha.turns
  have hassembled : Assembled cfg s.calls s.world := by
    refine ⟨fun o => ?_, fun P => (hrun P).2⟩
    exact (slices hcfg).world hturns rfl (fun _ => ∅) (fun o => Slice.empty o) fun p hp => hfin p (List.mem_of_mem_filter hp)
  refine ⟨fun p hp hplace => ?_, hassembled.exact⟩
  obtain ⟨P, hP⟩ := Option.ne_none_iff_exists'.mp hplace
  obtain ⟨o, ho⟩ := exists_ownedBy (hnamed _ (List.mem_map_of_mem hp)) hP
  have hown : p ∈ System.ownCalls ownedBy o s := List.mem_filter.mpr ⟨hp, decide_eq_true ho⟩
  obtain ⟨i, hi⟩ := List.mem_iff_getElem?.mp hown
  obtain ⟨r, hr⟩ := Option.isSome_iff_exists.mp ((Prog.outcome_isSome _).trans (hfin p hp))
  have hout := (slices hcfg).outcome hturns rfl (fun _ => ∅) (fun o => Slice.empty o) hi hr
  obtain ⟨reply, rfl⟩ := ok_of_callsFor (hrun (o.app, o.user, o.session)).1 (List.mem_of_getElem? hout)
  exact ⟨reply, Prog.eq_ret_of_outcome hr⟩

end Parallel

namespace Small

/-- Two sessions of a user are added at the same time, to the same posting lists, and then
an event is added to the first of them. -/
def sideBySide : Pool (Req ℕ) Ans Err (Reply ℕ) (Store ℕ) (Instance ℕ × Call ℕ) :=
  (service cfg).run [.spawn (inst, .addSession ['a'] ['u'] ['s'] [event ['x'] "fox".toList 1]),
    .spawn (inst, .addEvents ['a'] ['u'] [event ['x'] "fox".toList 2] (some ['t'])), .step 0 .fair, .step 1 .fair,
    .step 1 .fair, .step 0 .fair, .step 1 .fair, .step 0 .fair,
    .spawn (inst, .addEvents ['a'] ['u'] [event ['x'] "fox".toList 3, event ['y'] "fox".toList 4] (some ['s'])),
    .step 2 .fair, .step 2 .fair, .step 2 .fair, .step 2 .fair] ⟨∅, []⟩

theorem reach_sideBySide : (service cfg).Reach (OneAtATime cfg) ⟨∅, []⟩ sideBySide := by
  have ha : Plain ['a'] ∧ Plain ['u'] ∧ Plain ['s'] ∧ Plain ['t'] := by decide
  refine System.reach_run ⟨⟨⟨ha.1, ha.2.1, ha.2.2.1, by decide, by simp [event], by decide⟩, fun p hp => by cases hp⟩,
    ⟨⟨ha.1, ha.2.1, fun s hs => by cases hs; exact ⟨ha.2.2.2, by decide⟩, by simp [event]⟩, fun p hp hplace => ?_⟩,
    ⟨rfl, short_of_entries (by decide +kernel)⟩, ⟨rfl, short_of_entries (by decide +kernel)⟩,
    ⟨rfl, short_of_entries (by decide +kernel)⟩, ⟨rfl, short_of_entries (by decide +kernel)⟩,
    ⟨rfl, short_of_entries (by decide +kernel)⟩, ⟨rfl, short_of_entries (by decide +kernel)⟩,
    ⟨⟨ha.1, ha.2.1, fun s hs => by cases hs; exact ⟨ha.2.2.1, by decide⟩, by simp [event]⟩, fun p hp hplace => ?_⟩,
    ⟨rfl, short_of_entries (by decide +kernel)⟩, ⟨rfl, short_of_entries (by decide +kernel)⟩,
    ⟨rfl, short_of_entries (by decide +kernel)⟩, ⟨rfl, short_of_entries (by decide +kernel)⟩, trivial⟩
  · rw [List.mem_singleton.mp hp] at hplace
    exact absurd hplace (by decide)
  · rcases List.mem_pair.mp hp with rfl | rfl <;> rfl

theorem capped_sideBySide : ∀ cs, cs <+: sideBySide.calls → (remembered cs).Capped := fun cs hcs => by
  change cs <+: [_, _, _] at hcs
  rw [List.prefix_cons_iff] at hcs
  rcases hcs with rfl | ⟨_, rfl, hcs⟩
  · exact Reference.capped_of_length (by decide +kernel)
  rw [List.prefix_cons_iff] at hcs
  rcases hcs with rfl | ⟨_, rfl, hcs⟩
  · exact Reference.capped_of_length (by decide +kernel)
  rw [List.prefix_cons_iff] at hcs
  rcases hcs with rfl | ⟨_, rfl, hcs⟩
  · exact Reference.capped_of_length (by decide +kernel)
  rw [List.prefix_nil.mp hcs]
  exact Reference.capped_of_length (by decide +kernel)

end Small

open Memory.Small in
theorem parallel_sessions_exact_small : Exact (remembered sideBySide.calls) sideBySide.world ∧
    postings ['a'] ['u'] "fox".toList sideBySide.world = [⟨['x'], ['t'], 2⟩, ⟨['x'], ['s'], 1⟩, ⟨['y'], ['s'], 4⟩] :=
  ⟨(parallel_sessions_exact (fun _ => rfl) reach_sideBySide capped_sideBySide
    (List.all_eq_true.mp (rfl : (sideBySide.procs.all fun p => p.prog.finished) = true))).2, by decide +kernel⟩

end AdkAerospike.Memory
