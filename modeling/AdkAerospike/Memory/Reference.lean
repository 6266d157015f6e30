import AdkAerospike.Memory.Service

/-! What the memory service keeps: a map from session and event ids to entries, for
every user, and for every token the references of the entries that have it among their
keywords. Calls are functions on such maps. -/

namespace AdkAerospike.Memory

open Program Data Keys Codec

variable {V : Type}

/-! ### The reference model -/

structure Id where
  app : Str
  user : Str
  session : Str
  event : Str
  deriving DecidableEq

namespace Id

def key (id : Id) : Str := memoryKey id.app id.user id.session id.event

/-- No part of the key before the event id holds a separator, and the session id is not
the word that marks posting rows. The event id is not empty. -/
structure Named (id : Id) : Prop where
  app : Plain id.app
  user : Plain id.user
  session : Plain id.session
  notKw : id.session ≠ memoryKwPrefix
  event : id.event ≠ []

variable {i j : Id}

theorem key_inj (hi : i.Named) (hj : j.Named) : i.key = j.key ↔ i = j := by
  refine (memoryKey_inj hi.app hj.app hi.user hj.user hi.session hj.session).trans ?_
  cases i
  cases j
  simp

theorem key_ne_posting (hi : i.Named) {app user t : Str} (ha : Plain app) (hu : Plain user) :
    i.key ≠ memoryPostingKey app user t := fun h => by
  rw [memoryPostingKey_eq_memoryKey] at h
  exact hi.notKw ((memoryKey_inj hi.app ha hi.user hu hi.session plain_memoryKwPrefix).mp h).2.2.1

end Id

theorem memoryPostingKey_inj {a a' u u' t t' : Str} (ha : Plain a) (ha' : Plain a') (hu : Plain u)
    (hu' : Plain u') : memoryPostingKey a u t = memoryPostingKey a' u' t' ↔ a = a' ∧ u = u' ∧ t = t' := by
  rw [memoryPostingKey_eq_memoryKey, memoryPostingKey_eq_memoryKey,
    memoryKey_inj ha ha' hu hu' plain_memoryKwPrefix plain_memoryKwPrefix]
  simp

/-- What is remembered of an event. -/
structure Entry (V : Type) where
  text : Str
  keywords : List Str
  author : Str
  ts : ℚ
  content : Option V

def Instance.entry (inst : Instance V) (e : Event V) (text : Str) : Entry V where
  text := text
  keywords := inst.tokenize text
  author := e.author
  ts := e.timestamp
  content := e.content.map inst.dump

/-- The row of an entry. -/
def Id.row (id : Id) (x : Entry V) : Record V where
  app := some id.app
  uid := some id.user
  sid := some id.session
  aus := some (scopeTuple id.app id.user id.session)
  eid := some id.event
  text := some x.text
  keywords := some x.keywords
  author := some x.author
  ts := some x.ts
  content := x.content

def Id.ref (id : Id) (x : Entry V) : Ref := ⟨id.event, id.session, x.ts⟩

abbrev Reference (V : Type) := FMap Id (Entry V)

namespace Reference

/-- Forget a session. -/
def purge (app user session : Str) (M : Reference V) : Reference V :=
  M.restrict fun id => ¬ (id.app = app ∧ id.user = user ∧ id.session = session)

/-- Remember an event, if it has text. -/
def add (inst : Instance V) (app user session : Str) (M : Reference V) (e : Event V) : Reference V :=
  match memoryText e with
  | none => M
  | some text => M.insert ⟨app, user, session, e.id⟩ (inst.entry e text)

/-- The same, unless an event with this id is remembered. -/
def addAbsent (inst : Instance V) (app user session : Str) (M : Reference V) (e : Event V) : Reference V :=
  if (M.get ⟨app, user, session, e.id⟩).isSome then M else add inst app user session M e

/-- The references of the entries of a user that have the token among their keywords. -/
def refs (M : Reference V) (app user t : Str) : List Ref :=
  (M.entries.filter fun e => e.1.app = app ∧ e.1.user = user ∧ t ∈ e.2.keywords).map
    fun e => e.1.ref e.2

/-- No list of references is longer than a posting list may be. -/
def Capped (M : Reference V) : Prop := ∀ app user t, (M.refs app user t).length ≤ maxPostingListSize

end Reference

/-- What a call makes of the map. -/
def Call.reference (inst : Instance V) : Call V → Reference V → Reference V
  | .addSession app user session events, M =>
    events.foldl (Reference.add inst app user session) (M.purge app user session)
  | .addEvents app user events session, M =>
    events.foldl (Reference.addAbsent inst app user (scopedSessionId session)) M
  | .search .., M => M

/-- The calls that are considered: ids are not empty and hold no separator, no session
is called `kw`, and the events of a session that is added have different ids. -/
def Call.WellNamed : Call V → Prop
  | .addSession app user session events =>
    Plain app ∧ Plain user ∧ Plain session ∧ session ≠ memoryKwPrefix ∧ (∀ e ∈ events, e.id ≠ []) ∧
      (events.map Event.id).Nodup
  | .addEvents app user events session =>
    Plain app ∧ Plain user ∧ (∀ s, session = some s → Plain s ∧ s ≠ memoryKwPrefix) ∧ ∀ e ∈ events, e.id ≠ []
  | .search .. => True

/-! ### References -/

namespace Reference
variable {M : Reference V} {app user t : Str}

theorem mem_refs {ref : Ref} : ref ∈ M.refs app user t ↔
    ∃ x, M.get ⟨app, user, ref.sid, ref.eid⟩ = some x ∧ t ∈ x.keywords ∧ ref.ts = x.ts := by
  simp only [refs, List.mem_map, List.mem_filter, decide_eq_true_eq]
  constructor
  · rintro ⟨⟨id, x⟩, ⟨hmem, rfl, rfl, ht⟩, rfl⟩
    exact ⟨x, (FMap.mem_entries_iff M id).mp hmem, ht, rfl⟩
  · rintro ⟨x, hx, ht, hts⟩
    refine ⟨⟨_, x⟩, ⟨(FMap.mem_entries_iff M _).mpr hx, rfl, rfl, ht⟩, ?_⟩
    cases ref
    simp_all [Id.ref]

theorem nodup_refs : (M.refs app user t).Nodup := by
  refine List.Nodup.map_on ?_ (M.nodupKeys.nodup.filter _)
  rintro ⟨i, x⟩ hi ⟨j, y⟩ hj href
  simp only [List.mem_filter, decide_eq_true_eq] at hi hj
  have hij : i = j := by
    cases i
    cases j
    simp_all [Id.ref]
  subst hij
  have hget := (FMap.mem_entries_iff M i).mp hi.1
  rw [(FMap.mem_entries_iff M i).mp hj.1, Option.some.injEq] at hget
  rw [hget]

theorem refs_insert {id : Id} (hid : M.get id = none) (x : Entry V) :
    refs (M.insert id x) app user t =
      if id.app = app ∧ id.user = user ∧ t ∈ x.keywords then id.ref x :: M.refs app user t
      else M.refs app user t := by
  have hnew : id ∉ M := AList.lookup_eq_none.mp hid
  have hentries : (M.insert id x).entries = ⟨id, x⟩ :: M.entries := AList.entries_insert_of_notMem hnew
  unfold refs
  rw [hentries, List.filter_cons]
  by_cases h : id.app = app ∧ id.user = user ∧ t ∈ x.keywords <;> simp [h]

theorem capped_of_length (h : M.entries.length ≤ maxPostingListSize) : M.Capped := fun app user t => by
  rw [refs, List.length_map]
  exact (List.length_filter_le _ _).trans h

/-- No list of references has become shorter. -/
def Grows (M M' : Reference V) : Prop :=
  ∀ app user t, (M.refs app user t).length ≤ (M'.refs app user t).length

theorem Grows.capped {M' : Reference V} (h : Grows M M') (hM' : M'.Capped) : M.Capped := fun app user t =>
  (h app user t).trans (hM' app user t)

theorem grows_insert {id : Id} (hid : M.get id = none) (x : Entry V) : Grows M (M.insert id x) :=
  fun app user t => by
    rw [refs_insert hid]
    split_ifs <;> simp

section Adding
variable {inst : Instance V} {session : Str} {e : Event V}

theorem grows_add (hid : M.get ⟨app, user, session, e.id⟩ = none) : Grows M (add inst app user session M e) := by
  unfold add
  split
  · exact fun _ _ _ => le_rfl
  · exact grows_insert hid _

theorem get_add_of_ne {id : Id} (hid : id ≠ ⟨app, user, session, e.id⟩) :
    (add inst app user session M e).get id = M.get id := by
  unfold add
  split
  · rfl
  · exact FMap.get_insert_of_ne M _ hid

/-- The events after one that they do not repeat are as new as before. -/
theorem get_add_of_notMem {es : List (Event V)} (he : e.id ∉ es.map Event.id) {e' : Event V} (he' : e' ∈ es)
    (hnew : M.get ⟨app, user, session, e'.id⟩ = none) :
    (add inst app user session M e).get ⟨app, user, session, e'.id⟩ = none := by
  have hne : e'.id ≠ e.id := fun heq => he (heq ▸ List.mem_map_of_mem he')
  rw [get_add_of_ne (by simpa using hne), hnew]

theorem grows_foldl_add {events : List (Event V)} (hnodup : (events.map Event.id).Nodup)
    (hnew : ∀ e ∈ events, M.get ⟨app, user, session, e.id⟩ = none) :
    Grows M (events.foldl (add inst app user session) M) := by
  induction events generalizing M with
  | nil => exact fun _ _ _ => le_rfl
  | cons e es ih =>
    obtain ⟨he, hes⟩ := List.nodup_cons.mp hnodup
    refine fun a u t => (grows_add (hnew e (by simp)) a u t).trans (ih hes (fun e' he' => ?_) a u t)
    exact get_add_of_notMem he he' (hnew e' (by simp [he']))

theorem grows_addAbsent : Grows M (addAbsent inst app user session M e) := by
  unfold addAbsent
  split_ifs with hid
  · exact fun _ _ _ => le_rfl
  · exact grows_add (by simpa using hid)

theorem grows_foldl_addAbsent (events : List (Event V)) :
    Grows M (events.foldl (addAbsent inst app user session) M) := by
  induction events generalizing M with
  | nil => exact fun _ _ _ => le_rfl
  | cons e es ih => exact fun a u t => (grows_addAbsent a u t).trans (ih a u t)

/-- What is remembered afterwards was remembered before or comes from one of the events. -/
theorem get_foldl_addAbsent {events : List (Event V)} {id : Id} {x : Entry V}
    (h : FMap.get (events.foldl (addAbsent inst app user session) M) id = some x) :
    M.get id = some x ∨ ∃ e ∈ events, ∃ text, memoryText e = some text ∧ id = ⟨app, user, session, e.id⟩ ∧
      x = inst.entry e text := by
  induction events generalizing M with
  | nil => exact .inl h
  | cons e es ih =>
    rcases ih h with h | ⟨e', he', hx⟩
    · unfold addAbsent add at h
      split_ifs at h
      · exact .inl h
      · split at h
        · exact .inl h
        · next text htext =>
          by_cases hid : id = ⟨app, user, session, e.id⟩
          · rw [hid, FMap.get_insert_self, Option.some.injEq] at h
            exact .inr ⟨e, by simp, text, htext, hid, h.symm⟩
          · rw [FMap.get_insert_of_ne M _ hid] at h
            exact .inl h
    · exact .inr ⟨e', by simp [he'], hx⟩

/-- What has been remembered stays so. -/
theorem isSome_foldl_addAbsent {events : List (Event V)} {id : Id} (h : (M.get id).isSome) :
    (FMap.get (events.foldl (addAbsent inst app user session) M) id).isSome := by
  induction events generalizing M with
  | nil => exact h
  | cons e es ih =>
    refine ih ?_
    by_cases hid : id = ⟨app, user, session, e.id⟩
    · subst hid
      rwa [addAbsent, if_pos h]
    · unfold addAbsent
      split_ifs
      · exact h
      · rwa [get_add_of_ne hid]

/-- Every event with text is remembered. -/
theorem isSome_of_mem {events : List (Event V)} {text : Str} (he : e ∈ events) (htext : memoryText e = some text) :
    (FMap.get (events.foldl (addAbsent inst app user session) M) ⟨app, user, session, e.id⟩).isSome := by
  induction events generalizing M with
  | nil => cases he
  | cons e' es ih =>
    rcases List.mem_cons.mp he with rfl | he
    · have hfirst : ((addAbsent inst app user session M e).get ⟨app, user, session, e.id⟩).isSome := by
        unfold addAbsent
        split_ifs with hold
        · exact hold
        · rw [add, htext]
          simp
      rw [List.foldl_cons]
      exact isSome_foldl_addAbsent hfirst
    · exact ih he

theorem length_foldl_addAbsent (events : List (Event V)) :
    (events.foldl (addAbsent inst app user session) M).entries.length ≤ M.entries.length + events.length := by
  induction events generalizing M with
  | nil => exact le_rfl
  | cons e es ih =>
    have hone : (addAbsent inst app user session M e).entries.length ≤ M.entries.length + 1 := by
      unfold addAbsent add
      split_ifs with hold
      · exact Nat.le_succ _
      · split
        · exact Nat.le_succ _
        · have hnone : M.get ⟨app, user, session, e.id⟩ = none := by simpa using hold
          have hnew : (⟨app, user, session, e.id⟩ : Id) ∉ M := AList.lookup_eq_none.mp hnone
          rw [AList.entries_insert_of_notMem hnew, List.length_cons]
    have hrest := @ih (addAbsent inst app user session M e)
    rw [List.foldl_cons, List.length_cons]
    omega

end Adding

end Reference

end AdkAerospike.Memory
