import AdkAerospike.Memory.Retry

/-! `add_events_to_memory` cut off by a failing request and made again. An event is
skipped if there is a record under its key, and its row is put before the references to
it are appended. So a second call makes good for every cut but those after the put of a
row and before the last of its references. -/

namespace AdkAerospike.Memory

open Program Data Keys Codec

variable {V : Type}

/-! ### What an event leaves -/

/-- The store with a reference appended for each of some tokens. -/
def noted (app user : Str) (ref : Ref) (tokens : List Str) (σ : Store V) : Store V :=
  tokens.foldl (fun v t => FMap.set v (memoryPostingKey app user t)
    (some (Record.add ref (v.get (memoryPostingKey app user t))))) σ

/-- The list of one of the tokens does not hold the reference. -/
def Lacks (app user : Str) (ref : Ref) (tokens : List Str) (σ : Store V) : Prop :=
  ∃ t ∈ tokens, ref ∉ Record.refs (σ.get (memoryPostingKey app user t))

instance (app user : Str) (ref : Ref) (tokens : List Str) (σ : Store V) : Decidable (Lacks app user ref tokens σ) :=
  inferInstanceAs (Decidable (∃ t ∈ tokens, ref ∉ Record.refs (σ.get (memoryPostingKey app user t))))

def eventRef (session : Str) (e : Event V) : Ref := ⟨e.id, session, e.timestamp⟩

section
variable (inst : Instance V) (app user session : Str)

/-- The store after one pass of the loop of `add_events_to_memory`. -/
def entered (σ : Store V) (e : Event V) : Store V :=
  match memoryText e with
  | none => σ
  | some text =>
    if (σ.get (memoryKey app user session e.id)).isSome then σ
    else noted app user (eventRef session e) (inst.tokenize text)
      (FMap.set σ (memoryKey app user session e.id) (some (inst.newRow app user session e text)))

/-! ### Where the call is cut -/

/-- There was no record under the key of the event, and `written` does not list it. -/
def Absent (σ : Store V) (written : List Str) (e : Event V) : Prop :=
  memoryKey app user session e.id ∉ written ∧ σ.get (memoryKey app user session e.id) = none

instance (σ : Store V) (written : List Str) (e : Event V) : Decidable (Absent app user session σ written e) :=
  inferInstanceAs (Decidable (_ ∧ _))

/-- The number of requests made for an event: a read, and if nothing was read the put of
the row and an append for each token. -/
def requests (σ : Store V) (written : List Str) (e : Event V) : ℕ :=
  match memoryText e with
  | none => 0
  | some text => if Absent app user session σ written e then 2 + (inst.tokenize text).length else 1

/-- The keys that have been written when the event is done. -/
def writes (σ : Store V) (written : List Str) (e : Event V) : List Str :=
  match memoryText e with
  | none => written
  | some text =>
    if Absent app user session σ written e then
      memoryKey app user session e.id :: (inst.tokenize text).map (memoryPostingKey app user) ++ written
    else written

/-- After `m` requests for a new event its row has been put, and the lists of the tokens
that are left did not all hold the reference at first. -/
def Owes (σ : Store V) (written : List Str) (e : Event V) (m : ℕ) : Prop :=
  match memoryText e with
  | none => False
  | some text => Absent app user session σ written e ∧ 2 ≤ m ∧
      Lacks app user (eventRef session e) ((inst.tokenize text).drop (m - 2)) σ

instance (σ : Store V) (written : List Str) (e : Event V) (m : ℕ) :
    Decidable (Owes inst app user session σ written e m) :=
  match htext : memoryText e with
  | none => .isFalse (by simp [Owes, htext])
  | some text => decidable_of_iff (Absent app user session σ written e ∧ 2 ≤ m ∧
      Lacks app user (eventRef session e) ((inst.tokenize text).drop (m - 2)) σ) (by simp [Owes, htext])

/-- A call that is cut off after `m` requests owes references to an event. -/
def Torn (σ : Store V) : List Str → List (Event V) → ℕ → Prop
  | _, [], _ => False
  | written, e :: es, m =>
    Owes inst app user session σ written e m ∨ requests inst app user session σ written e ≤ m ∧
      Torn σ (writes inst app user session σ written e) es (m - requests inst app user session σ written e)

instance decidableTorn (σ : Store V) : ∀ written es m, Decidable (Torn inst app user session σ written es m)
  | _, [], _ => .isFalse fun h => h
  | written, e :: es, m =>
    have := decidableTorn σ (writes inst app user session σ written e) es (m - requests inst app user session σ written e)
    inferInstanceAs (Decidable (_ ∨ _ ∧ _))

end

/-- No posting list is longer than it may be. -/
def Short (σ : Store V) : Prop := ∀ key, (Record.refs (σ.get key)).length ≤ maxPostingListSize

section Requests
variable {cfg : ServerConfig V} {inst : Instance V} {app user session : Str} {ref : Ref} {β : Type}
  {f : Unit → Service V β} {σ : Store V} {e : Event V}

/-- One reference is appended; nothing has to be trimmed. -/
theorem runFor_appendPostingRef (hcfg : cfg.Ample) {t : Str} {ts : List Str}
    (hshort : ((appendPostingRefs app user ref (t :: ts)).bind f).Always (exec cfg .fair) Short σ) :
    Prog.runFor (exec cfg .fair) 1 ((appendPostingRefs app user ref (t :: ts)).bind f) σ =
      ((appendPostingRefs app user ref ts).bind f, noted app user ref [t] σ) := by
  have hstep := exec_append hcfg (memoryPostingKey app user t) ref σ
  have hlen : (Record.refs (σ.get (memoryPostingKey app user t)) ++ [ref]).length ≤ maxPostingListSize := by
    have hlast := hshort.runFor 1 (memoryPostingKey app user t)
    have hafter : (Prog.runFor (exec cfg .fair) 1 ((appendPostingRefs app user ref (t :: ts)).bind f) σ).2 =
        noted app user ref [t] σ := by
      show (Prog.runFor (exec cfg .fair) 0 _ (exec cfg .fair (.operate _ [.append ref, .read]) σ).2).2 = _
      rw [Prog.runFor_zero, hstep]
      rfl
    rw [hafter] at hlast
    simpa [noted, FMap.get_set, Record.add, Record.refs] using hlast
  show Prog.runFor (exec cfg .fair) 0 ((((answer (exec cfg .fair (.operate _ [.append ref, .read]) σ).1).bind
    (trim app user t)).bind fun _ => appendPostingRefs app user ref ts).bind f)
    (exec cfg .fair (.operate _ [.append ref, .read]) σ).2 = _
  rw [Prog.runFor_zero, hstep]
  show (((trim app user t (some _)).bind _).bind f, _) = _
  rw [trim_of_le app user t hlen]
  rfl

theorem runFor_appendPostingRefs (hcfg : cfg.Ample) {ts : List Str}
    (hshort : ((appendPostingRefs app user ref ts).bind f).Always (exec cfg .fair) Short σ) {m : ℕ}
    (hm : m ≤ ts.length) :
    Prog.runFor (exec cfg .fair) m ((appendPostingRefs app user ref ts).bind f) σ =
      ((appendPostingRefs app user ref (ts.drop m)).bind f, noted app user ref (ts.take m) σ) := by
  induction m generalizing ts σ with
  | zero => rw [Prog.runFor_zero]; rfl
  | succ m ih =>
    cases ts with
    | nil => simp at hm
    | cons t ts =>
      have hone := runFor_appendPostingRef hcfg hshort
      have hrest := hshort.after 1
      rw [hone] at hrest
      rw [Nat.add_comm, Prog.runFor_add, hone, ih hrest (by simpa using hm)]
      simp [noted, Nat.add_comm]

/-- The read with which an event that has a text begins. -/
theorem runFor_read {text : Str} (htext : memoryText e = some text) :
    Prog.runFor (exec cfg .fair) 1 ((addEventIfAbsent inst app user session e).bind f) σ =
      ((if (σ.get (memoryKey app user session e.id)).isSome then .ret ()
        else upsertMemory inst app user session e text).bind f, σ) := by
  have hread : exec cfg .fair (.batchRead [memoryKey app user session e.id]) σ =
      (.ok [σ.get (memoryKey app user session e.id)], σ) := rfl
  unfold addEventIfAbsent
  rw [htext]
  show Prog.runFor (exec cfg .fair) 0 (((answer (exec cfg .fair (.batchRead [_]) σ).1).bind _).bind f)
    (exec cfg .fair (.batchRead [_]) σ).2 = _
  rw [Prog.runFor_zero, hread]
  cases σ.get (memoryKey app user session e.id) <;> rfl

/-- An event with a record under its key is skipped. -/
theorem runFor_present {text : Str} (htext : memoryText e = some text)
    (hrow : (σ.get (memoryKey app user session e.id)).isSome) :
    Prog.runFor (exec cfg .fair) 1 ((addEventIfAbsent inst app user session e).bind f) σ = (f (), σ) := by
  rw [runFor_read htext, if_pos hrow]
  rfl

/-- Otherwise its row is put after the read. -/
theorem runFor_absent (hcfg : cfg.Ample) {text : Str} (htext : memoryText e = some text)
    (hrow : σ.get (memoryKey app user session e.id) = none) :
    (Prog.runFor (exec cfg .fair) 1 ((addEventIfAbsent inst app user session e).bind f) σ).2 = σ ∧
    Prog.runFor (exec cfg .fair) 2 ((addEventIfAbsent inst app user session e).bind f) σ =
      ((appendPostingRefs app user (eventRef session e) (inst.tokenize text)).bind f,
        FMap.set σ (memoryKey app user session e.id) (some (inst.newRow app user session e text))) := by
  have hput : exec cfg .fair (.put (memoryKey app user session e.id) (inst.newRow app user session e text)) σ =
      (.ok (), FMap.set σ (memoryKey app user session e.id) (some (inst.newRow app user session e text))) := by
    refine Server.change_of_ok ?_
    rw [hrow]
    exact if_pos (hcfg _)
  have hone : Prog.runFor (exec cfg .fair) 1 ((addEventIfAbsent inst app user session e).bind f) σ =
      ((upsertMemory inst app user session e text).bind f, σ) := by
    rw [runFor_read htext, if_neg (by simp [hrow])]
  refine ⟨by rw [hone], ?_⟩
  rw [show 2 = 1 + 1 from rfl, Prog.runFor_add, hone]
  show Prog.runFor (exec cfg .fair) 0 (((answer (exec cfg .fair (.put _ _) σ).1).bind _).bind f)
    (exec cfg .fair (.put _ _) σ).2 = _
  rw [Prog.runFor_zero, hput]
  rfl

/-- The call after all requests of its first event. -/
theorem runFor_entered (hcfg : cfg.Ample)
    (hshort : ((addEventIfAbsent inst app user session e).bind f).Always (exec cfg .fair) Short σ) {n : ℕ}
    (hn : n = requests inst app user session σ [] e) :
    Prog.runFor (exec cfg .fair) n ((addEventIfAbsent inst app user session e).bind f) σ =
      (f (), entered inst app user session σ e) := by
  unfold requests Absent at hn
  unfold entered
  cases htext : memoryText e with
  | none =>
    simp only [htext] at hn
    rw [hn, Prog.runFor_zero, addEventIfAbsent, htext]
    rfl
  | some text =>
    simp only [htext, List.not_mem_nil, not_false_eq_true, true_and] at hn
    dsimp only
    split_ifs with hrow
    · rw [if_neg (by simpa [Option.isSome_iff_ne_none] using hrow)] at hn
      rw [hn, runFor_present htext hrow]
    · have hnone : σ.get (memoryKey app user session e.id) = none := by simpa using hrow
      have hput := (@runFor_absent V cfg inst app user session β f σ e hcfg text htext hnone).2
      have hrest := hshort.after 2
      rw [hput] at hrest
      rw [if_pos hnone] at hn
      rw [hn, Prog.runFor_add, hput, runFor_appendPostingRefs hcfg hrest le_rfl]
      simp [appendPostingRefs, Prog.bind]

end Requests

/-! ### What is seen of a store -/

/-- The bins of a record other than the posting list. -/
def Record.bins (r : Record V) : Record V := { r with postings := none }

/-- The bins of the memory row under a key. -/
def rowBins (key : Str) (σ : Store V) : Option (Record V) :=
  ((σ.get key).map Record.bins).filter fun r => r.aus.isSome

/-- The other bins of a record, and the set of its references. -/
def seen (σ : Store V) (key : Str) : Option (Record V) × Set Ref :=
  ((σ.get key).map Record.bins, {ref | ref ∈ Record.refs (σ.get key)})

/-- The same rows, and the same set of references in every list. -/
def Same (σ σ' : Store V) : Prop :=
  ∀ key, rowBins key σ = rowBins key σ' ∧ ∀ ref, ref ∈ Record.refs (σ.get key) ↔ ref ∈ Record.refs (σ'.get key)

section Seen
variable {inst : Instance V} {app user session : Str} {ref : Ref} {σ σ' : Store V} {e : Event V}

theorem isSome_iff_seen {key : Str} : (σ.get key).isSome ↔ (seen σ key).1.isSome := by simp [seen]

theorem mem_refs_iff_seen {key : Str} : ref ∈ Record.refs (σ.get key) ↔ ref ∈ (seen σ key).2 := Iff.rfl

theorem Same.of_seen (h : seen σ = seen σ') : Same σ σ' := fun key => by
  refine ⟨?_, fun ref => ?_⟩
  · show (seen σ key).1.filter _ = (seen σ' key).1.filter _
    rw [h]
  · rw [mem_refs_iff_seen, mem_refs_iff_seen, h]

theorem seen_noted (tokens : List Str) (σ : Store V) (key : Str) : seen (noted app user ref tokens σ) key =
    if ∃ t ∈ tokens, key = memoryPostingKey app user t then
      (some ((seen σ key).1.getD {}), insert ref (seen σ key).2)
    else seen σ key := by
  induction tokens generalizing σ with
  | nil => simp [noted]
  | cons t ts ih =>
    have hone : seen (noted app user ref [t] σ) key = if key = memoryPostingKey app user t then
        (some ((seen σ key).1.getD {}), insert ref (seen σ key).2) else seen σ key := by
      by_cases hk : key = memoryPostingKey app user t
      · subst hk
        have hset : {r | r ∈ Record.refs (σ.get (memoryPostingKey app user t)) ∨ r = ref} =
            insert ref {r | r ∈ Record.refs (σ.get (memoryPostingKey app user t))} := by
          ext r
          simp [or_comm]
        cases hr : σ.get (memoryPostingKey app user t) <;>
          simp_all [seen, noted, FMap.get_set, Record.add, Record.refs, Record.bins]
      · simp [seen, noted, FMap.get_set, hk]
    have hcons : noted app user ref (t :: ts) σ = noted app user ref ts (noted app user ref [t] σ) := rfl
    rw [hcons, ih, hone]
    by_cases hk : key = memoryPostingKey app user t <;> by_cases hts : ∃ t' ∈ ts, key = memoryPostingKey app user t' <;>
      simp [hk, hts]

theorem seen_put (hnone : σ.get (memoryKey app user session e.id) = none) (text : Str) (key : Str) :
    seen (FMap.set σ (memoryKey app user session e.id) (some (inst.newRow app user session e text))) key =
      if key = memoryKey app user session e.id then (some (inst.newRow app user session e text), (seen σ key).2)
      else seen σ key := by
  by_cases hk : key = memoryKey app user session e.id
  · subst hk
    simp [seen, FMap.get_set, hnone, Record.refs, Record.bins, Instance.newRow]
  · simp [seen, FMap.get_set, hk]

/-- Stores that look alike look alike after an event. -/
theorem seen_entered (h : seen σ = seen σ') :
    seen (entered inst app user session σ e) = seen (entered inst app user session σ' e) := by
  unfold entered
  cases memoryText e with
  | none => exact h
  | some text =>
    have hiff : (σ.get (memoryKey app user session e.id)).isSome ↔ (σ'.get (memoryKey app user session e.id)).isSome := by
      rw [isSome_iff_seen, isSome_iff_seen, h]
    dsimp only
    by_cases hrow : (σ.get (memoryKey app user session e.id)).isSome
    · rwa [if_pos hrow, if_pos (hiff.mp hrow)]
    · rw [if_neg hrow, if_neg fun hrow' => hrow (hiff.mpr hrow')]
      have hnone : σ.get (memoryKey app user session e.id) = none := by simpa using hrow
      have hnone' : σ'.get (memoryKey app user session e.id) = none := by simpa using fun hrow' => hrow (hiff.mpr hrow')
      funext key
      rw [seen_noted, seen_noted, seen_put hnone, seen_put hnone', h]

theorem seen_foldl_entered (h : seen σ = seen σ') (es : List (Event V)) :
    seen (es.foldl (entered inst app user session) σ) = seen (es.foldl (entered inst app user session) σ') := by
  induction es generalizing σ σ' with
  | nil => exact h
  | cons e es ih => exact ih (seen_entered h)

/-- An event whose key is taken changes nothing. -/
theorem entered_of_isSome (h : (σ.get (memoryKey app user session e.id)).isSome) :
    entered inst app user session σ e = σ := by
  unfold entered
  cases memoryText e with
  | none => rfl
  | some text => exact if_pos h

theorem entered_of_none {text : Str} (htext : memoryText e = some text)
    (h : σ.get (memoryKey app user session e.id) = none) : entered inst app user session σ e =
      noted app user (eventRef session e) (inst.tokenize text)
        (FMap.set σ (memoryKey app user session e.id) (some (inst.newRow app user session e text))) := by
  unfold entered
  simp [htext, h]

/-- What an event with a free key leaves to see. -/
theorem seen_entered_of_none {text : Str} (htext : memoryText e = some text)
    (h : σ.get (memoryKey app user session e.id) = none) (key : Str) :
    ((seen (entered inst app user session σ e) key).1.isSome ↔ (seen σ key).1.isSome ∨
      key = memoryKey app user session e.id ∨ ∃ t ∈ inst.tokenize text, key = memoryPostingKey app user t) ∧
    ∀ r, r ∈ (seen (entered inst app user session σ e) key).2 ↔ r ∈ (seen σ key).2 ∨
      r = eventRef session e ∧ ∃ t ∈ inst.tokenize text, key = memoryPostingKey app user t := by
  rw [entered_of_none htext h, seen_noted, seen_put h]
  split_ifs with ht hk hk
  · simp [ht, or_comm]
  · simp [ht, or_comm]
  · exact ⟨by simp [hk], fun r => by simp [ht]⟩
  · simp [ht, hk]

/-- Records stay, and so do references. -/
theorem seen_entered_mono (key : Str) :
    ((seen σ key).1.isSome → (seen (entered inst app user session σ e) key).1.isSome) ∧
      (seen σ key).2 ⊆ (seen (entered inst app user session σ e) key).2 := by
  by_cases hrow : (σ.get (memoryKey app user session e.id)).isSome
  · rw [entered_of_isSome hrow]
    exact ⟨fun h => h, subset_rfl⟩
  · cases htext : memoryText e with
    | none =>
      rw [entered, htext]
      exact ⟨fun h => h, subset_rfl⟩
    | some text =>
      obtain ⟨hsome, hrefs⟩ := @seen_entered_of_none V inst app user session σ e text htext (by simpa using hrow) key
      exact ⟨fun h => hsome.mpr (.inl h), fun r hr => (hrefs r).mpr (.inl hr)⟩

/-- References to an event whose key is taken are not appended. -/
theorem seen_entered_old (hold : (σ.get (memoryKey app user session ref.eid)).isSome) (key : Str) :
    ref ∈ (seen (entered inst app user session σ e) key).2 ↔ ref ∈ (seen σ key).2 := by
  by_cases hrow : (σ.get (memoryKey app user session e.id)).isSome
  · rw [entered_of_isSome hrow]
  · cases htext : memoryText e with
    | none => rw [entered, htext]
    | some text =>
      rw [(seen_entered_of_none htext (by simpa using hrow) key).2]
      refine or_iff_left fun hnew => hrow ?_
      rwa [hnew.1] at hold

theorem seen_foldl_mono (es : List (Event V)) (key : Str) :
    ((seen σ key).1.isSome → (seen (es.foldl (entered inst app user session) σ) key).1.isSome) ∧
      (seen σ key).2 ⊆ (seen (es.foldl (entered inst app user session) σ) key).2 := by
  induction es generalizing σ with
  | nil => exact ⟨fun h => h, subset_rfl⟩
  | cons e es ih =>
    have hone := @seen_entered_mono V inst app user session σ e key
    have hrest := @ih (entered inst app user session σ e)
    exact ⟨fun h => hrest.1 (hone.1 h), hone.2.trans hrest.2⟩

theorem seen_foldl_old (hold : (σ.get (memoryKey app user session ref.eid)).isSome) (es : List (Event V)) (key : Str) :
    ref ∈ (seen (es.foldl (entered inst app user session) σ) key).2 ↔ ref ∈ (seen σ key).2 := by
  induction es generalizing σ with
  | nil => exact Iff.rfl
  | cons e es ih =>
    have hstill := (@seen_entered_mono V inst app user session σ e _).1 (isSome_iff_seen.mp hold)
    exact (ih (isSome_iff_seen.mpr hstill)).trans (seen_entered_old hold key)

end Seen

/-! ### Cut off and made again -/

/-- `v` is the store after some events: the keys of `written` are taken beside those that
were at first, and no reference was appended to an event whose key is still free. -/
structure Since (app user session : Str) (σ : Store V) (written : List Str) (v : Store V) : Prop where
  free : ∀ key, v.get key = none ↔ key ∉ written ∧ σ.get key = none
  refs : ∀ ref : Ref, memoryKey app user session ref.eid ∉ written →
    ∀ key, ref ∈ (seen v key).2 ↔ ref ∈ (seen σ key).2

section Since
variable {inst : Instance V} {app user session : Str} {σ v : Store V} {written : List Str} {e : Event V}

theorem Since.absent_iff (h : Since app user session σ written v) :
    Absent app user session σ written e ↔ v.get (memoryKey app user session e.id) = none := (h.free _).symm

theorem Since.requests_eq (h : Since app user session σ written v) :
    requests inst app user session σ written e = requests inst app user session v [] e := by
  have hiff : Absent app user session σ written e ↔ Absent app user session v [] e := by
    rw [h.absent_iff]
    simp [Absent]
  unfold requests
  simp only [hiff]

theorem Since.entered (h : Since app user session σ written v) :
    Since app user session σ (writes inst app user session σ written e) (entered inst app user session v e) := by
  unfold writes
  cases htext : memoryText e with
  | none =>
    rw [Memory.entered, htext]
    exact h
  | some text =>
    dsimp only
    split_ifs with habsent
    · have hnone := h.absent_iff.mp habsent
      have hseen := @seen_entered_of_none V inst app user session v e text htext hnone
      refine ⟨fun key => ?_, fun ref href key => ?_⟩
      · have hfree := h.free key
        rw [← Option.not_isSome_iff_eq_none, isSome_iff_seen, (hseen key).1, ← isSome_iff_seen]
        simp only [List.cons_append, List.mem_cons, List.mem_append, List.mem_map, not_or, not_exists, not_and]
        rw [Option.not_isSome_iff_eq_none, hfree]
        grind
      · simp only [List.cons_append, List.mem_cons, List.mem_append, not_or] at href
        rw [(hseen key).2, ← h.refs ref href.2.2 key]
        refine or_iff_left fun hnew => href.1 ?_
        rw [hnew.1]
        rfl
    · have hsome : (v.get (memoryKey app user session e.id)).isSome := by
        rw [← Option.ne_none_iff_isSome]
        exact fun hnone => habsent (h.absent_iff.mpr hnone)
      rw [entered_of_isSome hsome]
      exact h

/-- Nothing is owed to an event that is done. -/
theorem not_owes {m : ℕ} (hm : requests inst app user session σ written e ≤ m) :
    ¬ Owes inst app user session σ written e m := by
  unfold requests at hm
  unfold Owes
  cases htext : memoryText e with
  | none => simp
  | some text =>
    simp only [htext] at hm
    rintro ⟨habsent, -, t, ht, -⟩
    rw [if_pos habsent] at hm
    rw [List.drop_eq_nil_of_le (by omega)] at ht
    cases ht

end Since

/-- The row of an event has been put, and references for the first `k` of its words. -/
def partway (inst : Instance V) (app user session : Str) (v : Store V) (e : Event V) (text : Str) (k : ℕ) : Store V :=
  noted app user (eventRef session e) ((inst.tokenize text).take k)
    (FMap.set v (memoryKey app user session e.id) (some (inst.newRow app user session e text)))

section Partway
variable {inst : Instance V} {app user session : Str} {v : Store V} {e : Event V} {text : Str} {k : ℕ}

theorem isSome_partway {key : Str} (hkey : (v.get key).isSome ∨ key = memoryKey app user session e.id) :
    ((partway inst app user session v e text k).get key).isSome := by
  have hput : ((FMap.set v (memoryKey app user session e.id)
      (some (inst.newRow app user session e text))).get key).isSome := by
    rw [FMap.get_set]
    split_ifs with hk
    · rfl
    · exact hkey.resolve_right hk
  rw [isSome_iff_seen] at hput ⊢
  rw [partway, seen_noted]
  split_ifs
  · rfl
  · exact hput

/-- The other references complete the event. -/
theorem noted_partway (htext : memoryText e = some text) (hnone : v.get (memoryKey app user session e.id) = none) :
    noted app user (eventRef session e) ((inst.tokenize text).drop k) (partway inst app user session v e text k) =
      entered inst app user session v e := by
  rw [entered_of_none htext hnone, partway, noted, noted, noted, ← List.foldl_append, List.take_append_drop]

/-- The lists of the other words are as they were. -/
theorem refs_partway (hnone : v.get (memoryKey app user session e.id) = none) {t : Str}
    (ht : t ∈ (inst.tokenize text).drop k) :
    (seen (partway inst app user session v e text k) (memoryPostingKey app user t)).2 =
      (seen v (memoryPostingKey app user t)).2 := by
  have hnot : ¬ ∃ t' ∈ (inst.tokenize text).take k, memoryPostingKey app user t = memoryPostingKey app user t' := by
    rintro ⟨t', ht', hkey⟩
    rw [memoryPostingKey_right_inj] at hkey
    subst hkey
    have hnodup := inst.nodup_tokenize text
    rw [← List.take_append_drop k (inst.tokenize text)] at hnodup
    exact (List.nodup_append.mp hnodup).2.2 t ht' t ht rfl
  rw [partway, seen_noted, if_neg hnot, seen_put hnone]
  split_ifs <;> rfl

/-- If the lists of the other words hold the reference already, nothing is missing. -/
theorem seen_partway (htext : memoryText e = some text) (hnone : v.get (memoryKey app user session e.id) = none)
    (hall : ∀ t ∈ (inst.tokenize text).drop k, eventRef session e ∈ (seen v (memoryPostingKey app user t)).2) :
    seen (partway inst app user session v e text k) = seen (entered inst app user session v e) := by
  rw [← noted_partway (k := k) htext hnone]
  funext key
  rw [seen_noted]
  split_ifs with ht
  · obtain ⟨t, ht, rfl⟩ := ht
    have hin : eventRef session e ∈ (seen (partway inst app user session v e text k) (memoryPostingKey app user t)).2 := by
      rw [refs_partway hnone ht]
      exact hall t ht
    have hsome : (seen (partway inst app user session v e text k) (memoryPostingKey app user t)).1.isSome := by
      rw [← isSome_iff_seen]
      by_contra hgone
      rw [Option.not_isSome_iff_eq_none] at hgone
      rw [← mem_refs_iff_seen, hgone] at hin
      cases hin
    obtain ⟨r, hr⟩ := Option.isSome_iff_exists.mp hsome
    rw [Set.insert_eq_of_mem hin, hr]
    exact Prod.ext hr rfl
  · rfl

/-- A call that stops there leaves, when it is made again, what it would have left at first
exactly if the other references were there. -/
theorem same_partway (htext : memoryText e = some text) (hnone : v.get (memoryKey app user session e.id) = none)
    (es : List (Event V)) :
    Same (es.foldl (entered inst app user session) (partway inst app user session v e text k))
      (es.foldl (entered inst app user session) (entered inst app user session v e)) ↔
    ¬ Lacks app user (eventRef session e) ((inst.tokenize text).drop k) v := by
  have hlacks : ¬ Lacks app user (eventRef session e) ((inst.tokenize text).drop k) v ↔
      ∀ t ∈ (inst.tokenize text).drop k, eventRef session e ∈ (seen v (memoryPostingKey app user t)).2 := by
    simp [Lacks, mem_refs_iff_seen]
  rw [hlacks]
  refine ⟨fun hsame t ht => ?_, fun hall => .of_seen (seen_foldl_entered (seen_partway htext hnone hall) es)⟩
  -- A list that lacked the reference lacks it still, for the event is not looked at again.
  have hin : eventRef session e ∈ (seen (es.foldl (entered inst app user session)
      (partway inst app user session v e text k)) (memoryPostingKey app user t)).2 := by
    refine ((hsame (memoryPostingKey app user t)).2 _).mpr ?_
    rw [mem_refs_iff_seen, ← noted_partway (k := k) htext hnone]
    refine (seen_foldl_mono es _).2 ?_
    rw [seen_noted, if_pos ⟨t, ht, rfl⟩]
    exact Set.mem_insert _ _
  rwa [seen_foldl_old (isSome_partway (.inr rfl)), refs_partway hnone ht] at hin

end Partway

section Cut
variable {cfg : ServerConfig V} {inst : Instance V} {app user session : Str} {σ v : Store V} {written : List Str}
  {e : Event V} {β : Type} {g : Unit → Service V β}

theorem addAbsent_cons_bind (es : List (Event V)) : (addAbsent inst app user session (e :: es)).bind g =
    (addEventIfAbsent inst app user session e).bind fun _ => (addAbsent inst app user session es).bind g := by
  rw [addAbsent, Prog.bind_eq, Prog.bind_assoc]

/-- The whole call, event by event. -/
theorem alone_addAbsent (hcfg : cfg.Ample) {es : List (Event V)}
    (hshort : ((addAbsent inst app user session es).bind g).Always (exec cfg .fair) Short v) :
    alone cfg ((addAbsent inst app user session es).bind g) v =
      alone cfg (g ()) (es.foldl (entered inst app user session) v) := by
  induction es generalizing v with
  | nil => rfl
  | cons e es ih =>
    rw [addAbsent_cons_bind] at hshort ⊢
    have hone := runFor_entered hcfg hshort rfl
    have hrest := hshort.after (requests inst app user session v [] e)
    rw [hone] at hrest
    have hrun := Prog.run_runFor (h := exec cfg .fair) (requests inst app user session v [] e)
      ((addEventIfAbsent inst app user session e).bind fun _ => (addAbsent inst app user session es).bind g) v
    rw [hone] at hrun
    exact hrun.symm.trans (ih hrest)

/-- A call on an event with a free key that is cut off after the row. -/
theorem runFor_partway (hcfg : cfg.Ample) {text : Str} (htext : memoryText e = some text)
    (hnone : v.get (memoryKey app user session e.id) = none) {f : Unit → Service V β}
    (hshort : ((addEventIfAbsent inst app user session e).bind f).Always (exec cfg .fair) Short v) {k : ℕ}
    (hk : k ≤ (inst.tokenize text).length) :
    (Prog.runFor (exec cfg .fair) (2 + k) ((addEventIfAbsent inst app user session e).bind f) v).2 =
      partway inst app user session v e text k := by
  have hput := (@runFor_absent V cfg inst app user session β f v e hcfg text htext hnone).2
  have hrest := hshort.after 2
  rw [hput] at hrest
  rw [Prog.runFor_add, hput, runFor_appendPostingRefs hcfg hrest hk, partway]

/-- The store that a call leaves which is cut off in the middle of an event. -/
theorem cut_cases (hcfg : cfg.Ample) {f : Unit → Service V β}
    (hshort : ((addEventIfAbsent inst app user session e).bind f).Always (exec cfg .fair) Short v) {m : ℕ} {c : Store V}
    (hc : c = (Prog.runFor (exec cfg .fair) m ((addEventIfAbsent inst app user session e).bind f) v).2)
    (hm : m < requests inst app user session v [] e) :
    c = v ∧ m < 2 ∨
      ∃ text k, memoryText e = some text ∧ v.get (memoryKey app user session e.id) = none ∧ m = 2 + k ∧
        c = partway inst app user session v e text k := by
  unfold requests Absent at hm
  cases htext : memoryText e with
  | none =>
    simp only [htext] at hm
    omega
  | some text =>
    simp only [htext, List.not_mem_nil, not_false_eq_true, true_and] at hm
    by_cases hnone : v.get (memoryKey app user session e.id) = none
    · rw [if_pos hnone] at hm
      rcases m with _ | _ | k
      · exact .inl ⟨hc, by omega⟩
      · exact .inl ⟨hc.trans (runFor_absent hcfg htext hnone).1, by omega⟩
      · refine .inr ⟨text, k, rfl, hnone, Nat.add_comm k 2, ?_⟩
        rw [hc, Nat.add_comm k 2]
        exact runFor_partway hcfg htext hnone hshort (by omega)
    · rw [if_neg hnone] at hm
      obtain rfl : m = 0 := by omega
      exact .inl ⟨hc, by omega⟩

/-- Made again after a cut, a call leaves what it would have left at first unless it owes
references. The records of the first store are still there at the cut. -/
theorem same_cut_iff (hcfg : cfg.Ample) (hg : (g ()).finished) {es : List (Event V)} (hv : Since app user session σ written v)
    (hshort : ((addAbsent inst app user session es).bind g).Always (exec cfg .fair) Short v) {m : ℕ} {c : Store V}
    (hc : c = (Prog.runFor (exec cfg .fair) m ((addAbsent inst app user session es).bind g) v).2) :
    (∀ key, (v.get key).isSome → (c.get key).isSome) ∧
      (Same (es.foldl (entered inst app user session) c) (es.foldl (entered inst app user session) v) ↔
        ¬ Torn inst app user session σ written es m) := by
  induction es generalizing v written m with
  | nil =>
    have hsame : c = v := by
      rw [hc]
      show (Prog.runFor (exec cfg .fair) m (g ()) v).2 = v
      cases hgu : g () with
      | ret a => cases m <;> rfl
      | raise e => cases m <;> rfl
      | ask q k =>
        rw [hgu] at hg
        cases hg
    rw [hsame]
    exact ⟨fun _ h => h, iff_of_true (.of_seen rfl) (by simp [Torn])⟩
  | cons e es ih =>
    rw [addAbsent_cons_bind] at hshort hc
    rw [Torn, hv.requests_eq]
    by_cases hm : requests inst app user session v [] e ≤ m
    · -- The event is done; made again, it is skipped.
      obtain ⟨m', rfl⟩ := Nat.exists_eq_add_of_le hm
      have hone := runFor_entered hcfg hshort rfl
      have hrest := hshort.after (requests inst app user session v [] e)
      rw [hone] at hrest
      rw [Prog.runFor_add, hone] at hc
      obtain ⟨hkept, hiff⟩ := ih hv.entered hrest hc
      have hkept' : ∀ key, (v.get key).isSome → (c.get key).isSome := fun key hkey =>
        hkept key (isSome_iff_seen.mpr ((seen_entered_mono key).1 (isSome_iff_seen.mp hkey)))
      have hskip : entered inst app user session c e = c := by
        cases htext : memoryText e with
        | none => rw [entered, htext]
        | some text =>
          refine entered_of_isSome (hkept _ ?_)
          by_cases hrow : (v.get (memoryKey app user session e.id)).isSome
          · rwa [entered_of_isSome hrow]
          · rw [isSome_iff_seen, (seen_entered_of_none htext (by simpa using hrow) _).1]
            exact .inr (.inl rfl)
      refine ⟨hkept', ?_⟩
      have howes := @not_owes V inst app user session σ written e (requests inst app user session v [] e + m')
        (hv.requests_eq ▸ hm)
      rw [List.foldl_cons, List.foldl_cons, hskip, hiff, Nat.add_sub_cancel_left]
      simp [howes]
    · rw [not_le] at hm
      have hdone : ∀ P : Prop, ¬ (requests inst app user session v [] e ≤ m ∧ P) := fun P h => hm.not_ge h.1
      simp only [hdone, or_false]
      rcases cut_cases hcfg hshort hc hm with ⟨rfl, hearly⟩ | ⟨text, k, htext, hnone, rfl, rfl⟩
      · refine ⟨fun _ h => h, iff_of_true (.of_seen rfl) ?_⟩
        unfold Owes
        split
        · simp
        · exact fun howes => howes.2.1.not_gt hearly
      · refine ⟨fun key hkey => isSome_partway (.inl hkey), ?_⟩
        rw [List.foldl_cons, List.foldl_cons, entered_of_isSome (isSome_partway (.inr rfl)),
          same_partway htext hnone]
        have habsent := hv.absent_iff.mpr hnone
        have hold : ∀ key, eventRef session e ∈ Record.refs (v.get key) ↔ eventRef session e ∈ Record.refs (σ.get key) :=
          hv.refs (eventRef session e) habsent.1
        simp only [Owes, Lacks, htext, habsent, hold, true_and, Nat.add_sub_cancel_left, Nat.le_add_right]

/-- `add_events_to_memory` that was cut off by a failing request, made again, returns where
no record is too big. It leaves the rows of an uninterrupted call and the same set of
references in every list exactly if the cut was not between the row of a new event and
references to it that were missing. -/
theorem add_events_retried_iff {events : List (Event V)} {session : Option Str} {σ₁ : Store V}
    (hfull : perform cfg (inst, .addEvents app user events session) σ = (.ok .done, σ₁))
    (hshort : ((Call.addEvents app user events session).body inst).Always (exec cfg .fair) Short σ)
    (n : ℕ) (code : ℤ) (applied : Bool)
    (hagain : ((Call.addEvents app user events session).body inst).Always (exec cfg .fair) Short
      (cutOff cfg n code applied ((Call.addEvents app user events session).body inst) σ)) :
    (cfg.Ample → ∃ σ₂, perform cfg (inst, .addEvents app user events session)
      (cutOff cfg n code applied ((Call.addEvents app user events session).body inst) σ) = (.ok .done, σ₂)) ∧
    ∀ σ₂, perform cfg (inst, .addEvents app user events session)
      (cutOff cfg n code applied ((Call.addEvents app user events session).body inst) σ) = (.ok .done, σ₂) →
      (Same σ₂ σ₁ ↔ ¬ Torn inst app user (scopedSessionId session) σ [] events (n + applied.toNat)) := by
  have hstops : ((Call.addEvents app user events session).body inst).StopsOn Halts :=
    Prog.StopsOn.bind (stopsOn_addAbsent app user _ inst events) fun _ => trivial
  have hleft : ∀ {v v' : Store V}, perform cfg (inst, .addEvents app user events session) v = (.ok .done, v') →
      ((Call.addEvents app user events session).body inst).Always (exec cfg .fair) Short v →
      ((Call.addEvents app user events session).body inst).Always (exec cfg.ample .fair) Short v ∧
        v' = events.foldl (entered inst app user (scopedSessionId session)) v := fun {v v'} hrun hs => by
    obtain ⟨hample, hcut⟩ := alone_ample hstops hrun
    have hs' : ((Call.addEvents app user events session).body inst).Always (exec cfg.ample .fair) Short v :=
      .of_runFor fun m => hcut m ▸ hs.runFor m
    have hend := alone_addAbsent cfg.ample_ample hs'
    exact ⟨hs', congrArg Prod.snd (hample.symm.trans hend)⟩
  constructor
  · intro hcfg
    exact ⟨_, alone_addAbsent hcfg hagain⟩
  · intro σ₂ hrun
    obtain ⟨hs, rfl⟩ := hleft hfull hshort
    obtain ⟨-, rfl⟩ := hleft hrun hagain
    have hcut : cutOff cfg n code applied ((Call.addEvents app user events session).body inst) σ =
        (Prog.runFor (exec cfg.ample .fair) (n + applied.toNat) ((Call.addEvents app user events session).body inst) σ).2 := by
      rw [cutOff_eq_runFor hstops, (alone_ample hstops hfull).2]
    exact (same_cut_iff cfg.ample_ample rfl ⟨by simp, fun _ _ _ => Iff.rfl⟩ hs hcut).2

end Cut

namespace Small

/-- One event with two words. -/
def told : Call ℕ := .addEvents ['a'] ['u'] [event ['x'] "red fox".toList 1] (some ['s'])

/-- Two events with a word in common. -/
def toldBoth : Call ℕ :=
  .addEvents ['a'] ['u'] [event ['x'] "red fox".toList 1, event ['y'] "red hen".toList 2] (some ['s'])

/-- All lists of a small store are short. -/
theorem short_of_entries {σ : Store ℕ} (h : ∀ x ∈ σ.entries, (Record.refs (some x.2)).length ≤ maxPostingListSize) :
    Short σ := by
  intro key
  cases hr : σ.get key with
  | none => exact Nat.zero_le _
  | some r => exact h ⟨key, r⟩ ((FMap.mem_entries_iff σ key).mpr hr)

theorem short_told : (told.body inst).Always (exec cfg .fair) Short ∅ :=
  ⟨short_of_entries (by decide +kernel), short_of_entries (by decide +kernel), short_of_entries (by decide +kernel),
    short_of_entries (by decide +kernel), short_of_entries (by decide +kernel)⟩

theorem short_toldBoth : (toldBoth.body inst).Always (exec cfg .fair) Short ∅ :=
  ⟨short_of_entries (by decide +kernel), short_of_entries (by decide +kernel), short_of_entries (by decide +kernel),
    short_of_entries (by decide +kernel), short_of_entries (by decide +kernel), short_of_entries (by decide +kernel),
    short_of_entries (by decide +kernel), short_of_entries (by decide +kernel), short_of_entries (by decide +kernel)⟩

end Small

open Memory.Small in
/-- The first event is done when the second one's row cannot be looked for. -/
theorem add_events_retried_iff_between : ∃ σ₁ σ₂, perform cfg (inst, toldBoth) ∅ = (.ok .done, σ₁) ∧
    (cutOff cfg 4 9 false (toldBoth.body inst) ∅).entries.length = 3 ∧ σ₁.entries.length = 5 ∧
    perform cfg (inst, toldBoth) (cutOff cfg 4 9 false (toldBoth.body inst) ∅) = (.ok .done, σ₂) ∧ Same σ₂ σ₁ := by
  have hfull : perform cfg (inst, toldBoth) ∅ = (.ok .done, (perform cfg (inst, toldBoth) ∅).2) := rfl
  have hagain : (toldBoth.body inst).Always (exec cfg .fair) Short (cutOff cfg 4 9 false (toldBoth.body inst) ∅) :=
    ⟨short_of_entries (by decide +kernel), short_of_entries (by decide +kernel), short_of_entries (by decide +kernel),
      short_of_entries (by decide +kernel), short_of_entries (by decide +kernel), short_of_entries (by decide +kernel)⟩
  obtain ⟨hreturns, hiff⟩ := add_events_retried_iff hfull short_toldBoth 4 9 false hagain
  obtain ⟨σ₂, hσ₂⟩ := hreturns fun _ => rfl
  exact ⟨_, σ₂, hfull, by decide +kernel, by decide +kernel, hσ₂, (hiff σ₂ hσ₂).mpr (by decide +kernel)⟩

open Memory.Small in
/-- The row has been put when the first of its references fails. The second call finds the
row and appends no reference. -/
theorem cut_append_not_repaired :
    (told.body inst).Always (exec cfg .fair) Short ∅ ∧
    (told.body inst).Always (exec cfg .fair) Short (cutOff cfg 2 9 false (told.body inst) ∅) ∧
    ∃ σ₁ σ₂, perform cfg (inst, told) ∅ = (.ok .done, σ₁) ∧
      perform cfg (inst, told) (cutOff cfg 2 9 false (told.body inst) ∅) = (.ok .done, σ₂) ∧ ¬ Same σ₂ σ₁ := by
  refine ⟨short_told, ⟨short_of_entries (by decide +kernel), short_of_entries (by decide +kernel)⟩, _, _, rfl, rfl,
    fun h => ?_⟩
  have hred := (h (memoryPostingKey ['a'] ['u'] "red".toList)).2 ⟨['x'], ['s'], 1⟩
  revert hred
  decide +kernel

end AdkAerospike.Memory
