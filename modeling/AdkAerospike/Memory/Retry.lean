import AdkAerospike.Memory.Index

/-! `add_session_to_memory` cut off by a failing request and made again. Wherever it
stops, the rows of the other sessions and the references to them are untouched, and
every reference to a row of this session can be rebuilt from the bins of the row. So
the purge of the second call takes away all that the first one has left. -/

namespace AdkAerospike.Memory

open Program Data Keys Codec

variable {V : Type}

/-! ### Runs that are cut off -/

/-- The store after a program of which the request after the first `n` has failed, and
has been carried out or not. -/
def cutOff {α : Type} (cfg : ServerConfig V) (n : ℕ) (code : ℤ) (applied : Bool) (p : Service V α) (σ : Store V) :
    Store V :=
  (p.runFailing (exec cfg .fair) (exec cfg (.failed code applied)) n σ).2

theorem cutOff_eq_runFor {α : Type} {p : Service V α} (hp : p.StopsOn Halts) (cfg : ServerConfig V) (n : ℕ) (code : ℤ)
    (applied : Bool) (σ : Store V) :
    cutOff cfg n code applied p σ = (p.runFor (exec cfg .fair) (n + applied.toNat) σ).2 :=
  hp.runFailing_snd (fun q v => ⟨_, .status code, rfl, Server.errorOf_failed cfg.table code applied q v, by simp⟩)
    (fun q v => Server.exec_failed_snd cfg.table code applied q v) n σ

/-- What holds in every store that a complete run without a size limit passes through
holds in the store of a run that is cut off. -/
theorem cutOff_of_always {α : Type} {p : Service V α} (hp : p.StopsOn Halts) {cfg : ServerConfig V} {σ σ' : Store V}
    {a : α} (hfull : alone cfg p σ = (.ok a, σ')) {I : Store V → Prop}
    (hI : p.Always (exec cfg.ample .fair) I σ) (n : ℕ) (code : ℤ) (applied : Bool) :
    I (cutOff cfg n code applied p σ) := by
  rw [cutOff_eq_runFor hp, (alone_ample hp hfull).2]
  exact hI.runFor _

/-! ### Stores in between -/

/-- The id is one of the session. -/
def OfSession (app user session : Str) (id : Id) : Prop := id.app = app ∧ id.user = user ∧ id.session = session

theorem Reference.get_purge_of_not {app user session : Str} {id : Id} (h : ¬ OfSession app user session id)
    (M : Reference V) : (M.purge app user session).get id = M.get id := by
  unfold OfSession at h
  rw [purge, FMap.get_restrict, if_pos (decide_eq_true h)]

theorem Reference.get_purge_of {app user session : Str} {id : Id} (h : OfSession app user session id)
    (M : Reference V) : (M.purge app user session).get id = none := by
  rw [purge, FMap.get_restrict, if_neg (by simpa [OfSession] using h)]

section Between
variable {P : Id → Prop} {M : Reference V} {σ σ' : Store V} {id : Id} {x : Entry V}

/-- The rows stay where only posting rows change. -/
theorem Rows.at_tokens (h : Rows M σ) (hid : id.Named) {ts : List Str} {g : Option (Record V) → Option (Record V)}
    (hg : ∀ r s, (∀ r', r = some r' → ∃ l, r' = { postings := some l }) → g r = some s →
      ∃ l, s = { postings := some l })
    (hσ' : ∀ key, σ'.get key = atTokens id.app id.user ts g key (σ.get key)) : Rows M σ' := by
  refine @Rows.update V M M σ σ' h id hid (M.get id) (fun y hy => (h.named id y hy).2) (fun j => ?_) ts g hg fun key => ?_
  · split_ifs with hj
    · rw [hj]
    · rfl
  · rw [hσ', atKey]
    split_ifs with hk
    · rw [hk, atTokens_key hid hid.app hid.user, h.rows id hid]
    · rfl

/-- A reference to a row of `P` is taken from a posting list. -/
theorem Loose.drop (h : Loose P M σ) (hx : M.get id = some x) (hP : P id) {t : Str}
    (hσ' : ∀ key, σ'.get key = atTokens id.app id.user [t] (Option.map (Record.drop (id.ref x))) key (σ.get key)) :
    Loose P M σ' := by
  have hid := (h.named id x hx).1
  have hrows : Rows M σ' := h.toRows.at_tokens hid (fun r s hr hs => by
    obtain ⟨r', rfl, rfl⟩ := Option.map_eq_some_iff.mp hs
    obtain ⟨l, rfl⟩ := hr r' rfl
    exact ⟨_, rfl⟩) hσ'
  have hpost : ∀ {a u t' : Str}, Plain a → Plain u → postings a u t' σ' =
      if a = id.app ∧ u = id.user ∧ t' ∈ [t] then (postings a u t' σ).filter fun r => r ≠ id.ref x
      else postings a u t' σ := fun ha hu => Loose.postings_drop h.toRows hid (fun a u t' _ _ => hσ' _) ha hu
  refine ⟨hrows, fun a u t' ha hu => ?_, fun j y t' hy ht' hj => ?_⟩
  · obtain ⟨hnodup, hsound⟩ := h.sound a u t' ha hu
    rw [hpost ha hu]
    split_ifs
    · exact ⟨hnodup.filter _, fun ref href => hsound ref (List.mem_filter.mp href).1⟩
    · exact ⟨hnodup, hsound⟩
  · have hmem := h.complete j y t' hy ht' hj
    have hnamed := (h.named j y hy).1
    rw [hpost hnamed.app hnamed.user]
    split_ifs with hc
    · refine List.mem_filter.mpr ⟨hmem, decide_eq_true fun heq => hj ?_⟩
      have hboth : (j.app = id.app ∧ j.user = id.user) ∧ j.ref y = id.ref x := ⟨⟨hc.1, hc.2.1⟩, heq⟩
      have hji : j = id := (Exact.eq_ref_iff.mp hboth).1
      exact hji ▸ hP
    · exact hmem

/-- A row of `P` is put, without references. -/
theorem Exact.put_row (h : Exact M σ) (hid : id.Named) (hnone : M.get id = none) (hx : x.keywords.Nodup) (hP : P id)
    (hσ' : ∀ key, σ'.get key = atKey id.key (fun _ => some (id.row x)) key (σ.get key)) :
    Loose P (M.insert id x) σ' := by
  have hget : ∀ j, FMap.get (M.insert id x) j = if j = id then some x else M.get j := fun j => FMap.get_insert M id j x
  have hrows : Rows (M.insert id x) σ' := by
    refine @Rows.update V M (M.insert id x) σ σ' h.toRows id hid (some x) (fun y hy => ?_) hget [] (fun r => r)
      (fun r s hr hs => hr s hs) fun key => ?_
    · cases hy
      exact hx
    · rw [hσ', atTokens, if_neg (by simp)]
      rfl
  have hpost : ∀ {a u t : Str}, Plain a → Plain u → postings a u t σ' = postings a u t σ := fun ha hu => by
    unfold postings
    rw [hσ', atKey_posting hid ha hu]
  refine ⟨hrows, fun a u t ha hu => ?_, fun j y t hy ht hj => ?_⟩
  · obtain ⟨hnodup, hmem⟩ := h.index a u t ha hu
    rw [hpost ha hu]
    refine ⟨hnodup, fun ref href => ?_⟩
    obtain ⟨y, hy, hty⟩ := (hmem ref).mp href
    refine ⟨y, ?_, hty⟩
    rw [hget, if_neg fun hj => ?_, hy]
    rw [hj, hnone] at hy
    cases hy
  · rw [hget] at hy
    split_ifs at hy with hji
    · exact absurd (hji ▸ hP) hj
    · have hnamed := (h.named j y hy).1
      rw [hpost hnamed.app hnamed.user]
      exact ((h.index _ _ t hnamed.app hnamed.user).2 _).mpr ⟨y, hy, ht, rfl⟩

/-- A reference that was missing is appended. -/
theorem Loose.append (h : Loose P M σ) (hx : M.get id = some x) {t : Str} (ht : t ∈ x.keywords)
    (hnew : id.ref x ∉ postings id.app id.user t σ)
    (hσ' : ∀ key, σ'.get key = atTokens id.app id.user [t] (fun r => some (Record.add (id.ref x) r)) key (σ.get key)) :
    Loose P M σ' := by
  have hid := (h.named id x hx).1
  have hrows : Rows M σ' := h.toRows.at_tokens hid (fun r s hr hs => by
    cases hs
    cases r with
    | none => exact ⟨_, rfl⟩
    | some r' =>
      obtain ⟨l, rfl⟩ := hr r' rfl
      exact ⟨_, rfl⟩) hσ'
  have hpost : ∀ {a u t' : Str}, Plain a → Plain u → postings a u t' σ' =
      if a = id.app ∧ u = id.user ∧ t' ∈ [t] then postings a u t' σ ++ [id.ref x] else postings a u t' σ :=
    fun ha hu => by
      unfold postings
      rw [hσ', atTokens_posting hid.app hid.user ha hu]
      split_ifs <;> rfl
  refine ⟨hrows, fun a u t' ha hu => ?_, fun j y t' hy ht' hj => ?_⟩
  · obtain ⟨hnodup, hsound⟩ := h.sound a u t' ha hu
    rw [hpost ha hu]
    split_ifs with hc
    · obtain ⟨rfl, rfl, ht'⟩ := hc
      obtain rfl := List.mem_singleton.mp ht'
      refine ⟨hnodup.append (List.nodup_singleton _) (by simpa using hnew), fun ref href => ?_⟩
      rcases List.mem_append.mp href with href | href
      · exact hsound ref href
      · rw [List.mem_singleton.mp href]
        exact ⟨x, hx, ht, rfl⟩
    · exact ⟨hnodup, hsound⟩
  · have hmem := h.complete j y t' hy ht' hj
    have hnamed := (h.named j y hy).1
    rw [hpost hnamed.app hnamed.user]
    split_ifs
    · exact List.mem_append_left _ hmem
    · exact hmem

/-- A list to which a reference is missing is shorter than that of the map. -/
theorem Loose.length_lt (h : Loose P M σ) (hx : M.get id = some x) {t : Str} (ht : t ∈ x.keywords)
    (hnew : id.ref x ∉ postings id.app id.user t σ) :
    (postings id.app id.user t σ).length < (M.refs id.app id.user t).length := by
  have hid := (h.named id x hx).1
  obtain ⟨hnodup, hsound⟩ := h.sound id.app id.user t hid.app hid.user
  have hsub : id.ref x :: postings id.app id.user t σ ⊆ M.refs id.app id.user t := by
    intro ref href
    rcases List.mem_cons.mp href with rfl | href
    · exact Reference.mem_refs.mpr ⟨x, hx, ht, rfl⟩
    · exact Reference.mem_refs.mpr (hsound ref href)
  exact (List.subperm_of_subset (List.nodup_cons.mpr ⟨hnew, hnodup⟩) hsub).length_le

end Between

/-! ### Every store on the way -/

section Way
variable {P : Id → Prop} {M : Reference V} {σ : Store V} {id : Id} {x : Entry V} {cfg : ServerConfig V}
  {app user session : Str}

theorem atKey_eq_atTokens (app user t : Str) (g : Option (Record V) → Option (Record V)) (key : Str)
    (r : Option (Record V)) : atKey (memoryPostingKey app user t) g key r = atTokens app user [t] g key r := by
  simp [atKey, atTokens]

theorem finished_answer {α : Type} (r : Except Server.Err α) : (answer r : Service V α).finished := by
  cases r <;> rfl

theorem finished_unlessNotFound {α : Type} (r : Except Server.Err α) :
    (unlessNotFound (answer r : Service V α)).finished := by
  cases r with
  | ok a => rfl
  | error e =>
    show (if Err.server e = .server .recordNotFound then .ret () else .raise (.server e) : Service V Unit).finished = true
    split_ifs <;> rfl

/-- The references to a row of `P` are taken away one by one. -/
theorem always_removePostingRefs (h : Loose P M σ) (hcfg : cfg.Ample) (hx : M.get id = some x) (hP : P id)
    (tokens : List Str) :
    (removePostingRefs id.app id.user (id.ref x) tokens).Always (exec cfg .fair) (Loose P M) σ := by
  induction tokens generalizing σ with
  | nil => exact h
  | cons t ts ih =>
    obtain ⟨σ₁, hrun₁, h₁⟩ := leaves_removeByValue hcfg (memoryPostingKey id.app id.user t) (id.ref x) σ
    have hloose : Loose P M σ₁ := h.drop hx hP fun key => (h₁ key).trans (atKey_eq_atTokens _ _ _ _ _ _)
    refine Prog.Always.bind (Prog.always_ask finished_unlessNotFound h ?_) fun _ σ' hrun _ => ?_
    · exact (congrArg Prod.snd hrun₁).symm ▸ hloose
    · obtain rfl : σ₁ = σ' := congrArg Prod.snd (hrun₁.symm.trans hrun)
      exact ih hloose

/-- The stores that a purge passes through. -/
def Passes (app user session : Str) (M : Reference V) (σ : Store V) : Prop :=
  ∃ M', Loose (OfSession app user session) M' σ ∧ ∀ id, ¬ OfSession app user session id → M'.get id = M.get id

theorem always_purgeRow (h : Loose (OfSession id.app id.user id.session) M σ) (hcfg : cfg.Ample)
    (hx : M.get id = some x) :
    (purgeRow id.app id.user id.session (id.row x)).Always (exec cfg .fair) (Passes id.app id.user id.session M) σ := by
  have hpass : ∀ v, Loose (OfSession id.app id.user id.session) M v → Passes id.app id.user id.session M v :=
    fun v hv => ⟨M, hv, fun _ _ => rfl⟩
  obtain ⟨σ', hrun, hend⟩ := h.purgeRow hcfg hx
  have hlast : Passes id.app id.user id.session M σ' :=
    ⟨M.erase id, hend, fun j hj => FMap.get_erase_of_ne M fun heq => hj (heq ▸ ⟨rfl, rfl, rfl⟩)⟩
  have hremove : ∀ v, Passes id.app id.user id.session M v →
      alone cfg (unlessNotFound (remove id.key)) v = (.ok (), σ') →
      (unlessNotFound (remove id.key : Service V Unit)).Always (exec cfg .fair)
        (Passes id.app id.user id.session M) v := fun v hv hrun =>
    Prog.always_ask finished_unlessNotFound hv ((congrArg Prod.snd hrun).symm ▸ hlast)
  have hevent := (h.named id x hx).1.event
  by_cases hk : x.keywords = []
  · have hrow : purgeRow id.app id.user id.session (id.row x) = unlessNotFound (remove id.key) := by
      simp [purgeRow, Id.row, hk, Id.key]
    rw [hrow] at hrun ⊢
    exact hremove σ (hpass σ h) hrun
  · have hrow : purgeRow id.app id.user id.session (id.row x) =
        (removePostingRefs id.app id.user (id.ref x) x.keywords).bind fun _ => unlessNotFound (remove id.key) := by
      simp [purgeRow, Id.row, hk, hevent, Id.ref, Id.key]
    rw [hrow] at hrun ⊢
    refine Prog.Always.bind ((always_removePostingRefs h hcfg hx ⟨rfl, rfl, rfl⟩ x.keywords).mono hpass)
      fun _ v hv hv' => hremove v hv' ?_
    rw [← hrun]
    exact (alone_bind_ok (k := fun _ => unlessNotFound (remove id.key)) hv).symm

theorem Passes.trans {M' : Reference V} (h : Passes app user session M' σ)
    (hM : ∀ id, ¬ OfSession app user session id → M'.get id = M.get id) : Passes app user session M σ := by
  obtain ⟨N, hN, hget⟩ := h
  exact ⟨N, hN, fun id hid => (hget id hid).trans (hM id hid)⟩

theorem always_purgeRows (h : Loose (OfSession app user session) M σ) (hcfg : cfg.Ample) {rs : List (Record V)}
    (hrs : ∀ r ∈ rs, ∃ x, M.get (Exact.rowId app user session r) = some x ∧
      r = (Exact.rowId app user session r).row x)
    (hnodup : (rs.map (Exact.rowId app user session)).Nodup) :
    (purgeRows app user session rs).Always (exec cfg .fair) (Passes app user session M) σ := by
  induction rs generalizing M σ with
  | nil => exact ⟨M, h, fun _ _ => rfl⟩
  | cons r rs ih =>
    obtain ⟨hr, hrest⟩ := List.nodup_cons.mp hnodup
    obtain ⟨x, hx, hrow⟩ := hrs r (by simp)
    have hone := @always_purgeRow V M σ (Exact.rowId app user session r) x cfg h hcfg hx
    obtain ⟨σ₁, hrun₁, h₁⟩ := h.purgeRow hcfg hx
    rw [← hrow] at hone hrun₁
    refine Prog.Always.bind hone fun _ σ' hrun _ => ?_
    obtain rfl : σ₁ = σ' := congrArg Prod.snd (hrun₁.symm.trans hrun)
    have hrs' : ∀ r' ∈ rs, ∃ x', FMap.get (M.erase (Exact.rowId app user session r)) (Exact.rowId app user session r') =
        some x' ∧ r' = (Exact.rowId app user session r').row x' := fun r' hr' => by
      obtain ⟨x', hx', hrow'⟩ := hrs r' (by simp [hr'])
      have hne : Exact.rowId app user session r' ≠ Exact.rowId app user session r := fun heq =>
        hr (heq ▸ List.mem_map_of_mem hr')
      exact ⟨x', by rw [FMap.get_erase_of_ne M hne, hx'], hrow'⟩
    exact (ih h₁ hrs' hrest).mono fun v hv => hv.trans fun id hid =>
      FMap.get_erase_of_ne M fun heq => hid (heq ▸ ⟨rfl, rfl, rfl⟩)

/-- References that are missing are appended one by one. -/
theorem always_appendPostingRefs (h : Loose P M σ) (hcfg : cfg.Ample) (hx : M.get id = some x) (hcap : M.Capped)
    {tokens : List Str} (hnodup : tokens.Nodup) (hkw : ∀ t ∈ tokens, t ∈ x.keywords)
    (hnew : ∀ t ∈ tokens, id.ref x ∉ postings id.app id.user t σ) :
    (appendPostingRefs id.app id.user (id.ref x) tokens).Always (exec cfg .fair) (Loose P M) σ := by
  induction tokens generalizing σ with
  | nil => exact h
  | cons t ts ih =>
    obtain ⟨ht, hts⟩ := List.nodup_cons.mp hnodup
    have hid := (h.named id x hx).1
    have hroom : (postings id.app id.user t σ).length < maxPostingListSize :=
      (h.length_lt hx (hkw t (by simp)) (hnew t (by simp))).trans_le (hcap id.app id.user t)
    have happend := alone_append hcfg (memoryPostingKey id.app id.user t) (id.ref x) σ
    set σ₁ := FMap.set σ (memoryPostingKey id.app id.user t)
      (some (Record.add (id.ref x) (σ.get (memoryPostingKey id.app id.user t)))) with hσ₁
    have hget : ∀ key, σ₁.get key = atTokens id.app id.user [t] (fun r => some (Record.add (id.ref x) r)) key
        (σ.get key) := fun key => by
      rw [hσ₁, ← atKey_eq_atTokens]
      exact atKey_set _ (fun r => some (Record.add (id.ref x) r)) σ key
    have hloose : Loose P M σ₁ := h.append hx (hkw t (by simp)) (hnew t (by simp)) hget
    have hshort : (postings id.app id.user t σ ++ [id.ref x]).length ≤ maxPostingListSize := by
      rw [List.length_append, List.length_singleton]
      exact hroom
    have hdone := trim_of_le (V := V) id.app id.user t hshort
    have hrun₁ : alone cfg (appendPostingRef id.app id.user t (id.ref x)) σ = (.ok (), σ₁) := by
      rw [appendPostingRef_eq, alone_bind_ok happend]
      exact congrArg (fun p => alone cfg p σ₁) hdone
    refine Prog.Always.bind ?_ fun _ σ' hrun _ => ?_
    · rw [appendPostingRef_eq]
      refine Prog.Always.bind (Prog.always_ask finished_answer h ?_) fun result σ' hrun _ => ?_
      · exact (congrArg Prod.snd happend).symm ▸ hloose
      · cases happend.symm.trans hrun
        exact hdone.symm ▸ hloose
    · obtain rfl : σ₁ = σ' := congrArg Prod.snd (hrun₁.symm.trans hrun)
      refine ih hloose hts (fun t' ht' => hkw t' (by simp [ht'])) fun t' ht' => ?_
      have hne : t' ≠ t := fun heq => ht (heq ▸ ht')
      have hsame : postings id.app id.user t' σ₁ = postings id.app id.user t' σ := by
        unfold postings
        rw [hget, atTokens_posting hid.app hid.user hid.app hid.user, if_neg (by simp [hne])]
      rw [hsame]
      exact hnew t' (by simp [ht'])

variable {inst : Instance V}

/-- A new row is put and its references are appended. -/
theorem always_upsertMemory (h : Exact M σ) (hcfg : cfg.Ample) {e : Event V} {text : Str}
    (hid : Id.Named ⟨app, user, session, e.id⟩) (hnone : M.get ⟨app, user, session, e.id⟩ = none)
    (hcap : Reference.Capped (M.insert ⟨app, user, session, e.id⟩ (inst.entry e text))) :
    (upsertMemory inst app user session e text).Always (exec cfg .fair) (Passes app user session M) σ := by
  set j : Id := ⟨app, user, session, e.id⟩ with hj
  have hx : FMap.get (M.insert j (inst.entry e text)) j = some (inst.entry e text) := FMap.get_insert_self M j _
  have hpass : ∀ v, Loose (OfSession app user session) (M.insert j (inst.entry e text)) v →
      Passes app user session M v := fun v hv =>
    ⟨_, hv, fun id hid => FMap.get_insert_of_ne M _ fun heq => hid (heq ▸ ⟨rfl, rfl, rfl⟩)⟩
  have hfree : σ.get j.key = none := by
    rw [h.rows _ hid, hnone]
    rfl
  obtain ⟨σ₁, hrun₁, h₁⟩ := leaves_put hcfg hfree (inst.newRow app user session e text)
  have hloose : Loose (OfSession app user session) (M.insert j (inst.entry e text)) σ₁ :=
    h.put_row hid hnone (inst.nodup_tokenize text) ⟨rfl, rfl, rfl⟩ h₁
  refine Prog.Always.bind (Prog.always_ask finished_answer ⟨M, h.loose _, fun _ _ => rfl⟩ ?_) fun _ σ' hrun _ => ?_
  · exact (congrArg Prod.snd hrun₁).symm ▸ hpass σ₁ hloose
  · obtain rfl : σ₁ = σ' := congrArg Prod.snd (hrun₁.symm.trans hrun)
    refine (always_appendPostingRefs hloose hcfg hx hcap (inst.nodup_tokenize text) (fun t ht => ht)
      fun t _ href => ?_).mono hpass
    have hsame : postings app user t σ₁ = postings app user t σ := by
      unfold postings
      rw [h₁, atKey_posting hid hid.app hid.user]
    rw [hsame] at href
    obtain ⟨y, hy, -⟩ := ((h.index app user t hid.app hid.user).2 _).mp href
    have hnot : M.get j = some y := hy
    rw [hnone] at hnot
    cases hnot

theorem always_addEvent (h : Exact M σ) (hcfg : cfg.Ample) {e : Event V}
    (hid : Id.Named ⟨app, user, session, e.id⟩) (hnone : M.get ⟨app, user, session, e.id⟩ = none)
    (hcap : (Reference.add inst app user session M e).Capped) :
    (addEvent inst app user session e).Always (exec cfg .fair) (Passes app user session M) σ := by
  unfold addEvent
  unfold Reference.add at hcap
  cases htext : memoryText e with
  | none => exact ⟨M, h.loose _, fun _ _ => rfl⟩
  | some text =>
    rw [htext] at hcap
    exact always_upsertMemory h hcfg hid hnone hcap

theorem always_addAll (h : Exact M σ) (hcfg : cfg.Ample) {events : List (Event V)}
    (hids : ∀ e ∈ events, Id.Named ⟨app, user, session, e.id⟩) (hnodup : (events.map Event.id).Nodup)
    (hnew : ∀ e ∈ events, M.get ⟨app, user, session, e.id⟩ = none)
    (hcap : Reference.Capped (events.foldl (Reference.add inst app user session) M)) :
    (addAll inst app user session events).Always (exec cfg .fair) (Passes app user session M) σ := by
  induction events generalizing M σ with
  | nil => exact ⟨M, h.loose _, fun _ _ => rfl⟩
  | cons e es ih =>
    obtain ⟨he, hes⟩ := List.nodup_cons.mp hnodup
    have hrest : ∀ e' ∈ es, (Reference.add inst app user session M e).get ⟨app, user, session, e'.id⟩ = none :=
      fun e' he' => Reference.get_add_of_notMem he he' (hnew e' (by simp [he']))
    have hfirst := (Reference.grows_foldl_add hes hrest).capped hcap
    obtain ⟨σ₁, hrun₁, h₁⟩ := h.add hcfg (hids e (by simp)) (hnew e (by simp)) hfirst
    refine Prog.Always.bind (always_addEvent h hcfg (hids e (by simp)) (hnew e (by simp)) hfirst) fun _ σ' hrun _ => ?_
    obtain rfl : σ₁ = σ' := congrArg Prod.snd (hrun₁.symm.trans hrun)
    exact (ih h₁ (fun e' he' => hids e' (by simp [he'])) hes hrest hcap).mono fun v hv => hv.trans fun id hid =>
      Reference.get_add_of_ne fun heq => hid (heq ▸ ⟨rfl, rfl, rfl⟩)

/-- Every store that `add_session_to_memory` passes through differs from the first one in
rows of the session and references to them, and no reference has lost its row. -/
theorem always_addSessionToMemory (h : Exact M σ) (hcfg : cfg.Ample) {events : List (Event V)}
    (hnamed : (Call.addSession app user session events).WellNamed)
    (hcap : Reference.Capped ((Call.addSession app user session events).reference inst M)) :
    (addSessionToMemory inst app user session events).Always (exec cfg .fair) (Passes app user session M) σ := by
  obtain ⟨ha, hu, hs, hkw, hids, hnodup⟩ := hnamed
  have hstart := h.loose (OfSession app user session)
  obtain ⟨hrs, hdistinct, -⟩ := Loose.found h.toRows cfg ha hu session
  obtain ⟨σ₁, hrun₁, h₁⟩ := @Exact.purge V M σ cfg app user session h hcfg ha hu
  refine Prog.Always.bind (Prog.Always.bind ?_ fun rs σ' hrun _ => ?_) fun _ σ' hrun _ => ?_
  · exact Prog.always_ask finished_answer ⟨M, hstart, fun _ _ => rfl⟩ ⟨M, hstart, fun _ _ => rfl⟩
  · cases hrun
    exact always_purgeRows hstart hcfg hrs hdistinct
  · obtain rfl : σ₁ = σ' := congrArg Prod.snd (hrun₁.symm.trans hrun)
    have hnew : ∀ e ∈ events, (M.purge app user session).get ⟨app, user, session, e.id⟩ = none := fun e _ =>
      Reference.get_purge_of ⟨rfl, rfl, rfl⟩ M
    exact (always_addAll h₁ hcfg (fun e he => ⟨ha, hu, hs, hkw, hids e he⟩) hnodup hnew hcap).mono fun v hv =>
      hv.trans fun id hid => Reference.get_purge_of_not hid M

/-- Made from such a store, the call leaves what it would have left at first. -/
theorem Passes.makes (h : Passes app user session M σ) (hcfg : cfg.Ample) {events : List (Event V)}
    (hnamed : (Call.addSession app user session events).WellNamed)
    (hcap : Reference.Capped ((Call.addSession app user session events).reference inst M)) :
    Exact.Makes cfg (addSessionToMemory inst app user session events) σ
      ((Call.addSession app user session events).reference inst M) := by
  obtain ⟨M', hloose, hother⟩ := h
  obtain ⟨ha, hu, hs, hkw, hids, hnodup⟩ := hnamed
  have hsame : ∀ id, (M.purge app user session).get id = (M'.purge app user session).get id := fun id => by
    by_cases hid : OfSession app user session id
    · rw [Reference.get_purge_of hid, Reference.get_purge_of hid]
    · rw [Reference.get_purge_of_not hid, Reference.get_purge_of_not hid, hother id hid]
  have hnew : ∀ e ∈ events, (M.purge app user session).get ⟨app, user, session, e.id⟩ = none := fun e _ =>
    Reference.get_purge_of ⟨rfl, rfl, rfl⟩ M
  refine (hloose.purge (fun _ hid => hid) hcfg ha hu).bind fun σ' h' => ?_
  exact (h'.congr hsame).addAll hcfg (fun e he => ⟨ha, hu, hs, hkw, hids e he⟩) hnodup hnew hcap

end Way

/-! ### Made again -/

/-- The memory row under a key. -/
def rowAt (key : Str) (σ : Store V) : Option (Record V) := (σ.get key).filter fun r => r.aus.isSome

section Again
variable {M : Reference V} {σ σ₁ σ₂ : Store V} {cfg : ServerConfig V} {inst : Instance V} {app user session : Str}
  {events : List (Event V)}

theorem Exact.refs_perm (h₁ : Exact M σ₁) (h₂ : Exact M σ₂) {key : Str} {r : Record V} (hr : σ₁.get key = some r) :
    rowAt key σ₂ = rowAt key σ₁ ∧ (Record.refs (σ₂.get key)).Perm (Record.refs (σ₁.get key)) := by
  rcases h₁.known key r hr with ⟨id, hid, rfl⟩ | ⟨a, u, t, ha, hu, rfl, -⟩
  · have hsame : σ₂.get id.key = σ₁.get id.key := by rw [h₁.rows id hid, h₂.rows id hid]
    rw [rowAt, rowAt, hsame]
    exact ⟨rfl, .refl _⟩
  · have hnone : ∀ {v}, Exact M v → rowAt (memoryPostingKey a u t) v = none := fun {v} hv => by
      unfold rowAt
      cases hs : v.get (memoryPostingKey a u t) with
      | none => rfl
      | some s =>
        obtain ⟨l, rfl⟩ := hv.toRows.posting_only ha hu hs
        rfl
    obtain ⟨hnodup₁, hmem₁⟩ := h₁.index a u t ha hu
    obtain ⟨hnodup₂, hmem₂⟩ := h₂.index a u t ha hu
    refine ⟨(hnone h₂).trans (hnone h₁).symm, ?_⟩
    exact (List.perm_ext_iff_of_nodup hnodup₂ hnodup₁).mpr fun ref => (hmem₂ ref).trans (hmem₁ ref).symm

/-- Stores that are exact for one map hold the same rows and references. -/
theorem Exact.same (h₁ : Exact M σ₁) (h₂ : Exact M σ₂) (key : Str) :
    rowAt key σ₂ = rowAt key σ₁ ∧ (Record.refs (σ₂.get key)).Perm (Record.refs (σ₁.get key)) := by
  cases hr₁ : σ₁.get key with
  | some r =>
    rw [← hr₁]
    exact h₁.refs_perm h₂ hr₁
  | none =>
    cases hr₂ : σ₂.get key with
    | some r =>
      obtain ⟨hrow, hperm⟩ := h₂.refs_perm h₁ hr₂
      rw [← hr₁, ← hr₂]
      exact ⟨hrow.symm, hperm.symm⟩
    | none => simp [rowAt, hr₁, hr₂]

/-- `add_session_to_memory` that was cut off by a failing request leaves, when it is made
again, the rows of an uninterrupted call and the same references in every list. It can be
made again where no record is too big. -/
theorem add_session_retried (h : Exact M σ) (hnamed : (Call.addSession app user session events).WellNamed)
    (hcap : Reference.Capped ((Call.addSession app user session events).reference inst M))
    (hfull : perform cfg (inst, .addSession app user session events) σ = (.ok .done, σ₁)) (n : ℕ) (code : ℤ)
    (applied : Bool) :
    (cfg.Ample → ∃ σ₂, perform cfg (inst, .addSession app user session events)
      (cutOff cfg n code applied ((Call.addSession app user session events).body inst) σ) = (.ok .done, σ₂)) ∧
    ∀ σ₂, perform cfg (inst, .addSession app user session events)
      (cutOff cfg n code applied ((Call.addSession app user session events).body inst) σ) = (.ok .done, σ₂) →
      ∀ key, rowAt key σ₂ = rowAt key σ₁ ∧ (Record.refs (σ₂.get key)).Perm (Record.refs (σ₁.get key)) := by
  have hstops : ((Call.addSession app user session events).body inst).StopsOn Halts :=
    Prog.StopsOn.bind (stopsOn_addSessionToMemory app user session inst events) fun _ => trivial
  have hways : ((Call.addSession app user session events).body inst).Always (exec cfg.ample .fair)
      (Passes app user session M) σ :=
    (always_addSessionToMemory h cfg.ample_ample hnamed hcap).bind fun _ _ _ hv => hv
  have hpass := cutOff_of_always hstops hfull hways n code applied
  have hleft : ∀ {v v'}, Passes app user session M v →
      perform cfg (inst, .addSession app user session events) v = (.ok .done, v') →
      Exact ((Call.addSession app user session events).reference inst M) v' := fun {v v'} hv hrun => by
    obtain ⟨v'', hrun', hexact⟩ := @Passes.makes V M v cfg.ample app user session inst hv cfg.ample_ample events hnamed hcap
    have hample := (alone_ample hstops hrun).1
    have hbody : alone cfg.ample ((Call.addSession app user session events).body inst) v = (.ok .done, v'') :=
      alone_bind_ok hrun'
    obtain rfl : v'' = v' := congrArg Prod.snd (hbody.symm.trans hample)
    exact hexact
  constructor
  · intro hcfg
    obtain ⟨σ₂, hrun, -⟩ := @Passes.makes V M _ cfg app user session inst hpass hcfg events hnamed hcap
    exact ⟨σ₂, alone_bind_ok hrun⟩
  · intro σ₂ hagain
    exact (hleft ⟨M, h.loose _, fun _ _ => rfl⟩ hfull).same (hleft hpass hagain)

end Again

namespace Small

/-- The session of `added`, with another text. -/
def replaced : Call ℕ := .addSession ['a'] ['u'] ['s'] [event ['y'] "green fox".toList 6]

end Small

open Memory.Small in
theorem add_session_retried_small : ∃ σ₁ σ₂, perform cfg (inst, replaced) (stored cfg added) = (.ok .done, σ₁) ∧
    perform cfg (inst, replaced) (cutOff cfg 2 9 true (replaced.body inst) (stored cfg added)) = (.ok .done, σ₂) ∧
    ∀ key, rowAt key σ₂ = rowAt key σ₁ ∧ (Record.refs (σ₂.get key)).Perm (Record.refs (σ₁.get key)) := by
  have hexact : Exact (remembered added) (stored cfg added) :=
    (run_exact (fun _ => rfl) Exact.empty wellNamed_added capped_added).2
  have hnamed : replaced.WellNamed :=
    ⟨by decide, by decide, by decide, by decide, by simp [event], by decide⟩
  have hcap : (replaced.reference inst (remembered added)).Capped := Reference.capped_of_length (by decide +kernel)
  have hstart : Passes ['a'] ['u'] ['s'] (remembered added) (stored cfg added) :=
    ⟨_, hexact.loose _, fun _ _ => rfl⟩
  obtain ⟨σ₁, hrun, -⟩ := @Passes.makes ℕ _ _ cfg _ _ _ inst hstart (fun _ => rfl) _ hnamed hcap
  have hfull : perform cfg (inst, replaced) (stored cfg added) = (.ok .done, σ₁) := alone_bind_ok hrun
  obtain ⟨hagain, hsame⟩ := add_session_retried hexact hnamed hcap hfull 2 9 true
  obtain ⟨σ₂, hσ₂⟩ := hagain fun _ => rfl
  exact ⟨σ₁, σ₂, hfull, hσ₂, hsame σ₂ hσ₂⟩

end AdkAerospike.Memory
