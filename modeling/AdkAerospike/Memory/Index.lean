import AdkAerospike.Memory.Alone
import AdkAerospike.Memory.Reference

/-! The store of the memory service against the map that it stands for. It holds
exactly the rows of the map, and the posting list of a token exactly one reference for
each row that has the token among its keywords. Purging takes the references from the
rows it finds, so the two halves agree after every mix of calls. -/

namespace AdkAerospike.Memory

open Program Data Keys Codec

variable {V : Type}

/-! ### The index -/

def postings (app user t : Str) (σ : Store V) : List Ref :=
  Record.refs (σ.get (memoryPostingKey app user t))

/-- The rows are those of the map; the posting list of a token holds one reference for
each row with the token, and no others; nothing else is stored. -/
structure Exact (M : Reference V) (σ : Store V) : Prop where
  named : ∀ id x, M.get id = some x → id.Named ∧ x.keywords.Nodup
  rows : ∀ id : Id, id.Named → σ.get id.key = (M.get id).map id.row
  index : ∀ app user t, Plain app → Plain user → (postings app user t σ).Nodup ∧
    ∀ ref, ref ∈ postings app user t σ ↔ ∃ x, M.get ⟨app, user, ref.sid, ref.eid⟩ = some x ∧
      t ∈ x.keywords ∧ ref.ts = x.ts
  known : ∀ key r, σ.get key = some r → (∃ id : Id, id.Named ∧ key = id.key) ∨
    ∃ app user t, Plain app ∧ Plain user ∧ key = memoryPostingKey app user t ∧
      ∃ l, r = { postings := some l }

/-- The same without the posting lists. -/
structure Rows (M : Reference V) (σ : Store V) : Prop where
  named : ∀ id x, M.get id = some x → id.Named ∧ x.keywords.Nodup
  rows : ∀ id : Id, id.Named → σ.get id.key = (M.get id).map id.row
  known : ∀ key r, σ.get key = some r → (∃ id : Id, id.Named ∧ key = id.key) ∨
    ∃ app user t, Plain app ∧ Plain user ∧ key = memoryPostingKey app user t ∧
      ∃ l, r = { postings := some l }

/-- Posting lists hold references of rows only, but some to the rows of `P` may be missing. -/
structure Loose (P : Id → Prop) (M : Reference V) (σ : Store V) : Prop extends Rows M σ where
  sound : ∀ app user t, Plain app → Plain user → (postings app user t σ).Nodup ∧
    ∀ ref ∈ postings app user t σ, ∃ x, M.get ⟨app, user, ref.sid, ref.eid⟩ = some x ∧ t ∈ x.keywords ∧
      ref.ts = x.ts
  complete : ∀ id x t, M.get id = some x → t ∈ x.keywords → ¬ P id → id.ref x ∈ postings id.app id.user t σ

/-! ### Which records a change reaches -/

section Reach
variable {i j : Id} {app user a u t : Str} {ts : List Str} {h : Option (Record V) → Option (Record V)}
  {r : Option (Record V)}

theorem atKey_key (hi : i.Named) (hj : j.Named) : atKey i.key h j.key r = if j = i then h r else r := by
  simp only [atKey, Id.key_inj hj hi]

theorem atKey_posting (hi : i.Named) (ha : Plain a) (hu : Plain u) :
    atKey i.key h (memoryPostingKey a u t) r = r :=
  if_neg fun heq => Id.key_ne_posting hi ha hu heq.symm

theorem atTokens_key (hi : i.Named) (happ : Plain app) (huser : Plain user) :
    atTokens app user ts h i.key r = r :=
  if_neg fun ⟨_, _, heq⟩ => Id.key_ne_posting hi happ huser heq

theorem atTokens_posting (happ : Plain app) (huser : Plain user) (ha : Plain a) (hu : Plain u) :
    atTokens app user ts h (memoryPostingKey a u t) r =
      if a = app ∧ u = user ∧ t ∈ ts then h r else r := by
  have hiff : (∃ t' ∈ ts, memoryPostingKey a u t = memoryPostingKey app user t') ↔
      a = app ∧ u = user ∧ t ∈ ts := by
    simp only [memoryPostingKey_inj ha happ hu huser]
    constructor
    · rintro ⟨t', ht', rfl, rfl, rfl⟩
      exact ⟨rfl, rfl, ht'⟩
    · rintro ⟨rfl, rfl, ht⟩
      exact ⟨t, ht, rfl, rfl, rfl⟩
  simp only [atTokens, hiff]

/-- A row and posting rows are changed in either order. -/
theorem atTokens_atKey (hi : i.Named) (happ : Plain app) (huser : Plain user) (c : Option (Record V)) (key : Str) :
    atTokens app user ts h key (atKey i.key (fun _ => c) key r) =
      atKey i.key (fun _ => c) key (atTokens app user ts h key r) := by
  by_cases hk : key = i.key
  · rw [hk, atTokens_key hi happ huser, atTokens_key hi happ huser]
  · rw [atKey, if_neg hk, atKey, if_neg hk]

end Reach

/-- The id of a row that is found for a session. -/
def Exact.rowId (app user session : Str) (r : Record V) : Id := ⟨app, user, session, r.eid.getD []⟩

namespace Rows
open Exact
variable {M M' : Reference V} {σ σ' : Store V}

/-- A posting row has no other bin. -/
theorem posting_only (h : Rows M σ) {app user t : Str} (ha : Plain app) (hu : Plain user) {r : Record V}
    (hr : σ.get (memoryPostingKey app user t) = some r) : ∃ l, r = { postings := some l } := by
  rcases h.known _ r hr with ⟨id, hid, hkey⟩ | ⟨app', user', t', -, -, -, hl⟩
  · exact absurd hkey.symm (Id.key_ne_posting hid ha hu)
  · exact hl

/-- One row and the posting rows of some tokens change. -/
theorem update (h : Rows M σ) {id : Id} (hid : id.Named) {v : Option (Entry V)}
    (hv : ∀ x, v = some x → x.keywords.Nodup) (hM' : ∀ j, M'.get j = if j = id then v else M.get j)
    {ts : List Str} {g : Option (Record V) → Option (Record V)}
    (hg : ∀ r s, (∀ r', r = some r' → ∃ l, r' = { postings := some l }) → g r = some s →
      ∃ l, s = { postings := some l })
    (hσ' : ∀ key, σ'.get key =
      atKey id.key (fun _ => v.map id.row) key (atTokens id.app id.user ts g key (σ.get key))) : Rows M' σ' := by
  refine ⟨fun j y hy => ?_, fun j hj => ?_, fun key r hr => ?_⟩
  · rw [hM'] at hy
    split_ifs at hy with hj
    · exact ⟨hj ▸ hid, hv y hy⟩
    · exact h.named j y hy
  · rw [hσ', atTokens_key hj hid.app hid.user, atKey_key hid hj, hM']
    by_cases hji : j = id
    · rw [if_pos hji, if_pos hji, hji]
    · rw [if_neg hji, if_neg hji, h.rows j hj]
  · by_cases hk : key = id.key
    · exact .inl ⟨id, hid, hk⟩
    · rw [hσ', atKey, if_neg hk, atTokens] at hr
      split_ifs at hr with ht
      · obtain ⟨t, -, rfl⟩ := ht
        refine .inr ⟨id.app, id.user, t, hid.app, hid.user, rfl, hg _ r (fun r' hr' => ?_) hr⟩
        exact h.posting_only hid.app hid.user hr'
      · exact h.known key r hr

/-- What carries the indexed bin of a session is a row of that session. -/
theorem of_aus (h : Rows M σ) {app user session : Str} (ha : Plain app) (hu : Plain user) {key : Str} {r : Record V}
    (hr : σ.get key = some r) (haus : r.aus = some (scopeTuple app user session)) :
    ∃ x, M.get (rowId app user session r) = some x ∧ r = (rowId app user session r).row x ∧
      key = (rowId app user session r).key := by
  rcases h.known key r hr with ⟨id, hid, rfl⟩ | ⟨a, u, t, -, -, -, l, rfl⟩
  · rw [h.rows id hid, Option.map_eq_some_iff] at hr
    obtain ⟨x, hx, rfl⟩ := hr
    obtain ⟨rfl, rfl, rfl⟩ := (scopeTuple_inj hid.app ha hid.user hu).mp (Option.some.inj haus)
    exact ⟨x, hx, rfl, rfl⟩
  · cases haus

end Rows

namespace Exact
variable {M M' : Reference V} {σ σ' : Store V}

theorem toRows (h : Exact M σ) : Rows M σ := ⟨h.named, h.rows, h.known⟩

theorem loose (h : Exact M σ) (P : Id → Prop) : Loose P M σ where
  toRows := h.toRows
  sound app user t ha hu := ⟨(h.index app user t ha hu).1, fun ref href => ((h.index app user t ha hu).2 ref).mp href⟩
  complete id x t hx ht _ := by
    have hid := (h.named id x hx).1
    exact ((h.index id.app id.user t hid.app hid.user).2 _).mpr ⟨x, hx, ht, rfl⟩

theorem empty : Exact (∅ : Reference V) ∅ where
  named _ _ h := nomatch h
  rows _ _ := rfl
  index _ _ _ _ _ := ⟨.nil, fun _ => ⟨fun h => (nomatch h), fun ⟨_, h, _⟩ => (nomatch h)⟩⟩
  known _ _ h := nomatch h

/-- Maps count by their lookups. -/
theorem congr (h : Exact M σ) (hM : ∀ id, M'.get id = M.get id) : Exact M' σ where
  named id x hx := h.named id x ((hM id).symm.trans hx)
  rows id hid := by rw [hM, h.rows id hid]
  index app user t ha hu := by simpa only [hM] using h.index app user t ha hu
  known := h.known

theorem length_postings (h : Exact M σ) {app user : Str} (ha : Plain app) (hu : Plain user) (t : Str) :
    (postings app user t σ).length = (M.refs app user t).length := by
  obtain ⟨hnodup, hmem⟩ := h.index app user t ha hu
  exact ((List.perm_ext_iff_of_nodup hnodup Reference.nodup_refs).mpr
    fun ref => (hmem ref).trans Reference.mem_refs.symm).length_eq

/-- Whose reference it is. -/
theorem eq_ref_iff {id : Id} {x : Entry V} {a u : Str} {ref : Ref} :
    (a = id.app ∧ u = id.user) ∧ ref = id.ref x ↔
      (⟨a, u, ref.sid, ref.eid⟩ : Id) = id ∧ ref.ts = x.ts := by
  cases id
  cases ref
  simp only [Id.ref, Id.mk.injEq, Ref.mk.injEq]
  tauto

/-- A new row and a reference to it in the list of each of its keywords. -/
theorem insert (h : Exact M σ) {id : Id} (hid : id.Named) (hnone : M.get id = none) {x : Entry V}
    (hx : x.keywords.Nodup)
    (hσ' : ∀ key, σ'.get key = atKey id.key (fun _ => some (id.row x)) key
      (atTokens id.app id.user x.keywords (fun r => some (Record.add (id.ref x) r)) key (σ.get key))) :
    Exact (M.insert id x) σ' := by
  have hget : ∀ j, FMap.get (M.insert id x) j = if j = id then some x else M.get j := fun j => FMap.get_insert M id j x
  have hrows : Rows (M.insert id x) σ' :=
    h.toRows.update hid (fun y hy => by cases hy; exact hx) hget (fun r s hr hs => by
      cases hs
      cases r with
      | none => exact ⟨_, rfl⟩
      | some r' =>
        obtain ⟨l, rfl⟩ := hr r' rfl
        exact ⟨_, rfl⟩) hσ'
  refine ⟨hrows.named, hrows.rows, fun a u t ha hu => ?_, hrows.known⟩
  · obtain ⟨hnodup, hmem⟩ := h.index a u t ha hu
    have hfresh : ∀ ref : Ref, (⟨a, u, ref.sid, ref.eid⟩ : Id) = id → ref ∉ postings a u t σ :=
      fun ref hj href => by
        obtain ⟨y, hy, -⟩ := (hmem ref).mp href
        rw [hj, hnone] at hy
        cases hy
    have hpost : postings a u t σ' = if a = id.app ∧ u = id.user ∧ t ∈ x.keywords then
        postings a u t σ ++ [id.ref x] else postings a u t σ := by
      unfold postings
      rw [hσ', atKey_posting hid ha hu, atTokens_posting hid.app hid.user ha hu]
      split_ifs <;> rfl
    rw [hpost]
    simp only [hget]
    split_ifs with hc
    · refine ⟨hnodup.append (List.nodup_singleton _) ?_, fun ref => ?_⟩
      · rw [List.disjoint_singleton]
        exact hfresh _ ((eq_ref_iff (x := x)).mp ⟨⟨hc.1, hc.2.1⟩, rfl⟩).1
      · rw [List.mem_append, List.mem_singleton]
        by_cases hj : (⟨a, u, ref.sid, ref.eid⟩ : Id) = id
        · have href : ref = id.ref x ↔ ref.ts = x.ts := by
            have := @eq_ref_iff V id x a u ref
            tauto
          simp [hj, hfresh ref hj, href, hc.2.2]
        · have href : ref ≠ id.ref x := fun heq => hj ((eq_ref_iff (x := x)).mp ⟨⟨hc.1, hc.2.1⟩, heq⟩).1
          simp [hj, href, hmem]
    · refine ⟨hnodup, fun ref => ?_⟩
      by_cases hj : (⟨a, u, ref.sid, ref.eid⟩ : Id) = id
      · have ht : t ∉ x.keywords := fun ht => hc ⟨congrArg Id.app hj, congrArg Id.user hj, ht⟩
        simp [hj, hfresh ref hj, ht]
      · rw [if_neg hj, hmem]

end Exact

namespace Loose
open Exact
variable {P : Id → Prop} {M M' : Reference V} {σ σ' : Store V}

/-- Where no row may miss references, the index is exact. -/
theorem exact (h : Loose P M σ) (hP : ∀ id x, M.get id = some x → ¬ P id) : Exact M σ where
  named := h.named
  rows := h.rows
  known := h.known
  index app user t ha hu := by
    obtain ⟨hnodup, hsound⟩ := h.sound app user t ha hu
    refine ⟨hnodup, fun ref => ⟨hsound ref, fun ⟨x, hx, ht, hts⟩ => ?_⟩⟩
    have hmem := h.complete _ x t hx ht (hP _ x hx)
    rwa [Id.ref, ← hts] at hmem

theorem congr (h : Loose P M σ) (hM : ∀ id, M'.get id = M.get id) : Loose P M' σ where
  named id x hx := h.named id x ((hM id).symm.trans hx)
  rows id hid := by rw [hM, h.rows id hid]
  known := h.known
  sound app user t ha hu := by simpa only [hM] using h.sound app user t ha hu
  complete id x t hx := h.complete id x t ((hM id).symm.trans hx)

/-- The posting list of a token after a reference was taken from the lists of some tokens. -/
theorem postings_drop (h : Rows M σ) {id : Id} (hid : id.Named) {ts : List Str} {ref : Ref}
    (hσ' : ∀ app user t, Plain app → Plain user → σ'.get (memoryPostingKey app user t) =
      atTokens id.app id.user ts (Option.map (Record.drop ref)) (memoryPostingKey app user t)
        (σ.get (memoryPostingKey app user t)))
    {app user t : Str} (ha : Plain app) (hu : Plain user) :
    postings app user t σ' = if app = id.app ∧ user = id.user ∧ t ∈ ts then
      (postings app user t σ).filter fun r => r ≠ ref else postings app user t σ := by
  unfold postings
  rw [hσ' app user t ha hu, atTokens_posting hid.app hid.user ha hu]
  split_ifs
  · rcases hr : σ.get (memoryPostingKey app user t) with _ | r
    · rfl
    · obtain ⟨l, rfl⟩ := h.posting_only ha hu hr
      rfl
  · rfl

/-- The row goes, and its reference from the list of each of its keywords. -/
theorem erase (h : Loose P M σ) {id : Id} {x : Entry V} (hx : M.get id = some x)
    (hσ' : ∀ key, σ'.get key = atKey id.key (fun _ => none) key
      (atTokens id.app id.user x.keywords (Option.map (Record.drop (id.ref x))) key (σ.get key))) :
    Loose P (M.erase id) σ' := by
  have hid := (h.named id x hx).1
  have hget : ∀ j, FMap.get (M.erase id) j = if j = id then none else M.get j := fun j => by
    by_cases hj : j = id
    · rw [if_pos hj, hj, FMap.get_erase_self]
    · rw [if_neg hj, FMap.get_erase_of_ne M hj]
  have hrows : Rows (M.erase id) σ' :=
    h.toRows.update (v := none) hid (fun y hy => nomatch hy) hget (fun r s hr hs => by
      obtain ⟨r', rfl, rfl⟩ := Option.map_eq_some_iff.mp hs
      obtain ⟨l, rfl⟩ := hr r' rfl
      exact ⟨_, rfl⟩) hσ'
  have hpost : ∀ {a u t : Str}, Plain a → Plain u → postings a u t σ' =
      if a = id.app ∧ u = id.user ∧ t ∈ x.keywords then (postings a u t σ).filter fun r => r ≠ id.ref x
      else postings a u t σ := fun ha hu =>
    postings_drop h.toRows hid (fun a u t ha hu => by rw [hσ', atKey_posting hid ha hu]) ha hu
  refine ⟨hrows, fun a u t ha hu => ?_, fun j y t hy ht hP => ?_⟩
  · obtain ⟨hnodup, hsound⟩ := h.sound a u t ha hu
    have hkeep : ∀ ref ∈ postings a u t σ', ref ∈ postings a u t σ ∧ (⟨a, u, ref.sid, ref.eid⟩ : Id) ≠ id := by
      intro ref href
      rw [hpost ha hu] at href
      have hold : ref ∈ postings a u t σ := by
        split_ifs at href
        · exact (List.mem_filter.mp href).1
        · exact href
      refine ⟨hold, fun hj => ?_⟩
      obtain ⟨y, hy, hty, hts⟩ := hsound ref hold
      rw [hj, hx, Option.some.injEq] at hy
      subst hy
      rw [if_pos ⟨congrArg Id.app hj, congrArg Id.user hj, hty⟩, List.mem_filter, decide_eq_true_eq] at href
      exact href.2 ((eq_ref_iff (x := x)).mpr ⟨hj, hts⟩).2
    refine ⟨?_, fun ref href => ?_⟩
    · rw [hpost ha hu]
      split_ifs
      · exact hnodup.filter _
      · exact hnodup
    · obtain ⟨hold, hj⟩ := hkeep ref href
      rw [hget, if_neg hj]
      exact hsound ref hold
  · rw [hget] at hy
    split_ifs at hy with hj
    have hmem := h.complete j y t hy ht hP
    have hnamed := (h.named j y hy).1
    rw [hpost hnamed.app hnamed.user]
    split_ifs
    · refine List.mem_filter.mpr ⟨hmem, decide_eq_true fun heq => hj ?_⟩
      have hboth : (j.app = id.app ∧ j.user = id.user) ∧ j.ref y = id.ref x := ⟨by tauto, heq⟩
      exact (eq_ref_iff.mp hboth).1
    · exact hmem

end Loose

namespace Exact
variable {M M' : Reference V} {σ σ' : Store V}

/-! ### Calls -/

variable {cfg : ServerConfig V} {inst : Instance V}

/-- The program returns and leaves a store that is exact for the map. -/
def Makes (cfg : ServerConfig V) (p : Service V Unit) (σ : Store V) (M : Reference V) : Prop :=
  ∃ σ', alone cfg p σ = (.ok (), σ') ∧ Exact M σ'

theorem Makes.bind {p q : Service V Unit} (hp : Makes cfg p σ M) (hq : ∀ σ', Exact M σ' → Makes cfg q σ' M') :
    Makes cfg (p.bind fun _ => q) σ M' := by
  obtain ⟨σ₁, hrun₁, h₁⟩ := hp
  obtain ⟨σ₂, hrun₂, h₂⟩ := hq σ₁ h₁
  exact ⟨σ₂, (alone_bind_ok hrun₁).trans hrun₂, h₂⟩

theorem upsert (h : Exact M σ) (hcfg : cfg.Ample) {app user session : Str} {e : Event V} {text : Str}
    (hid : Id.Named ⟨app, user, session, e.id⟩) (hnone : M.get ⟨app, user, session, e.id⟩ = none)
    (hcap : Reference.Capped (M.insert ⟨app, user, session, e.id⟩ (inst.entry e text))) :
    Makes cfg (upsertMemory inst app user session e text) σ
      (M.insert ⟨app, user, session, e.id⟩ (inst.entry e text)) := by
  have hfree : σ.get (Id.key ⟨app, user, session, e.id⟩) = none := by
    rw [h.rows _ hid, hnone]
    rfl
  have hput := leaves_put hcfg hfree (inst.newRow app user session e text)
  obtain ⟨σ', hrun, hσ'⟩ := hput.bind fun σ₁ h₁ => leaves_appendPostingRefs_of_room hcfg app user
    ⟨e.id, session, e.timestamp⟩ (inst.nodup_tokenize text) σ₁ fun t ht => by
      have hlen := hcap app user t
      rw [Reference.refs_insert hnone, if_pos ⟨rfl, rfl, ht⟩, List.length_cons,
        ← h.length_postings hid.app hid.user] at hlen
      rw [h₁, atKey_posting hid hid.app hid.user]
      exact hlen
  exact ⟨σ', hrun, h.insert hid hnone (inst.nodup_tokenize text) fun key =>
    (hσ' key).trans (atTokens_atKey hid hid.app hid.user _ key)⟩

variable {app user session : Str} {events : List (Event V)}

/-- An event is added where none with its id is remembered. -/
theorem add (h : Exact M σ) (hcfg : cfg.Ample) {e : Event V} (hid : Id.Named ⟨app, user, session, e.id⟩)
    (hnone : M.get ⟨app, user, session, e.id⟩ = none)
    (hcap : (Reference.add inst app user session M e).Capped) :
    Makes cfg (addEvent inst app user session e) σ (Reference.add inst app user session M e) := by
  unfold addEvent Reference.add at *
  cases htext : memoryText e with
  | none => exact ⟨σ, rfl, h⟩
  | some text =>
    rw [htext] at hcap
    exact h.upsert hcfg hid hnone hcap

/-- The events of a session that has been forgotten are added one by one. -/
theorem addAll (h : Exact M σ) (hcfg : cfg.Ample) (hids : ∀ e ∈ events, Id.Named ⟨app, user, session, e.id⟩)
    (hnodup : (events.map Event.id).Nodup) (hnew : ∀ e ∈ events, M.get ⟨app, user, session, e.id⟩ = none)
    (hcap : Reference.Capped (events.foldl (Reference.add inst app user session) M)) :
    Makes cfg (Memory.addAll inst app user session events) σ
      (events.foldl (Reference.add inst app user session) M) := by
  induction events generalizing M σ with
  | nil => exact ⟨σ, rfl, h⟩
  | cons e es ih =>
    obtain ⟨he, hes⟩ := List.nodup_cons.mp hnodup
    have hrest : ∀ e' ∈ es, (Reference.add inst app user session M e).get ⟨app, user, session, e'.id⟩ = none :=
      fun e' he' => Reference.get_add_of_notMem he he' (hnew e' (by simp [he']))
    have hfirst := (Reference.grows_foldl_add hes hrest).capped hcap
    exact (h.add hcfg (hids e (by simp)) (hnew e (by simp)) hfirst).bind
      fun σ' h' => ih h' (fun e' he' => hids e' (by simp [he'])) hes hrest hcap

/-- An event is added unless a row with its id is found. -/
theorem addIfAbsent (h : Exact M σ) (hcfg : cfg.Ample) {e : Event V}
    (hid : Id.Named ⟨app, user, session, e.id⟩)
    (hcap : (Reference.addAbsent inst app user session M e).Capped) :
    Makes cfg (addEventIfAbsent inst app user session e) σ (Reference.addAbsent inst app user session M e) := by
  have hrow := h.rows _ hid
  unfold addEventIfAbsent
  unfold Reference.addAbsent at *
  cases hx : M.get ⟨app, user, session, e.id⟩ with
  | none =>
    rw [hx] at hcap hrow
    have hadd := h.add hcfg hid hx hcap
    unfold addEvent at hadd
    cases htext : memoryText e with
    | none =>
      rw [htext] at hadd
      exact hadd
    | some text =>
      rw [htext] at hadd
      have hread : alone cfg (batchRead [memoryKey app user session e.id]) σ = (.ok [none], σ) :=
        congrArg (fun r => (Except.ok [r], σ)) hrow
      simp only [Prog.bind_eq]
      unfold Makes
      rw [alone_bind_ok hread]
      exact hadd
  | some x =>
    rw [hx] at hrow
    cases memoryText e with
    | none => exact ⟨σ, rfl, h⟩
    | some text =>
      have hread : alone cfg (batchRead [memoryKey app user session e.id]) σ = (.ok [some _], σ) :=
        congrArg (fun r => (Except.ok [r], σ)) hrow
      simp only [Prog.bind_eq]
      unfold Makes
      rw [alone_bind_ok hread]
      exact ⟨σ, rfl, h⟩

theorem addAbsent (h : Exact M σ) (hcfg : cfg.Ample) (hids : ∀ e ∈ events, Id.Named ⟨app, user, session, e.id⟩)
    (hcap : Reference.Capped (events.foldl (Reference.addAbsent inst app user session) M)) :
    Makes cfg (Memory.addAbsent inst app user session events) σ
      (events.foldl (Reference.addAbsent inst app user session) M) := by
  induction events generalizing M σ with
  | nil => exact ⟨σ, rfl, h⟩
  | cons e es ih =>
    have hfirst := (Reference.grows_foldl_addAbsent es).capped hcap
    exact (h.addIfAbsent hcfg (hids e (by simp)) hfirst).bind
      fun σ' h' => ih h' (fun e' he' => hids e' (by simp [he'])) hcap

end Exact

/-! ### Purging -/

namespace Loose
open Exact
variable {P : Id → Prop} {M : Reference V} {σ : Store V} {cfg : ServerConfig V} {app user session : Str}

/-- A row is purged with the references that are rebuilt from its bins. -/
theorem purgeRow (h : Loose P M σ) (hcfg : cfg.Ample) {id : Id} {x : Entry V} (hx : M.get id = some x) :
    ∃ σ', alone cfg (Memory.purgeRow id.app id.user id.session (id.row x)) σ = (.ok (), σ') ∧
      Loose P (M.erase id) σ' := by
  obtain ⟨hid, hnodup⟩ := h.named id x hx
  have hremove := leaves_removePostingRefs hcfg id.app id.user (id.ref x) hnodup σ
  obtain ⟨σ', hrun, hσ'⟩ := hremove.bind fun σ₁ _ => @leaves_remove V cfg id.key σ₁
  refine ⟨σ', ?_, h.erase hx hσ'⟩
  rw [← hrun]
  cases hk : x.keywords with
  | nil => simp [Memory.purgeRow, Id.row, hk, removePostingRefs, Prog.bind, Id.key]
  | cons t ts => simp [Memory.purgeRow, Id.row, hk, hid.event, Id.ref, Id.key]

theorem purgeRows (h : Loose P M σ) (hcfg : cfg.Ample) {rs : List (Record V)}
    (hrs : ∀ r ∈ rs, ∃ x, M.get (rowId app user session r) = some x ∧ r = (rowId app user session r).row x)
    (hnodup : (rs.map (rowId app user session)).Nodup) :
    ∃ σ', alone cfg (Memory.purgeRows app user session rs) σ = (.ok (), σ') ∧
      Loose P (rs.foldl (fun M r => M.erase (rowId app user session r)) M) σ' := by
  induction rs generalizing M σ with
  | nil => exact ⟨σ, rfl, h⟩
  | cons r rs ih =>
    obtain ⟨hr, hrest⟩ := List.nodup_cons.mp hnodup
    obtain ⟨x, hx, hrow⟩ := hrs r (by simp)
    obtain ⟨σ₁, hrun₁, h₁⟩ := h.purgeRow hcfg hx
    rw [← hrow] at hrun₁
    have hrs' : ∀ r' ∈ rs, ∃ x', FMap.get (M.erase (rowId app user session r)) (rowId app user session r') = some x' ∧
        r' = (rowId app user session r').row x' := fun r' hr' => by
      obtain ⟨x', hx', hrow'⟩ := hrs r' (by simp [hr'])
      have hne : rowId app user session r' ≠ rowId app user session r := fun heq =>
        hr (heq ▸ List.mem_map_of_mem hr')
      exact ⟨x', by rw [FMap.get_erase_of_ne M hne, hx'], hrow'⟩
    obtain ⟨σ₂, hrun₂, h₂⟩ := ih h₁ hrs' hrest
    exact ⟨σ₂, (alone_bind_ok hrun₁).trans hrun₂, h₂⟩

theorem get_foldl_erase (rs : List (Record V)) (M : Reference V) (j : Id) :
    FMap.get (rs.foldl (fun M r => M.erase (rowId app user session r)) M) j =
      if j ∈ rs.map (rowId app user session) then none else M.get j := by
  induction rs generalizing M with
  | nil => rfl
  | cons r rs ih =>
    rw [List.foldl_cons, ih, List.map_cons]
    by_cases hj : j = rowId app user session r
    · subst hj
      simp
    · rw [FMap.get_erase_of_ne M hj]
      simp [hj]

/-- The rows that the index finds for a session are those of the map, each once. -/
theorem found (h : Rows M σ) (cfg : ServerConfig V) (ha : Plain app) (hu : Plain user) (session : Str) :
    (∀ r ∈ cfg.arrange (cfg.table.found (scopeTuple app user session) σ),
      ∃ x, M.get (rowId app user session r) = some x ∧ r = (rowId app user session r).row x) ∧
    ((cfg.arrange (cfg.table.found (scopeTuple app user session) σ)).map (rowId app user session)).Nodup ∧
    ∀ j, FMap.get ((cfg.arrange (cfg.table.found (scopeTuple app user session) σ)).foldl
      (fun M r => M.erase (rowId app user session r)) M) j = (M.purge app user session).get j := by
  set rs := cfg.arrange (cfg.table.found (scopeTuple app user session) σ) with hdef
  have hfound : ∀ r, r ∈ rs ↔ ∃ key, σ.get key = some r ∧ r.aus = some (scopeTuple app user session) :=
    fun r => ((cfg.arrange_perm _).mem_iff).trans Server.mem_found
  refine ⟨fun r hr => ?_, ?_, fun j => Eq.symm ?_⟩
  · obtain ⟨key, hget, haus⟩ := (hfound r).mp hr
    obtain ⟨x, hx, hrow, -⟩ := h.of_aus ha hu hget haus
    exact ⟨x, hx, hrow⟩
  · rw [((cfg.arrange_perm _).map _).nodup_iff, Server.Table.found, List.map_map]
    refine List.Nodup.map_on ?_ (σ.nodupKeys.nodup.filter _)
    rintro ⟨key, r⟩ hr ⟨key', r'⟩ hr' heq
    simp only [List.mem_filter, decide_eq_true_eq, Function.comp_apply] at hr hr' heq
    have hget := (FMap.mem_entries_iff σ key).mp hr.1
    have hget' := (FMap.mem_entries_iff σ key').mp hr'.1
    obtain ⟨-, -, -, hkey⟩ := h.of_aus ha hu hget hr.2
    obtain ⟨-, -, -, hkey'⟩ := h.of_aus ha hu hget' hr'.2
    rw [heq, ← hkey'] at hkey
    subst hkey
    rw [hget, Option.some.injEq] at hget'
    rw [hget']
  · rw [Reference.purge, FMap.get_restrict, get_foldl_erase]
    by_cases hj : j.app = app ∧ j.user = user ∧ j.session = session
    · rw [if_neg (by simpa using hj)]
      split_ifs with hmem
      · rfl
      · cases hx : M.get j with
        | none => rfl
        | some x =>
          obtain ⟨rfl, rfl, rfl⟩ := hj
          have hrow := h.rows j (h.named j x hx).1
          rw [hx] at hrow
          exact absurd (List.mem_map.mpr ⟨j.row x, (hfound _).mpr ⟨_, hrow, rfl⟩, rfl⟩) hmem
    · rw [if_pos (decide_eq_true hj), if_neg fun hmem => hj ?_]
      obtain ⟨r, -, rfl⟩ := List.mem_map.mp hmem
      exact ⟨rfl, rfl, rfl⟩

/-- The purge finds the rows of the session in the index, whatever their order. After it
the index is exact, also if only references to rows of this session were missing. -/
theorem purge (h : Loose P M σ) (hP : ∀ id, P id → id.app = app ∧ id.user = user ∧ id.session = session)
    (hcfg : cfg.Ample) (ha : Plain app) (hu : Plain user) :
    Makes cfg (purgeSessionMemories app user session) σ (M.purge app user session) := by
  obtain ⟨hrs, hnodup, hget⟩ := found h.toRows cfg ha hu session
  obtain ⟨σ', hrun, hloose⟩ := h.purgeRows hcfg hrs hnodup
  refine ⟨σ', hrun, (hloose.congr fun j => (hget j).symm).exact fun id x hx hid => ?_⟩
  rw [Reference.purge, FMap.get_restrict, if_neg (by simpa using hP id hid)] at hx
  cases hx

end Loose

namespace Exact
variable {M : Reference V} {σ : Store V} {cfg : ServerConfig V} {app user session : Str}

theorem purge (h : Exact M σ) (hcfg : cfg.Ample) (ha : Plain app) (hu : Plain user) :
    Makes cfg (purgeSessionMemories app user session) σ (M.purge app user session) :=
  (h.loose fun _ => False).purge (fun _ hid => hid.elim) hcfg ha hu

end Exact

/-! ### Runs -/

/-- The map after a sequence of calls. -/
def remembered (cs : List (Instance V × Call V)) : Reference V :=
  cs.foldl (fun M l => l.2.reference l.1 M) ∅

/-- The store after a sequence of complete calls. -/
def stored (cfg : ServerConfig V) (cs : List (Instance V × Call V)) : Store V :=
  cs.foldl (fun σ l => (perform cfg l σ).2) ∅

section Runs
variable {cfg : ServerConfig V} {M : Reference V} {σ : Store V}

/-- What a call comes to: it returns, or it is a search that meets a timestamp that is not taken. -/
def Settled (l : Instance V × Call V) (out : Except Err (Reply V)) : Prop :=
  (∃ reply, out = .ok reply) ∨
    ∃ app user text ts e, l.2 = .search app user text ∧ l.1.formatTimestamp ts = .error e ∧ out = .error (.range e)

/-- A search leaves the store alone. -/
theorem perform_search (cfg : ServerConfig V) (inst : Instance V) (app user text : Str) (σ : Store V) :
    Settled (inst, .search app user text) (perform cfg (inst, .search app user text) σ).1 ∧
      (perform cfg (inst, .search app user text) σ).2 = σ := by
  have hread : ∀ keys : List Str, alone cfg (batchRead keys) σ = (.ok (keys.map fun key => σ.get key), σ) :=
    fun _ => rfl
  have hsearch : (∃ l, alone cfg (searchMemory inst app user text) σ = (.ok l, σ)) ∨
      ∃ ts e, inst.formatTimestamp ts = .error e ∧ alone cfg (searchMemory inst app user text) σ = (.error (.range e), σ) := by
    unfold searchMemory
    simp only [Prog.bind_eq, Prog.pure_eq]
    split_ifs
    · exact .inl ⟨[], rfl⟩
    rw [alone_bind_ok (hread _)]
    split_ifs
    · exact .inl ⟨[], rfl⟩
    rw [alone_bind_ok (hread _)]
    rcases mapM_cases (fun x : (ℕ × ℚ) × Record V => inst.memoryEntryFromBins x.2) (sliceTo (ranked _) inst.topK) with
      ⟨l, hl, -⟩ | ⟨x, -, e, he, hl⟩
    · rw [hl]
      exact .inl ⟨l, rfl⟩
    · obtain ⟨ts, -, -, hts⟩ := inst.error_entry he
      rw [hl]
      exact .inr ⟨ts, e, hts, rfl⟩
  rcases hsearch with ⟨l, hl⟩ | ⟨ts, e, hts, he⟩
  · have hrun : perform cfg (inst, .search app user text) σ = (.ok (.memories l), σ) := alone_bind_ok hl
    rw [hrun]
    exact ⟨.inl ⟨.memories l, rfl⟩, rfl⟩
  · have hrun : perform cfg (inst, .search app user text) σ = (.error (.range e), σ) := alone_bind_error he
    rw [hrun]
    exact ⟨.inr ⟨app, user, text, ts, e, rfl, hts, rfl⟩, rfl⟩

theorem perform_of_makes {l : Instance V × Call V} {p : Service V Unit} {M' : Reference V}
    (hbody : l.2.body l.1 = p.bind fun _ => .ret .done) (h : Exact.Makes cfg p σ M') :
    Settled l (perform cfg l σ).1 ∧ Exact M' (perform cfg l σ).2 := by
  obtain ⟨σ', hrun, hexact⟩ := h
  have hperform : perform cfg l σ = (.ok .done, σ') := by
    rw [perform, hbody]
    exact alone_bind_ok hrun
  rw [hperform]
  exact ⟨.inl ⟨.done, rfl⟩, hexact⟩

theorem perform_exact (hcfg : cfg.Ample) (h : Exact M σ) {l : Instance V × Call V} (hl : l.2.WellNamed)
    (hcap : (l.2.reference l.1 M).Capped) :
    Settled l (perform cfg l σ).1 ∧ Exact (l.2.reference l.1 M) (perform cfg l σ).2 := by
  obtain ⟨inst, c⟩ := l
  cases c with
  | addSession app user session events =>
    obtain ⟨ha, hu, hs, hkw, hids, hnodup⟩ := hl
    have hnew : ∀ e ∈ events, (M.purge app user session).get ⟨app, user, session, e.id⟩ = none := fun e _ => by
      rw [Reference.purge, FMap.get_restrict, if_neg (by simp)]
    exact perform_of_makes rfl ((h.purge hcfg ha hu).bind fun σ' h' =>
      h'.addAll hcfg (fun e he => ⟨ha, hu, hs, hkw, hids e he⟩) hnodup hnew hcap)
  | addEvents app user events session =>
    obtain ⟨ha, hu, hs, hids⟩ := hl
    have hscoped : Plain (scopedSessionId session) ∧ scopedSessionId session ≠ memoryKwPrefix := by
      unfold scopedSessionId
      split
      · decide
      · decide
      · exact hs _ rfl
    exact perform_of_makes rfl (h.addAbsent hcfg
      (fun e he => ⟨ha, hu, hscoped.1, hscoped.2, hids e he⟩) hcap)
  | search app user text =>
    obtain ⟨hsettled, hsame⟩ := perform_search cfg inst app user text σ
    rw [hsame]
    exact ⟨hsettled, h⟩

theorem run_exact (hcfg : cfg.Ample) (h : Exact M σ) {cs : List (Instance V × Call V)}
    (hcs : ∀ l ∈ cs, l.2.WellNamed)
    (hcap : ∀ cs', cs' <+: cs → Reference.Capped (cs'.foldl (fun M l => l.2.reference l.1 M) M)) :
    List.Forall₂ Settled cs (outputs (perform cfg) cs σ) ∧
      Exact (cs.foldl (fun M l => l.2.reference l.1 M) M) (cs.foldl (fun σ l => (perform cfg l σ).2) σ) := by
  induction cs generalizing M σ with
  | nil => exact ⟨.nil, h⟩
  | cons l cs ih =>
    obtain ⟨hok, hexact⟩ := perform_exact hcfg h (hcs l (by simp)) (hcap [l] ⟨cs, rfl⟩)
    obtain ⟨hrest, hfinal⟩ := ih hexact (fun l' hl' => hcs l' (by simp [hl']))
      fun cs' hcs' => hcap (l :: cs') (List.cons_prefix_cons.mpr ⟨rfl, hcs'⟩)
    exact ⟨.cons hok hrest, hfinal⟩

/-- Every call of a sequence returns, but for searches that meet a timestamp that is not
taken, and after it the rows are those of the map and the posting lists are exact. -/
theorem rows_and_index_exact (hcfg : cfg.Ample) (cs : List (Instance V × Call V))
    (hcs : ∀ l ∈ cs, l.2.WellNamed) (hcap : ∀ cs', cs' <+: cs → (remembered cs').Capped) :
    List.Forall₂ Settled cs (outputs (perform cfg) cs ∅) ∧ Exact (remembered cs) (stored cfg cs) :=
  run_exact hcfg Exact.empty hcs hcap

end Runs

namespace Small

def event (id text : Str) (timestamp : ℚ) : Event ℕ where
  id := id
  timestamp := timestamp
  author := ['u']
  isPartial := false
  stateDelta := ∅
  content := some (some [⟨some text, 0⟩])
  rest := 0

/-- A session is added, then more of its events, then the session again with other texts. -/
def added : List (Instance ℕ × Call ℕ) :=
  [(inst, .addSession ['a'] ['u'] ['s'] [event ['x'] "Red fox".toList 1, event ['y'] "the fox".toList 2]),
    (inst, .addEvents ['a'] ['u'] [event ['x'] "blue".toList 3, event ['z'] "red red".toList 4] (some ['s'])),
    (inst, .addSession ['a'] ['u'] ['s'] [event ['y'] "blue fox".toList 5])]

theorem wellNamed_added : ∀ l ∈ added, l.2.WellNamed := by
  have ha : Plain ['a'] ∧ Plain ['u'] ∧ Plain ['s'] ∧ ['s'] ≠ memoryKwPrefix := by decide
  simp only [added, List.mem_cons, List.not_mem_nil, or_false]
  rintro l (rfl | rfl | rfl)
  · exact ⟨ha.1, ha.2.1, ha.2.2.1, ha.2.2.2, by simp [event], by decide⟩
  · exact ⟨ha.1, ha.2.1, fun s hs => by cases hs; exact ha.2.2, by simp [event]⟩
  · exact ⟨ha.1, ha.2.1, ha.2.2.1, ha.2.2.2, by simp [event], by decide⟩

theorem capped_added : ∀ cs, cs <+: added → (remembered cs).Capped := fun cs hcs => by
  rw [added, List.prefix_cons_iff] at hcs
  rcases hcs with rfl | ⟨_, rfl, hcs⟩
  · exact Reference.capped_of_length (by decide +kernel)
  rw [List.prefix_cons_iff] at hcs
  rcases hcs with rfl | ⟨_, rfl, hcs⟩
  · exact Reference.capped_of_length (by decide +kernel)
  rw [List.prefix_cons_iff] at hcs
  rcases hcs with rfl | ⟨_, rfl, hcs⟩
  · exact Reference.capped_of_length (by decide +kernel)
  rw [List.prefix_nil.mp hcs]
  exact Reference.capped_of_length (by decide +kernel)

end Small

open Memory.Small in
theorem rows_and_index_exact_small :
    (∀ l ∈ added, l.2.WellNamed) ∧ (∀ cs, cs <+: added → (remembered cs).Capped) ∧
      Exact (remembered added) (stored cfg added) ∧
      (remembered added).refs ['a'] ['u'] "fox".toList = [⟨['y'], ['s'], 5⟩] :=
  ⟨wellNamed_added, capped_added,
    (rows_and_index_exact (fun _ => rfl) added wellNamed_added capped_added).2, by decide +kernel⟩

end AdkAerospike.Memory
