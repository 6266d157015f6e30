import Mathlib.Algebra.Order.Ring.Unbundled.Rat
import Mathlib.Data.Prod.Lex
import AdkAerospike.Data.Ranking
import AdkAerospike.Memory.Index

/-! `search_memory` over an exact index. The candidates are gathered token by token,
with a limit on their number; below it they are the entries that share a token with the
query, in some order, and what is returned is the best of them. -/

namespace AdkAerospike.Memory

open Program Data Keys Codec

variable {V : Type}

/-! ### What a search returns -/

/-- The candidates of a query with these tokens. -/
def candidatesOf (app user : Str) (tokens : List Str) (σ : Store V) : Candidates :=
  Candidates.gatherAll (tokens.map fun t => postings app user t σ) []

/-- The candidates whose rows match, with their scores. -/
def hits (app user : Str) (tokens : List Str) (σ : Store V) : List ((ℕ × ℚ) × Record V) :=
  scoredRows app user tokens ((candidatesOf app user tokens σ).map
    fun c => (c, σ.get (memoryKey app user c.2.1 c.1)))

theorem alone_searchMemory (cfg : ServerConfig V) (inst : Instance V) (app user text : Str) (σ : Store V) :
    alone cfg (searchMemory inst app user text) σ =
      (((sliceTo (ranked (hits app user (inst.tokenize text) σ)) inst.topK).mapM
        fun x => inst.memoryEntryFromBins x.2).mapError .range, σ) := by
  have hread : ∀ keys : List Str, alone cfg (batchRead keys) σ = (.ok (keys.map fun key => σ.get key), σ) :=
    fun _ => rfl
  have hnone : ∀ k : ℤ, sliceTo (ranked ([] : List ((ℕ × ℚ) × Record V))) k = [] := fun k => by
    simp [sliceTo, ranked]
  have hformatted : ∀ y : Except RangeErr (List (MemoryEntry V)), alone cfg (formatted y) σ = (y.mapError .range, σ) :=
    fun y => by cases y <;> rfl
  unfold searchMemory
  simp only [Prog.bind_eq, Prog.pure_eq]
  split_ifs with htokens
  · rw [htokens, hits, candidatesOf, List.map_nil, Candidates.gatherAll, List.map_nil, scoredRows,
      List.filterMap_nil, hnone]
    rfl
  · have hlists : (((inst.tokenize text).map (memoryPostingKey app user)).map fun key => σ.get key).map
        (fun r => (r.bind Record.postings).getD []) = (inst.tokenize text).map fun t => postings app user t σ := by
      simp only [List.map_map]
      rfl
    rw [alone_bind_ok (hread _), hlists, ← candidatesOf]
    split_ifs with hcands
    · rw [hits, hcands, List.map_nil, scoredRows, List.filterMap_nil, hnone]
      rfl
    · rw [alone_bind_ok (hread _), List.map_map, hits]
      have hzip : (candidatesOf app user (inst.tokenize text) σ).zip
          ((candidatesOf app user (inst.tokenize text) σ).map
            ((fun key => σ.get key) ∘ fun c => memoryKey app user c.2.1 c.1)) =
          (candidatesOf app user (inst.tokenize text) σ).map
            fun c => (c, σ.get (memoryKey app user c.2.1 c.1)) := by
        rw [← List.zip_map', List.map_id']
        rfl
      rw [hzip]
      exact hformatted _

/-- A better score goes first. -/
def rankLe (x y : (ℕ × ℚ) × Record V) : Bool := toLex y.1 ≤ toLex x.1

theorem rankLe_trans (x y z : (ℕ × ℚ) × Record V) (hxy : rankLe x y) (hyz : rankLe y z) : rankLe x z :=
  decide_eq_true ((of_decide_eq_true hyz).trans (of_decide_eq_true hxy))

theorem rankLe_total (x y : (ℕ × ℚ) × Record V) : rankLe x y || rankLe y x := by
  simpa [rankLe] using le_total _ _

theorem sliceTo_ranked {k : ℤ} (hk : 0 ≤ k) (l : List ((ℕ × ℚ) × Record V)) :
    sliceTo (ranked l) k = best rankLe k.toNat l := by
  have hle : (fun x y : (ℕ × ℚ) × Record V => decide (y.1.1 < x.1.1 ∨ y.1.1 = x.1.1 ∧ y.1.2 ≤ x.1.2)) = rankLe := by
    funext x y
    exact decide_eq_decide.mpr Prod.Lex.le_iff.symm
  rw [sliceTo, if_pos hk, ranked, hle]
  rfl

theorem sliceTo_sublist {α : Type} (l : List α) (k : ℤ) : (sliceTo l k).Sublist l := by
  unfold sliceTo
  split_ifs <;> exact List.take_sublist _ _

/-- A row that is scored was found, is the user's and matches. -/
theorem found_of_scored {app user : Str} {tokens : List Str} {found : List ((Str × Str × ℚ) × Option (Record V))}
    {x : (ℕ × ℚ) × Record V} (hx : x ∈ scoredRows app user tokens found) :
    (∃ c, (c, some x.2) ∈ found) ∧ x.1.1 = overlap tokens x.2 ∧ x.2.app = some app ∧ x.2.uid = some user ∧
      overlap tokens x.2 ≠ 0 := by
  obtain ⟨⟨c, r?⟩, hr, hx⟩ := List.mem_filterMap.mp hx
  cases r? with
  | none => cases hx
  | some r =>
    dsimp only at hx
    split_ifs at hx with hmatch
    cases hx
    exact ⟨⟨c, hr⟩, rfl, hmatch⟩

/-! ### Gathering below the limit -/

def Ref.candidate (ref : Ref) : Str × Str × ℚ := (ref.eid, ref.sid, ref.ts)

namespace Candidates

section Gather
variable {U : Candidates}

/-- Where event ids tell candidates apart, an offer adds a candidate that is new. -/
theorem offer_eq (hU : (U.map Prod.fst).Nodup) {cs : Candidates} (hcs : cs ⊆ U) {ref : Ref}
    (href : ref.candidate ∈ U) :
    cs.offer ref = if ref.candidate ∈ cs then cs else cs ++ [ref.candidate] := by
  have hsame : ∀ c ∈ cs, c.1 = ref.eid → c = ref.candidate := fun c hc heq =>
    List.inj_on_of_nodup_map hU (hcs hc) href heq
  unfold offer
  cases hfind : cs.find? fun c => c.1 = ref.eid with
  | none =>
    have hnew : ref.candidate ∉ cs := fun hmem => by
      have := List.find?_eq_none.mp hfind _ hmem
      simp [Ref.candidate] at this
    rw [if_neg hnew]
    rfl
  | some prev =>
    have hmem := List.mem_of_find?_eq_some hfind
    have heq : prev = ref.candidate := hsame prev hmem (by simpa using List.find?_some hfind)
    have hold : ¬ prev.2.2 < ref.ts := by
      rw [heq]
      exact lt_irrefl ref.ts
    rw [if_pos (heq ▸ hmem)]
    exact if_neg hold

/-- A list without repetition that is as long as the limit holds all there is. -/
theorem subset_of_length (hcap : U.length ≤ maxSearchCandidates) {cs : Candidates} (hnodup : cs.Nodup)
    (hcs : cs ⊆ U) (hlen : maxSearchCandidates ≤ cs.length) : U ⊆ cs :=
  ((List.subperm_of_subset hnodup hcs).perm_of_length_le (hcap.trans hlen)).symm.subset

/-- Candidates gathered so far: they are among those of `U`, each at most once, and
hold those of the references seen. -/
structure Holds (U cs : Candidates) (refs : List Ref) : Prop where
  nodup : cs.Nodup
  subset : cs ⊆ U
  mem : ∀ ref ∈ refs, ref.candidate ∈ cs

theorem gather_holds (hU : (U.map Prod.fst).Nodup) (hcap : U.length ≤ maxSearchCandidates) {refs seen : List Ref}
    (hrefs : ∀ ref ∈ refs, ref.eid ≠ [] ∧ ref.sid ≠ [] ∧ ref.candidate ∈ U) {cs : Candidates}
    (h : Holds U cs seen) : Holds U (gather refs cs) (seen ++ refs) := by
  induction refs generalizing cs seen with
  | nil =>
    rw [List.append_nil]
    exact h
  | cons ref refs ih =>
    obtain ⟨heid, hsid, hmem⟩ := hrefs ref (by simp)
    have hoffer : Holds U (cs.offer ref) (seen ++ [ref]) := by
      rw [offer_eq hU h.subset hmem]
      split_ifs with hold
      · refine ⟨h.nodup, h.subset, fun r hr => ?_⟩
        rcases List.mem_append.mp hr with hr | hr
        · exact h.mem r hr
        · rw [List.mem_singleton.mp hr]
          exact hold
      · refine ⟨h.nodup.append (List.nodup_singleton _) (by simpa using hold), ?_, fun r hr => ?_⟩
        · intro c hc
          rcases List.mem_append.mp hc with hc | hc
          · exact h.subset hc
          · rw [List.mem_singleton.mp hc]
            exact hmem
        · rcases List.mem_append.mp hr with hr | hr
          · exact List.mem_append_left _ (h.mem r hr)
          · rw [List.mem_singleton.mp hr]
            simp
    rw [gather, if_neg (by simp [heid, hsid])]
    split_ifs with hfull
    · refine ⟨hoffer.nodup, hoffer.subset, fun r hr => ?_⟩
      rcases List.mem_append.mp hr with hr | hr
      · exact hoffer.mem r (List.mem_append_left _ hr)
      · exact subset_of_length hcap hoffer.nodup hoffer.subset hfull (hrefs r hr).2.2
    · have := ih (fun r hr => hrefs r (by simp [hr])) hoffer
      rwa [List.append_assoc, List.singleton_append] at this

theorem gatherAll_holds (hU : (U.map Prod.fst).Nodup) (hcap : U.length ≤ maxSearchCandidates)
    {lists : List (List Ref)} {seen : List Ref}
    (hlists : ∀ refs ∈ lists, ∀ ref ∈ refs, ref.eid ≠ [] ∧ ref.sid ≠ [] ∧ ref.candidate ∈ U)
    {cs : Candidates} (h : Holds U cs seen) : Holds U (gatherAll lists cs) (seen ++ lists.flatten) := by
  induction lists generalizing cs seen with
  | nil =>
    rw [List.flatten_nil, List.append_nil]
    exact h
  | cons refs lists ih =>
    have hfirst := gather_holds hU hcap (hlists refs (by simp)) h
    rw [gatherAll, List.flatten_cons, ← List.append_assoc]
    split_ifs with hfull
    · refine ⟨hfirst.nodup, hfirst.subset, fun r hr => ?_⟩
      rcases List.mem_append.mp hr with hr | hr
      · exact hfirst.mem r hr
      · obtain ⟨l, hl, hr⟩ := List.mem_flatten.mp hr
        exact subset_of_length hcap hfirst.nodup hfirst.subset hfull (hlists l (by simp [hl]) r hr).2.2
    · exact ih (fun l hl => hlists l (by simp [hl])) hfirst

/-- Below the limit, all candidates are gathered, in some order. -/
theorem gatherAll_perm (hU : (U.map Prod.fst).Nodup) (hcap : U.length ≤ maxSearchCandidates)
    {lists : List (List Ref)}
    (hlists : ∀ refs ∈ lists, ∀ ref ∈ refs, ref.eid ≠ [] ∧ ref.sid ≠ [] ∧ ref.candidate ∈ U)
    (hall : ∀ c ∈ U, ∃ refs ∈ lists, ∃ ref ∈ refs, c = ref.candidate) : (gatherAll lists []).Perm U := by
  have hstart : Holds U [] [] := ⟨.nil, by simp, by simp⟩
  have h := gatherAll_holds hU hcap hlists hstart
  refine (List.perm_ext_iff_of_nodup h.nodup (List.Nodup.of_map _ hU)).mpr
    fun c => ⟨fun hc => h.subset hc, fun hc => ?_⟩
  obtain ⟨refs, hrefs, ref, href, rfl⟩ := hall c hc
  exact h.mem ref (List.mem_append_right _ (List.mem_flatten.mpr ⟨refs, hrefs, href⟩))

end Gather

end Candidates

/-! ### Exactness -/

namespace Reference

/-- The entries of a user that have one of the tokens among their keywords. -/
def matching (M : Reference V) (app user : Str) (tokens : List Str) : List (Id × Entry V) :=
  (M.entries.filter fun e => e.1.app = app ∧ e.1.user = user ∧ ∃ t ∈ tokens, t ∈ e.2.keywords).map
    fun e => (e.1, e.2)

variable {M : Reference V} {app user : Str} {tokens : List Str}

theorem mem_matching {id : Id} {x : Entry V} : (id, x) ∈ M.matching app user tokens ↔
    M.get id = some x ∧ id.app = app ∧ id.user = user ∧ ∃ t ∈ tokens, t ∈ x.keywords := by
  simp only [matching, List.mem_map, List.mem_filter, decide_eq_true_eq]
  constructor
  · rintro ⟨⟨i, y⟩, ⟨hmem, hmatch⟩, heq⟩
    cases heq
    exact ⟨(FMap.mem_entries_iff M i).mp hmem, hmatch⟩
  · rintro ⟨hget, hmatch⟩
    exact ⟨⟨id, x⟩, ⟨(FMap.mem_entries_iff M id).mpr hget, hmatch⟩, rfl⟩

theorem nodup_matching : (M.matching app user tokens).Nodup := by
  refine List.Nodup.map ?_ (M.nodupKeys.nodup.filter _)
  rintro ⟨i, x⟩ ⟨j, y⟩ h
  cases h
  rfl

/-- The events of a user have different ids, also across sessions. -/
def DistinctEvents (M : Reference V) (app user : Str) : Prop :=
  ∀ s s' e, (M.get ⟨app, user, s, e⟩).isSome → (M.get ⟨app, user, s', e⟩).isSome → s = s'

end Reference

/-- The score of an entry: how many of its keywords are tokens of the query, then its
timestamp. -/
def score (tokens : List Str) (e : Id × Entry V) : ℕ ×ₗ ℚ :=
  toLex (overlap tokens (e.1.row e.2), e.2.ts)

section Search
variable {M : Reference V} {σ : Store V} {app user : Str} {tokens : List Str}

/-- The candidate of an entry. -/
def candidate (e : Id × Entry V) : Str × Str × ℚ := (e.1.ref e.2).candidate

theorem nodup_candidates (hids : M.DistinctEvents app user) :
    (((M.matching app user tokens).map candidate).map Prod.fst).Nodup := by
  rw [List.map_map]
  refine List.Nodup.map_on ?_ Reference.nodup_matching
  rintro ⟨⟨a, u, s, e⟩, x⟩ hx ⟨⟨a', u', s', e'⟩, y⟩ hy heq
  obtain ⟨hget, rfl, rfl, -⟩ := Reference.mem_matching.mp hx
  obtain ⟨hget', rfl, rfl, -⟩ := Reference.mem_matching.mp hy
  obtain rfl : e = e' := heq
  obtain rfl : s = s' := hids s s' e (by rw [hget]; rfl) (by rw [hget']; rfl)
  rw [hget, Option.some.injEq] at hget'
  rw [hget']

/-- Below the limit the candidates are those of the entries that match. -/
theorem Exact.candidates_perm (h : Exact M σ) (ha : Plain app) (hu : Plain user)
    (hsessions : ∀ id x, M.get id = some x → id.session ≠ []) (hids : M.DistinctEvents app user)
    (hcap : (M.matching app user tokens).length ≤ maxSearchCandidates) :
    (candidatesOf app user tokens σ).Perm ((M.matching app user tokens).map candidate) := by
  refine Candidates.gatherAll_perm (nodup_candidates hids) (by rwa [List.length_map]) ?_ ?_
  · intro refs hrefs ref href
    obtain ⟨t, ht, rfl⟩ := List.mem_map.mp hrefs
    obtain ⟨x, hx, htx, hts⟩ := ((h.index app user t ha hu).2 ref).mp href
    refine ⟨(h.named _ x hx).1.event, hsessions _ x hx,
      List.mem_map.mpr ⟨(⟨app, user, ref.sid, ref.eid⟩, x), ?_, ?_⟩⟩
    · exact Reference.mem_matching.mpr ⟨hx, rfl, rfl, t, ht, htx⟩
    · simp [candidate, Id.ref, Ref.candidate, hts]
  · intro c hc
    obtain ⟨⟨id, x⟩, hmem, rfl⟩ := List.mem_map.mp hc
    obtain ⟨hget, rfl, rfl, t, ht, htx⟩ := Reference.mem_matching.mp hmem
    refine ⟨_, List.mem_map_of_mem ht, id.ref x, ?_, rfl⟩
    exact ((h.index _ _ t ha hu).2 _).mpr ⟨x, hget, htx, rfl⟩

/-- An entry that matches has a positive score. -/
theorem overlap_ne_zero {id : Id} {x : Entry V} (h : ∃ t ∈ tokens, t ∈ x.keywords) :
    overlap tokens (id.row x) ≠ 0 := by
  obtain ⟨t, ht, htx⟩ := h
  have hmem : t ∈ (x.keywords.dedup.filter fun t => t ∈ tokens) := by simp [ht, htx]
  exact (List.length_pos_of_mem hmem).ne'

/-- What is ranked, for an entry that matches. -/
def hit (tokens : List Str) (e : Id × Entry V) : (ℕ × ℚ) × Record V :=
  ((overlap tokens (e.1.row e.2), e.2.ts), e.1.row e.2)

/-- Below the limit every entry that matches is a hit. -/
theorem Exact.hits_perm (h : Exact M σ) (ha : Plain app) (hu : Plain user)
    (hsessions : ∀ id x, M.get id = some x → id.session ≠ []) (hids : M.DistinctEvents app user)
    (hcap : (M.matching app user tokens).length ≤ maxSearchCandidates) :
    ∃ L : List (Id × Entry V), L.Perm (M.matching app user tokens) ∧ hits app user tokens σ = L.map (hit tokens) := by
  have hperm := h.candidates_perm ha hu hsessions hids hcap
  have hmap : List.Forall₂ (fun c e => c = candidate e) ((M.matching app user tokens).map candidate)
      (M.matching app user tokens) := by
    rw [List.forall₂_map_left_iff]
    exact List.forall₂_same.mpr fun _ _ => rfl
  obtain ⟨L, hcands, hL⟩ := List.perm_comp_forall₂ hperm hmap
  have heq : candidatesOf app user tokens σ = L.map candidate := by
    have := List.forall₂_iff_get.mp hcands
    exact List.ext_get (by simpa using this.1) fun i hi hi' => by simpa using this.2 i hi (by simpa using hi')
  refine ⟨L, hL, ?_⟩
  rw [hits, heq, scoredRows, List.map_map, List.filterMap_map, ← List.filterMap_eq_map]
  refine List.filterMap_congr fun e he => ?_
  obtain ⟨id, x⟩ := e
  obtain ⟨hget, rfl, rfl, hmatch⟩ := Reference.mem_matching.mp (hL.subset he)
  have hrow : σ.get (memoryKey id.app id.user id.session id.event) = some (id.row x) := by
    have := h.rows id (h.named id x hget).1
    rwa [hget] at this
  simp only [Function.comp_apply, candidate, Id.ref, Ref.candidate, hrow]
  exact if_pos ⟨rfl, rfl, overlap_ne_zero hmatch⟩

/-- What is ranked, for entries that match. -/
def goesFirst (tokens : List Str) (x y : Id × Entry V) : Bool := rankLe (hit tokens x) (hit tokens y)

/-- `search_memory` returns as many of the entries that match as `top_k` allows, each
once, better scores first, and none left out has a better score than one returned, if
`format_timestamp` takes the timestamps stored with them. -/
theorem search_returns_best (cfg : ServerConfig V) (h : Exact M σ) (ha : Plain app) (hu : Plain user)
    (hsessions : ∀ id x, M.get id = some x → id.session ≠ []) (hids : M.DistinctEvents app user)
    (inst : Instance V) (hk : 0 ≤ inst.topK) (text : Str)
    (hcap : (M.matching app user (inst.tokenize text)).length ≤ maxSearchCandidates)
    (hformat : ∀ e ∈ M.matching app user (inst.tokenize text), e.2.ts ≠ 0 → inst.Formats e.2.ts) :
    ∃ (L : List (Id × Entry V)) (entries : List (MemoryEntry V)),
      perform cfg (inst, .search app user text) σ = (.ok (.memories entries), σ) ∧
      List.Forall₂ (fun e m => inst.memoryEntryFromBins (e.1.row e.2) = .ok m) L entries ∧
      L.length = min inst.topK.toNat (M.matching app user (inst.tokenize text)).length ∧
      L.Nodup ∧ L ⊆ M.matching app user (inst.tokenize text) ∧
      L.Pairwise (fun x y => score (inst.tokenize text) y ≤ score (inst.tokenize text) x) ∧
      ∀ x ∈ L, ∀ y ∈ M.matching app user (inst.tokenize text), y ∉ L →
        score (inst.tokenize text) y ≤ score (inst.tokenize text) x := by
  obtain ⟨L, hL, hhits⟩ := h.hits_perm ha hu hsessions hids hcap
  have hrun := alone_searchMemory cfg inst app user text σ
  have hbest : (best (goesFirst (inst.tokenize text)) inst.topK.toNat L).map (hit (inst.tokenize text)) =
      best rankLe inst.topK.toNat (L.map (hit (inst.tokenize text))) := map_best fun _ _ _ _ => rfl
  rw [hhits, sliceTo_ranked hk, ← hbest, List.mapM_map] at hrun
  have htrans : ∀ x y z : Id × Entry V, goesFirst (inst.tokenize text) x y → goesFirst (inst.tokenize text) y z →
      goesFirst (inst.tokenize text) x z := fun _ _ _ => rankLe_trans _ _ _
  have htotal : ∀ x y : Id × Entry V, goesFirst (inst.tokenize text) x y || goesFirst (inst.tokenize text) y x :=
    fun _ _ => rankLe_total _ _
  have hmade : ∀ e ∈ best (goesFirst (inst.tokenize text)) inst.topK.toNat L,
      ∃ m, inst.memoryEntryFromBins (e.1.row e.2) = .ok m := fun e he =>
    inst.isOk_entry fun ts hts => Option.some.inj hts ▸ hformat e (hL.subset (mem_of_mem_best he))
  obtain ⟨entries, hentries⟩ := exists_mapM hmade
  refine ⟨best (goesFirst (inst.tokenize text)) inst.topK.toNat L, entries,
    alone_bind_ok (hrun.trans ?_), forall₂_of_mapM hentries, ?_,
    nodup_best (hL.nodup_iff.mpr Reference.nodup_matching), fun e he => hL.subset (mem_of_mem_best he), ?_, ?_⟩
  · change (Except.mapError Err.range (List.mapM (fun e : Id × Entry V => inst.memoryEntryFromBins (e.1.row e.2)) _), σ) = _
    rw [hentries]
    rfl
  · rw [length_best, hL.length_eq]
  · exact (pairwise_best htrans htotal).imp of_decide_eq_true
  · exact fun x hx y hy hleft =>
      of_decide_eq_true (le_of_mem_best htrans htotal hx (hL.symm.subset hy) hleft)

end Search

namespace Small

/-- The first two calls of `added`: three events of one session are remembered. -/
def started : List (Instance ℕ × Call ℕ) := added.take 2

theorem exact_started : Exact (remembered started) (stored cfg started) := by
  have hstarted : started <+: added := List.take_prefix 2 added
  refine (run_exact (fun _ => rfl) Exact.empty (fun l hl => wellNamed_added l (hstarted.subset hl)) ?_).2
  exact fun cs hcs => capped_added cs (hcs.trans hstarted)

theorem session_started {id : Id} {x : Entry ℕ} (h : (remembered started).get id = some x) :
    id.session = ['s'] := by
  have hall : ∀ e ∈ (remembered started).entries, e.1.session = ['s'] := by decide +kernel
  exact hall ⟨id, x⟩ ((FMap.mem_entries_iff _ id).mpr h)

theorem distinctEvents_started : (remembered started).DistinctEvents ['a'] ['u'] := fun s s' e h h' => by
  obtain ⟨x, hx⟩ := Option.isSome_iff_exists.mp h
  obtain ⟨y, hy⟩ := Option.isSome_iff_exists.mp h'
  exact (session_started hx).trans (session_started hy).symm

/-- An instance that returns two entries at most. -/
def topTwo : Instance ℕ := { inst with topK := 2 }

end Small

open Memory.Small in
theorem search_returns_best_small :
    ((remembered started).matching ['a'] ['u'] (topTwo.tokenize "red fox".toList)).length = 3 ∧
    ∃ (L : List (Id × Entry ℕ)) (entries : List (MemoryEntry ℕ)),
      perform cfg (topTwo, .search ['a'] ['u'] "red fox".toList) (stored cfg started) =
        (.ok (.memories entries), stored cfg started) ∧
      List.Forall₂ (fun e m => topTwo.memoryEntryFromBins (e.1.row e.2) = .ok m) L entries ∧ L.length = 2 ∧
      ∀ x ∈ L, ∀ y ∈ (remembered started).matching ['a'] ['u'] (topTwo.tokenize "red fox".toList), y ∉ L →
        score (topTwo.tokenize "red fox".toList) y ≤ score (topTwo.tokenize "red fox".toList) x := by
  have hlen : ((remembered started).matching ['a'] ['u'] (topTwo.tokenize "red fox".toList)).length = 3 := by
    decide +kernel
  refine ⟨hlen, ?_⟩
  have hearly : ∀ e ∈ (remembered started).matching ['a'] ['u'] (topTwo.tokenize "red fox".toList), e.2.ts < 253402300800 := by
    decide +kernel
  obtain ⟨L, entries, hrun, hmade, hL, -, -, -, hbest⟩ := search_returns_best cfg exact_started (by decide) (by decide)
    (fun id x hx => by rw [session_started hx]; decide) distinctEvents_started topTwo (by decide)
    "red fox".toList (by rw [hlen]; decide) fun e he _ => isoformat_early (hearly e he)
  rw [hlen] at hL
  exact ⟨L, entries, hrun, hmade, hL, hbest⟩

end AdkAerospike.Memory
