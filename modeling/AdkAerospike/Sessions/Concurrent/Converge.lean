import Mathlib.Order.Interval.Finset.Nat
import AdkAerospike.Sessions.Alone.Paths
import AdkAerospike.Sessions.Concurrent.Holes
import AdkAerospike.Sessions.Concurrent.Indices

/-! `_place_event` among other writers. A put is refused because the segment is full,
and past the index that was stored when the call began a segment can only be full of
what others have stored since. The segments tried grow, so all but two of the refusals
are for different such segments, and each of them is paid for by an event of another
call. -/

namespace AdkAerospike.Sessions

open Program Data Codec Keys

variable {V P : Type}

/-! ### Counting -/

/-- A world, the puts of the watched call that were refused, and the events that other
calls have added to the segments of the session. -/
structure Tally (V P : Type) where
  world : World V P
  refused : ℕ
  stored : ℕ

/-- The put of an event that is answered with `RecordTooBig`. -/
def refusal : (q : Req V P) → Ans q → Bool
  | .operate _ [.mapPut _ _] _, .error .recordTooBig => true
  | _, _ => false

/-- A segment of the session holds an event under a key that it did not hold before. -/
def Gains (a : Addr) (w w' : World V P) : Prop := ∃ g, ∃ k ∈ (segment a w' g).keys, k ∉ (segment a w g).keys

namespace Tally

/-- Answer a request of the watched call. -/
def own (cfg : ServerConfig V P) (inst : ℕ) (x : Weather) (q : Req V P) (u : Tally V P) : Ans q × Tally V P :=
  ((exec cfg inst x q u.world).1, ⟨(exec cfg inst x q u.world).2,
    if refusal q (exec cfg inst x q u.world).1 then u.refused + 1 else u.refused, u.stored⟩)

open Classical in
/-- Answer a request of another call. -/
noncomputable def beside (cfg : ServerConfig V P) (a : Addr) (inst : ℕ) (x : Weather) (q : Req V P) (u : Tally V P) :
    Ans q × Tally V P :=
  ((exec cfg inst x q u.world).1, ⟨(exec cfg inst x q u.world).2, u.refused,
    if Gains a u.world (exec cfg inst x q u.world).2 then u.stored + 1 else u.stored⟩)

end Tally

/-- A call of the service, or a call of `_place_event` with `after_overflow` false. -/
inductive Writing (V P : Type) where
  | other (l : Issued V)
  | place (inst g : ℕ) (k : Str) (v : InlineEvent V P)

/-- Calls of the service beside calls of `_place_event`. -/
noncomputable def writing (env : Env V P) (cfg : ServerConfig V P) (a : Addr) :
    System (Req V P) Ans Err (Reply V) (Tally V P) (Writing V P) Weather where
  body
    | .other l => l.call.body env
    | .place _ g k v => (placeEvent a g k v false).bind fun _ => .ret .done
  serve
    | .other l => Tally.beside cfg a l.inst
    | .place inst _ _ _ => Tally.own cfg inst

abbrev Writers (V P : Type) := Pool (Req V P) Ans Err (Reply V) (Tally V P) (Writing V P)

/-- Calls create, append to or read the session, and meet admissible weather. -/
def Beside (a : Addr) (s : Writers V P) : Action (Writing V P) Weather → Prop
  | .spawn (.other l) => l.call.on a
  | .spawn (.place ..) => False
  | .step i x => ∀ q, System.next s i = some q → Admissible q x

/-- So they do while call `i₀` runs, and no request of that call meets a fault. -/
def Meanwhile (a : Addr) (i₀ : ℕ) (s : Writers V P) (x : Action (Writing V P) Weather) : Prop :=
  Beside a s x ∧ ∀ y, x = .step i₀ y → y = .calm

section Charge
variable {env : Env V P} {cfg : ServerConfig V P} {a : Addr} {c₀ base g k inst : ℕ} {u u' : Tally V P}

/-- How many of these segments hold an event. -/
def filled (a : Addr) (S : Finset ℕ) (w : World V P) : ℕ := {g ∈ S | (segment a w g).entries ≠ []}.card

/-- What other calls do meanwhile: each segment that they make hold an event is counted. -/
structure Gathers (cfg : ServerConfig V P) (a : Addr) (u u' : Tally V P) : Prop where
  refused : u'.refused = u.refused
  stored : u.stored ≤ u'.stored
  fits : RowFits cfg a u.world → RowFits cfg a u'.world
  keeps : Keeps cfg a ∅ u.world u'.world
  kept : Good cfg a u.world → ∀ g, (segment a u.world g).entries ≠ [] → (segment a u'.world g).entries ≠ []
  filled : Good cfg a u.world → ∀ S, filled a S u'.world + u.stored ≤ filled a S u.world + u'.stored

theorem Gathers.refl (u : Tally V P) : Gathers cfg a u u :=
  ⟨rfl, le_rfl, id, Keeps.refl _, fun _ _ => id, fun _ _ => le_rfl⟩

theorem Gathers.trans {u₁ u₂ u₃ : Tally V P} (h₁ : Gathers cfg a u₁ u₂) (h₂ : Gathers cfg a u₂ u₃) :
    Gathers cfg a u₁ u₃ where
  refused := h₂.refused.trans h₁.refused
  stored := h₁.stored.trans h₂.stored
  fits := h₂.fits ∘ h₁.fits
  keeps := h₁.keeps.trans h₂.keeps
  kept hu g hg := h₂.kept (h₁.keeps hu).1 g (h₁.kept hu g hg)
  filled hu S := by
    have hfirst := h₁.filled hu S
    have hsecond := h₂.filled (h₁.keeps hu).1 S
    omega

/-- A request that changes no segment. -/
theorem Gathers.of_segment {w' : World V P} (hkeep : Keeps cfg a ∅ u.world w')
    (hfit : RowFits cfg a u.world → RowFits cfg a w') (hseg : segment a w' = segment a u.world) :
    Gathers cfg a u ⟨w', u.refused, u.stored⟩ where
  refused := rfl
  stored := le_rfl
  fits := hfit
  keeps := hkeep
  kept _ g hg := hseg ▸ hg
  filled _ S := by simp only [Sessions.filled, hseg]; exact le_rfl

theorem filled_le {w w' : World V P} (h : ∀ g, (segment a w g).entries ≠ [] → (segment a w' g).entries ≠ [])
    {S S' : Finset ℕ} (hS : S ⊆ S') : filled a S w ≤ filled a S' w' := by
  apply Finset.card_le_card
  intro g hg
  simp only [Finset.mem_filter] at hg ⊢
  exact ⟨hS hg.1, h g hg.2⟩

/-- An event that goes to one segment makes at most one more hold an event. -/
theorem filled_put {w w' : World V P} {v : InlineEvent V P} {key : Str} (h : logOf a w' = (logOf a w).put g key v)
    (S : Finset ℕ) : filled a S w' ≤ filled a S w + 1 := by
  have hsub : {j ∈ S | (segment a w' j).entries ≠ []} ⊆ insert g {j ∈ S | (segment a w j).entries ≠ []} := by
    intro j hj
    simp only [Finset.mem_filter, Finset.mem_insert] at hj ⊢
    by_cases hjg : j = g
    · exact .inl hjg
    · have hseg : segment a w' j = segment a w j := by
        change (logOf a w').seg j = _
        rw [h, Log.put_seg_of_ne _ hjg]
        rfl
      exact .inr ⟨hj.1, hseg ▸ hj.2⟩
  exact (Finset.card_le_card hsub).trans (Finset.card_insert_le ..)

/-- One request makes at most one more segment hold an event. -/
theorem Advances.filled_le {w w' : World V P} {q : Req V P} (h : Advances cfg a q w w') (S : Finset ℕ) :
    filled a S w' ≤ filled a S w + 1 := by
  have hsame : segment a w' = segment a w → filled a S w' ≤ filled a S w + 1 := by
    intro hseg
    simp only [filled, hseg]
    exact Nat.le_succ _
  rcases h with hlog | hlog | ⟨g, k, v, -, hput⟩
  · exact hsame (congrArg Log.seg hlog)
  · exact hsame (congrArg Log.seg hlog)
  · exact filled_put hput.2 S

/-- A segment that has gained no key held an event before. -/
theorem ne_nil_of_not_gains {w w' : World V P} (h : ¬ Gains a w w') (hg : (segment a w' g).entries ≠ []) :
    (segment a w g).entries ≠ [] := by
  intro hnil
  obtain ⟨⟨k, v⟩, hkv⟩ := List.exists_mem_of_ne_nil _ hg
  refine h ⟨g, k, List.mem_map_of_mem hkv, ?_⟩
  simp [OMap.keys, hnil]

/-! ### The other calls -/

/-- Other calls rely on the session being good, and pay for what they store. -/
noncomputable def besider (env : Env V P) (cfg : ServerConfig V P) (a : Addr) (l : Writing V P) :
    Setting (Req V P) Ans (Tally V P) Weather where
  serve := (writing env cfg a).serve l
  adm := Admissible
  rely u u' := Keeps cfg a ∅ u.world u'.world
  guar := Gathers cfg a
  rely_refl _ := Keeps.refl _
  rely_trans := Keeps.trans

theorem gathers_beside {q : Req V P} {x : Weather} (hq : SessionRequest env a q) (hx : Admissible q x)
    (hkeep : Keeps cfg a ∅ u.world (exec cfg inst x q u.world).2) :
    Gathers cfg a u (Tally.beside cfg a inst x q u).2 := by
  have hadv : Good cfg a u.world → Advances cfg a q u.world (exec cfg inst x q u.world).2 := fun hu =>
    (hu.toSound.step inst hq hx).2
  unfold Tally.beside
  refine ⟨rfl, ?_, fun hu => hu.exec inst x q, hkeep, fun hu g hg => ?_, fun hu S => ?_⟩
  · dsimp only
    split_ifs
    · exact Nat.le_succ _
    · exact le_rfl
  · change ((logOf a (exec cfg inst x q u.world).2).seg g).entries ≠ []
    rcases hadv hu with hlog | hlog | ⟨g', k, v, -, hput⟩
    · rw [hlog]
      exact hg
    · rw [hlog]
      exact hg
    · rw [hput.2]
      exact put_seg_ne_nil hg
  · dsimp only
    split_ifs with hgain
    · have hle := (hadv hu).filled_le S
      omega
    · have hle : filled a S (exec cfg inst x q u.world).2 ≤ filled a S u.world :=
        filled_le (fun g => ne_nil_of_not_gains hgain) (Finset.Subset.refl S)
      omega

theorem safe_other {l : Issued V} (hl : l.call.on a) (hu : Good cfg a u.world) :
    Safe (besider env cfg a (.other l)) (fun _ _ => True) (l.call.body env) u := by
  have hsafe : Safe (anyone cfg a l.inst) (fun _ _ => True) (l.call.body env) u.world := hu.safe_call env hl
  apply Safe.lift (besider env cfg a (.other l)) Tally.world hsafe (uses_call hl)
  · exact fun _ _ _ => ⟨rfl, rfl⟩
  · exact fun _ _ hx => hx
  · exact fun _ _ h => h
  · exact fun x q u hq hx hkeep => gathers_beside hq hx hkeep

end Charge

/-! ### The watched call -/

section Place
variable {env : Env V P} {cfg : ServerConfig V P} {a : Addr} {c₀ base g n inst : ℕ} {u u' : Tally V P} {k : Str}
  {v : InlineEvent V P}

/-- All refusals but two are paid for. -/
def Paid (base : ℕ) (u : Tally V P) : Prop := base + u.refused ≤ u.stored + 2

/-- The call has begun when the stored index was `c₀` and `base` requests were counted;
what segments past `c₀` hold has been stored since, and `g` has been reached. -/
structure Since (cfg : ServerConfig V P) (a : Addr) (c₀ base g : ℕ) (u : Tally V P) : Prop where
  below : Below cfg a g u.world
  fits : RowFits cfg a u.world
  start : c₀ ≤ (logOf a u.world).cur
  charged : ∀ S : Finset ℕ, (∀ j ∈ S, c₀ < j) → base + filled a S u.world ≤ u.stored

/-- The call has been refused `n` times and tries segment `g` next. -/
structure Trial (cfg : ServerConfig V P) (a : Addr) (c₀ base n g : ℕ) (u : Tally V P) : Prop
    extends Since cfg a c₀ base g u where
  count : u.refused = n
  tried : n = 0 ∨ c₀ ≤ g ∧ n ≤ 1 ∨ c₀ < g ∧ n ≤ 2 + filled a (Finset.Ioo c₀ g) u.world

/-- The call has been refused `n` times, last at segment `g`. -/
structure Refused (cfg : ServerConfig V P) (a : Addr) (c₀ base n g : ℕ) (u : Tally V P) : Prop
    extends Since cfg a c₀ base g u where
  count : u.refused = n
  full : (segment a u.world g).entries ≠ []
  tried : n ≤ 1 ∨ c₀ ≤ g ∧ n ≤ 2 ∨ c₀ < g ∧ n ≤ 2 + filled a (Finset.Ioc c₀ g) u.world

theorem Gathers.paid (h : Gathers cfg a u u') (hu : Paid base u) : Paid base u' := by
  have hrefused := h.refused
  have hstored := h.stored
  unfold Paid at *
  omega

theorem Since.keep (h : Since cfg a c₀ base g u) (hu : Gathers cfg a u u') : Since cfg a c₀ base g u' where
  below := h.below.keep hu.keeps
  fits := hu.fits h.fits
  start := h.start.trans (hu.keeps h.below.good).2.1
  charged S hS := by
    have hpaid := h.charged S hS
    have hmore := hu.filled h.below.good S
    omega

theorem Trial.keep (h : Trial cfg a c₀ base n g u) (hu : Gathers cfg a u u') : Trial cfg a c₀ base n g u' where
  toSince := h.toSince.keep hu
  count := hu.refused.trans h.count
  tried := by
    have hle : filled a (Finset.Ioo c₀ g) u.world ≤ filled a (Finset.Ioo c₀ g) u'.world :=
      filled_le (hu.kept h.below.good) (Finset.Subset.refl _)
    have htried := h.tried
    omega

theorem Refused.keep (h : Refused cfg a c₀ base n g u) (hu : Gathers cfg a u u') : Refused cfg a c₀ base n g u' where
  toSince := h.toSince.keep hu
  count := hu.refused.trans h.count
  full := hu.kept h.below.good g h.full
  tried := by
    have hle : filled a (Finset.Ioc c₀ g) u.world ≤ filled a (Finset.Ioc c₀ g) u'.world :=
      filled_le (hu.kept h.below.good) (Finset.Subset.refl _)
    have htried := h.tried
    omega

/-- At the start nothing is stored past the stored index. -/
theorem trial_start (hgood : Good cfg a u.world) (hfit : RowFits cfg a u.world)
    (hg : g ≤ (logOf a u.world).cur) (hnone : u.refused = 0) :
    Trial cfg a (logOf a u.world).cur u.stored 0 g u := by
  refine ⟨⟨⟨hgood, hg⟩, hfit, le_rfl, fun S hS => ?_⟩, hnone, .inl rfl⟩
  have hzero : filled a S u.world = 0 := by
    rw [filled, Finset.card_eq_zero, Finset.filter_eq_empty_iff]
    intro j hj hne
    have hempty : segment a u.world j = .empty := hgood.topped j (hS j hj)
    exact hne (by rw [hempty]; rfl)
  omega

/-- A refusal at a segment that is full. -/
theorem Trial.refused {w' : World V P} (h : Trial cfg a c₀ base n g u) (hsince : Since cfg a c₀ base g ⟨w', n + 1, u.stored⟩)
    (hseg : segment a w' = segment a u.world) (hfull : (segment a u.world g).entries ≠ []) :
    Refused cfg a c₀ base (n + 1) g ⟨w', n + 1, u.stored⟩ := by
  refine ⟨hsince, rfl, hseg ▸ hfull, ?_⟩
  have hmore : c₀ < g → filled a (Finset.Ioo c₀ g) u.world + 1 ≤ filled a (Finset.Ioc c₀ g) w' := by
    intro hlt
    have hnot : g ∉ {j ∈ Finset.Ioo c₀ g | (segment a u.world j).entries ≠ []} := by simp
    rw [filled, filled, ← Finset.card_insert_of_notMem hnot]
    apply Finset.card_le_card
    intro j hj
    simp only [Finset.mem_insert, Finset.mem_filter, Finset.mem_Ioo, Finset.mem_Ioc, hseg] at hj ⊢
    rcases hj with rfl | ⟨hj, hne⟩
    · exact ⟨⟨hlt, le_rfl⟩, hfull⟩
    · exact ⟨⟨hj.1, hj.2.le⟩, hne⟩
  have htried := h.tried
  simp only
  omega

/-- All refusals but two are for different segments past `c₀`. -/
theorem Refused.paid (h : Refused cfg a c₀ base n g u) : Paid base u := by
  have hnone := h.charged ∅ (by simp)
  have hall := h.charged (Finset.Ioc c₀ g) fun j hj => (Finset.mem_Ioc.mp hj).1
  have hcount := h.count
  have htried := h.tried
  unfold Paid
  omega

/-- The next segment that is tried comes after the last one. -/
theorem Refused.next {m : ℕ} (h : Refused cfg a c₀ base n g u) (hlt : g < m) (hstart : c₀ ≤ m)
    (hm : m ≤ (logOf a u.world).cur) : Trial cfg a c₀ base n m u := by
  refine ⟨⟨⟨h.below.good, hm⟩, h.fits, h.start, h.charged⟩, h.count, ?_⟩
  have hle : filled a (Finset.Ioc c₀ g) u.world ≤ filled a (Finset.Ioo c₀ m) u.world := by
    apply filled_le fun _ => id
    intro j hj
    simp only [Finset.mem_Ioc, Finset.mem_Ioo] at hj ⊢
    omega
  have htried := h.tried
  omega

/-- The watched call keeps the session good and its refusals paid for. -/
def placer (cfg : ServerConfig V P) (a : Addr) (base inst : ℕ) : Setting (Req V P) Ans (Tally V P) Weather where
  serve := Tally.own cfg inst
  adm _ x := x = .calm
  rely := Gathers cfg a
  guar u u' := Keeps cfg a ∅ u.world u'.world ∧ (Paid base u → Paid base u')
  rely_refl := Gathers.refl
  rely_trans := Gathers.trans

/-- A request of the call that changes no segment and is no refusal is like one of another call. -/
theorem gathers_own {q : Req V P} (hkeep : Keeps cfg a ∅ u.world (exec cfg inst .calm q u.world).2)
    (hseg : segment a (exec cfg inst .calm q u.world).2 = segment a u.world)
    (hans : refusal q (exec cfg inst .calm q u.world).1 = false) :
    Gathers cfg a u (Tally.own cfg inst .calm q u).2 ∧ (placer cfg a base inst).guar u (Tally.own cfg inst .calm q u).2 := by
  have hown : (Tally.own cfg inst .calm q u).2 = ⟨(exec cfg inst .calm q u.world).2, u.refused, u.stored⟩ := by
    simp [Tally.own, hans]
  rw [hown]
  exact ⟨.of_segment hkeep (fun hu => hu.exec inst .calm q) hseg, hkeep, id⟩

/-- What is known when the put has been answered. -/
def PutTold (cfg : ServerConfig V P) (a : Addr) (c₀ base n g : ℕ) {α : Type} : Except Err α → Tally V P → Prop
  | .ok _, u => Below cfg a g u.world
  | .error e, u => e = .recordTooBig ∧ Refused cfg a c₀ base (n + 1) g u

theorem putTold_stable {α : Type} : Safe.Stable (placer cfg a base inst)
    (PutTold cfg a c₀ base n g : Except Err α → Tally V P → Prop) := by
  intro r u u' h hu
  cases r with
  | ok y => exact Below.keep h hu.keeps
  | error e => exact ⟨h.1, h.2.keep hu⟩

/-- A put that finds the segment full is refused, and the segment holds an event. -/
theorem Trial.exec_put (h : Trial cfg a c₀ base n g u) (halone : cfg.SegFits (OMap.empty.put k v)) (inst : ℕ) :
    let done := Tally.own cfg inst .calm (.operate (a.segmentPk g) [.mapPut k v] none) u
    (placer cfg a base inst).guar u done.2 ∧ PutTold cfg a c₀ base n g (α := OpResult V P) done.1 done.2 := by
  intro done
  obtain ⟨hres, hsound⟩ := h.below.good.toSound.store_put (g := g) (k := k) (v := v)
  set put := cfg.operate (a.segmentPk g) [.mapPut k v] none u.world.store with hput
  have hexec : exec cfg inst .calm (.operate (a.segmentPk g) [.mapPut k v] none) u.world =
      (put.1, u.world.withStore put.2) := rfl
  have hfit : RowFits cfg a u.world → RowFits cfg a (u.world.withStore put.2) := fun hu =>
    hu.exec inst .calm (.operate (a.segmentPk g) [.mapPut k v] none)
  rcases hres with ⟨hans, hdone⟩ | ⟨hans, hbig, hlog⟩
  · have hown : done = (.ok {}, ⟨u.world.withStore put.2, u.refused, u.stored⟩) := by
      simp only [done, Tally.own, hexec, hans]
      rfl
    have hkeep : Keeps cfg a ∅ u.world (u.world.withStore put.2) :=
      (h.below.good.keeps_put hsound rfl h.below.le hdone.2).mono (Set.empty_subset _)
    rw [hown]
    exact ⟨⟨hkeep, id⟩, h.below.keep hkeep⟩
  · have hown : done = (.error .recordTooBig, ⟨u.world.withStore put.2, n + 1, u.stored⟩) := by
      simp only [done, Tally.own, hexec, hans, ← h.count]
      rfl
    have hkeep : Keeps cfg a ∅ u.world (u.world.withStore put.2) := h.below.good.keeps_of_log hsound rfl hlog ∅
    have hseg : segment a (u.world.withStore put.2) = segment a u.world := congrArg Log.seg hlog
    have hfull : (segment a u.world g).entries ≠ [] := by
      have hsize := Log.size_ne_zero_of_full halone hbig
      simpa [OMap.size] using hsize
    have hsince := h.toSince.keep (.of_segment hkeep hfit hseg)
    have hrefused : Refused cfg a c₀ base (n + 1) g ⟨u.world.withStore put.2, n + 1, u.stored⟩ :=
      h.refused ⟨hsince.below, hsince.fits, hsince.start, hsince.charged⟩ hseg hfull
    rw [hown]
    exact ⟨⟨hkeep, fun _ => hrefused.paid⟩, rfl, hrefused⟩

theorem Trial.safe_put (h : Trial cfg a c₀ base n g u) (halone : cfg.SegFits (OMap.empty.put k v)) (m : ℕ) :
    Safe (placer cfg a base inst) (PutTold cfg a c₀ base n g)
      (writeRetryingOverload (operate (a.segmentPk g) [.mapPut k v]) true m) u := by
  refine safe_writeRetryingOverload putTold_stable true (I := Trial cfg a c₀ base n g) ?_ (fun e u he hu => ?_) m h
  · intro u hu u' hu' x hx
    obtain rfl : x = .calm := hx
    obtain ⟨hguar, htold⟩ := (hu.keep hu').exec_put halone inst
    exact ⟨hguar, safe_ofExcept putTold_stable htold⟩
  · rw [hu.1] at he
    cases he

/-- One attempt, with a refusal turned into a flag. -/
def AttemptTold (cfg : ServerConfig V P) (a : Addr) (c₀ base n g : ℕ) : Except Err Bool → Tally V P → Prop
  | .ok true, u => Below cfg a g u.world
  | .ok false, u => Refused cfg a c₀ base (n + 1) g u
  | .error _, _ => False

theorem attemptTold_stable : Safe.Stable (placer cfg a base inst) (AttemptTold cfg a c₀ base n g) := by
  intro r u u' h hu
  rcases r with e | _ | _
  · exact h
  · exact Refused.keep h hu
  · exact Below.keep h hu.keeps

theorem Trial.safe_attempt (h : Trial cfg a c₀ base n g u) (halone : cfg.SegFits (OMap.empty.put k v)) :
    Safe (placer cfg a base inst) (AttemptTold cfg a c₀ base n g)
      (catching .recordTooBig ((writeRetryingOverload (operate (a.segmentPk g) [.mapPut k v]) true
        overloadMaxRetries).bind fun _ => .ret true) (.ret false)) u := by
  exact safe_catching_ret attemptTold_stable putTold_stable (h.safe_put halone _) (fun _ u hu => hu)
    (fun u hu => Safe.ret attemptTold_stable hu.2) fun e u hne hu => hne hu.1

/-- The size of a segment that holds an event is not zero. -/
theorem Refused.safe_segmentSize (h : Refused cfg a c₀ base n g u) :
    Safe (placer cfg a base inst) (fun r u => Refused cfg a c₀ base n g u ∧ ∃ m, r = .ok m ∧ m ≠ 0)
      (segmentSize (a.segmentPk g) : Service V P ℕ) u := by
  have hstable : Safe.Stable (placer cfg a base inst)
      (fun (r : Except Err ℕ) u => Refused cfg a c₀ base n g u ∧ ∃ m, r = .ok m ∧ m ≠ 0) :=
    fun r u u' hr hu => ⟨hr.1.keep hu, hr.2⟩
  apply safe_catching hstable (fun r u => Refused cfg a c₀ base n g u ∧ ∃ m, r = .ok m ∧ m ≠ 0)
  · intro u' hu' x hx
    obtain rfl : x = .calm := hx
    have h' := h.keep hu'
    have hsize := (h'.below.good.toSound.operate_size g).resolve_left fun hnone => h'.full (by rw [hnone.2]; rfl)
    have hown : Tally.own cfg inst .calm (.operate (a.segmentPk g) [.mapSize] none) u' =
        (.ok { size := some (segment a u'.world g).size }, u') := by
      have hexec : exec cfg inst .calm (.operate (a.segmentPk g) [.mapSize] none) u'.world =
          ((cfg.operate (a.segmentPk g) [.mapSize] none u'.world.store).1,
            u'.world.withStore (cfg.operate (a.segmentPk g) [.mapSize] none u'.world.store).2) := rfl
      simp only [Tally.own, hexec, hsize]
      rfl
    change (placer cfg a base inst).guar u' (Tally.own cfg inst .calm (.operate (a.segmentPk g) [.mapSize] none) u').2 ∧
      Safe _ _ ((ofExcept (Tally.own cfg inst .calm (.operate (a.segmentPk g) [.mapSize] none) u').1).bind _)
        (Tally.own cfg inst .calm (.operate (a.segmentPk g) [.mapSize] none) u').2
    rw [hown]
    refine ⟨⟨Keeps.refl _, id⟩, Safe.ret hstable ⟨h', _, rfl, fun hzero => ?_⟩⟩
    exact h'.full (List.length_eq_zero_iff.mp hzero)
  · exact fun _ _ hu => hu
  · rintro u ⟨-, m, hm, -⟩
    cases hm
  · exact fun _ _ _ hu => hu

/-! ### The next segment -/

/-- The index that the call goes on with comes after the refused one, and is not
before the one that was stored at the start. -/
def NextTold (cfg : ServerConfig V P) (a : Addr) (c₀ base n : ℕ) : Except Err ℕ → Tally V P → Prop
  | .ok m, u => Trial cfg a c₀ base n m u
  | .error _, _ => False

theorem nextTold_stable : Safe.Stable (placer cfg a base inst) (NextTold cfg a c₀ base n) := by
  intro r u u' h hu
  cases r with
  | ok m => exact Trial.keep h hu
  | error e => exact h

/-- What is known when the increment has been answered. -/
def BumpTold (cfg : ServerConfig V P) (a : Addr) (c₀ base n g : ℕ) : Except Err (OpResult V P) → Tally V P → Prop
  | .ok y, u => Trial cfg a c₀ base n (y.cur.getD (g + 1)) u
  | .error e, u => e = .filteredOut ∧ Refused cfg a c₀ base n g u ∧ g < (logOf a u.world).cur

theorem bumpTold_stable : Safe.Stable (placer cfg a base inst) (BumpTold cfg a c₀ base n g) := by
  intro r u u' h hu
  cases r with
  | ok y => exact Trial.keep h hu
  | error e => exact ⟨h.1, h.2.1.keep hu, h.2.2.trans_le (hu.keeps h.2.1.below.good).2.1⟩

/-- The row can always take the next index. -/
theorem bump_fits (hsized : cfg.IndexSized) {w : World V P} (hsound : Sound cfg a w) (hfit : RowFits cfg a w) (m : ℕ) :
    (cfg.operate a.sessionPk [.incrementCur, .readCur] (some m) w.store).1 ≠ .error .recordTooBig := by
  obtain ⟨r, hr, hc⟩ := hsound.live
  have hget : w.store.get a.sessionPk = some r := hr
  have hfits : cfg.Fits { r with cur := some (m + 1) } := grows_of_fits hsized hc (hfit r hr) (m + 1)
  rw [ServerConfig.operate_fst, hget, onRecord_bump r hc, if_pos hfits]
  split_ifs <;> nofun

theorem Refused.exec_bump (h : Refused cfg a c₀ base n g u) (hsized : cfg.IndexSized) (inst : ℕ) :
    let done := Tally.own cfg inst .calm (.operate a.sessionPk [.incrementCur, .readCur] (some g)) u
    (placer cfg a base inst).guar u done.2 ∧ BumpTold cfg a c₀ base n g done.1 done.2 := by
  intro done
  obtain ⟨hres, hsound⟩ := h.below.good.toSound.store_bump (n := g)
  have hbig := bump_fits hsized h.below.good.toSound h.fits g
  set bump := cfg.operate a.sessionPk [.incrementCur, .readCur] (some g) u.world.store with hbump
  have hexec : exec cfg inst .calm (.operate a.sessionPk [.incrementCur, .readCur] (some g)) u.world =
      (bump.1, u.world.withStore bump.2) := rfl
  have hfit : RowFits cfg a u.world → RowFits cfg a (u.world.withStore bump.2) := fun hu =>
    hu.exec inst .calm (.operate a.sessionPk [.incrementCur, .readCur] (some g))
  have hown : done = (bump.1, ⟨u.world.withStore bump.2, u.refused, u.stored⟩) := by
    simp only [done, Tally.own, hexec]
    rfl
  rw [hown]
  rcases hres with ⟨hans, hcur, hlog⟩ | ⟨hans, hcur, hlog⟩ | ⟨hans, -⟩
  · have hkeep : Keeps cfg a ∅ u.world (u.world.withStore bump.2) :=
      h.below.good.keeps_bump hsound rfl (hcur ▸ hlog) ∅
    have hseg : segment a (u.world.withStore bump.2) = segment a u.world := congrArg Log.seg hlog
    have hstart := h.start
    refine ⟨⟨hkeep, id⟩, ?_⟩
    rw [hans]
    apply (h.keep (.of_segment hkeep hfit hseg)).next
    · exact Nat.lt_succ_self g
    · change c₀ ≤ g + 1
      omega
    · rw [hlog]
      exact le_rfl
  · have hkeep : Keeps cfg a ∅ u.world (u.world.withStore bump.2) := h.below.good.keeps_of_log hsound rfl hlog ∅
    have hseg : segment a (u.world.withStore bump.2) = segment a u.world := congrArg Log.seg hlog
    have hlt : g < (logOf a u.world).cur := lt_of_le_of_ne h.below.le (Ne.symm hcur)
    refine ⟨⟨hkeep, id⟩, ?_⟩
    rw [hans]
    exact ⟨rfl, h.keep (.of_segment hkeep hfit hseg), hlog ▸ hlt⟩
  · exact absurd hans hbig

theorem Refused.safe_bump (h : Refused cfg a c₀ base n g u) (hsized : cfg.IndexSized) (m : ℕ) :
    Safe (placer cfg a base inst) (BumpTold cfg a c₀ base n g)
      (writeRetryingOverload (operate a.sessionPk [.incrementCur, .readCur] (some g)) true m) u := by
  refine safe_writeRetryingOverload bumpTold_stable true (I := Refused cfg a c₀ base n g) ?_ (fun e u he hu => hu.2.1) m h
  intro u hu u' hu' x hx
  obtain rfl : x = .calm := hx
  obtain ⟨hguar, htold⟩ := (hu.keep hu').exec_bump hsized inst
  exact ⟨hguar, safe_ofExcept bumpTold_stable htold⟩

/-- The read in place of the increment finds an index past the refused one. -/
theorem Refused.safe_readBack (h : Refused cfg a c₀ base n g u) (hlt : g < (logOf a u.world).cur) :
    Safe (placer cfg a base inst) (NextTold cfg a c₀ base n)
      ((selectCur a.sessionPk : Service V P _).bind fun c => .ret (c.getD (g + 1))) u := by
  intro u' hu' x hx
  obtain rfl : x = .calm := hx
  have h' := h.keep hu'
  obtain ⟨hsame, hans⟩ := h'.below.good.exec_selectCur inst .calm
  have hans' := hans.resolve_right (by rintro ⟨e, he, -⟩; cases he)
  have hown : Tally.own cfg inst .calm (.selectCur a.sessionPk) u' = (.ok (some (logOf a u'.world).cur), u') := by
    simp only [Tally.own, hsame, hans']
    rfl
  change (placer cfg a base inst).guar u' (Tally.own cfg inst .calm (.selectCur a.sessionPk) u').2 ∧
    Safe _ _ ((ofExcept (Tally.own cfg inst .calm (.selectCur a.sessionPk) u').1).bind _)
      (Tally.own cfg inst .calm (.selectCur a.sessionPk) u').2
  rw [hown]
  exact ⟨⟨Keeps.refl _, id⟩, Safe.ret nextTold_stable
    (h'.next (hlt.trans_le (hu'.keeps h.below.good).2.1) h'.start le_rfl)⟩

/-- An index that has been reached may be cached. -/
theorem gathers_cacheSet {m : ℕ} (h : Below cfg a m u.world) (base inst : ℕ) :
    Gathers cfg a u (Tally.own cfg inst .calm (.cacheSet a.pkStr m) u).2 ∧
      (placer cfg a base inst).guar u (Tally.own cfg inst .calm (.cacheSet a.pkStr m) u).2 :=
  gathers_own (keeps_setCache h.le ∅) rfl rfl

theorem Refused.safe_rollOver (h : Refused cfg a c₀ base n g u) (hsized : cfg.IndexSized) :
    Safe (placer cfg a base inst) (NextTold cfg a c₀ base n) (rollOver a g : Service V P ℕ) u := by
  refine Safe.seq (NextTold cfg a c₀ base n) ?_ (fun m u hm => ?_) fun _ _ he => he
  · exact safe_catching_ret nextTold_stable bumpTold_stable (h.safe_bump hsized _) (fun _ _ hm => hm)
      (fun u hu => hu.2.1.safe_readBack hu.2.2) fun e u hne he => hne he.1
  · intro u' hu' x hx
    obtain rfl : x = .calm := hx
    have hm' : Trial cfg a c₀ base n m u' := Trial.keep hm hu'
    obtain ⟨hgather, hguar⟩ := gathers_cacheSet hm'.below base inst
    exact ⟨hguar, Safe.ret nextTold_stable (hm'.keep hgather)⟩

/-! ### The loop -/

/-- The call ends well, or it has run out of attempts, and all but two are paid for. -/
def PlaceTold (base : ℕ) {α : Type} : Except Err α → Tally V P → Prop
  | .ok _, _ => True
  | .error e, u => e = .notConverged ∧ base + maxAttempts ≤ u.stored + 2

theorem placeTold_stable {α : Type} :
    Safe.Stable (placer cfg a base inst) (PlaceTold base : Except Err α → Tally V P → Prop) := by
  intro r u u' h hu
  cases r with
  | ok y => trivial
  | error e => exact ⟨h.1, h.2.trans (Nat.add_le_add_right hu.stored 2)⟩

/-- By induction on the attempts left. -/
theorem Trial.safe_placeLoop (hsized : cfg.IndexSized) (halone : cfg.SegFits (OMap.empty.put k v)) (m : ℕ)
    (h : Trial cfg a c₀ base n g u) (hall : n + m = maxAttempts) :
    Safe (placer cfg a base inst) (PlaceTold base) (placeLoop a k v m g) u := by
  induction m generalizing n g u with
  | zero =>
    apply Safe.raise placeTold_stable
    have hpaid := h.charged (Finset.Ioo c₀ g) fun j hj => (Finset.mem_Ioo.mp hj).1
    have htried := h.tried
    exact ⟨rfl, by omega⟩
  | succ m ih =>
    refine Safe.seq _ (h.safe_attempt halone) (fun placed u hu => ?_) fun _ _ he => he.elim
    cases placed with
    | true =>
      intro u' hu' x hx
      obtain rfl : x = .calm := hx
      obtain ⟨-, hguar⟩ := gathers_cacheSet (Below.keep hu hu'.keeps) base inst
      exact ⟨hguar, Safe.ret placeTold_stable trivial⟩
    | false =>
      refine Safe.seq _ (Refused.safe_segmentSize hu) (fun size u hu => ?_) ?_
      · obtain ⟨hrefused, m, hm, hne⟩ := hu
        cases hm
        rw [if_neg hne]
        refine Safe.seq _ (hrefused.safe_rollOver hsized) (fun cur u hu => ?_) fun _ _ he => he.elim
        exact ih hu (by omega)
      · rintro e u ⟨-, m, hm, -⟩
        cases hm

end Place

/-! ### Every run -/

section Runs
variable {env : Env V P} {cfg : ServerConfig V P} {a : Addr} {w₀ : World V P} {s₁ s : Writers V P} {inst g base : ℕ}
  {k : Str} {v : InlineEvent V P}

/-- The two roles: the watched call, and every other one. -/
noncomputable def role (env : Env V P) (cfg : ServerConfig V P) (a : Addr) (base : ℕ) :
    Bool → Writing V P → Setting (Req V P) Ans (Tally V P) Weather
  | true, l => { placer cfg a base 0 with serve := (writing env cfg a).serve l }
  | false, l => besider env cfg a l

/-- What the watched call has come to when it has ended. -/
def ending (base : ℕ) : Bool → Except Err (Reply V) → Tally V P → Prop
  | true, r, u => PlaceTold base r u
  | false, _, _ => True

theorem safe_place (h : Trial cfg a (logOf a s₁.world.world).cur base 0 g s₁.world) (hsized : cfg.IndexSized)
    (halone : cfg.SegFits (OMap.empty.put k v)) :
    Safe (placer cfg a base inst) (PlaceTold base) ((writing env cfg a).body (.place inst g k v)) s₁.world := by
  refine Safe.seq _ (h.safe_placeLoop hsized halone maxAttempts (Nat.zero_add _)) (fun _ u hu => ?_) fun e u he => he
  exact Safe.ret placeTold_stable trivial

/-- Calls that are started beside the watched one are safe. -/
theorem safe_beside {l : Writing V P} (h : Beside a s (.spawn l)) (hgood : Good cfg a s.world.world) :
    Safe (role env cfg a base false l) (ending base false) ((writing env cfg a).body l) s.world := by
  cases l with
  | other l => exact safe_other h hgood
  | place inst g k v => exact h.elim

theorem role_rely {b : Bool} {l l' : Writing V P} {u u' : Tally V P} (h : (role env cfg a base b l).guar u u') :
    (role env cfg a base false l').rely u u' := by
  cases b with
  | true => exact h.1
  | false => exact h.keeps

/-- Before the call is started. -/
theorem before_place (hw₀ : Created env cfg a w₀)
    (hs₁ : (writing env cfg a).Reach (Beside a) ⟨⟨w₀, 0, 0⟩, []⟩ s₁) (base : ℕ) :
    (Good cfg a s₁.world.world ∧ RowFits cfg a s₁.world.world ∧ s₁.world.refused = 0) ∧
      System.AllSafe (role env cfg a base) (ending base) (fun _ => false) s₁ := by
  apply hs₁.roles (I := fun u : Tally V P => Good cfg a u.world ∧ RowFits cfg a u.world ∧ u.refused = 0)
  · exact fun _ l u u' hg hu => ⟨(hg.keeps hu.1).1, hg.fits hu.2.1, hg.refused.trans hu.2.2⟩
  · exact fun _ _ _ _ _ _ _ hg => role_rely hg
  · exact fun _ _ hok _ hu => safe_beside hok hu.1
  · exact fun s i x l q hok hnext => ⟨hok q hnext, rfl⟩
  · exact ⟨hw₀.good, hw₀.rowFits, rfl⟩
  · intro i p hi
    cases hi

/-- While it runs, and after. -/
theorem after_place (hall : System.AllSafe (role env cfg a base) (ending base) (fun _ => false) s₁)
    (hgood : Good cfg a s₁.world.world) (hpaid : Paid base s₁.world)
    (hplace : Safe (placer cfg a base inst) (PlaceTold base) ((writing env cfg a).body (.place inst g k v)) s₁.world)
    (hs : (writing env cfg a).Reach (Meanwhile a s₁.procs.length)
      ((writing env cfg a).act (.spawn (.place inst g k v)) s₁) s) :
    Paid base s.world ∧ System.AllSafe (role env cfg a base) (ending base)
      (Function.update (fun _ => false) s₁.procs.length true) s := by
  have hother : ∀ i, i ≠ s₁.procs.length → Function.update (fun _ => false) s₁.procs.length true i = false :=
    fun i hi => Function.update_of_ne hi ..
  suffices hinv : (Good cfg a s.world.world ∧ Paid base s.world) ∧ System.AllSafe (role env cfg a base) (ending base)
      (Function.update (fun _ => false) s₁.procs.length true) s from ⟨hinv.1.2, hinv.2⟩
  apply hs.roles (I := fun u : Tally V P => Good cfg a u.world ∧ Paid base u)
  · intro i l u u' hg hu
    cases hb : Function.update (fun _ => false) s₁.procs.length true i with
    | true =>
      rw [hb] at hg
      exact ⟨(hg.1 hu.1).1, hg.2 hu.2⟩
    | false =>
      rw [hb] at hg
      exact ⟨(hg.keeps hu.1).1, hg.paid hu.2⟩
  · intro i j l l' u u' hji hg
    by_cases hj : j = s₁.procs.length
    · subst hj
      rw [hother i (Ne.symm hji)] at hg
      rw [Function.update_self]
      exact hg
    · rw [hother j hj]
      exact role_rely hg
  · intro s l hok hlen hu
    have hne : s.procs.length ≠ s₁.procs.length := by
      simp [System.act] at hlen
      omega
    rw [hother _ hne]
    exact safe_beside hok.1 hu.1
  · intro s i x l q hok hnext
    by_cases hi : i = s₁.procs.length
    · subst hi
      rw [Function.update_self]
      exact ⟨hok.2 x rfl, rfl⟩
    · rw [hother i hi]
      exact ⟨hok.1 q hnext, rfl⟩
  · exact ⟨hgood, hpaid⟩
  · exact hall.spawn hplace

/-- With no other call in between, two puts at most are refused before one is stored. -/
theorem place_alone (hstart : Paid s₁.world.stored s₁.world)
    (hplace : Safe (placer cfg a s₁.world.stored inst) (PlaceTold s₁.world.stored)
      ((writing env cfg a).body (.place inst g k v)) s₁.world) :
    let done := ((writing env cfg a).body (.place inst g k v)).run ((writing env cfg a).serve (.place inst g k v) .calm)
      s₁.world
    done.1.isOk ∧ done.2.refused ≤ 2 := by
  intro done
  have hstored : done.2.stored = s₁.world.stored :=
    (Prog.uses_true _).run_invariant (I := fun u : Tally V P => u.stored = s₁.world.stored) (fun _ _ _ hu => hu) rfl
  have hkeep : ∀ u u', (placer cfg a s₁.world.stored inst).guar u u' → Paid s₁.world.stored u → Paid s₁.world.stored u' :=
    fun _ _ hg => hg.2
  obtain ⟨hpaid, htold⟩ := hplace.run (c := .calm) (fun _ => rfl) hkeep hstart
  change Paid s₁.world.stored done.2 at hpaid
  change PlaceTold s₁.world.stored done.1 done.2 at htold
  unfold Paid at hpaid
  refine ⟨?_, by omega⟩
  cases hr : done.1 with
  | ok r => rfl
  | error e =>
    rw [hr] at htold
    have hmany := htold.2
    simp only [maxAttempts] at hmany
    omega

/-- Of the puts of a call of `_place_event` that are refused, all but two are matched by an
event that another call has stored since it began. So the call ends well within three
attempts if no other call stores one, and if it gives up then 62 were stored. -/
theorem placeEvent_converges (env : Env V P) (cfg : ServerConfig V P) (a : Addr) (w₀ : World V P)
    (hw₀ : Created env cfg a w₀) (hsized : cfg.IndexSized) (s₁ : Writers V P)
    (hs₁ : (writing env cfg a).Reach (Beside a) ⟨⟨w₀, 0, 0⟩, []⟩ s₁) (inst g : ℕ) (k : Str) (v : InlineEvent V P)
    (hg : g ≤ (logOf a s₁.world.world).cur) (halone : cfg.SegFits (OMap.empty.put k v)) :
    (∀ s, (writing env cfg a).Reach (Meanwhile a s₁.procs.length)
        ((writing env cfg a).act (.spawn (.place inst g k v)) s₁) s →
      s₁.world.stored + s.world.refused ≤ s.world.stored + 2 ∧
      ∀ l e, s.procs[s₁.procs.length]? = some ⟨l, .raise e⟩ →
        e = .notConverged ∧ s₁.world.stored + 62 ≤ s.world.stored) ∧
    let done := ((writing env cfg a).body (.place inst g k v)).run ((writing env cfg a).serve (.place inst g k v) .calm)
      s₁.world
    done.1.isOk ∧ done.2.refused ≤ 2 := by
  obtain ⟨⟨hgood, hfit, hnone⟩, hall⟩ := before_place hw₀ hs₁ s₁.world.stored
  have htrial := trial_start hgood hfit hg hnone
  have hplace : Safe (placer cfg a s₁.world.stored inst) (PlaceTold s₁.world.stored)
      ((writing env cfg a).body (.place inst g k v)) s₁.world := safe_place htrial hsized halone
  have hstart : Paid s₁.world.stored s₁.world := by
    unfold Paid
    omega
  refine ⟨fun s hs => ?_, place_alone hstart hplace⟩
  obtain ⟨hpaid, hsafe⟩ := after_place hall hgood hstart hplace hs
  refine ⟨hpaid, fun l e hi => ?_⟩
  have htold := hsafe _ _ hi
  rw [Function.update_self] at htold
  obtain ⟨herr, hmany⟩ : PlaceTold s₁.world.stored (.error e : Except Err (Reply V)) s.world :=
    htold s.world (Gathers.refl _)
  simp only [maxAttempts] at hmany
  exact ⟨herr, by omega⟩

end Runs

namespace Small

/-- While instance 0 places the surplus, instance 1 appends the stuffing. -/
noncomputable def contended : Writers ℕ (Event ℕ) :=
  (writing env cfg addr).run (.spawn (.other ⟨1, .append addr (stuffing 0) 0⟩) ::
      List.replicate 6 (.step 1 .calm) ++ List.replicate 6 (.step 0 .calm))
    ((writing env cfg addr).act (.spawn (.place 0 0 (eventKey env surplus 0) (eventToInlineDict env.model surplus)))
      ⟨⟨created, 0, 0⟩, []⟩)

theorem reach_contended : (writing env cfg addr).Reach (Meanwhile addr 0) ((writing env cfg addr).act (.spawn (.place 0 0
    (eventKey env surplus 0) (eventToInlineDict env.model surplus))) ⟨⟨created, 0, 0⟩, []⟩) contended := by
  refine System.reach_run (System.permitted_of_forall fun x hx s => ?_)
  simp only [List.cons_append, List.mem_cons, List.mem_append, List.mem_replicate] at hx
  rcases hx with rfl | ⟨-, rfl⟩ | ⟨-, rfl⟩
  · exact ⟨rfl, nofun⟩
  · exact ⟨fun q _ => admissible_calm q, nofun⟩
  · exact ⟨fun q _ => admissible_calm q, fun y hy => by cases hy; rfl⟩

end Small

open Sessions.Small in
theorem placeEvent_converges_contended :
    Created env cfg addr created ∧ cfg.IndexSized ∧
    cfg.SegFits (OMap.empty.put (eventKey env surplus 0) (eventToInlineDict env.model surplus)) ∧
    contended.world.refused ≤ contended.world.stored + 2 ∧
    ∀ l e, contended.procs[0]? = some ⟨l, .raise e⟩ → e = .notConverged ∧ 62 ≤ contended.world.stored := by
  have halone : cfg.SegFits (OMap.empty.put (eventKey env surplus 0) (eventToInlineDict env.model surplus)) := by
    decide +kernel
  obtain ⟨hall, -⟩ := placeEvent_converges env cfg addr created created_created indexSized ⟨⟨created, 0, 0⟩, []⟩ .init
    0 0 (eventKey env surplus 0) (eventToInlineDict env.model surplus) (Nat.zero_le _) halone
  obtain ⟨hpaid, hraise⟩ := hall contended reach_contended
  simp only [Nat.zero_add] at hpaid hraise
  exact ⟨created_created, indexSized, halone, hpaid, hraise⟩

end AdkAerospike.Sessions
