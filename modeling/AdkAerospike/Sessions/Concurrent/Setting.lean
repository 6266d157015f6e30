import AdkAerospike.Program.Rely
import AdkAerospike.Sessions.Effects

/-! One session under concurrent appends and reads. Each party promises to leave
alone the slots of a set of event keys in every segment, and relies on the others
to leave alone the slots of its own; all keep the session sound, its segments at
most at `cur` and every cached index at most `cur`, which never decreases. -/

namespace AdkAerospike.Sessions

open Program Data Codec Keys

variable {V P α : Type} {cfg : ServerConfig V P} {a : Addr} {w w' : World V P}

/-- The session's invariant under concurrency. -/
structure Good (cfg : ServerConfig V P) (a : Addr) (w : World V P) : Prop extends Sound cfg a w where
  topped : (logOf a w).Topped
  cached : ∀ i n, w.cache i a.pkStr = some n → n ≤ (logOf a w).cur

/-- A move that keeps the invariant, never takes `cur` back, and leaves the slots
of the keys in `K` as they are. -/
def Keeps (cfg : ServerConfig V P) (a : Addr) (K : Set Str) (w w' : World V P) : Prop :=
  Good cfg a w → Good cfg a w' ∧ (logOf a w).cur ≤ (logOf a w').cur ∧
    ∀ k ∈ K, ∀ g, ((logOf a w').seg g).lookup k = ((logOf a w).seg g).lookup k

namespace Keeps
variable {K K' : Set Str}

theorem refl (w : World V P) : Keeps cfg a K w w := fun h => ⟨h, le_rfl, fun _ _ _ => rfl⟩

theorem trans {w₁ w₂ w₃ : World V P} (h₁ : Keeps cfg a K w₁ w₂) (h₂ : Keeps cfg a K w₂ w₃) :
    Keeps cfg a K w₁ w₃ := fun h => by
  obtain ⟨hg₂, hc₂, hs₂⟩ := h₁ h
  obtain ⟨hg₃, hc₃, hs₃⟩ := h₂ hg₂
  exact ⟨hg₃, hc₂.trans hc₃, fun k hk g => (hs₃ k hk g).trans (hs₂ k hk g)⟩

theorem mono (h : Keeps cfg a K w w') (hK : K' ⊆ K) : Keeps cfg a K' w w' := fun hw =>
  ⟨(h hw).1, (h hw).2.1, fun k hk => (h hw).2.2 k (hK hk)⟩

end Keeps

/-- The faults considered here: a request fails as a whole with back-pressure or a
timeout, and when a batch writes, so may each of its records. -/
def Admissible (q : Req V P) (x : Weather) : Prop :=
  x.whole.Transient ∧ (∀ i, (x.record i).Transient) ∧
    match q with
    | .batchRead _ | .batchReadBins _ => ∀ i, x.record i = .none
    | _ => True

theorem admissible_calm (q : Req V P) : Admissible q .calm :=
  ⟨trivial, fun _ => trivial, by cases q <;> first | trivial | exact fun _ => rfl⟩

/-- A party of instance `inst` that relies on the slots of `R` and leaves alone those of `G`. -/
def party (cfg : ServerConfig V P) (a : Addr) (inst : ℕ) (R G : Set Str) :
    Setting (Req V P) Ans (World V P) Weather where
  serve := exec cfg inst
  adm := Admissible
  rely := Keeps cfg a R
  guar := Keeps cfg a G
  rely_refl := Keeps.refl
  rely_trans := Keeps.trans

/-! ### Guarantees of single requests -/

theorem Good.keeps_of_log (h : Good cfg a w) (hs : Sound cfg a w') (hc : w'.cache = w.cache)
    (hlog : logOf a w' = logOf a w) (K : Set Str) : Keeps cfg a K w w' := fun _ => by
  refine ⟨⟨hs, hlog ▸ h.topped, fun i n hn => ?_⟩, hlog ▸ le_rfl, fun k _ g => by rw [hlog]⟩
  rw [hlog]
  exact h.cached i n (hc ▸ hn)

/-- An event that goes to a segment up to `cur` touches the slots of its key only. -/
theorem Good.keeps_put (h : Good cfg a w) (hs : Sound cfg a w') (hc : w'.cache = w.cache) {g : ℕ}
    {k : Str} {v : InlineEvent V P} (hg : g ≤ (logOf a w).cur)
    (hlog : logOf a w' = (logOf a w).put g k v) : Keeps cfg a {k}ᶜ w w' := fun _ => by
  refine ⟨⟨hs, ?_, fun i n hn => ?_⟩, by rw [hlog, Log.put_cur], fun k' hk g' => ?_⟩
  · intro g' hg'
    rw [hlog, Log.put_cur] at hg'
    rw [hlog, Log.put_seg_of_ne _ (by omega)]
    exact h.topped g' hg'
  · rw [hlog, Log.put_cur]
    exact h.cached i n (hc ▸ hn)
  · rw [hlog]
    by_cases hgg : g' = g
    · rw [hgg, Log.put_seg_self, OMap.lookup_put_of_ne hk]
    · rw [Log.put_seg_of_ne _ hgg]

theorem Good.keeps_bump (h : Good cfg a w) (hs : Sound cfg a w') (hc : w'.cache = w.cache)
    (hlog : logOf a w' = { logOf a w with cur := (logOf a w).cur + 1 }) (K : Set Str) :
    Keeps cfg a K w w' := fun _ => by
  refine ⟨⟨hs, ?_, fun i n hn => ?_⟩, by simp [hlog], fun k _ g => by rw [hlog]⟩
  · intro g hg
    simp only [hlog] at hg ⊢
    exact h.topped g (by omega)
  · have := h.cached i n (hc ▸ hn)
    simp only [hlog]
    omega

/-- The index that a party caches must not be past `cur`. -/
theorem keeps_setCache {inst n : ℕ} (hn : n ≤ (logOf a w).cur) (K : Set Str) :
    Keeps cfg a K w (w.setCache inst a.pkStr (some n)) := fun h => by
  refine ⟨⟨h.toSound.congr rfl fun _ => rfl, h.topped, fun i m hm => ?_⟩, le_rfl, fun _ _ _ => rfl⟩
  by_cases hi : i = inst
  · subst hi
    rw [World.setCache_self, Option.some.injEq] at hm
    subst hm
    exact hn
  · rw [World.setCache_of_ne _ _ (.inl hi)] at hm
    exact h.cached i m hm

/-! ### Rules for the service's own combinators -/

section Rules
variable {W : Type} {S : Setting (Req V P) Ans W Weather} {post : Except Err α → W → Prop} {w : W}

theorem safe_ofExcept (hs : Safe.Stable S post) {y : Except Err α} (h : post y w) :
    Safe S post (ofExcept y) w := by
  cases y with
  | ok b => exact Safe.ret hs h
  | error e => exact Safe.raise hs h

theorem safe_catching (hs : Safe.Stable S post) (mid : Except Err α → W → Prop) {e : Err}
    {p h : Service V P α} (hp : Safe S mid p w) (hok : ∀ b v, mid (.ok b) v → post (.ok b) v)
    (hcaught : ∀ v, mid (.error e) v → Safe S post h v)
    (herr : ∀ e' v, e' ≠ e → mid (.error e') v → post (.error e') v) :
    Safe S post (catching e p h) w := by
  refine Safe.tryCatch (hp.mono fun r v hr => ?_)
  rcases r with e' | b
  · dsimp only
    split_ifs with he
    · exact hcaught v (he ▸ hr)
    · exact Safe.raise hs (herr e' v he hr)
  · exact hok b v hr

/-- The same where the value of the guarded program is only turned into another one. -/
theorem safe_catching_ret {β : Type} (hs : Safe.Stable S post) {pre : Except Err β → W → Prop} (hpre : Safe.Stable S pre)
    {e : Err} {p : Service V P β} {f : β → α} {h : Service V P α} (hp : Safe S pre p w)
    (hok : ∀ y v, pre (.ok y) v → post (.ok (f y)) v) (hcaught : ∀ v, pre (.error e) v → Safe S post h v)
    (herr : ∀ e' v, e' ≠ e → pre (.error e') v → post (.error e') v) :
    Safe S post (catching e (p.bind fun y => .ret (f y)) h) w := by
  have hmid : Safe.Stable S fun r v => ∃ r₀ : Except Err β, r₀.map f = r ∧ pre r₀ v := by
    rintro r v v' ⟨r₀, hr, hv⟩ hvv'
    exact ⟨r₀, hr, hpre r₀ v v' hv hvv'⟩
  refine safe_catching hs _ (Safe.seq _ hp (fun y v hy => Safe.ret hmid ⟨.ok y, rfl, hy⟩) ?_) ?_ ?_ ?_
  · exact fun e' v he => ⟨.error e', rfl, he⟩
  · rintro b v ⟨r₀ | y, hr, hv⟩
    · cases hr
    · cases hr
      exact hok y v hv
  · rintro v ⟨e' | y, hr, hv⟩
    · cases hr
      exact hcaught v hv
    · cases hr
  · rintro e' v hne ⟨e'' | y, hr, hv⟩
    · cases hr
      exact herr e' v hne hv
    · cases hr

/-- A write that leaves its precondition in place whenever it meets back-pressure
or a timeout may be retried. -/
theorem safe_writeRetryingOverload (hs : Safe.Stable S post) {fn : Service V P α}
    {I : W → Prop} (b : Bool) (hfn : ∀ v, I v → Safe S post fn v)
    (hI : ∀ e v, e.transient → post (.error e) v → I v) (n : ℕ) (hw : I w) :
    Safe S post (writeRetryingOverload fn b n) w := by
  induction n generalizing w with
  | zero => exact hfn w hw
  | succ n ih =>
    refine Safe.tryCatch ((hfn w hw).mono fun r v hr => ?_)
    rcases r with e | y
    · cases e with
      | deviceOverload => exact ih (hI _ v rfl hr)
      | maxErrorRate => exact ih (hI _ v rfl hr)
      | timeout =>
        dsimp only
        split_ifs
        · exact ih (hI _ v rfl hr)
        · exact Safe.raise hs hr
      | _ => exact Safe.raise hs hr
    · exact hr

end Rules

/-- Caching an index up to `cur` keeps a stable assertion. -/
theorem safe_cacheSet {R G : Set Str} {inst n : ℕ} {I : World V P → Prop}
    (hI : ∀ v v', I v → Keeps cfg a R v v' → I v') (hn : ∀ v, I v → n ≤ (logOf a v).cur)
    (hw : I w) : Safe (party cfg a inst R G) (fun _ v => I v) (cacheSet a.pkStr n) w := by
  intro w₁ hw₁ x _
  have h₁ := hI _ _ hw hw₁
  have hkeep : ∀ K, Keeps cfg a K w₁ (w₁.setCache inst a.pkStr (some n)) := keeps_setCache (hn w₁ h₁)
  exact ⟨hkeep _, fun w₂ hw₂ => hI _ _ (hI _ _ h₁ (hkeep _)) hw₂⟩

end AdkAerospike.Sessions
