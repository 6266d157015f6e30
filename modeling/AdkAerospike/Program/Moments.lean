import AdkAerospike.Program.Contract

/-! The requests of one call, each with the moment of the run at which it is answered.
Between two pools of a run a call has come from one program to another through answers
that were given in pools in between, in their order. -/

namespace AdkAerospike.Program

variable {Q : Type} {A : Q → Type} {E α β W L C : Type}

namespace System
variable (Y : System Q A E α W L C) (ok : Pool Q A E α W L → Action L C → Prop)

/-- From the pool `s` to the pool `s'` call `i` has come from a program to another one. -/
inductive Moments (i : ℕ) (l : L) : Pool Q A E α W L → Prog Q A E β → Pool Q A E α W L → Prog Q A E β → Prop
  | rest {s s' : Pool Q A E α W L} {p : Prog Q A E β} (hs : Y.Reach ok s s') : Moments i l s p s' p
  | ask {s t s' : Pool Q A E α W L} {q : Q} {k : A q → Prog Q A E β} {p' : Prog Q A E β} {c : C} (hs : Y.Reach ok s t)
      (hq : next t i = some q) (ha : ok t (.step i c)) (hw : (Y.act (.step i c) t).world = (Y.serve l c q t.world).2)
      (hnext : Moments i l (Y.act (.step i c) t) (k (Y.serve l c q t.world).1) s' p') : Moments i l s (.ask q k) s' p'

variable {Y ok} {s s' : Pool Q A E α W L} {i : ℕ} {l : L}

namespace Moments

theorem reach {p p' : Prog Q A E β} (h : Moments Y ok i l s p s' p') : Y.Reach ok s s' := by
  induction h with
  | rest hs => exact hs
  | ask hs _ ha _ _ ih => exact (hs.act ha).trans ih

theorem after {p p' : Prog Q A E β} {t : Pool Q A E α W L} (h : Moments Y ok i l s p t p') (hs : Y.Reach ok t s') :
    Moments Y ok i l s p s' p' := by
  induction h with
  | rest hs' => exact .rest (hs'.trans hs)
  | ask hs' hq ha hw _ ih => exact .ask hs' hq ha hw (ih hs)

/-- One more answer. -/
theorem concat {p : Prog Q A E β} {q : Q} {k : A q → Prog Q A E β} {t : Pool Q A E α W L} {c : C}
    (h : Moments Y ok i l s p t (.ask q k)) (hq : next t i = some q) (ha : ok t (.step i c))
    (hw : (Y.act (.step i c) t).world = (Y.serve l c q t.world).2) :
    Moments Y ok i l s p (Y.act (.step i c) t) (k (Y.serve l c q t.world).1) := by
  generalize hp' : Prog.ask q k = p' at h
  induction h with
  | rest hs =>
    subst hp'
    exact .ask hs hq ha hw (.rest .init)
  | ask hs' hq' ha' hw' _ ih => exact .ask hs' hq' ha' hw' (ih hq ha hw hp')

/-- A program that has ended asks for nothing. -/
theorem of_finished {p p' : Prog Q A E β} (h : Moments Y ok i l s p s' p') (hp : p.finished) : p' = p := by
  cases h with
  | rest hs => rfl
  | ask hs hq ha hw hnext => cases hp

/-- A program that makes one request gets its answer at one moment. -/
theorem single {q : Q} {k : A q → Prog Q A E β} {p' : Prog Q A E β} (h : Moments Y ok i l s (.ask q k) s' p')
    (hk : ∀ x, (k x).finished) (hp' : p'.finished) :
    ∃ t c, Y.Reach ok s t ∧ next t i = some q ∧ ok t (.step i c) ∧ (Y.act (.step i c) t).world = (Y.serve l c q t.world).2 ∧
      Y.Reach ok (Y.act (.step i c) t) s' ∧ p' = k (Y.serve l c q t.world).1 := by
  cases h with
  | rest hs => cases hp'
  | ask hs hq ha hw hnext => exact ⟨_, _, hs, hq, ha, hw, hnext.reach, hnext.of_finished (hk _)⟩

/-- The part of a program before a bind ends first. -/
theorem bind {γ : Type} {p : Prog Q A E β} {f : β → Prog Q A E γ} {r : Prog Q A E γ}
    (h : Moments Y ok i l s (p.bind f) s' r) (hr : r.finished) :
    (∃ t a, Moments Y ok i l s p t (.ret a) ∧ Moments Y ok i l t (f a) s' r) ∨
      ∃ e, Moments Y ok i l s p s' (.raise e) ∧ r = .raise e := by
  induction p generalizing s with
  | ret a => exact .inl ⟨s, a, .rest .init, h⟩
  | raise e => exact .inr ⟨e, .rest h.reach, h.of_finished rfl⟩
  | ask q k ih =>
    cases h with
    | rest hs => cases hr
    | ask hs hq ha hw hnext =>
      rcases ih _ hnext with ⟨t, a, hp, hf⟩ | ⟨e, hp, he⟩
      · exact .inl ⟨t, a, .ask hs hq ha hw hp, hf⟩
      · exact .inr ⟨e, .ask hs hq ha hw hp, he⟩

/-- A contract is kept along the way if the answers that were given were legal. -/
theorem meets {F : Q → Prop} {legal : (q : Q) → A q → Prop} {post : Except E β → Prop} {p p' : Prog Q A E β}
    (h : Moments Y ok i l s p s' p') (hp : p.Meets F legal post)
    (hlegal : ∀ t c q, Y.Reach ok s t → next t i = some q → ok t (.step i c) →
      (Y.act (.step i c) t).world = (Y.serve l c q t.world).2 → Y.Reach ok (Y.act (.step i c) t) s' → F q →
        legal q (Y.serve l c q t.world).1) :
    p'.Meets F legal post := by
  induction h with
  | rest hs => exact hp
  | ask hs hq ha hw hnext ih =>
    refine ih (hp.2 _ (hlegal _ _ _ hs hq ha hw hnext.reach hp.1)) fun u c' q hu => ?_
    exact hlegal u c' q ((hs.act ha).trans hu)

end Moments

/-- What a call has come to, it has come to through answers in the pools in between. -/
theorem Reach.moments (hs : Y.Reach ok s s') {p : Prog Q A E α} (hi : s.procs[i]? = some ⟨l, p⟩) :
    ∃ p', s'.procs[i]? = some ⟨l, p'⟩ ∧ Moments Y ok i l s p s' p' := by
  induction hs with
  | init => exact ⟨p, hi, .rest .init⟩
  | act hs ha ih =>
    rename_i t a
    obtain ⟨p', ht, hm⟩ := ih
    rcases act_cases (Y := Y) a t with ⟨l', rfl, hact⟩ | ⟨j, c, rfl, -, hact⟩ | ⟨j, c, l', q, k, rfl, hj, hq, hact⟩
    · refine ⟨p', ?_, hm.after (Reach.act .init ha)⟩
      rw [hact, List.getElem?_append_left (List.getElem?_eq_some_iff.mp ht).1]
      exact ht
    · refine ⟨p', ?_, hm.after (Reach.act .init ha)⟩
      rw [hact]
      exact ht
    · by_cases hji : j = i
      · subst hji
        obtain ⟨rfl, rfl⟩ := Proc.mk.inj (Option.some.inj (ht.symm.trans hj))
        refine ⟨k (Y.serve l c q t.world).1, ?_, hm.concat hq ha (by rw [hact])⟩
        rw [hact, List.getElem?_set_self (List.getElem?_eq_some_iff.mp hj).1]
      · refine ⟨p', ?_, hm.after (Reach.act .init ha)⟩
        rw [hact, List.getElem?_set_ne hji]
        exact ht

/-- Calls are never forgotten. -/
theorem Reach.calls_subset (hs : Y.Reach ok s s') : s.calls ⊆ s'.calls := by
  induction hs with
  | init => exact List.Subset.refl _
  | @act t a ht ha ih =>
    cases a with
    | spawn l' =>
      rw [calls_spawn]
      exact List.Subset.trans ih (List.subset_append_left ..)
    | step j c =>
      rw [calls_step]
      exact ih

/-- A call was started at some moment. -/
theorem Reach.spawned (hs : Y.Reach ok s s') {p : Proc Q A E α L} (hi : s'.procs[i]? = some p)
    (hlate : s.procs.length ≤ i) : ∃ t, Y.Reach ok s t ∧ t.procs.length = i ∧ ok t (.spawn p.call) ∧
      Y.Reach ok (Y.act (.spawn p.call) t) s' := by
  induction hs generalizing p with
  | init => exact absurd (List.getElem?_eq_some_iff.mp hi).1 (Nat.not_lt.mpr hlate)
  | act hs ha ih =>
    rename_i t a
    rcases act_cases (Y := Y) a t with ⟨l', rfl, hact⟩ | ⟨j, c, rfl, -, hact⟩ | ⟨j, c, l', q, k, rfl, hj, -, hact⟩
    · rw [hact] at hi
      rcases getElem?_concat hi with ⟨hi, -⟩ | ⟨rfl, hlen⟩
      · obtain ⟨u, hu, hlen, hok, hut⟩ := ih hi
        exact ⟨u, hu, hlen, hok, hut.act ha⟩
      · exact ⟨t, hs, hlen.symm, ha, .init⟩
    · have hi' := hi
      rw [hact] at hi'
      obtain ⟨u, hu, hlen, hok, hut⟩ := ih hi'
      exact ⟨u, hu, hlen, hok, hut.act ha⟩
    · rw [hact] at hi
      rcases getElem?_set_cases hi with ⟨rfl, rfl⟩ | ⟨-, hi⟩
      · obtain ⟨u, hu, hlen, hok, hut⟩ := ih hj
        exact ⟨u, hu, hlen, hok, hut.act ha⟩
      · obtain ⟨u, hu, hlen, hok, hut⟩ := ih hi
        exact ⟨u, hu, hlen, hok, hut.act ha⟩

/-- A call that is started has its whole program before it. -/
theorem Reach.moments_spawn (hs : Y.Reach ok (Y.act (.spawn l) s) s') {p : Proc Q A E α L}
    (hi : s'.procs[s.procs.length]? = some p) :
    p.call = l ∧ Moments Y ok s.procs.length l (Y.act (.spawn l) s) (Y.body l) s' p.prog := by
  obtain ⟨p', hi', hm⟩ := hs.moments (i := s.procs.length) (l := l) (p := Y.body l) (List.getElem?_concat_length ..)
  obtain rfl := Option.some.inj (hi.symm.trans hi')
  exact ⟨rfl, hm⟩

end System

end AdkAerospike.Program
