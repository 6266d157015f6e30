import Mathlib.Logic.Function.Basic
import AdkAerospike.Program.Rely

/-! Any number of programs over one shared world. A pool lists every call ever
started; an action starts a call or lets one unfinished call issue its next
request, so a run is any interleaving at the granularity of single requests, and
a call that is never scheduled again has been cut off. Safe programs whose
guarantees respect each other's relies stay safe along every run. -/

namespace AdkAerospike.Program

variable {Q : Type} {A : Q → Type} {E α W L C : Type}

/-- A call and what is left of its program. -/
structure Proc (Q : Type) (A : Q → Type) (E α L : Type) where
  call : L
  prog : Prog Q A E α

/-- The shared world and all calls started so far, finished ones included. -/
structure Pool (Q : Type) (A : Q → Type) (E α W L : Type) where
  world : W
  procs : List (Proc Q A E α L)

/-- The calls started so far, in order. -/
def Pool.calls (s : Pool Q A E α W L) : List L := s.procs.map Proc.call

inductive Action (L C : Type) where
  | spawn (l : L)
  | step (i : ℕ) (c : C)

/-- How a pool's calls are carried out: the program of each call, and the server
as the call's issuer sees it. -/
structure System (Q : Type) (A : Q → Type) (E α W L C : Type) where
  body : L → Prog Q A E α
  serve : L → C → (q : Q) → W → A q × W

namespace System
variable (Y : System Q A E α W L C)

/-- Actions on a call that does not exist or has finished do nothing. -/
def act : Action L C → Pool Q A E α W L → Pool Q A E α W L
  | .spawn l, s => ⟨s.world, s.procs ++ [⟨l, Y.body l⟩]⟩
  | .step i c, s => match s.procs[i]? with
    | some ⟨l, .ask q k⟩ =>
      ⟨(Y.serve l c q s.world).2, s.procs.set i ⟨l, k (Y.serve l c q s.world).1⟩⟩
    | _ => s

/-- The pools reached from `s₀` by actions that satisfy `ok` in the pool they are taken in. -/
inductive Reach (ok : Pool Q A E α W L → Action L C → Prop) (s₀ : Pool Q A E α W L) :
    Pool Q A E α W L → Prop
  | init : Reach ok s₀ s₀
  | act {s : Pool Q A E α W L} {a : Action L C} (hs : Reach ok s₀ s) (ha : ok s a) :
      Reach ok s₀ (Y.act a s)

/-- Take a list of actions. -/
def run : List (Action L C) → Pool Q A E α W L → Pool Q A E α W L
  | [], s => s
  | a :: as, s => run as (Y.act a s)

/-- Every action of the list satisfies `ok` in the pool it is taken in. -/
def Permitted (ok : Pool Q A E α W L → Action L C → Prop) :
    List (Action L C) → Pool Q A E α W L → Prop
  | [], _ => True
  | a :: as, s => ok s a ∧ Permitted ok as (Y.act a s)

/-- The test succeeds at every action of the list, in the pool the action is taken in. -/
def passes (test : Pool Q A E α W L → Action L C → Bool) : List (Action L C) → Pool Q A E α W L → Bool
  | [], _ => true
  | a :: as, s => test s a && passes test as (Y.act a s)

/-- Calls one after the other, from number `i` on, each given `n` requests. -/
def turns (c : C) (n : ℕ) : ℕ → List L → List (Action L C)
  | _, [] => []
  | i, l :: ls => .spawn l :: (List.replicate n (.step i c) ++ turns c n (i + 1) ls)

variable {Y} {ok : Pool Q A E α W L → Action L C → Prop} {s₀ s : Pool Q A E α W L}

theorem Reach.trans {s' : Pool Q A E α W L} (hs : Y.Reach ok s₀ s) (hs' : Y.Reach ok s s') :
    Y.Reach ok s₀ s' := by
  induction hs' with
  | init => exact hs
  | act _ ha ih => exact ih.act ha

theorem Reach.mono {ok' : Pool Q A E α W L → Action L C → Prop} (hs : Y.Reach ok s₀ s)
    (hok : ∀ s a, ok s a → ok' s a) : Y.Reach ok' s₀ s := by
  induction hs with
  | init => exact .init
  | act _ ha ih => exact ih.act (hok _ _ ha)

theorem reach_run {as : List (Action L C)} (h : Y.Permitted ok as s) : Y.Reach ok s (Y.run as s) := by
  induction as generalizing s with
  | nil => exact .init
  | cons a as ih => exact (Reach.act .init h.1).trans (ih h.2)

/-- Actions that are permitted in any pool. -/
theorem permitted_of_forall {as : List (Action L C)} (h : ∀ a ∈ as, ∀ s, ok s a) :
    Y.Permitted ok as s := by
  induction as generalizing s with
  | nil => trivial
  | cons a as ih => exact ⟨h a (by simp) s, ih fun b hb => h b (by simp [hb])⟩

theorem permitted_of_passes {test : Pool Q A E α W L → Action L C → Bool} {as : List (Action L C)}
    (htest : ∀ a ∈ as, ∀ s, test s a = true → ok s a) (h : Y.passes test as s = true) : Y.Permitted ok as s := by
  induction as generalizing s with
  | nil => trivial
  | cons a as ih =>
    rw [passes, Bool.and_eq_true] at h
    exact ⟨htest a (by simp) s h.1, ih (fun b hb => htest b (by simp [hb])) h.2⟩

theorem mem_turns {c : C} {n i : ℕ} {ls : List L} {a : Action L C} (h : a ∈ turns c n i ls) :
    (∃ l ∈ ls, a = .spawn l) ∨ ∃ j, a = .step j c := by
  induction ls generalizing i with
  | nil => cases h
  | cons l ls ih =>
    rcases List.mem_cons.mp h with rfl | h
    · exact .inl ⟨l, by simp, rfl⟩
    · rcases List.mem_append.mp h with h | h
      · exact .inr ⟨i, List.eq_of_mem_replicate h⟩
      · rcases ih h with ⟨l', hl', rfl⟩ | hj
        · exact .inl ⟨l', by simp [hl'], rfl⟩
        · exact .inr hj

/-- What every permitted action preserves holds in every pool reached. -/
theorem Reach.invariant {I : Pool Q A E α W L → Prop} (h₀ : I s₀)
    (step : ∀ s a, I s → ok s a → I (Y.act a s)) (hs : Y.Reach ok s₀ s) : I s := by
  induction hs with
  | init => exact h₀
  | act _ ha ih => exact step _ _ ih ha

/-- The request that call `i` issues next, if it is unfinished. -/
def next (s : Pool Q A E α W L) (i : ℕ) : Option Q :=
  match s.procs[i]? with
  | some ⟨_, .ask q _⟩ => some q
  | _ => none

/-- Everything one action can do: start a call, do nothing, or answer one
request of one call. -/
theorem act_cases (a : Action L C) (s : Pool Q A E α W L) :
    (∃ l, a = .spawn l ∧ Y.act a s = ⟨s.world, s.procs ++ [⟨l, Y.body l⟩]⟩) ∨
    (∃ i c, a = .step i c ∧ next s i = none ∧ Y.act a s = s) ∨
    (∃ i c l q k, a = .step i c ∧ s.procs[i]? = some ⟨l, .ask q k⟩ ∧ next s i = some q ∧
      Y.act a s =
        ⟨(Y.serve l c q s.world).2, s.procs.set i ⟨l, k (Y.serve l c q s.world).1⟩⟩) := by
  cases a with
  | spawn l => exact .inl ⟨l, rfl, rfl⟩
  | step i c =>
    rcases hi : s.procs[i]? with _ | ⟨l, p⟩
    · exact .inr (.inl ⟨i, c, rfl, by simp [next, hi], by simp [act, hi]⟩)
    · cases p with
      | ret a => exact .inr (.inl ⟨i, c, rfl, by simp [next, hi], by simp [act, hi]⟩)
      | raise e => exact .inr (.inl ⟨i, c, rfl, by simp [next, hi], by simp [act, hi]⟩)
      | ask q k =>
        exact .inr (.inr ⟨i, c, l, q, k, rfl, hi, by simp [next, hi], by simp [act, hi]⟩)

theorem getElem?_concat {β : Type} {l : List β} {x y : β} {i : ℕ} (h : (l ++ [x])[i]? = some y) :
    l[i]? = some y ∧ i < l.length ∨ y = x ∧ i = l.length := by
  rcases Nat.lt_trichotomy i l.length with hi | hi | hi
  · rw [List.getElem?_append_left hi] at h
    exact .inl ⟨h, hi⟩
  · subst hi
    rw [List.getElem?_concat_length, Option.some.injEq] at h
    exact .inr ⟨h.symm, rfl⟩
  · rw [List.getElem?_eq_none (by simp; omega)] at h
    cases h

theorem getElem?_set_cases {β : Type} {l : List β} {i j : ℕ} {x y : β} (h : (l.set i x)[j]? = some y) :
    j = i ∧ y = x ∨ j ≠ i ∧ l[j]? = some y := by
  by_cases hji : j = i
  · subst hji
    have hlt : j < l.length := by simpa using (List.getElem?_eq_some_iff.mp h).1
    rw [List.getElem?_set_self hlt, Option.some.injEq] at h
    exact .inl ⟨rfl, h.symm⟩
  · rw [List.getElem?_set_ne (Ne.symm hji)] at h
    exact .inr ⟨hji, h⟩

/-- The same with the call that is to take a step, whatever it does next. -/
theorem act_step {i : ℕ} (c : C) {p : Proc Q A E α L} (hi : s.procs[i]? = some p) :
    Y.act (.step i c) s =
      ⟨(p.prog.step (Y.serve p.call c) s.world).2,
        s.procs.set i ⟨p.call, (p.prog.step (Y.serve p.call c) s.world).1⟩⟩ := by
  obtain ⟨hlt, hp⟩ := List.getElem?_eq_some_iff.mp hi
  have hself : s.procs.set i p = s.procs := by rw [← hp, List.set_getElem_self]
  obtain ⟨l, p⟩ := p
  cases p with
  | ret a => simp only [act, hi, Prog.step, hself]
  | raise e => simp only [act, hi, Prog.step, hself]
  | ask q k => simp [act, hi, Prog.step]

theorem act_step_none {i : ℕ} (c : C) (hi : s.procs[i]? = none) : Y.act (.step i c) s = s := by
  simp [act, hi]

/-- What is left of a call can be carried out with no other call in between. -/
theorem Reach.finish (hs : Y.Reach ok s₀ s) {i : ℕ} {p : Proc Q A E α L} (hi : s.procs[i]? = some p) {c : C}
    (hok : ∀ s, ok s (.step i c)) :
    ∃ s', Y.Reach ok s₀ s' ∧ s'.world = (p.prog.run (Y.serve p.call c) s.world).2 ∧
      ∀ j, j ≠ i → s'.procs[j]? = s.procs[j]? := by
  obtain ⟨l, p⟩ := p
  induction p generalizing s with
  | ret x => exact ⟨s, hs, rfl, fun _ _ => rfl⟩
  | raise e => exact ⟨s, hs, rfl, fun _ _ => rfl⟩
  | ask q k ih =>
    have hact := act_step (Y := Y) c hi
    have hlt : i < s.procs.length := (List.getElem?_eq_some_iff.mp hi).1
    have hs₁ : Y.Reach ok s₀ (Y.act (.step i c) s) := hs.act (hok s)
    rw [hact] at hs₁
    obtain ⟨s', hs', hworld, hprocs⟩ := ih _ hs₁ (List.getElem?_set_self hlt)
    refine ⟨s', hs', hworld, fun j hj => ?_⟩
    rw [hprocs j hj, List.getElem?_set_ne (Ne.symm hj)]

/-- A complete call with no other call in between. -/
theorem Reach.call (hs : Y.Reach ok s₀ s) {l : L} {c : C} (hspawn : ok s (.spawn l)) (hstep : ∀ s i, ok s (.step i c)) :
    ∃ s', Y.Reach ok s₀ s' ∧ s'.world = ((Y.body l).run (Y.serve l c) s.world).2 ∧
      ∀ j < s.procs.length, s'.procs[j]? = s.procs[j]? := by
  obtain ⟨s', hs', hworld, hprocs⟩ := (hs.act hspawn).finish (i := s.procs.length) (p := ⟨l, Y.body l⟩)
    (List.getElem?_concat_length ..) (hstep · s.procs.length)
  refine ⟨s', hs', hworld, fun j hj => ?_⟩
  rw [hprocs j (Nat.ne_of_lt hj)]
  exact List.getElem?_append_left hj

/-- If every call issues requests of its own footprint only, and such a request
keeps `I` whenever it is permitted, then `I` holds along every run. -/
theorem Reach.uses {F : L → Q → Prop} {I : W → Prop}
    (hbody : ∀ s l, ok s (.spawn l) → (Y.body l).Uses (F l))
    (hstep : ∀ s i c l q, ok s (.step i c) → next s i = some q → F l q → I s.world →
      I (Y.serve l c q s.world).2)
    (hs : Y.Reach ok s₀ s) (h₀ : I s₀.world) (hp₀ : s₀.procs = []) :
    I s.world ∧ ∀ (i : ℕ) (p : Proc Q A E α L), s.procs[i]? = some p → p.prog.Uses (F p.call) := by
  refine hs.invariant (I := fun s => I s.world ∧ ∀ (i : ℕ) (p : Proc Q A E α L),
    s.procs[i]? = some p → p.prog.Uses (F p.call)) ⟨h₀, fun i p hi => ?_⟩ ?_
  · rw [hp₀] at hi
    cases hi
  rintro s a ⟨hI, hU⟩ ha
  rcases act_cases (Y := Y) a s with ⟨l, rfl, hact⟩ | ⟨i, c, -, -, hact⟩ |
    ⟨i, c, l, q, k, rfl, hi, hnext, hact⟩ <;> rw [hact]
  · refine ⟨hI, fun j p hj => ?_⟩
    rcases getElem?_concat hj with ⟨hj, -⟩ | ⟨rfl, -⟩
    · exact hU j p hj
    · exact hbody s l ha
  · exact ⟨hI, hU⟩
  · have huses : F l q ∧ ∀ x, (k x).Uses (F l) := hU i _ hi
    refine ⟨hstep s i c l q ha hnext huses.1 hI, fun j p hj => ?_⟩
    rcases getElem?_set_cases hj with ⟨rfl, rfl⟩ | ⟨-, hj⟩
    · exact huses.2 _
    · exact hU j p hj

/-! ### What later pools remember -/

@[simp] theorem calls_spawn (l : L) (s : Pool Q A E α W L) :
    (Y.act (.spawn l) s).calls = s.calls ++ [l] := by
  simp [act, Pool.calls]

@[simp] theorem calls_step (i : ℕ) (c : C) (s : Pool Q A E α W L) :
    (Y.act (.step i c) s).calls = s.calls := by
  rcases act_cases (Y := Y) (.step i c) s with ⟨l, h, -⟩ | ⟨j, c', -, -, h⟩ | ⟨j, c', l, q, k, h, hj, -, hact⟩
  · cases h
  · rw [h]
  · cases h
    have hl : (s.procs.map Proc.call)[i]? = some l := by rw [List.getElem?_map, hj]; rfl
    rw [hact, Pool.calls, List.map_set, Pool.calls]
    refine List.ext_getElem? fun j => ?_
    by_cases hji : j = i
    · subst hji
      rw [List.getElem?_set_self (List.getElem?_eq_some_iff.mp hl).1, hl]
    · rw [List.getElem?_set_ne (Ne.symm hji)]

/-- A call that has finished stays as it is. -/
theorem finished_act {a : Action L C} {s : Pool Q A E α W L} {i : ℕ} {p : Proc Q A E α L}
    (hi : s.procs[i]? = some p) (hp : p.prog.finished) : (Y.act a s).procs[i]? = some p := by
  rcases act_cases (Y := Y) a s with ⟨l, -, h⟩ | ⟨j, c, -, -, h⟩ | ⟨j, c, l, q, k, -, hj, -, h⟩ <;>
    rw [h]
  · rw [List.getElem?_append_left (List.getElem?_eq_some_iff.mp hi).1]
    exact hi
  · exact hi
  · have hne : j ≠ i := by
      rintro rfl
      rw [hj, Option.some.injEq] at hi
      subst hi
      cases hp
    rw [List.getElem?_set_ne hne]
    exact hi

/-! ### Safe pools -/

section Safety
variable {Γ : Type} (S : Γ → L → Setting Q A W C) (post : Γ → Except E α → W → Prop)

/-- Call `i` is safe in the role `γ i`. -/
def AllSafe (γ : ℕ → Γ) (s : Pool Q A E α W L) : Prop :=
  ∀ i p, s.procs[i]? = some p → Safe (S (γ i) p.call) (post (γ i)) p.prog s.world

variable {S post} {γ : ℕ → Γ}

/-- One request of one call keeps every call safe, when its guarantee lies within
the relies of all the others. -/
theorem AllSafe.step (hs : AllSafe S post γ s) {i : ℕ} {c : C} {l : L} {q : Q}
    {k : A q → Prog Q A E α} (hi : s.procs[i]? = some ⟨l, .ask q k⟩)
    (hserve : (S (γ i) l).serve c q s.world = Y.serve l c q s.world) (hadm : (S (γ i) l).adm q c)
    (hcompat : ∀ j p, j ≠ i → s.procs[j]? = some p →
      ∀ w w', (S (γ i) l).guar w w' → (S (γ j) p.call).rely w w') :
    AllSafe S post γ
      ⟨(Y.serve l c q s.world).2, s.procs.set i ⟨l, k (Y.serve l c q s.world).1⟩⟩ := by
  obtain ⟨hg, hk⟩ := hs i _ hi s.world ((S (γ i) l).rely_refl _) c hadm
  rw [hserve] at hg hk
  intro j p hj
  rcases getElem?_set_cases hj with ⟨rfl, rfl⟩ | ⟨hji, hj⟩
  · exact hk
  · exact (hs j p hj).of_rely (hcompat j p hji hj _ _ hg)

/-- Starting a call that is safe in its role keeps every call safe. -/
theorem AllSafe.spawn (hs : AllSafe S post γ s) {l : L} {g : Γ}
    (hl : Safe (S g l) (post g) (Y.body l) s.world) :
    AllSafe S post (Function.update γ s.procs.length g)
      ⟨s.world, s.procs ++ [⟨l, Y.body l⟩]⟩ := by
  intro i p hi
  rcases getElem?_concat hi with ⟨hi, hlt⟩ | ⟨rfl, rfl⟩
  · rw [Function.update_of_ne (by omega)]
    exact hs i p hi
  · rw [Function.update_self]
    exact hl

end Safety

/-- Calls whose roles rely on no more than the other roles guarantee stay safe along every
run, and what the guarantees preserve holds of its world. A setting has to serve a
request as the system does only where the run permits the step. -/
theorem Reach.roles {Γ : Type} {S : Γ → L → Setting Q A W C} {post : Γ → Except E α → W → Prop} {γ : ℕ → Γ}
    {I : W → Prop} (hI : ∀ i l w w', (S (γ i) l).guar w w' → I w → I w')
    (hcompat : ∀ i j l l' w w', j ≠ i → (S (γ i) l).guar w w' → (S (γ j) l').rely w w')
    (hbody : ∀ s l, ok s (.spawn l) → s₀.procs.length ≤ s.procs.length → I s.world →
      Safe (S (γ s.procs.length) l) (post (γ s.procs.length)) (Y.body l) s.world)
    (hstep : ∀ s i c l q, ok s (.step i c) → next s i = some q →
      (S (γ i) l).adm q c ∧ (S (γ i) l).serve c q s.world = Y.serve l c q s.world)
    (hs : Y.Reach ok s₀ s) (h₀ : I s₀.world) (hsafe₀ : AllSafe S post γ s₀) :
    I s.world ∧ AllSafe S post γ s := by
  suffices hall : s₀.procs.length ≤ s.procs.length ∧ I s.world ∧ AllSafe S post γ s from hall.2
  refine hs.invariant (I := fun s => s₀.procs.length ≤ s.procs.length ∧ I s.world ∧ AllSafe S post γ s)
    ⟨Nat.le_refl _, h₀, hsafe₀⟩ ?_
  rintro s a ⟨hlen, hw, hsafe⟩ ha
  rcases act_cases (Y := Y) a s with ⟨l, rfl, hact⟩ | ⟨i, c, -, -, hact⟩ |
    ⟨i, c, l, q, k, rfl, hi, hnext, hact⟩ <;> rw [hact]
  · have hmore := hsafe.spawn (hbody s l ha hlen hw)
    rw [Function.update_eq_self] at hmore
    exact ⟨Nat.le_trans hlen (by simp), hw, hmore⟩
  · exact ⟨hlen, hw, hsafe⟩
  · obtain ⟨hadm, hserve⟩ := hstep s i c l q ha hnext
    obtain ⟨hguar, -⟩ := hsafe i _ hi s.world ((S (γ i) l).rely_refl _) c hadm
    rw [hserve] at hguar
    exact ⟨Nat.le_trans hlen (by simp), hI i l _ _ hguar hw,
      hsafe.step hi hserve hadm fun j p hj _ w w' hw => hcompat i j l p.call w w' hj hw⟩

/-- The case in which all calls have the same role. -/
theorem Reach.safe {S : L → Setting Q A W C} {post : Except E α → W → Prop} {I : W → Prop}
    (hI : ∀ l w w', (S l).guar w w' → I w → I w')
    (hcompat : ∀ l l' w w', (S l).guar w w' → (S l').rely w w')
    (hbody : ∀ s l, ok s (.spawn l) → I s.world → Safe (S l) post (Y.body l) s.world)
    (hstep : ∀ s i c l q, ok s (.step i c) → next s i = some q →
      (S l).adm q c ∧ (S l).serve c q s.world = Y.serve l c q s.world)
    (hs : Y.Reach ok s₀ s) (h₀ : I s₀.world) (hp₀ : s₀.procs = []) :
    I s.world ∧ AllSafe (fun _ : Unit => S) (fun _ => post) (fun _ => ()) s := by
  refine hs.roles (fun _ => hI) (fun _ _ l l' w w' _ => hcompat l l' w w') (fun s l hok _ => hbody s l hok) hstep h₀ ?_
  intro i p hi
  rw [hp₀] at hi
  cases hi

end System

end AdkAerospike.Program
