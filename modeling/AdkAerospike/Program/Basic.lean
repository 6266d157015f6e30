import Mathlib.Data.List.Forall2

/-! Programs over typed requests. A program returns, raises, or issues one
request and continues with its answer; it is the tree of everything it may do
under every answer. The same tree is run alone, cut off after some requests, or
interleaved with others (`Program.Pool`), so that a routine is written once and
each of these readings is a theorem about one definition. -/

namespace AdkAerospike.Program

/-- A program over requests `q : Q`, whose answers have type `A q`. -/
inductive Prog (Q : Type) (A : Q → Type) (E α : Type) where
  | ret (a : α)
  | raise (e : E)
  | ask (q : Q) (k : A q → Prog Q A E α)

variable {Q : Type} {A : Q → Type} {E α β W : Type}

namespace Prog

def bind : Prog Q A E α → (α → Prog Q A E β) → Prog Q A E β
  | ret a, f => f a
  | raise e, _ => raise e
  | ask q k, f => ask q fun x => (k x).bind f

/-- `try p except e: h e`. A handler never sees what `p` has already done undone. -/
def tryCatch : Prog Q A E α → (E → Prog Q A E α) → Prog Q A E α
  | ret a, _ => ret a
  | raise e, h => h e
  | ask q k, h => ask q fun x => (k x).tryCatch h

instance : Monad (Prog Q A E) where
  pure := ret
  bind := bind

@[simp] theorem pure_eq (a : α) : (pure a : Prog Q A E α) = ret a := rfl

@[simp] theorem bind_eq (p : Prog Q A E α) (f : α → Prog Q A E β) : p >>= f = p.bind f := rfl

theorem bind_assoc {γ : Type} (p : Prog Q A E α) (f : α → Prog Q A E β) (g : β → Prog Q A E γ) :
    (p.bind f).bind g = p.bind fun a => (f a).bind g := by
  induction p with
  | ret a => rfl
  | raise e => rfl
  | ask q k ih => exact congrArg (ask q) (funext ih)

/-- The program has finished, normally or with an error. -/
def finished : Prog Q A E α → Bool
  | ask _ _ => false
  | _ => true

/-! ### Running alone -/

/-- Run to the end against a server that answers every request at once. -/
def run (h : (q : Q) → W → A q × W) : Prog Q A E α → W → Except E α × W
  | ret a, w => (.ok a, w)
  | raise e, w => (.error e, w)
  | ask q k, w => run h (k (h q w).1) (h q w).2

/-- Have one request answered, if there is one. -/
def step (h : (q : Q) → W → A q × W) : Prog Q A E α → W → Prog Q A E α × W
  | ask q k, w => (k (h q w).1, (h q w).2)
  | p, w => (p, w)

@[simp] theorem step_ask (h : (q : Q) → W → A q × W) (q : Q) (k : A q → Prog Q A E α) (w : W) :
    step h (ask q k) w = (k (h q w).1, (h q w).2) := rfl

/-- Run until the end or until `n` requests have been answered. -/
def runFor (h : (q : Q) → W → A q × W) : ℕ → Prog Q A E α → W → Prog Q A E α × W
  | n + 1, ask q k, w => runFor h n (k (h q w).1) (h q w).2
  | _, p, w => (p, w)

section Run
variable (h : (q : Q) → W → A q × W)

@[simp] theorem run_ret (a : α) (w : W) : run h (ret a : Prog Q A E α) w = (.ok a, w) := rfl

@[simp] theorem run_raise (e : E) (w : W) : run h (raise e : Prog Q A E α) w = (.error e, w) := rfl

@[simp] theorem run_ask (q : Q) (k : A q → Prog Q A E α) (w : W) :
    run h (ask q k) w = run h (k (h q w).1) (h q w).2 := rfl

theorem run_bind (p : Prog Q A E α) (f : α → Prog Q A E β) (w : W) :
    run h (p.bind f) w = match run h p w with
      | (.ok a, w') => run h (f a) w'
      | (.error e, w') => (.error e, w') := by
  induction p generalizing w with
  | ret a => rfl
  | raise e => rfl
  | ask q k ih => exact ih _ _

theorem run_bind_ok {p : Prog Q A E α} {f : α → Prog Q A E β} {w w' : W} {a : α}
    (hp : run h p w = (.ok a, w')) : run h (p.bind f) w = run h (f a) w' := by
  rw [run_bind, hp]

theorem run_bind_error {p : Prog Q A E α} {f : α → Prog Q A E β} {w w' : W} {e : E}
    (hp : run h p w = (.error e, w')) : run h (p.bind f) w = (.error e, w') := by
  rw [run_bind, hp]

theorem run_bind_ret (p : Prog Q A E α) (g : α → β) (w : W) :
    run h (p.bind fun a => .ret (g a)) w = ((run h p w).1.map g, (run h p w).2) := by
  rw [run_bind]
  rcases run h p w with ⟨e | a, w'⟩ <;> rfl

theorem run_tryCatch (p : Prog Q A E α) (f : E → Prog Q A E α) (w : W) :
    run h (p.tryCatch f) w = match run h p w with
      | (.ok a, w') => (.ok a, w')
      | (.error e, w') => run h (f e) w' := by
  induction p generalizing w with
  | ret a => rfl
  | raise e => rfl
  | ask q k ih => exact ih _ _

end Run

/-! ### What a program may request -/

/-- Every request of the tree satisfies `P`, whatever is answered. -/
def Uses (P : Q → Prop) : Prog Q A E α → Prop
  | ret _ => True
  | raise _ => True
  | ask q k => P q ∧ ∀ x, (k x).Uses P

section Uses
variable {P : Q → Prop}

@[simp] theorem uses_ret (a : α) : (ret a : Prog Q A E α).Uses P := trivial

@[simp] theorem uses_raise (e : E) : (raise e : Prog Q A E α).Uses P := trivial

theorem uses_true (p : Prog Q A E α) : p.Uses fun _ => True := by
  induction p with
  | ret a => trivial
  | raise e => trivial
  | ask q k ih => exact ⟨trivial, ih⟩

theorem Uses.bind {p : Prog Q A E α} {f : α → Prog Q A E β} (hp : p.Uses P)
    (hf : ∀ a, (f a).Uses P) : (p.bind f).Uses P := by
  induction p with
  | ret a => exact hf a
  | raise e => trivial
  | ask q k ih => exact ⟨hp.1, fun x => ih x (hp.2 x)⟩

theorem Uses.tryCatch {p : Prog Q A E α} {f : E → Prog Q A E α} (hp : p.Uses P)
    (hf : ∀ e, (f e).Uses P) : (p.tryCatch f).Uses P := by
  induction p with
  | ret a => trivial
  | raise e => exact hf e
  | ask q k ih => exact ⟨hp.1, fun x => ih x (hp.2 x)⟩

theorem Uses.mono {P' : Q → Prop} {p : Prog Q A E α} (hp : p.Uses P) (hPP : ∀ q, P q → P' q) :
    p.Uses P' := by
  induction p with
  | ret a => trivial
  | raise e => trivial
  | ask q k ih => exact ⟨hPP q hp.1, fun x => ih x (hp.2 x)⟩

/-- What every permitted request preserves is preserved by the whole run. -/
theorem Uses.run_invariant {h : (q : Q) → W → A q × W} {I : W → Prop} {p : Prog Q A E α}
    (hp : p.Uses P) (step : ∀ q w, P q → I w → I (h q w).2) {w : W} (hw : I w) :
    I (run h p w).2 := by
  induction p generalizing w with
  | ret a => exact hw
  | raise e => exact hw
  | ask q k ih => exact ih _ (hp.2 _) (step q w hp.1 hw)

/-- Servers that agree on the requests of a program run it alike. -/
theorem Uses.run_congr {h h' : (q : Q) → W → A q × W} {p : Prog Q A E α} (hp : p.Uses P)
    (heq : ∀ q w, P q → h q w = h' q w) (w : W) : run h p w = run h' p w := by
  induction p generalizing w with
  | ret a => rfl
  | raise e => rfl
  | ask q k ih => rw [run_ask, run_ask, heq q w hp.1, ih _ (hp.2 _)]

/-- Worlds that look alike to every permitted request look alike to the program. -/
theorem Uses.run_alike {h : (q : Q) → W → A q × W} {R : W → W → Prop} {p : Prog Q A E α}
    (hp : p.Uses P)
    (step : ∀ q w w', P q → R w w' → (h q w).1 = (h q w').1 ∧ R (h q w).2 (h q w').2)
    {w w' : W} (hw : R w w') :
    (run h p w).1 = (run h p w').1 ∧ R (run h p w).2 (run h p w').2 := by
  induction p generalizing w w' with
  | ret a => exact ⟨rfl, hw⟩
  | raise e => exact ⟨rfl, hw⟩
  | ask q k ih =>
    obtain ⟨hans, hnext⟩ := step q w w' hp.1 hw
    rw [run_ask, run_ask, ← hans]
    exact ih _ (hp.2 _) hnext

end Uses

end Prog

/-! ### Sequences of steps -/

section Ran
variable {Λ G : Type} (step : Λ → W → W) (ok : W → Λ → Prop) (note : W → Λ → G → G)

/-- The worlds reached from `w₀` by steps that are permitted in the world they are
taken in, with a note kept of what has been done. -/
inductive Ran (w₀ : W) (g₀ : G) : W → G → Prop
  | init : Ran w₀ g₀ w₀ g₀
  | next {w : W} {g : G} (l : Λ) (h : Ran w₀ g₀ w g) (hl : ok w l) :
      Ran w₀ g₀ (step l w) (note w l g)

/-- Take a list of steps. -/
def takeAll : List Λ → W × G → W × G
  | [], s => s
  | l :: ls, s => takeAll ls (step l s.1, note s.1 l s.2)

/-- The test succeeds at every step of the list, in the world the step is taken in. -/
def accepts (test : W → Λ → Bool) : List Λ → W → Bool
  | [], _ => true
  | l :: ls, w => test w l && accepts test ls (step l w)

variable {step ok note} {w₀ w : W} {g₀ g : G}

theorem ran_of_accepts {test : W → Λ → Bool} {ls : List Λ} (htest : ∀ l ∈ ls, ∀ w, test w l = true → ok w l)
    (hls : accepts step test ls w = true) (h : Ran step ok note w₀ g₀ w g) :
    Ran step ok note w₀ g₀ (takeAll step note ls (w, g)).1 (takeAll step note ls (w, g)).2 := by
  induction ls generalizing w g with
  | nil => exact h
  | cons l ls ih =>
    rw [accepts, Bool.and_eq_true] at hls
    exact ih (fun l' hl' => htest l' (by simp [hl'])) hls.2 (h.next l (htest l (by simp) w hls.1))

theorem ran_takeAll {ls : List Λ} (hls : ∀ l ∈ ls, ∀ w, ok w l) (h : Ran step ok note w₀ g₀ w g) :
    Ran step ok note w₀ g₀ (takeAll step note ls (w, g)).1 (takeAll step note ls (w, g)).2 := by
  induction ls generalizing w g with
  | nil => exact h
  | cons l ls ih => exact ih (fun l' hl' => hls l' (by simp [hl'])) (h.next l (hls l (by simp) w))

/-- What every permitted step preserves holds in every world reached. -/
theorem Ran.invariant {I : W → G → Prop} (h : Ran step ok note w₀ g₀ w g) (h₀ : I w₀ g₀)
    (hstep : ∀ w g l, I w g → ok w l → I (step l w) (note w l g)) : I w g := by
  induction h with
  | init => exact h₀
  | next l _ hl ih => exact hstep _ _ l ih hl

end Ran

/-! ### What a sequence of steps returns -/

section Outputs
variable {Λ O O' W' : Type}

def outputs (step : Λ → W → O × W) : List Λ → W → List O
  | [], _ => []
  | l :: ls, w => (step l w).1 :: outputs step ls (step l w).2

/-- Every step of the list is permitted in the world it is taken in. -/
def Admits (step : Λ → W → O × W) (ok : W → Λ → Prop) : List Λ → W → Prop
  | [], _ => True
  | l :: ls, w => ok w l ∧ Admits step ok ls (step l w).2

theorem admits_of_forall {step : Λ → W → O × W} {ok : W → Λ → Prop} {ls : List Λ}
    (h : ∀ l ∈ ls, ∀ w, ok w l) (w : W) : Admits step ok ls w := by
  induction ls generalizing w with
  | nil => trivial
  | cons l ls ih => exact ⟨h l (by simp) w, ih (fun l' hl' => h l' (by simp [hl'])) _⟩

/-- Simulation: steps that keep two worlds related and return related values do so
over whole sequences. -/
theorem outputs_forall₂ {step : Λ → W → O × W} {step' : Λ → W' → O' × W'} {ok : W → Λ → Prop}
    {R : W → W' → Prop} {S : O → O' → Prop}
    (hstep : ∀ l w w', ok w l → R w w' →
      S (step l w).1 (step' l w').1 ∧ R (step l w).2 (step' l w').2)
    {ls : List Λ} {w : W} {w' : W'} (hok : Admits step ok ls w) (hw : R w w') :
    List.Forall₂ S (outputs step ls w) (outputs step' ls w') := by
  induction ls generalizing w w' with
  | nil => exact .nil
  | cons l ls ih =>
    obtain ⟨hout, hnext⟩ := hstep l w w' hok.1 hw
    exact .cons hout (ih hok.2 hnext)

end Outputs

section Fallible
variable {β : Type}

/-- A function that may fail, at all elements of a list: it fails at one of them, or not at all. -/
theorem mapM_cases (f : α → Except E β) (l : List α) :
    (∃ ys, l.mapM f = .ok ys ∧ List.Forall₂ (fun x y => f x = .ok y) l ys) ∨
      ∃ x ∈ l, ∃ e, f x = .error e ∧ l.mapM f = .error e := by
  induction l with
  | nil => exact .inl ⟨[], rfl, .nil⟩
  | cons x l ih =>
    rw [List.mapM_cons]
    cases hx : f x with
    | error e => exact .inr ⟨x, by simp, e, hx, rfl⟩
    | ok y =>
      rcases ih with ⟨ys, hys, hall⟩ | ⟨x', hx', e, he, hl⟩
      · rw [hys]
        exact .inl ⟨y :: ys, rfl, .cons hx hall⟩
      · rw [hl]
        exact .inr ⟨x', by simp [hx'], e, he, rfl⟩

theorem forall₂_of_mapM {f : α → Except E β} {l : List α} {ys : List β} (h : l.mapM f = .ok ys) :
    List.Forall₂ (fun x y => f x = .ok y) l ys := by
  rcases mapM_cases f l with ⟨ys', hys, hall⟩ | ⟨x, -, e, -, herr⟩
  · cases h.symm.trans hys
    exact hall
  · cases h.symm.trans herr

theorem exists_of_forall₂ {R : α → β → Prop} {l : List α} {l' : List β} (h : List.Forall₂ R l l') {y : β} (hy : y ∈ l') :
    ∃ x ∈ l, R x y := by
  induction h with
  | nil => cases hy
  | cons hxy _ ih =>
    rcases List.mem_cons.mp hy with rfl | hy
    · exact ⟨_, List.mem_cons_self, hxy⟩
    · obtain ⟨x, hx, hR⟩ := ih hy
      exact ⟨x, List.mem_cons_of_mem _ hx, hR⟩

theorem exists_mapM {f : α → Except E β} {l : List α} (h : ∀ x ∈ l, ∃ y, f x = .ok y) : ∃ ys, l.mapM f = .ok ys := by
  rcases mapM_cases f l with ⟨ys, hys, -⟩ | ⟨x, hx, e, he, -⟩
  · exact ⟨ys, hys⟩
  · obtain ⟨y, hy⟩ := h x hx
    cases he.symm.trans hy

end Fallible

end AdkAerospike.Program
