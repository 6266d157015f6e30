import AdkAerospike.Program.Basic

/-! Runs that stop short. A program that runs alone may be cut off after any of its
requests; what holds in every world that the whole run passes through holds wherever
it is cut off. A program may also stop by itself at an answer that it does not handle:
then a request that fails cuts it off, whether or not it has been carried out. -/

namespace AdkAerospike.Program.Prog

variable {Q : Type} {A : Q → Type} {E α β W : Type} {h : (q : Q) → W → A q × W} {I : W → Prop}

@[simp] theorem runFor_zero (p : Prog Q A E α) (w : W) : runFor h 0 p w = (p, w) := by cases p <;> rfl

theorem runFor_add (m n : ℕ) (p : Prog Q A E α) (w : W) :
    runFor h (m + n) p w = runFor h n (runFor h m p w).1 (runFor h m p w).2 := by
  induction m generalizing p w with
  | zero => rw [Nat.zero_add, runFor_zero]
  | succ m ih =>
    rw [Nat.succ_add]
    cases p with
    | ret a => cases n <;> rfl
    | raise e => cases n <;> rfl
    | ask q k => exact ih _ _

/-- What is left to do after some requests comes to the same end. -/
theorem run_runFor (n : ℕ) (p : Prog Q A E α) (w : W) :
    run h (runFor h n p w).1 (runFor h n p w).2 = run h p w := by
  induction n generalizing p w with
  | zero => rw [runFor_zero]
  | succ n ih =>
    cases p with
    | ret a => rfl
    | raise e => rfl
    | ask q k => exact ih _ _

/-- `I` holds in every world that a run alone passes through, the first and the last
included. -/
def Always (h : (q : Q) → W → A q × W) (I : W → Prop) : Prog Q A E α → W → Prop
  | ret _, w => I w
  | raise _, w => I w
  | ask q k, w => I w ∧ Always h I (k (h q w).1) (h q w).2

namespace Always
variable {p : Prog Q A E α} {w : W}

theorem now (hp : Always h I p w) : I w := by
  cases p with
  | ret a => exact hp
  | raise e => exact hp
  | ask q k => exact hp.1

theorem runFor (hp : Always h I p w) (n : ℕ) : I (Prog.runFor h n p w).2 := by
  induction n generalizing p w with
  | zero => cases p <;> exact hp.now
  | succ n ih =>
    cases p with
    | ret a => exact hp
    | raise e => exact hp
    | ask q k => exact ih hp.2

theorem after (hp : Always h I p w) (n : ℕ) : Always h I (Prog.runFor h n p w).1 (Prog.runFor h n p w).2 := by
  induction n generalizing p w with
  | zero => rwa [runFor_zero]
  | succ n ih =>
    cases p with
    | ret a => exact hp
    | raise e => exact hp
    | ask q k => exact ih hp.2

theorem of_runFor (hp : ∀ n, I (Prog.runFor h n p w).2) : Always h I p w := by
  induction p generalizing w with
  | ret a => exact hp 0
  | raise e => exact hp 0
  | ask q k ih => exact ⟨hp 0, ih _ fun n => hp (n + 1)⟩

theorem mono {J : W → Prop} (hp : Always h I p w) (hIJ : ∀ v, I v → J v) : Always h J p w := by
  induction p generalizing w with
  | ret a => exact hIJ w hp
  | raise e => exact hIJ w hp
  | ask q k ih => exact ⟨hIJ w hp.1, ih _ hp.2⟩

/-- Sequencing: the second part starts where the first has ended. -/
theorem bind {f : α → Prog Q A E β} (hp : Always h I p w)
    (hf : ∀ a w', Prog.run h p w = (.ok a, w') → I w' → Always h I (f a) w') :
    Always h I (p.bind f) w := by
  induction p generalizing w with
  | ret a => exact hf a w rfl hp
  | raise e => exact hp
  | ask q k ih => exact ⟨hp.1, ih _ hp.2 hf⟩

end Always

/-- A single request: the first world and the last are all. -/
theorem always_ask {q : Q} {k : A q → Prog Q A E α} {w : W} (hk : ∀ x, (k x).finished) (hfirst : I w)
    (hlast : I (run h (ask q k) w).2) : Always h I (ask q k) w := by
  refine ⟨hfirst, ?_⟩
  rw [run_ask] at hlast
  have hfin := hk (h q w).1
  cases hx : k (h q w).1 with
  | ret a =>
    rw [hx] at hlast
    exact hlast
  | raise e =>
    rw [hx] at hlast
    exact hlast
  | ask q' k' =>
    rw [hx] at hfin
    cases hfin

/-- What every permitted request preserves holds all along. -/
theorem Uses.always {P : Q → Prop} {p : Prog Q A E α} (hp : p.Uses P)
    (step : ∀ q w, P q → I w → I (h q w).2) {w : W} (hw : I w) : Always h I p w := by
  induction p generalizing w with
  | ret a => exact hw
  | raise e => exact hw
  | ask q k ih => exact ⟨hw, ih _ (hp.2 _) (step q w hp.1 hw)⟩

/-! ### Answers that end a program -/

/-- An answer that `bad` lists with an error ends the program with that error. -/
def StopsOn (bad : (q : Q) → A q → E → Prop) : Prog Q A E α → Prop
  | ret _ => True
  | raise _ => True
  | ask q k => ∀ x, (∀ e, bad q x e → k x = raise e) ∧ (k x).StopsOn bad

section StopsOn
variable {bad : (q : Q) → A q → E → Prop} {p : Prog Q A E α} {w : W}

theorem StopsOn.bind {f : α → Prog Q A E β} (hp : p.StopsOn bad) (hf : ∀ a, (f a).StopsOn bad) :
    (p.bind f).StopsOn bad := by
  induction p with
  | ret a => exact hf a
  | raise e => trivial
  | ask q k ih =>
    refine fun x => ⟨fun e he => ?_, ih x (hp x).2⟩
    show (k x).bind f = raise e
    rw [(hp x).1 e he]
    rfl

/-- A handler that lets these errors through. -/
theorem StopsOn.tryCatch {f : E → Prog Q A E α} (hp : p.StopsOn bad) (hf : ∀ e, (f e).StopsOn bad)
    (hpass : ∀ q x e, bad q x e → f e = raise e) : (p.tryCatch f).StopsOn bad := by
  induction p with
  | ret a => trivial
  | raise e => exact hf e
  | ask q k ih =>
    refine fun x => ⟨fun e he => ?_, ih x (hp x).2⟩
    show (k x).tryCatch f = raise e
    rw [(hp x).1 e he]
    exact hpass q x e he

/-- A program that stops at bad answers and returns has not met any. -/
theorem StopsOn.run_eq {h' : (q : Q) → W → A q × W} (hp : p.StopsOn bad)
    (hh : ∀ q w, h q w = h' q w ∨ ∃ e, bad q (h q w).1 e) {a : α} {w' : W} (hrun : run h p w = (.ok a, w')) :
    run h' p w = (.ok a, w') ∧ ∀ n, runFor h n p w = runFor h' n p w := by
  induction p generalizing w with
  | ret b => exact ⟨hrun, fun n => by cases n <;> rfl⟩
  | raise e => cases hrun
  | ask q k ih =>
    rw [run_ask] at hrun
    rcases hh q w with heq | ⟨e, he⟩
    · obtain ⟨hsame, hcut⟩ := ih _ (hp _).2 hrun
      rw [run_ask, ← heq]
      refine ⟨hsame, fun n => ?_⟩
      cases n with
      | zero => rfl
      | succ n =>
        rw [runFor, runFor, ← heq]
        exact hcut n
    · rw [(hp _).1 e he] at hrun
      cases hrun

end StopsOn

/-- Run with the request after the first `n` answered by `fail`. -/
def runFailing (h fail : (q : Q) → W → A q × W) : ℕ → Prog Q A E α → W → Except E α × W
  | _, ret a, w => (.ok a, w)
  | _, raise e, w => (.error e, w)
  | 0, ask q k, w => run h (k (fail q w).1) (fail q w).2
  | n + 1, ask q k, w => runFailing h fail n (k (h q w).1) (h q w).2

/-- A failing request cuts a program off that stops at its answer: before that request
or, if it was carried out, after it. -/
theorem StopsOn.runFailing_snd {bad : (q : Q) → A q → E → Prop} {p : Prog Q A E α} (hp : p.StopsOn bad)
    {fail : (q : Q) → W → A q × W} (hbad : ∀ q w, ∃ e, bad q (fail q w).1 e) {applied : Bool}
    (happlied : ∀ q w, (fail q w).2 = if applied then (h q w).2 else w) (n : ℕ) (w : W) :
    (runFailing h fail n p w).2 = (runFor h (n + applied.toNat) p w).2 := by
  induction n generalizing p w with
  | zero =>
    cases p with
    | ret a => cases applied <;> rfl
    | raise e => cases applied <;> rfl
    | ask q k =>
      obtain ⟨e, he⟩ := hbad q w
      have hstop : (runFailing h fail 0 (ask q k) w).2 = (fail q w).2 := by
        rw [runFailing, (hp _).1 e he]
        rfl
      rw [hstop, happlied]
      cases applied with
      | false => rfl
      | true =>
        show (h q w).2 = (runFor h 0 (k (h q w).1) (h q w).2).2
        rw [runFor_zero]
  | succ n ih =>
    rw [Nat.succ_add]
    cases p with
    | ret a => rfl
    | raise e => rfl
    | ask q k => exact ih (hp (h q w).1).2 (h q w).2

end AdkAerospike.Program.Prog
