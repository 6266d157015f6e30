import AdkAerospike.Program.Pool

/-! Programs that trust their answers. A program may rely on what every answer says, and
owes something of its requests and of its end in turn. If the requests of all programs keep
an invariant of the world, and the invariant makes all answers legal, then every call owes
what its own program owes, however the calls are interleaved. -/

namespace AdkAerospike.Program

variable {Q : Type} {A : Q → Type} {E α β W L C : Type}

namespace Prog

/-- As long as the answers are legal, every request satisfies `F` and the end `post`. -/
def Meets (F : Q → Prop) (legal : (q : Q) → A q → Prop) (post : Except E α → Prop) : Prog Q A E α → Prop
  | ret a => post (.ok a)
  | raise e => post (.error e)
  | ask q k => F q ∧ ∀ x, legal q x → (k x).Meets F legal post

section Meets
variable {F : Q → Prop} {legal : (q : Q) → A q → Prop}

theorem Meets.mono {post post' : Except E α → Prop} {p : Prog Q A E α} (hp : p.Meets F legal post)
    (h : ∀ r, post r → post' r) : p.Meets F legal post' := by
  induction p with
  | ret a => exact h _ hp
  | raise e => exact h _ hp
  | ask q k ih => exact ⟨hp.1, fun x hx => ih x (hp.2 x hx)⟩

/-- Sequencing through an assertion between the two parts. -/
theorem Meets.bind {mid : Except E α → Prop} {post : Except E β → Prop} {p : Prog Q A E α} {f : α → Prog Q A E β}
    (hp : p.Meets F legal mid) (hok : ∀ a, mid (.ok a) → (f a).Meets F legal post)
    (herr : ∀ e, mid (.error e) → post (.error e)) : (p.bind f).Meets F legal post := by
  induction p with
  | ret a => exact hok a hp
  | raise e => exact herr e hp
  | ask q k ih => exact ⟨hp.1, fun x hx => ih x (hp.2 x hx)⟩

theorem Meets.tryCatch {mid post : Except E α → Prop} {p : Prog Q A E α} {f : E → Prog Q A E α}
    (hp : p.Meets F legal mid) (hok : ∀ a, mid (.ok a) → post (.ok a))
    (herr : ∀ e, mid (.error e) → (f e).Meets F legal post) : (p.tryCatch f).Meets F legal post := by
  induction p with
  | ret a => exact hok a hp
  | raise e => exact herr e hp
  | ask q k ih => exact ⟨hp.1, fun x hx => ih x (hp.2 x hx)⟩

/-- The value that is returned, if one is, satisfies `R`. -/
def Returns (R : α → Prop) (r : Except E α) : Prop := ∀ a, r = .ok a → R a

/-- Sequencing of programs of which only the value matters. -/
theorem Meets.seq {R : α → Prop} {S : β → Prop} {p : Prog Q A E α} {f : α → Prog Q A E β}
    (hp : p.Meets F legal (Returns R)) (hf : ∀ a, R a → (f a).Meets F legal (Returns S)) :
    (p.bind f).Meets F legal (Returns S) :=
  hp.bind (fun a ha => hf a (ha a rfl)) fun _ _ _ h => by cases h

theorem meets_ret {R : α → Prop} {a : α} (h : R a) :
    (ret a : Prog Q A E α).Meets F legal (Returns R) := fun _ hb => (Except.ok.inj hb) ▸ h

theorem meets_raise (R : α → Prop) (e : E) : (raise e : Prog Q A E α).Meets F legal (Returns R) := fun _ h => by cases h

/-- A program that trusts nothing. -/
theorem Uses.meets {p : Prog Q A E α} (hp : p.Uses F) : p.Meets F legal fun _ => True := by
  induction p with
  | ret a => trivial
  | raise e => trivial
  | ask q k ih => exact ⟨hp.1, fun x _ => ih x (hp.2 x)⟩

theorem Uses.returns {p : Prog Q A E α} (hp : p.Uses F) : p.Meets F legal (Returns fun _ => True) :=
  hp.meets.mono fun _ _ _ _ => trivial

/-- A result that satisfies `P`, or an error that satisfies `E'`. -/
def Yields (P : α → Prop) (E' : E → Prop) : Except E α → Prop
  | .ok a => P a
  | .error e => E' e

end Meets

end Prog

namespace System
variable {Y : System Q A E α W L C} {ok : Pool Q A E α W L → Action L C → Prop} {s₀ s : Pool Q A E α W L}

/-- All calls that are ever started are among those of the last pool. -/
theorem Reach.calling (hs : Y.Reach ok s₀ s) {cs : List L} (hcs : s.calls ⊆ cs) :
    Y.Reach (fun s a => ok s a ∧ ∀ l, a = .spawn l → l ∈ cs) s₀ s := by
  induction hs with
  | init => exact .init
  | @act s a hs ha ih =>
    cases a with
    | spawn l =>
      rw [calls_spawn] at hcs
      obtain ⟨hold, hnew⟩ := List.append_subset.mp hcs
      exact (ih hold).act ⟨ha, fun l' hl' => (Action.spawn.inj hl') ▸ hnew (by simp)⟩
    | step i c =>
      rw [calls_step] at hcs
      exact (ih hcs).act ⟨ha, fun l' hl' => by cases hl'⟩

/-- Calls that meet their contracts do so along every run. -/
theorem Reach.meets {F : Q → Prop} {legal : (q : Q) → A q → Prop} {post : L → Except E α → Prop} {I : W → Prop}
    (hbody : ∀ s l, ok s (.spawn l) → (Y.body l).Meets F legal (post l))
    (hserve : ∀ l c q w, F q → I w → legal q (Y.serve l c q w).1 ∧ I (Y.serve l c q w).2)
    (hs : Y.Reach ok s₀ s) (h₀ : I s₀.world) (hp₀ : s₀.procs = []) :
    I s.world ∧ ∀ (i : ℕ) (p : Proc Q A E α L), s.procs[i]? = some p → p.prog.Meets F legal (post p.call) := by
  refine hs.invariant (I := fun s => I s.world ∧ ∀ (i : ℕ) (p : Proc Q A E α L), s.procs[i]? = some p →
    p.prog.Meets F legal (post p.call)) ⟨h₀, fun i p hi => ?_⟩ ?_
  · rw [hp₀] at hi
    cases hi
  rintro s a ⟨hI, hprogs⟩ ha
  rcases act_cases (Y := Y) a s with ⟨l, rfl, hact⟩ | ⟨i, c, -, -, hact⟩ |
    ⟨i, c, l, q, k, rfl, hi, -, hact⟩ <;> rw [hact]
  · refine ⟨hI, fun j p hj => ?_⟩
    rcases getElem?_concat hj with ⟨hj, -⟩ | ⟨rfl, -⟩
    · exact hprogs j p hj
    · exact hbody s l ha
  · exact ⟨hI, hprogs⟩
  · have hmeets : F q ∧ ∀ x, legal q x → (k x).Meets F legal (post l) := hprogs i _ hi
    obtain ⟨hlegal, hnext⟩ := hserve l c q s.world hmeets.1 hI
    refine ⟨hnext, fun j p hj => ?_⟩
    rcases getElem?_set_cases hj with ⟨rfl, rfl⟩ | ⟨-, hj⟩
    · exact hmeets.2 _ hlegal
    · exact hprogs j p hj

end System

end AdkAerospike.Program
