import AdkAerospike.Program.Pool

/-! Calls of which at most one returns. A program may return only after a request of it has
been answered in a certain way; if such an answer takes something that stays taken, and is
not given once that is taken, then of all calls with such programs at most one returns,
however they are interleaved. -/

namespace AdkAerospike.Program

variable {Q : Type} {A : Q → Type} {E α β W L C : Type}

namespace Prog

/-- On every path on which the program returns, one of its answers satisfies `P`. -/
def Earns (P : (q : Q) → A q → Prop) : Prog Q A E α → Prop
  | ret _ => False
  | raise _ => True
  | ask q k => ∀ x, P q x ∨ (k x).Earns P

variable {P : (q : Q) → A q → Prop}

/-- A part that earns its end earns the whole's. -/
theorem Earns.bind {p : Prog Q A E α} (hp : p.Earns P) (f : α → Prog Q A E β) : (p.bind f).Earns P := by
  induction p with
  | ret a => exact hp.elim
  | raise e => trivial
  | ask q k ih => exact fun x => (hp x).imp_right (ih x)

theorem Earns.tryCatch {p : Prog Q A E α} {h : E → Prog Q A E α} (hp : p.Earns P) (hh : ∀ e, (h e).Earns P) :
    (p.tryCatch h).Earns P := by
  induction p with
  | ret a => exact hp.elim
  | raise e => exact hh e
  | ask q k ih => exact fun x => (hp x).imp_right (ih x)

end Prog

namespace System
variable (Y : System Q A E α W L C)

/-- What is taken by the answers `P`, and who is out for them. -/
structure Prize (P : (q : Q) → A q → Prop) (ok : Pool Q A E α W L → Action L C → Prop) where
  competes : L → Prop
  Taken : W → Prop
  I : Pool Q A E α W L → Prop
  keep : ∀ s a, I s → ok s a → I (Y.act a s) ∧ (Taken s.world → Taken (Y.act a s).world)
  earns : ∀ l, competes l → (Y.body l).Earns P
  take : ∀ l c q w, P q (Y.serve l c q w).1 → ¬ Taken w ∧ Taken (Y.serve l c q w).2

namespace Prize
variable {Y} {P : (q : Q) → A q → Prop} {ok : Pool Q A E α W L → Action L C → Prop} (Z : Y.Prize P ok)

/-- All that compete have yet to earn their end, but for the one that has taken the prize. -/
def Undecided (s : Pool Q A E α W L) : Prop := ∃ win : Option ℕ, (win.isSome → Z.Taken s.world) ∧
  ∀ (i : ℕ) (p : Proc Q A E α L), s.procs[i]? = some p → Z.competes p.call → win ≠ some i → p.prog.Earns P

theorem undecided_of_nil {s : Pool Q A E α W L} (h : s.procs = []) : Z.Undecided s := by
  refine ⟨none, fun hw => absurd hw (by simp), fun i p hi => ?_⟩
  rw [h] at hi
  cases hi

theorem undecided_act {s : Pool Q A E α W L} {a : Action L C} (hI : Z.I s) (ha : ok s a) (h : Z.Undecided s) :
    Z.Undecided (Y.act a s) := by
  have hstays := (Z.keep s a hI ha).2
  obtain ⟨win, htaken, hearns⟩ := h
  rcases act_cases (Y := Y) a s with ⟨l, rfl, hact⟩ | ⟨i, c, -, -, hact⟩ | ⟨i, c, l, q, k, rfl, hi, -, hact⟩
  · refine ⟨win, fun hw => hstays (htaken hw), ?_⟩
    rw [hact]
    intro j p hj hp hne
    rcases getElem?_concat hj with ⟨hj, -⟩ | ⟨rfl, -⟩
    · exact hearns j p hj hp hne
    · exact Z.earns l hp
  · rw [hact]
    exact ⟨win, htaken, hearns⟩
  · by_cases hwins : P q (Y.serve l c q s.world).1
    · -- the prize is taken now, so nobody has taken it before
      obtain ⟨hfree, hnow⟩ := Z.take l c q s.world hwins
      have hnone : win = none := by
        cases win with
        | none => rfl
        | some j => exact absurd (htaken rfl) hfree
      refine ⟨some i, fun _ => by rw [hact]; exact hnow, ?_⟩
      rw [hact]
      intro j p hj hp hne
      rcases getElem?_set_cases hj with ⟨rfl, -⟩ | ⟨-, hj⟩
      · exact absurd rfl hne
      · exact hearns j p hj hp (by rw [hnone]; simp)
    · refine ⟨win, fun hw => hstays (htaken hw), ?_⟩
      rw [hact]
      intro j p hj hp hne
      rcases getElem?_set_cases hj with ⟨rfl, rfl⟩ | ⟨-, hj⟩
      · exact (hearns j _ hi hp hne _).resolve_left hwins
      · exact hearns j p hj hp hne

/-- At most one of those that compete returns. -/
theorem once {s₀ s : Pool Q A E α W L} (hs : Y.Reach ok s₀ s) (h₀ : Z.I s₀) (hp₀ : s₀.procs = []) {i j : ℕ}
    {l l' : L} {a a' : α} (hi : s.procs[i]? = some ⟨l, .ret a⟩) (hj : s.procs[j]? = some ⟨l', .ret a'⟩)
    (hl : Z.competes l) (hl' : Z.competes l') : i = j := by
  have hrun : Z.I s ∧ Z.Undecided s := hs.invariant (I := fun s => Z.I s ∧ Z.Undecided s)
    ⟨h₀, Z.undecided_of_nil hp₀⟩ fun s a h ha => ⟨(Z.keep s a h.1 ha).1, Z.undecided_act h.1 ha h.2⟩
  obtain ⟨win, -, hearns⟩ := hrun.2
  have hwin : ∀ (k : ℕ) (m : L) (b : α), s.procs[k]? = some ⟨m, .ret b⟩ → Z.competes m → win = some k := fun k m b hk hm => by
    by_contra hne
    exact hearns k _ hk hm hne
  exact Option.some.inj ((hwin i l a hi hl).symm.trans (hwin j l' a' hj hl'))

end Prize

end System

end AdkAerospike.Program
