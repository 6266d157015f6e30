import AdkAerospike.Program.Basic

/-! Programs over two worlds side by side. A program over the requests of one of them
is a program over the requests of both. -/

namespace AdkAerospike.Program

variable {Q Q' : Type} {A : Q → Type} {A' : Q' → Type} {E E' α β W W' : Type}

/-- The answers to the requests of both worlds. -/
abbrev SumAns (A : Q → Type) (A' : Q' → Type) : Q ⊕ Q' → Type := Sum.elim A A'

namespace Prog

/-- A program over the first world. -/
def inl (f : E → E') (g : α → β) : Prog Q A E α → Prog (Q ⊕ Q') (SumAns A A') E' β
  | ret a => ret (g a)
  | raise e => raise (f e)
  | ask q k => ask (.inl q) fun x => inl f g (k x)

/-- A program over the second world. -/
def inr (f : E → E') (g : α → β) : Prog Q' A' E α → Prog (Q ⊕ Q') (SumAns A A') E' β
  | ret a => ret (g a)
  | raise e => raise (f e)
  | ask q k => ask (.inr q) fun x => inr f g (k x)

variable {P : Q → Prop} {P' : Q' → Prop} {f : E → E'} {g : α → β}

theorem Uses.inl {p : Prog Q A E α} (hp : p.Uses P) :
    (Prog.inl f g p : Prog (Q ⊕ Q') (SumAns A A') E' β).Uses (Sum.elim P P') := by
  induction p with
  | ret a => trivial
  | raise e => trivial
  | ask q k ih => exact ⟨hp.1, fun x => ih x (hp.2 x)⟩

theorem Uses.inr {p : Prog Q' A' E α} (hp : p.Uses P') :
    (Prog.inr f g p : Prog (Q ⊕ Q') (SumAns A A') E' β).Uses (Sum.elim P P') := by
  induction p with
  | ret a => trivial
  | raise e => trivial
  | ask q k ih => exact ⟨hp.1, fun x => ih x (hp.2 x)⟩

end Prog

/-- Each world answers its own requests. -/
def serveSum (h : (q : Q) → W → A q × W) (h' : (q : Q') → W' → A' q × W') :
    (q : Q ⊕ Q') → W × W' → SumAns A A' q × (W × W')
  | .inl q, w => ((h q w.1).1, ((h q w.1).2, w.2))
  | .inr q, w => ((h' q w.2).1, (w.1, (h' q w.2).2))

end AdkAerospike.Program
