import AdkAerospike.Program.Basic

/-! What a program still owes. A program that has done the first of two related
writes owes the second: on every path on which it gets good answers it will issue it.
The two predicates here read this off the program tree, so that a pool of programs
can be said to owe what any of its members owes. -/

namespace AdkAerospike.Program.Prog

variable {Q : Type} {A : Q → Type} {E α β : Type}

/-- On every path with good answers the program issues a request that satisfies `P`
before it ends. -/
def Owes (P : Q → Prop) (good : (q : Q) → A q → Prop) : Prog Q A E α → Prop
  | ret _ => False
  | raise _ => False
  | ask q k => P q ∨ ∀ x, good q x → (k x).Owes P good

/-- `R` relates every request of the tree and every answer to it with what follows. -/
def Follows (R : (q : Q) → A q → Prog Q A E α → Prop) : Prog Q A E α → Prop
  | ret _ => True
  | raise _ => True
  | ask q k => ∀ x, R q x (k x) ∧ (k x).Follows R

variable {P : Q → Prop} {good : (q : Q) → A q → Prop} {R : (q : Q) → A q → Prog Q A E α → Prop}

/-- A finished program owes nothing. -/
theorem Owes.not_finished {p : Prog Q A E α} (hp : p.Owes P good) : p.finished = false := by
  cases p with
  | ret a => cases hp
  | raise e => cases hp
  | ask q k => rfl

/-- A good answer to another request leaves the debt. -/
theorem Owes.step {q : Q} {k : A q → Prog Q A E α} (hp : (ask q k).Owes P good) (hq : ¬ P q) {x : A q}
    (hx : good q x) : (k x).Owes P good := hp.resolve_left hq x hx

theorem Uses.follows {F : Q → Prop} {p : Prog Q A E α} (hp : p.Uses F) (hR : ∀ q x p', F q → R q x p') :
    p.Follows R := by
  induction p with
  | ret a => trivial
  | raise e => trivial
  | ask q k ih => exact fun x => ⟨hR q x _ hp.1, ih x (hp.2 x)⟩

end AdkAerospike.Program.Prog
