import Mathlib.Data.List.Dedup
import AdkAerospike.Program.Pool

/-! Runs in which a call may do the same thing several times. A step counts as a
landing if its request, answered as it is, has a given effect. Ordered by their last
landings, calls keep the order of those that do not overlap: a call that had finished
before another one started comes before it. -/

namespace AdkAerospike.Program.System

variable {Q : Type} {A : Q → Type} {E α W L C : Type} (Y : System Q A E α W L C) (lands : C → Q → W → Bool)

/-- The number of the call that lands by an action. -/
def landing (s : Pool Q A E α W L) : Action L C → List ℕ
  | .spawn _ => []
  | .step i c => match next s i with
    | some q => if lands c q s.world then [i] else []
    | none => []

/-- The landings of a run, in order. -/
def landings : List (Action L C) → Pool Q A E α W L → List ℕ
  | [], _ => []
  | a :: as, s => landing lands s a ++ landings as (Y.act a s)

/-- Call `i` had finished when call `j` started. -/
def Precedes (as : List (Action L C)) (s : Pool Q A E α W L) (i j : ℕ) : Prop :=
  ∃ before l after, as = before ++ .spawn l :: after ∧ j = (Y.run before s).procs.length ∧
    ∃ p, (Y.run before s).procs[i]? = some p ∧ p.prog.finished

variable {Y lands} {s : Pool Q A E α W L} {as : List (Action L C)} {i j : ℕ}

theorem landings_append (as bs : List (Action L C)) (s : Pool Q A E α W L) :
    Y.landings lands (as ++ bs) s = Y.landings lands as s ++ Y.landings lands bs (Y.run as s) := by
  induction as generalizing s with
  | nil => rfl
  | cons a as ih =>
    show landing lands s a ++ Y.landings lands (as ++ bs) (Y.act a s) = _
    rw [ih, landings, List.append_assoc]
    rfl

theorem mem_landing {a : Action L C} (h : i ∈ landing lands s a) :
    ∃ c q, a = .step i c ∧ next s i = some q ∧ lands c q s.world = true := by
  cases a with
  | spawn l => cases h
  | step k c =>
    rw [landing] at h
    cases hq : next s k with
    | none =>
      rw [hq] at h
      cases h
    | some q =>
      simp only [hq] at h
      split_ifs at h with hl
      · obtain rfl := List.mem_singleton.mp h
        exact ⟨c, q, rfl, hq, hl⟩
      · cases h

/-- The calls of a pool stay, under their numbers. -/
theorem calls_prefix_run (as : List (Action L C)) (s : Pool Q A E α W L) : s.calls <+: (Y.run as s).calls := by
  induction as generalizing s with
  | nil => exact List.prefix_rfl
  | cons a as ih =>
    refine List.IsPrefix.trans ?_ (ih (Y.act a s))
    cases a with
    | spawn l =>
      rw [calls_spawn]
      exact List.prefix_append _ _
    | step i c =>
      simp

theorem length_procs_act (a : Action L C) (s : Pool Q A E α W L) : s.procs.length ≤ (Y.act a s).procs.length := by
  rcases act_cases (Y := Y) a s with ⟨l, -, h⟩ | ⟨k, c, -, -, h⟩ | ⟨k, c, l, q, f, -, -, -, h⟩ <;> rw [h] <;> simp

/-- Only a call that has been started lands. -/
theorem lt_of_mem_landings (h : i ∈ Y.landings lands as s) : i < (Y.run as s).procs.length := by
  have hrun : ∀ (as : List (Action L C)) (s : Pool Q A E α W L), s.procs.length ≤ (Y.run as s).procs.length := by
    intro as
    induction as with
    | nil => exact fun s => Nat.le_refl _
    | cons a as ih => exact fun s => Nat.le_trans (length_procs_act a s) (ih _)
  induction as generalizing s with
  | nil => cases h
  | cons a as ih =>
    rcases List.mem_append.mp h with h | h
    · obtain ⟨c, q, -, hq, -⟩ := mem_landing h
      have hi : i < s.procs.length := by
        by_contra hlt
        rw [next, List.getElem?_eq_none (Nat.le_of_not_lt hlt)] at hq
        cases hq
      exact Nat.lt_of_lt_of_le hi (Nat.le_trans (length_procs_act a s) (hrun as _))
    · exact ih h

/-- A call that has finished does not land any more. -/
theorem notMem_landings {p : Proc Q A E α L} (hi : s.procs[i]? = some p) (hp : p.prog.finished) :
    i ∉ Y.landings lands as s := by
  induction as generalizing s with
  | nil => exact List.not_mem_nil
  | cons a as ih =>
    intro h
    rcases List.mem_append.mp h with h | h
    · obtain ⟨c, q, -, hq, -⟩ := mem_landing h
      obtain ⟨l, prog⟩ := p
      cases prog with
      | ask q' k => cases hp
      | ret b => simp [next, hi] at hq
      | raise e => simp [next, hi] at hq
    · exact ih (finished_act hi hp) h

/-- The order of last landings keeps the order of calls that do not overlap. -/
theorem Precedes.sublist (h : Y.Precedes as s i j) (hi : i ∈ Y.landings lands as s) (hj : j ∈ Y.landings lands as s) :
    [i, j].Sublist (Y.landings lands as s).dedup := by
  obtain ⟨before, l, after, rfl, rfl, p, hp, hfin⟩ := h
  rw [landings_append] at hi hj ⊢
  set first := Y.landings lands before s with hfirst
  set rest := Y.landings lands (.spawn l :: after) (Y.run before s) with hrest
  have hirest : i ∉ rest := notMem_landings hp hfin
  have hjrest : (Y.run before s).procs.length ∈ rest := by
    rcases List.mem_append.mp hj with hj | hj
    · exact absurd (lt_of_mem_landings hj) (Nat.lt_irrefl _)
    · exact hj
  obtain ⟨front, hfront⟩ := List.suffix_union_right first rest.dedup
  have hifront : i ∈ front := by
    have hmem : i ∈ front ++ rest.dedup := by
      rw [hfront]
      exact List.mem_union_iff.mpr (.inl ((List.mem_append.mp hi).resolve_right hirest))
    exact (List.mem_append.mp hmem).resolve_right fun h => hirest (List.mem_dedup.mp h)
  rw [List.dedup_append, ← hfront]
  exact (List.singleton_sublist.mpr hifront).append (List.singleton_sublist.mpr (List.mem_dedup.mpr hjrest))

end AdkAerospike.Program.System
