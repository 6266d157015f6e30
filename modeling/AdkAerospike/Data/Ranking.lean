import Mathlib.Data.List.Perm.Basic

/-! The first elements of a list in order of rank. The order is total but elements may
be equal in rank, so what is chosen is not unique; it is described by what it holds and
by what it leaves out. -/

namespace AdkAerospike.Data

variable {α β : Type}

/-- The `k` elements that come first; elements of equal rank stay in order. -/
def best (le : α → α → Bool) (k : ℕ) (l : List α) : List α := (l.mergeSort le).take k

section Best
variable {le : α → α → Bool} {k : ℕ} {l : List α} {x y : α}

theorem length_best : (best le k l).length = min k l.length := by
  rw [best, List.length_take, List.length_mergeSort]

theorem mem_of_mem_best (h : x ∈ best le k l) : x ∈ l :=
  List.mem_mergeSort.mp (List.mem_of_mem_take h)

theorem nodup_best (h : l.Nodup) : (best le k l).Nodup :=
  ((List.mergeSort_perm l le).nodup_iff.mpr h).sublist (List.take_sublist k _)

/-- Ranking commutes with a map that keeps ranks. -/
theorem map_best {le' : β → β → Bool} {f : α → β} (h : ∀ x ∈ l, ∀ y ∈ l, le x y = le' (f x) (f y)) :
    (best le k l).map f = best le' k (l.map f) := by
  rw [best, best, List.map_take, List.map_mergeSort h]

variable (htrans : ∀ x y z, le x y → le y z → le x z) (htotal : ∀ x y, le x y || le y x)
include htrans htotal

theorem pairwise_best : (best le k l).Pairwise fun x y => le x y :=
  (List.pairwise_mergeSort htrans htotal l).sublist (List.take_sublist k _)

/-- What is chosen ranks no lower than what is left out. -/
theorem le_of_mem_best (hx : x ∈ best le k l) (hy : y ∈ l) (hleft : y ∉ best le k l) : le x y := by
  have hsorted := List.pairwise_mergeSort htrans htotal l
  rw [← List.take_append_drop k (l.mergeSort le), List.pairwise_append] at hsorted
  refine hsorted.2.2 x hx y ?_
  have hmem : y ∈ l.mergeSort le := List.mem_mergeSort.mpr hy
  rw [← List.take_append_drop k (l.mergeSort le), List.mem_append] at hmem
  exact hmem.resolve_left hleft

/-- An element that no other one may go before comes first. -/
theorem best_eq_cons (hx : x ∈ l) (hfirst : ∀ y ∈ l, y ≠ x → ¬ le y x) (hk : 0 < k) :
    ∃ rest, best le k l = x :: rest := by
  have hmem : x ∈ l.mergeSort le := List.mem_mergeSort.mpr hx
  have hsorted := List.pairwise_mergeSort htrans htotal l
  have hsub : ∀ y ∈ l.mergeSort le, y ∈ l := fun y hy => List.mem_mergeSort.mp hy
  obtain ⟨n, rfl⟩ : ∃ n, k = n + 1 := ⟨k - 1, by omega⟩
  rw [best]
  cases hl : l.mergeSort le with
  | nil =>
    rw [hl] at hmem
    cases hmem
  | cons y ys =>
    rw [hl] at hmem hsorted hsub
    rcases List.mem_cons.mp hmem with rfl | hmem
    · exact ⟨ys.take n, rfl⟩
    · by_cases hyx : y = x
      · exact ⟨ys.take n, by rw [hyx, List.take_succ_cons]⟩
      · exact absurd ((List.pairwise_cons.mp hsorted).1 x hmem) (hfirst y (hsub y (by simp)) hyx)

end Best

end AdkAerospike.Data
