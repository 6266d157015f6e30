import Mathlib.Data.List.TakeWhile

/-! Cutting a list at the first or at the last occurrence of a separator, and passes over
a list in which no step fails. -/

namespace AdkAerospike.Data

variable {α : Type} [DecidableEq α]

/-- `s.partition(c)`: what stands before the first separator, whether there is one, and
what stands after it. -/
def partition (c : α) (l : List α) : List α × Bool × List α :=
  (l.takeWhile (· ≠ c), decide (c ∈ l), (l.dropWhile (· ≠ c)).tail)

/-- `s.rpartition(c)`: the same at the last separator. Without one, all of the list stands
after it. -/
def rpartition (c : α) (l : List α) : List α × Bool × List α :=
  if c ∈ l then ((partition c l.reverse).2.2.reverse, true, (partition c l.reverse).1.reverse)
  else ([], false, l)

variable {c : α} {x y : List α}

theorem partition_of_notMem (h : c ∉ x) : partition c x = (x, false, []) := by
  have hne : ∀ a ∈ x, decide (a ≠ c) = true := fun a ha => decide_eq_true fun heq => h (heq ▸ ha)
  simp only [partition, List.takeWhile_eq_self_iff.mpr hne, List.dropWhile_eq_nil_iff.mpr hne, h, decide_false,
    List.tail_nil]

theorem partition_append (h : c ∉ x) (y : List α) : partition c (x ++ c :: y) = (x, true, y) := by
  have hne : ∀ a ∈ x, decide (a ≠ c) = true := fun a ha => decide_eq_true fun heq => h (heq ▸ ha)
  simp only [partition, List.takeWhile_append_of_pos hne, List.dropWhile_append_of_pos hne]
  simp

theorem rpartition_of_notMem (h : c ∉ x) : rpartition c x = ([], false, x) := if_neg h

theorem rpartition_append (x : List α) (h : c ∉ y) : rpartition c (x ++ c :: y) = (x, true, y) := by
  have hrev : (x ++ c :: y).reverse = y.reverse ++ c :: x.reverse := by simp
  have hmem : c ∈ x ++ c :: y := by simp
  rw [rpartition, if_pos hmem, hrev, partition_append (by simpa using h)]
  simp

/-- What stands before the first separator does not contain it. -/
theorem notMem_partition_fst (c : α) (l : List α) : c ∉ (partition c l).1 := fun h => by
  simpa using List.mem_takeWhile_imp h

omit [DecidableEq α] in
/-- Words of which neither ends in the other are told apart behind anything. -/
theorem append_inj_of_suffix {p q s t : List α} (h : p ++ s = q ++ t) (hst : s <:+ t → s = t) (hts : t <:+ s → t = s) :
    p = q ∧ s = t := by
  have hs : s = t := by
    rcases List.suffix_or_suffix_of_suffix (List.suffix_append p s) (h ▸ List.suffix_append q t) with hs | hs
    · exact hst hs
    · exact (hts hs).symm
  subst hs
  exact ⟨List.append_cancel_right h, rfl⟩

omit [DecidableEq α] in
theorem mem_intercalate {a : α} {s : List α} {ls : List (List α)} (h : a ∈ s.intercalate ls) :
    a ∈ s ∨ ∃ l ∈ ls, a ∈ l := by
  induction ls with
  | nil => simp at h
  | cons l ls ih =>
    cases ls with
    | nil => exact .inr ⟨l, by simp, by simpa using h⟩
    | cons l' ls =>
      rw [List.intercalate_cons_cons, List.mem_append, List.mem_append] at h
      rcases h with (h | h) | h
      · exact .inr ⟨l, by simp, h⟩
      · exact .inl h
      · exact (ih h).imp_right fun ⟨k, hk, ha⟩ => ⟨k, by simp [hk], ha⟩

omit [DecidableEq α] in
theorem mapM_of_forall {β : Type} {m : Type → Type} [Monad m] [LawfulMonad m] {f : α → m β} {g : α → β} {l : List α}
    (h : ∀ a ∈ l, f a = pure (g a)) : l.mapM f = pure (l.map g) := by
  induction l with
  | nil => simp
  | cons a l ih => simp [h a, ih fun b hb => h b (by simp [hb])]

omit [DecidableEq α] in
/-- A pass that has succeeded has done so at every element. -/
theorem ok_of_mapM {β ε : Type} {f : α → Except ε β} {l : List α} {ys : List β} (h : l.mapM f = .ok ys) :
    ∀ a ∈ l, ∃ b, f a = .ok b := by
  induction l generalizing ys with
  | nil => simp
  | cons a l ih =>
    rw [List.mapM_cons] at h
    cases ha : f a with
    | error e =>
      rw [ha] at h
      cases h
    | ok b =>
      cases hl : l.mapM f with
      | error e =>
        rw [ha, hl] at h
        cases h
      | ok bs => simpa [ha] using ih hl

omit [DecidableEq α] in
/-- What is made of an element is among what a pass has made. -/
theorem mem_of_mapM {β : Type} {f : α → Option β} {l : List α} {ys : List β} (h : l.mapM f = some ys) {a : α}
    (ha : a ∈ l) : ∃ b ∈ ys, f a = some b := by
  induction l generalizing ys with
  | nil => cases ha
  | cons a' l ih =>
    rw [List.mapM_cons] at h
    simp only [Option.bind_eq_bind, Option.pure_def, Option.bind_eq_some_iff, Option.some.injEq] at h
    obtain ⟨b, hb, bs, hbs, rfl⟩ := h
    rcases List.mem_cons.mp ha with rfl | ha
    · exact ⟨b, by simp, hb⟩
    · obtain ⟨b', hb', hfb⟩ := ih hbs ha
      exact ⟨b', by simp [hb'], hfb⟩

end AdkAerospike.Data
