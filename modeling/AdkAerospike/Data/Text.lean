import Mathlib.Algebra.Group.Nat.Defs
import Mathlib.Data.List.Basic
import Mathlib.Data.List.Lex
import Mathlib.Data.Char

/-! Strings as lists of code points, ordered lexicographically (which is the byte
order of their UTF-8 encodings), and zero-padded decimals. Numbers padded to one
width compare like the strings that begin with them. -/

namespace AdkAerospike.Data

abbrev Str := List Char

instance : LawfulBEq Str := List.instLawfulBEq

/-- A separator that neither field contains splits a joined string uniquely. -/
theorem append_sep_inj {c : Char} {x y s t : Str} (hx : c ∉ x) (hy : c ∉ y) :
    x ++ c :: s = y ++ c :: t ↔ x = y ∧ s = t := by
  induction x generalizing y with
  | nil =>
    cases y with
    | nil => simp
    | cons b y => simp [show c ≠ b by rintro rfl; simp at hy]
  | cons a x ih =>
    have hac : a ≠ c := by rintro rfl; simp at hx
    cases y with
    | nil => simp [hac]
    | cons b y =>
      have ih := ih (y := y) (fun h => hx (by simp [h])) (fun h => hy (by simp [h]))
      simp only [List.cons_append, List.cons.injEq, ih, and_assoc]

/-- The same for the last separator, when neither of the last fields contains it. -/
theorem append_sep_inj_right {c : Char} {x y s t : Str} (hs : c ∉ s) (ht : c ∉ t) :
    x ++ c :: s = y ++ c :: t ↔ x = y ∧ s = t := by
  have hrev : ∀ u v : Str, (u ++ c :: v).reverse = v.reverse ++ c :: u.reverse := fun u v => by simp
  rw [← List.reverse_inj, hrev, hrev, append_sep_inj (by simpa using hs) (by simpa using ht),
    List.reverse_inj, List.reverse_inj, and_comm]

/-- Fields of equal length decide a comparison before what follows them. -/
theorem append_lt_append_iff {x y s t : Str} (h : x.length = y.length) :
    x ++ s < y ++ t ↔ x < y ∨ x = y ∧ s < t := by
  induction x generalizing y with
  | nil =>
    obtain rfl : y = [] := List.length_eq_zero_iff.mp h.symm
    simp
  | cons a x ih =>
    cases y with
    | nil => simp at h
    | cons b y =>
      have ih := ih (y := y) (by simpa using h)
      simp only [List.cons_append, List.cons_lt_cons_iff, ih, List.cons.injEq]
      tauto

/-! ### Decimals -/

/-- The value of a string of decimal digits. -/
def digitValue (x : Str) : ℕ := Nat.ofDigitChars 10 x 0

def Digits (x : Str) : Prop := ∀ c ∈ x, c.isDigit

instance (x : Str) : Decidable (Digits x) := List.decidableBAll (fun c : Char => c.isDigit = true) x

theorem digitValue_cons (c : Char) (x : Str) :
    digitValue (c :: x) = 10 ^ x.length * (c.toNat - 48) + digitValue x := by
  rw [digitValue, Nat.ofDigitChars_cons, Nat.ofDigitChars_eq_ofDigitChars_zero]
  simp [digitValue]

theorem toNat_of_isDigit {c : Char} (h : c.isDigit) : 48 ≤ c.toNat ∧ c.toNat ≤ 57 := by
  simpa [Char.isDigit, Char.le_def, UInt32.le_iff_toNat_le] using h

theorem Digits.of_cons {c : Char} {x : Str} (h : Digits (c :: x)) :
    (48 ≤ c.toNat ∧ c.toNat ≤ 57) ∧ Digits x :=
  ⟨toNat_of_isDigit (h c (by simp)), fun d hd => h d (by simp [hd])⟩

theorem digitValue_lt {x : Str} (h : Digits x) : digitValue x < 10 ^ x.length := by
  induction x with
  | nil => simp [digitValue]
  | cons c x ih =>
    obtain ⟨hc, hx⟩ := h.of_cons
    have hlt := ih hx
    rw [digitValue_cons, List.length_cons, Nat.pow_succ, Nat.mul_comm _ 10]
    have hmul : 10 ^ x.length * (c.toNat - 48) ≤ 10 ^ x.length * 9 :=
      Nat.mul_le_mul_left _ (by omega)
    omega

/-- Digit strings of one length compare as their values. -/
theorem digits_lt_iff {x y : Str} (hx : Digits x) (hy : Digits y) (h : x.length = y.length) :
    x < y ↔ digitValue x < digitValue y := by
  induction x generalizing y with
  | nil =>
    obtain rfl : y = [] := List.length_eq_zero_iff.mp h.symm
    simp
  | cons a x ih =>
    cases y with
    | nil => simp at h
    | cons b y =>
      have hlen : x.length = y.length := by simpa using h
      obtain ⟨ha, hx⟩ := hx.of_cons
      obtain ⟨hb, hy⟩ := hy.of_cons
      have hvx := digitValue_lt hx
      have hvy := digitValue_lt hy
      rw [List.cons_lt_cons_iff, ih hx hy hlen, digitValue_cons, digitValue_cons, ← hlen]
      rw [← hlen] at hvy
      rcases lt_trichotomy a.toNat b.toNat with hab | hab | hab
      · have hlt : a < b := hab
        have hmul : 10 ^ x.length * (a.toNat - 48) + 10 ^ x.length ≤ 10 ^ x.length * (b.toNat - 48) := by
          rw [← Nat.mul_succ]
          exact Nat.mul_le_mul_left _ (by omega)
        exact ⟨fun _ => by omega, fun _ => .inl hlt⟩
      · obtain rfl : a = b := Char.toNat_inj.mp hab
        simp
      · have hlt : b < a := hab
        have hmul : 10 ^ x.length * (b.toNat - 48) + 10 ^ x.length ≤ 10 ^ x.length * (a.toNat - 48) := by
          rw [← Nat.mul_succ]
          exact Nat.mul_le_mul_left _ (by omega)
        constructor
        · rintro (hab' | ⟨rfl, _⟩)
          · exact absurd hab' hlt.not_gt
          · exact absurd hlt (lt_irrefl _)
        · intro _
          omega

/-- `format(n, "0{w}d")` for a natural number. -/
def padNat (w n : ℕ) : Str :=
  List.replicate (w - (Nat.toDigits 10 n).length) '0' ++ Nat.toDigits 10 n

/-- `format(z, "0{w}d")`: the sign comes first and counts towards the width. -/
def padInt (w : ℕ) : ℤ → Str
  | .ofNat n => padNat w n
  | .negSucc n => '-' :: padNat (w - 1) (n + 1)

theorem padNat_digits (w n : ℕ) : Digits (padNat w n) := by
  intro c hc
  rcases List.mem_append.mp hc with hc | hc
  · rw [List.eq_of_mem_replicate hc]
    decide
  · exact Nat.isDigit_of_mem_toDigits (by decide) (by decide) hc

theorem padNat_ne_nil (w n : ℕ) : padNat w n ≠ [] :=
  List.append_ne_nil_of_right_ne_nil _ Nat.toDigits_ne_nil

@[simp] theorem digitValue_padNat (w n : ℕ) : digitValue (padNat w n) = n := by
  simp [digitValue, padNat, Nat.ofDigitChars_append]

theorem padNat_injective (w : ℕ) : Function.Injective (padNat w) := fun n m h => by
  rw [← digitValue_padNat w n, h, digitValue_padNat]

theorem length_padNat {w n : ℕ} (hw : 0 < w) (hn : n < 10 ^ w) : (padNat w n).length = w := by
  have hle := (Nat.length_toDigits_le_iff (b := 10) (n := n) (by decide) hw).mpr hn
  simp only [padNat, List.length_append, List.length_replicate]
  omega

theorem notMem_of_digits {x : Str} (hx : Digits x) {c : Char} (hc : c.isDigit = false) : c ∉ x :=
  fun h => by simp [hx c h] at hc

theorem notMem_padInt {w : ℕ} {z : ℤ} {c : Char} (hc : c.isDigit = false) (hm : c ≠ '-') :
    c ∉ padInt w z := by
  cases z with
  | ofNat n => exact notMem_of_digits (padNat_digits w n) hc
  | negSucc n =>
    simp only [padInt, List.mem_cons, not_or]
    exact ⟨hm, notMem_of_digits (padNat_digits (w - 1) (n + 1)) hc⟩

theorem padInt_injective (w : ℕ) : Function.Injective (padInt w) := by
  have hminus : ∀ w' n x, padNat w' n ≠ '-' :: x := fun w' n x h =>
    notMem_of_digits (padNat_digits w' n) rfl (h ▸ List.mem_cons_self .. : '-' ∈ padNat w' n)
  intro y z h
  cases y with
  | ofNat n =>
    cases z with
    | ofNat m => rw [padNat_injective w h]
    | negSucc m => exact absurd h (hminus _ _ _)
  | negSucc n =>
    cases z with
    | ofNat m => exact absurd h.symm (hminus _ _ _)
    | negSucc m =>
      have hnm := padNat_injective (w - 1) (List.cons.inj h).2
      rw [Nat.succ.inj hnm]

/-- Numbers that fit a common width compare as the strings that begin with them. -/
theorem padNat_append_lt_iff {w n m : ℕ} (hw : 0 < w) (hn : n < 10 ^ w) (hm : m < 10 ^ w)
    (s t : Str) : padNat w n ++ s < padNat w m ++ t ↔ n < m ∨ n = m ∧ s < t := by
  have hlen : (padNat w n).length = (padNat w m).length := by
    rw [length_padNat hw hn, length_padNat hw hm]
  rw [append_lt_append_iff hlen, digits_lt_iff (padNat_digits w n) (padNat_digits w m) hlen,
    digitValue_padNat, digitValue_padNat, (padNat_injective w).eq_iff]

end AdkAerospike.Data
