import AdkAerospike.Data.Text

/-! The UTF-8 encoding keeps the order of strings: bytes compare as the code points
that they encode, so a server that compares bytes sees the order of `Str`. -/

namespace AdkAerospike.Data

/-- The bytes of a string. -/
def utf8 (s : Str) : List UInt8 := s.flatMap String.utf8EncodeChar

@[simp] theorem utf8_nil : utf8 [] = [] := rfl

@[simp] theorem utf8_cons (c : Char) (s : Str) : utf8 (c :: s) = String.utf8EncodeChar c ++ utf8 s := rfl

/-- Bytes are compared from the left on. -/
theorem byte_cons_lt {m n : ℕ} {x y : List UInt8} (hn : n < 256) (h : ¬ m < n → m = n ∧ x < y) :
    UInt8.ofNat m :: x < UInt8.ofNat n :: y := by
  rw [List.cons_lt_cons_iff]
  by_cases hlt : m < n
  · left
    rw [UInt8.lt_iff_toNat_lt, UInt8.toNat_ofNat_of_lt' (hlt.trans hn), UInt8.toNat_ofNat_of_lt' hn]
    exact hlt
  · obtain ⟨rfl, hxy⟩ := h hlt
    exact .inr ⟨rfl, hxy⟩

/-- The first byte tells how many follow; from there on the bytes are digits to the base 64. -/
theorem encode_lt {c d : Char} (h : c < d) (x y : List UInt8) :
    String.utf8EncodeChar c ++ x < String.utf8EncodeChar d ++ y := by
  have hlt : c.val.toNat < d.val.toNat := h
  have hd : d.val.toNat < 1114112 := by
    have hvalid := d.valid
    unfold UInt32.isValidChar Nat.isValidChar at hvalid
    omega
  have hdigits : ∀ k : ℕ, k / 4096 = k / 64 / 64 ∧ k / 262144 = k / 64 / 64 / 64 := fun k => by omega
  unfold String.utf8EncodeChar
  simp only [hdigits]
  generalize c.val.toNat = m at hlt
  generalize d.val.toNat = n at hlt hd
  have hfirst : ∀ {i j : ℕ} {x y : List UInt8}, j < 256 → i < j → UInt8.ofNat i :: x < UInt8.ofNat j :: y :=
    fun hj hij => byte_cons_lt hj fun hnot => absurd hij hnot
  split_ifs
  all_goals simp only [List.cons_append, List.nil_append]
  -- left are the pairs of characters with as many bytes each, but one
  all_goals first
    | exfalso; omega
    | exact hfirst (by omega) (by omega)
    | skip
  · exact byte_cons_lt (by omega) fun _ => ⟨by omega, hfirst (by omega) (by omega)⟩
  · refine byte_cons_lt (by omega) fun _ => ⟨by omega, ?_⟩
    exact byte_cons_lt (by omega) fun _ => ⟨by omega, hfirst (by omega) (by omega)⟩
  · refine byte_cons_lt (by omega) fun _ => ⟨by omega, ?_⟩
    refine byte_cons_lt (by omega) fun _ => ⟨by omega, ?_⟩
    exact byte_cons_lt (by omega) fun _ => ⟨by omega, hfirst (by omega) (by omega)⟩

theorem append_lt_append_left_iff (z : List UInt8) {x y : List UInt8} : z ++ x < z ++ y ↔ x < y := by
  induction z with
  | nil => rfl
  | cons b z ih => simp [ih]

theorem utf8_lt {s t : Str} (h : s < t) : utf8 s < utf8 t := by
  induction s generalizing t with
  | nil =>
    cases t with
    | nil => exact absurd h (lt_irrefl _)
    | cons d t =>
      obtain ⟨b, x, hb⟩ := List.exists_cons_of_ne_nil (String.utf8EncodeChar_ne_nil (c := d))
      rw [utf8_nil, utf8_cons, hb]
      exact List.nil_lt_cons b (x ++ utf8 t)
  | cons c s ih =>
    cases t with
    | nil => cases h
    | cons d t =>
      rw [List.cons_lt_cons_iff] at h
      rcases h with hlt | ⟨rfl, hst⟩
      · exact encode_lt hlt _ _
      · exact (append_lt_append_left_iff _).mpr (ih hst)

theorem utf8_lt_iff {s t : Str} : utf8 s < utf8 t ↔ s < t := by
  refine ⟨fun h => ?_, utf8_lt⟩
  rcases lt_trichotomy s t with hst | rfl | hts
  · exact hst
  · exact absurd h (List.lt_irrefl _)
  · exact absurd h (List.lt_asymm (utf8_lt hts))

theorem utf8_le_iff {s t : Str} : utf8 s ≤ utf8 t ↔ s ≤ t := by
  rw [← List.not_lt, utf8_lt_iff, not_lt]

end AdkAerospike.Data
