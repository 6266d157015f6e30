import Mathlib.Data.List.SplitBy
import Mathlib.Tactic.IntervalCases
import AdkAerospike.Uri.Library

/-! Reading back what was quoted. In a query a character may stand for itself, a blank may be
a plus sign, and any character may be the bytes of its UTF-8 encoding with a percent sign
before each. However a string is written, it is read back: no boundary between ASCII and
other characters falls inside of the bytes of one character. -/

namespace AdkAerospike.Uri

open Data

/-- Bytes as percent signs with two digits each, in either case. -/
inductive Coded : List ℕ → Str → Prop
  | nil : Coded [] []
  | cons {a b : Char} {m n : ℕ} {bytes : List ℕ} {t : Str} (ha : hexValue a = some m) (hb : hexValue b = some n)
      (h : Coded bytes t) : Coded ((16 * m + n) :: bytes) ('%' :: a :: b :: t)

/-- The bytes of a character. -/
def bytesOf (c : Char) : List ℕ := (String.utf8EncodeChar c).map UInt8.toNat

/-- A string, and one in which some of its characters have been quoted. -/
inductive Quotes : Str → Str → Prop
  | nil : Quotes [] []
  | plain {c : Char} {s t : Str} (hc : c ≠ '%') (h : Quotes s t) : Quotes (c :: s) (c :: t)
  | coded {c : Char} {s t u : Str} (hu : Coded (bytesOf c) u) (h : Quotes s t) : Quotes (c :: s) (u ++ t)

/-! ### Bytes -/

theorem ascii_of_hexValue {c : Char} {n : ℕ} (h : hexValue c = some n) : ascii c = true := by
  have hlt : c.toNat < 128 := by
    unfold hexValue at h
    split_ifs at h with hdigit hlow hhigh
    · have hle := (toNat_of_isDigit hdigit).2
      omega
    · exact Nat.lt_of_le_of_lt (show c.toNat ≤ 102 from hlow.2) (by decide)
    · exact Nat.lt_of_le_of_lt (show c.toNat ≤ 70 from hhigh.2) (by decide)
  exact decide_eq_true hlt

theorem Coded.ascii {bytes : List ℕ} {t : Str} (h : Coded bytes t) : ∀ c ∈ t, Uri.ascii c = true := by
  induction h with
  | nil => simp
  | cons ha hb _ ih =>
    simp only [List.forall_mem_cons]
    exact ⟨by decide, ascii_of_hexValue ha, ascii_of_hexValue hb, ih⟩

theorem unquoteToBytes_coded {bytes : List ℕ} {u : Str} (h : Coded bytes u) (t : Str) :
    unquoteToBytes (u ++ t) = bytes ++ unquoteToBytes t := by
  induction h with
  | nil => rfl
  | cons ha hb _ ih => simp [unquoteToBytes, ha, hb, ih]

theorem unquoteToBytes_plain {c : Char} (hc : c ≠ '%') (t : Str) :
    unquoteToBytes (c :: t) = c.toNat :: unquoteToBytes t := by
  simp [unquoteToBytes, hc]

theorem bytesOf_ne_nil (c : Char) : bytesOf c ≠ [] := by
  simp [bytesOf, String.utf8EncodeChar_ne_nil]

theorem toNat_valid (c : Char) : c.toNat < 0xD800 ∨ 0xDFFF < c.toNat ∧ c.toNat < 0x110000 := c.valid

/-- The digits of a character to the base 64, behind the mark of how many there are. -/
theorem bytesOf_eq (c : Char) : bytesOf c =
    if c.toNat ≤ 0x7F then [c.toNat]
    else if c.toNat ≤ 0x7FF then [0xC0 + c.toNat / 64, 0x80 + c.toNat % 64]
    else if c.toNat ≤ 0xFFFF then [0xE0 + c.toNat / 4096, 0x80 + c.toNat / 64 % 64, 0x80 + c.toNat % 64]
    else [0xF0 + c.toNat / 262144, 0x80 + c.toNat / 4096 % 64, 0x80 + c.toNat / 64 % 64, 0x80 + c.toNat % 64] := by
  have hvalid := toNat_valid c
  have hval : c.val.toNat = c.toNat := rfl
  change List.map UInt8.toNat (if c.toNat ≤ 0x7F then _ else if c.toNat ≤ 0x7FF then _
    else if c.toNat ≤ 0xFFFF then _ else _) = _
  split_ifs
  all_goals
    simp only [List.map_cons, List.map_nil, UInt8.toNat_ofNat', List.cons.injEq, and_true]
    omega

theorem decodeReplace_ascii {c : Char} (hc : c.toNat < 128) (bs : List ℕ) :
    decodeReplace none (c.toNat :: bs) = c :: decodeReplace none bs := by
  simp [decodeReplace, lead, hc]

/-- A byte that goes on with a sequence but does not end it. -/
theorem decodeReplace_go {need low high value b : ℕ} (hlow : low ≤ b) (hhigh : b ≤ high) (bs : List ℕ) :
    decodeReplace (some ⟨need + 2, low, high, value⟩) (b :: bs) =
      decodeReplace (some ⟨need + 1, 0x80, 0xBF, 64 * value + (b - 0x80)⟩) bs := by
  simp [decodeReplace, Pending.next, hlow, hhigh]

/-- The last byte of a sequence. -/
theorem decodeReplace_last {low high value b : ℕ} (hlow : low ≤ b) (hhigh : b ≤ high) (bs : List ℕ) :
    decodeReplace (some ⟨1, low, high, value⟩) (b :: bs) =
      Char.ofNat (64 * value + (b - 0x80)) :: decodeReplace none bs := by
  simp [decodeReplace, Pending.next, hlow, hhigh]

theorem decodeReplace_lead {b : ℕ} {p : Pending} (h : lead b = ([], some p)) (bs : List ℕ) :
    decodeReplace none (b :: bs) = decodeReplace (some p) bs := by
  simp [decodeReplace, h]

/-- A character of three bytes is not one that two are enough for, and no surrogate. -/
theorem lead_three {n : ℕ} (hn : n < 16) : lead (0xE0 + n) =
    ([], some ⟨2, if n = 0 then 0xA0 else 0x80, if n = 13 then 0x9F else 0xBF, n⟩) := by
  interval_cases n <;> rfl

/-- A character of four bytes is not one that three are enough for, and not too large. -/
theorem lead_four {n : ℕ} (hn : n < 5) : lead (0xF0 + n) =
    ([], some ⟨3, if n = 0 then 0x90 else 0x80, if n = 4 then 0x8F else 0xBF, n⟩) := by
  interval_cases n <;> rfl

/-- The bytes of a character are read as that character. -/
theorem decodeReplace_bytesOf (c : Char) (bs : List ℕ) :
    decodeReplace none (bytesOf c ++ bs) = c :: decodeReplace none bs := by
  have hvalid := toNat_valid c
  have hchar : ∀ n, n = c.toNat → Char.ofNat n = c := fun n hn => by rw [hn, Char.ofNat_toNat]
  have hlast : ∀ {low high value b}, low ≤ b → b ≤ high → 64 * value + (b - 0x80) = c.toNat →
      decodeReplace (some ⟨1, low, high, value⟩) (b :: bs) = c :: decodeReplace none bs := fun hlow hhigh heq => by
    rw [decodeReplace_last hlow hhigh, hchar _ heq]
  rw [bytesOf_eq]
  generalize hv : c.toNat = v at *
  split_ifs with h1 h2 h3
  all_goals simp only [List.cons_append, List.nil_append]
  · rw [← hv]
    exact decodeReplace_ascii (by omega) bs
  · have hlead : lead (0xC0 + v / 64) = ([], some ⟨1, 0x80, 0xBF, 0xC0 + v / 64 - 0xC0⟩) := by
      rw [lead, if_neg (by omega), if_pos (by omega)]
    rw [decodeReplace_lead hlead]
    exact hlast (by omega) (by omega) (by omega)
  · rw [decodeReplace_lead (lead_three (n := v / 4096) (by omega)),
      decodeReplace_go (by split_ifs <;> omega) (by split_ifs <;> omega)]
    exact hlast (by omega) (by omega) (by omega)
  · rw [decodeReplace_lead (lead_four (n := v / 262144) (by omega)),
      decodeReplace_go (by split_ifs <;> omega) (by split_ifs <;> omega), decodeReplace_go (by omega) (by omega)]
    exact hlast (by omega) (by omega) (by omega)

/-! ### Runs -/

/-- No ASCII character is next to another one. -/
def Apart (u v : Str) : Prop := ∀ a ∈ u.getLast?, ∀ b ∈ v.head?, ascii a ≠ ascii b

theorem Apart.of_append {w u v : Str} (h : Apart (w ++ u) v) : Apart u v := fun a ha => h a (by
  rw [List.getLast?_append, Option.mem_def.mp ha]
  rfl)

/-- Between ASCII and other characters, a quoted string can be cut. -/
theorem Quotes.cut {s t : Str} (h : Quotes s t) {u v : Str} (htext : t = u ++ v) (hapart : Apart u v) :
    ∃ x y, s = x ++ y ∧ Quotes x u ∧ Quotes y v := by
  induction h generalizing u with
  | nil =>
    obtain ⟨rfl, rfl⟩ := List.append_eq_nil_iff.mp htext.symm
    exact ⟨[], [], rfl, .nil, .nil⟩
  | @plain c s t hc h ih =>
    cases u with
    | nil =>
      obtain rfl : c :: t = v := htext
      exact ⟨[], c :: s, rfl, .nil, .plain hc h⟩
    | cons d u =>
      obtain ⟨rfl, rfl⟩ := List.cons.inj htext
      obtain ⟨x, y, rfl, hx, hy⟩ := ih rfl (Apart.of_append (w := [c]) hapart)
      exact ⟨c :: x, y, rfl, .plain hc hx, hy⟩
  | @coded c s t w hw h ih =>
    rcases List.append_eq_append_iff.mp htext with ⟨u', rfl, rfl⟩ | ⟨w', rfl, rfl⟩
    · obtain ⟨x, y, rfl, hx, hy⟩ := ih rfl hapart.of_append
      exact ⟨c :: x, y, rfl, .coded hw hx, hy⟩
    · -- the cut is inside of the bytes of a character, which are all ASCII
      rcases u.eq_nil_or_concat with rfl | ⟨u, a, rfl⟩
      · exact ⟨[], c :: s, rfl, .nil, .coded hw h⟩
      cases w' with
      | nil => exact ⟨[c], s, rfl, by simpa using Quotes.coded hw .nil, h⟩
      | cons b w' =>
        have ha : ascii a = true := hw.ascii a (by simp)
        have hb : ascii b = true := hw.ascii b (by simp)
        exact absurd (ha.trans hb.symm) (hapart a (by simp) b rfl)

/-- ASCII is decoded. -/
theorem Quotes.decode {s t : Str} (h : Quotes s t) (hascii : ∀ c ∈ t, ascii c = true) :
    decodeReplace none (unquoteToBytes t) = s := by
  induction h with
  | nil => rfl
  | plain hc h ih =>
    obtain ⟨hlt, hrest⟩ := List.forall_mem_cons.mp hascii
    rw [unquoteToBytes_plain hc, decodeReplace_ascii (of_decide_eq_true hlt), ih hrest]
  | coded hu h ih =>
    rw [unquoteToBytes_coded hu, decodeReplace_bytesOf, ih fun c hc => hascii c (List.mem_append_right _ hc)]

/-- Everything else stands for itself. -/
theorem Quotes.verbatim {s t : Str} (h : Quotes s t) (hother : ∀ c ∈ t, ascii c = false) : t = s := by
  induction h with
  | nil => rfl
  | plain hc h ih => rw [ih (List.forall_mem_cons.mp hother).2]
  | @coded c s t u hu h ih =>
    cases hbytes : bytesOf c with
    | nil => exact absurd hbytes (bytesOf_ne_nil c)
    | cons b bytes =>
      rw [hbytes] at hu
      cases hu
      simp [ascii] at hother

/-- A run is of one kind. -/
theorem kind_of_chain {u : Str} (h : u.IsChain fun a b => decide (ascii a = ascii b) = true) :
    (∀ c ∈ u, ascii c = true) ∨ ∀ c ∈ u, ascii c = false := by
  induction u with
  | nil => simp
  | cons a u ih =>
    cases u with
    | nil => cases hkind : ascii a <;> simp [hkind]
    | cons b u =>
      have hab : ascii a = ascii b := by simpa using (List.isChain_cons_cons.mp h).1
      rcases ih (List.isChain_cons_cons.mp h).2 with hall | hall
      · exact .inl (List.forall_mem_cons.mpr ⟨hab.trans (hall b (List.mem_cons_self ..)), hall⟩)
      · exact .inr (List.forall_mem_cons.mpr ⟨hab.trans (hall b (List.mem_cons_self ..)), hall⟩)

theorem Apart.flatten {u : Str} {us : List Str} (hne : ∀ v ∈ us, v ≠ []) (h : (u :: us).IsChain Apart) :
    Apart u us.flatten := by
  cases us with
  | nil => exact fun a _ b hb => by cases hb
  | cons v us =>
    obtain ⟨b, v, rfl⟩ := List.exists_cons_of_ne_nil (hne v (List.mem_cons_self ..))
    exact (List.isChain_cons_cons.mp h).1

/-- Each run is decoded by itself. -/
theorem Quotes.runs {s : Str} {us : List Str} (h : Quotes s us.flatten) (hne : ∀ u ∈ us, u ≠ [])
    (hkind : ∀ u ∈ us, u.IsChain fun a b => decide (ascii a = ascii b) = true) (hchain : us.IsChain Apart) :
    (us.flatMap fun u => if u.all ascii then decodeReplace none (unquoteToBytes u) else u) = s := by
  induction us generalizing s with
  | nil => exact h.verbatim (by simp)
  | cons u us ih =>
    have hne' : ∀ v ∈ us, v ≠ [] := fun v hv => hne v (List.mem_cons_of_mem _ hv)
    obtain ⟨x, y, rfl, hx, hy⟩ := h.cut List.flatten_cons (.flatten hne' hchain)
    have hrest := ih hy hne' (fun v hv => hkind v (List.mem_cons_of_mem _ hv)) hchain.tail
    rw [List.flatMap_cons, hrest]
    congr 1
    rcases kind_of_chain (hkind u (List.mem_cons_self ..)) with hall | hall
    · rw [if_pos (List.all_eq_true.mpr hall), hx.decode hall]
    · obtain ⟨a, v, rfl⟩ := List.exists_cons_of_ne_nil (hne u (List.mem_cons_self ..))
      rw [if_neg (by simp [hall a (List.mem_cons_self ..)]), hx.verbatim hall]

/-- What was quoted is read back. -/
theorem Quotes.unquote {s t : Str} (h : Quotes s t) : Uri.unquote t = s := by
  have hjoin : (t.splitBy fun a b => decide (ascii a = ascii b)).flatten = t := List.flatten_splitBy ..
  rw [← hjoin] at h
  refine h.runs (fun u hu => List.ne_nil_of_mem_splitBy hu) (fun u hu => List.isChain_of_mem_splitBy hu) ?_
  refine (List.isChain_getLast_head_splitBy _ t).imp fun u v ⟨hu, hv, hdiffer⟩ a ha b hb => ?_
  rw [List.getLast?_eq_some_getLast hu, Option.mem_some_iff] at ha
  rw [List.head?_eq_some_head hv, Option.mem_some_iff] at hb
  rw [← ha, ← hb]
  exact of_decide_eq_false hdiffer

/-! ### Queries -/

/-- A string, and a way to write it in a query. -/
inductive Spells : Str → Str → Prop
  | nil : Spells [] []
  | plain {c : Char} {s t : Str} (hc : c ∉ ['%', '+', '&', '#', '\t', '\r', '\n']) (h : Spells s t) :
    Spells (c :: s) (c :: t)
  | plus {s t : Str} (h : Spells s t) : Spells (' ' :: s) ('+' :: t)
  | coded {c : Char} {s t u : Str} (hu : Coded (bytesOf c) u) (h : Spells s t) : Spells (c :: s) (u ++ t)

theorem Coded.map_plus {bytes : List ℕ} {t : Str} (h : Coded bytes t) :
    (t.map fun c => if c = '+' then ' ' else c) = t := by
  have hne : ∀ {c n}, hexValue c = some n → c ≠ '+' := fun hc heq => by
    rw [heq] at hc
    cases hc
  induction h with
  | nil => rfl
  | cons ha hb _ ih => simp [hne ha, hne hb, ih]

/-- What was spelled is read back. -/
theorem Spells.unquotePlus {s t : Str} (h : Spells s t) : Uri.unquotePlus t = s := by
  refine Quotes.unquote ?_
  induction h with
  | nil => exact .nil
  | @plain c s t hc h ih =>
    have hplus : c ≠ '+' := fun heq => hc (by simp [heq])
    rw [List.map_cons, if_neg hplus]
    exact .plain (fun heq => hc (by simp [heq])) ih
  | plus h ih => exact .plain (by decide) ih
  | coded hu h ih =>
    rw [List.map_append, hu.map_plus]
    exact .coded hu ih

/-- Percent signs hide what would end a field, or the query. -/
theorem Spells.notMem {s t : Str} (h : Spells s t) : ∀ c ∈ t, c ∉ ['&', '#', '\t', '\r', '\n'] := by
  have hhex : ∀ {c n}, hexValue c = some n → c ∉ ['&', '#', '\t', '\r', '\n'] := fun hc hmem => by
    simp only [List.mem_cons, List.not_mem_nil, or_false] at hmem
    rcases hmem with rfl | rfl | rfl | rfl | rfl <;> cases hc
  have hcoded : ∀ {bytes u}, Coded bytes u → ∀ c ∈ u, c ∉ ['&', '#', '\t', '\r', '\n'] := fun hu => by
    induction hu with
    | nil => simp
    | cons ha hb _ ih =>
      simp only [List.forall_mem_cons]
      exact ⟨by decide, hhex ha, hhex hb, ih⟩
  induction h with
  | nil => simp
  | plain hc h ih =>
    exact List.forall_mem_cons.mpr ⟨fun hmem => hc (List.mem_cons_of_mem _ (List.mem_cons_of_mem _ hmem)), ih⟩
  | plus h ih => exact List.forall_mem_cons.mpr ⟨by simp, ih⟩
  | coded hu h ih => exact List.forall_mem_append.mpr ⟨hcoded hu, ih⟩

theorem Spells.ne_nil {s t : Str} (h : Spells s t) (hs : s ≠ []) : t ≠ [] := fun hnil => by
  rw [hnil] at h
  exact hs (h.unquotePlus.symm.trans rfl)

end AdkAerospike.Uri
