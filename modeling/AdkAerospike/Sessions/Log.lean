import AdkAerospike.Data.OrderedMap

/-! The abstract event log behind a session: ordered segments and the index `cur`
of the one being appended to. `place` is what appending does to it when nobody
interferes; `walk` and `recent` are what reading makes of it. Everything here is
about arbitrary keys, entries and size limits. -/

namespace AdkAerospike.Sessions

open Data

variable {κ ν : Type} [LinearOrder κ]

/-- A segmented log. Segments that do not exist are empty. -/
@[ext] structure Log (κ ν : Type) [LinearOrder κ] where
  cur : ℕ
  seg : ℕ → OMap κ ν

namespace Log

/-- Nothing is stored above `cur`. -/
def Topped (L : Log κ ν) : Prop := ∀ g, L.cur < g → L.seg g = .empty

/-! ### Appending -/

def put (L : Log κ ν) (g : ℕ) (k : κ) (v : ν) : Log κ ν :=
  { L with seg := Function.update L.seg g ((L.seg g).put k v) }

@[simp] theorem put_cur (L : Log κ ν) (g : ℕ) (k : κ) (v : ν) : (L.put g k v).cur = L.cur := rfl

@[simp] theorem put_seg_self (L : Log κ ν) (g : ℕ) (k : κ) (v : ν) :
    (L.put g k v).seg g = (L.seg g).put k v := Function.update_self ..

@[simp] theorem put_seg_of_ne (L : Log κ ν) {g g' : ℕ} (h : g' ≠ g) (k : κ) (v : ν) :
    (L.put g k v).seg g' = L.seg g' := Function.update_of_ne h ..

/-- Advance `cur` from `n`, or find it already past `n`. -/
def rollOver (L : Log κ ν) (n : ℕ) : Log κ ν := if L.cur = n then { L with cur := n + 1 } else L

section Place
variable (fits : OMap κ ν → Prop) [DecidablePred fits] (grows : ℕ → Prop) [DecidablePred grows]
  (k : κ) (v : ν)

/-- Put the entry at `g`, rolling over while segments are full. The result is the
segment it went to, if any; the flag tells running out of attempts from an entry
that no empty segment holds or an index that cannot be advanced. -/
def place : ℕ → Log κ ν → ℕ → Except Bool ℕ × Log κ ν
  | 0, L, _ => (.error false, L)
  | n + 1, L, g =>
    if fits ((L.seg g).put k v) then (.ok g, L.put g k v)
    else if (L.seg g).size = 0 then (.error true, L)
    else if L.cur = g ∧ ¬ grows (g + 1) then (.error true, L)
    else place n (L.rollOver g) (L.rollOver g).cur

/-- An append that first tries segment `g` in a batch rolls over without looking
whether the segment is empty. -/
def append (attempts : ℕ) (batch : Bool) (L : Log κ ν) (g : ℕ) : Except Bool ℕ × Log κ ν :=
  if batch then
    if fits ((L.seg g).put k v) then (.ok g, L.put g k v)
    else if L.cur = g ∧ ¬ grows (g + 1) then (.error true, L)
    else place fits grows k v attempts (L.rollOver g) (L.rollOver g).cur
  else place fits grows k v attempts L g

variable {fits grows k v} {L : Log κ ν} {g n : ℕ}

@[simp] theorem rollOver_seg : (L.rollOver n).seg = L.seg := by
  unfold rollOver
  split <;> rfl

theorem le_rollOver_cur : L.cur ≤ (L.rollOver n).cur := by
  unfold rollOver
  split
  next h => simp [h]
  next => exact le_rfl

theorem Topped.rollOver (h : L.Topped) : (L.rollOver n).Topped := fun j hj => by
  rw [rollOver_seg]
  exact h j (lt_of_le_of_lt le_rollOver_cur hj)

/-- What an append may leave behind: the entry in one segment at or below `cur`,
or no trace in the segments; `cur` never goes back. -/
structure Placed (L : Log κ ν) (k : κ) (v : ν) (r : Except Bool ℕ × Log κ ν) : Prop where
  cur_le : L.cur ≤ r.2.cur
  ok : ∀ j, r.1 = .ok j → j ≤ r.2.cur ∧ r.2.seg = (L.put j k v).seg
  error : ∀ e, r.1 = .error e → r.2.seg = L.seg

theorem Placed.of_rollOver {r : Except Bool ℕ × Log κ ν} (h : Placed (L.rollOver g) k v r) :
    Placed L k v r where
  cur_le := le_rollOver_cur.trans h.cur_le
  ok j hj := by simpa [put] using h.ok j hj
  error e he := by simpa using h.error e he

theorem Placed.here (hg : g ≤ L.cur) : Placed L k v (.ok g, L.put g k v) := by
  refine ⟨le_rfl, fun j hj => ?_, fun e he => by simp at he⟩
  obtain rfl : g = j := by simpa using hj
  exact ⟨hg, rfl⟩

theorem Placed.failed (b : Bool) : Placed L k v (.error b, L) :=
  ⟨le_rfl, fun j hj => by simp at hj, fun _ _ => rfl⟩

/-- By induction on the attempts: the index tried never exceeds `cur`. -/
theorem place_placed (n : ℕ) (L : Log κ ν) (g : ℕ) (hg : g ≤ L.cur) :
    Placed L k v (place fits grows k v n L g) := by
  induction n generalizing L g with
  | zero => exact .failed false
  | succ n ih =>
    rw [place]
    split_ifs with hfit hsize hgrow
    · exact .here hg
    · exact .failed true
    · exact .failed true
    · exact (ih _ _ le_rfl).of_rollOver

theorem append_placed (attempts : ℕ) (batch : Bool) (L : Log κ ν) (g : ℕ) (hg : g ≤ L.cur) :
    Placed L k v (append fits grows k v attempts batch L g) := by
  unfold append
  split_ifs with hb hfit hgrow
  · exact .here hg
  · exact .failed true
  · exact (place_placed attempts _ _ le_rfl).of_rollOver
  · exact place_placed attempts L g hg

theorem Placed.topped {r : Except Bool ℕ × Log κ ν} (h : Placed L k v r) (hL : L.Topped) :
    r.2.Topped := by
  intro j hj
  have hseg : L.seg j = .empty := hL j (lt_of_le_of_lt h.cur_le hj)
  rcases hr : r.1 with e | i
  · rw [h.error e hr, hseg]
  · obtain ⟨hi, hs⟩ := h.ok i hr
    rw [hs, put_seg_of_ne L (by omega), hseg]

/-- An entry tried at `cur` goes to the segment that is then current. -/
theorem place_self (n : ℕ) (L : Log κ ν) {j : ℕ} (h : (place fits grows k v n L L.cur).1 = .ok j) :
    j = (place fits grows k v n L L.cur).2.cur := by
  induction n generalizing L with
  | zero => cases h
  | succ n ih =>
    rw [place] at h ⊢
    split_ifs at h ⊢ with hfit hsize hgrow
    · cases h
      rfl
    · exact ih _ h

theorem append_self (attempts : ℕ) (batch : Bool) (L : Log κ ν) {j : ℕ}
    (h : (append fits grows k v attempts batch L L.cur).1 = .ok j) :
    j = (append fits grows k v attempts batch L L.cur).2.cur := by
  rw [append] at h ⊢
  split_ifs at h ⊢ with hb hfit hgrow
  · cases h
    rfl
  · exact place_self attempts _ h
  · exact place_self attempts L h

theorem rollOver_self_cur : (L.rollOver L.cur).cur = L.cur + 1 := by simp [rollOver]

omit [DecidablePred fits] in
/-- A segment without room for an entry that fits alone is not empty. -/
theorem size_ne_zero_of_full {m : OMap κ ν} (halone : fits (OMap.empty.put k v)) (hfull : ¬ fits (m.put k v)) :
    m.size ≠ 0 := fun hzero => by
  have hempty : m = .empty := OMap.ext (List.length_eq_zero_iff.mp hzero)
  exact hfull (hempty ▸ halone)

/-- An entry that fits alone and is tried at `cur` goes to `cur`, or to the next
segment past a segment that is not empty. -/
theorem append_at_cur (hL : L.Topped) (halone : fits (OMap.empty.put k v))
    (hgrows : ¬ fits ((L.seg L.cur).put k v) → grows (L.cur + 1)) (attempts : ℕ) (batch : Bool) :
    fits ((L.seg L.cur).put k v) ∧
      append fits grows k v (attempts + 2) batch L L.cur = (.ok L.cur, L.put L.cur k v) ∨
    (L.seg L.cur).entries ≠ [] ∧ ¬ fits ((L.seg L.cur).put k v) ∧
      append fits grows k v (attempts + 2) batch L L.cur =
        (.ok (L.cur + 1), (L.rollOver L.cur).put (L.cur + 1) k v) := by
  by_cases hfit : fits ((L.seg L.cur).put k v)
  · exact .inl ⟨hfit, by cases batch <;> simp [append, place, hfit]⟩
  · have hsize := size_ne_zero_of_full halone hfit
    have hne : (L.seg L.cur).entries ≠ [] := by simpa [OMap.size] using hsize
    have hnext : L.seg (L.cur + 1) = .empty := hL _ (Nat.lt_succ_self _)
    refine .inr ⟨hne, hfit, ?_⟩
    cases batch <;> simp [append, place, hfit, hsize, hgrows hfit, rollOver_self_cur, hnext, halone]

/-- Segments are tried one after the other from `cur` on, up to the first that has room. -/
theorem place_first (halone : fits (OMap.empty.put k v)) (hgrows : ∀ i, grows i) {m : ℕ} (hm : L.cur ≤ m)
    (hroom : fits ((L.seg m).put k v)) (hfull : ∀ j, L.cur ≤ j → j < m → ¬ fits ((L.seg j).put k v))
    (hn : m < L.cur + n) :
    place fits grows k v n L L.cur = (.ok m, Log.put { L with cur := m } m k v) := by
  induction n generalizing L with
  | zero => omega
  | succ n ih =>
    rw [place]
    by_cases hfit : fits ((L.seg L.cur).put k v)
    · obtain rfl : m = L.cur := by
        by_contra hne
        exact hfull L.cur le_rfl (by omega) hfit
      rw [if_pos hfit]
    · have hlt : L.cur < m := lt_of_le_of_ne hm fun heq => hfit (heq ▸ hroom)
      have hroll : L.rollOver L.cur = { L with cur := L.cur + 1 } := if_pos rfl
      rw [if_neg hfit, if_neg (size_ne_zero_of_full halone hfit), if_neg fun hstuck => hstuck.2 (hgrows _), hroll]
      exact @ih { L with cur := L.cur + 1 } hlt hroom (fun j hj => hfull j (Nat.le_of_succ_le hj)) (by simp only; omega)

/-- If none of them has room, the index has moved by as many segments as there were attempts. -/
theorem place_full (halone : fits (OMap.empty.put k v)) (hgrows : ∀ i, grows i)
    (hfull : ∀ j, L.cur ≤ j → j < L.cur + n → ¬ fits ((L.seg j).put k v)) :
    place fits grows k v n L L.cur = (.error false, { L with cur := L.cur + n }) := by
  induction n generalizing L with
  | zero => rfl
  | succ n ih =>
    have hfit : ¬ fits ((L.seg L.cur).put k v) := hfull L.cur le_rfl (by omega)
    have hroll : L.rollOver L.cur = { L with cur := L.cur + 1 } := if_pos rfl
    have hrest := @ih { L with cur := L.cur + 1 } fun j hj hlt => hfull j (Nat.le_of_succ_le hj) (by simp only at hlt; omega)
    rw [place, if_neg hfit, if_neg (size_ne_zero_of_full halone hfit), if_neg fun hstuck => hstuck.2 (hgrows _), hroll, hrest]
    simp only [Nat.add_assoc, Nat.add_comm 1 n]

/-- An append that tries segment `g` first meets a segment with room within its attempts. -/
def Reaches (fits : OMap κ ν → Prop) (k : κ) (v : ν) (attempts : ℕ) (L : Log κ ν) (g : ℕ) : Prop :=
  fits ((L.seg g).put k v) ∨
    ∃ m, L.cur ≤ m ∧ m + (if g = L.cur then 0 else 1) < L.cur + attempts ∧ fits ((L.seg m).put k v)

omit [DecidablePred fits] in
/-- Nothing is stored past `cur`, so the next segment has room. -/
theorem Topped.reaches (hL : L.Topped) (halone : fits (OMap.empty.put k v)) (attempts g : ℕ) :
    L.Reaches fits k v (attempts + 3) g := by
  refine .inr ⟨L.cur + 1, Nat.le_succ _, ?_, ?_⟩
  · split_ifs <;> omega
  · rw [hL _ (Nat.lt_succ_self _)]
    exact halone

/-- Where the entry goes that meets a segment with room, in a batch or not. -/
theorem Reaches.append_eq {attempts : ℕ} (h : L.Reaches fits k v attempts g) (hg : g ≤ L.cur)
    (hpos : 0 < attempts) (halone : fits (OMap.empty.put k v)) :
    ∃ j c, ∀ (grows : ℕ → Prop) [DecidablePred grows], (∀ i, grows i) → ∀ batch,
      append fits grows k v attempts batch L g = (.ok j, Log.put { L with cur := c } j k v) := by
  obtain ⟨n, rfl⟩ := Nat.exists_eq_succ_of_ne_zero hpos.ne'
  by_cases hfit : fits ((L.seg g).put k v)
  · refine ⟨g, L.cur, fun grows _ _ batch => ?_⟩
    cases batch <;> simp [append, place, hfit]
  · -- The first segment with room, from `cur` on.
    obtain ⟨m₀, hm₀, hn₀, hroom₀⟩ := h.resolve_left hfit
    have hex : ∃ m, L.cur ≤ m ∧ fits ((L.seg m).put k v) := ⟨m₀, hm₀, hroom₀⟩
    classical
    obtain ⟨hm, hroom⟩ := Nat.find_spec hex
    have hleast : Nat.find hex ≤ m₀ := Nat.find_min' hex ⟨hm₀, hroom₀⟩
    have hfull : ∀ j, L.cur ≤ j → j < Nat.find hex → ¬ fits ((L.seg j).put k v) := fun j hj hlt hroom =>
      Nat.find_min hex hlt ⟨hj, hroom⟩
    generalize Nat.find hex = m at hm hroom hleast hfull
    have hsize := size_ne_zero_of_full halone hfit
    refine ⟨m, m, fun grows _ hgrows batch => ?_⟩
    have hstuck : ¬ (L.cur = g ∧ ¬ grows (g + 1)) := fun hs => hs.2 (hgrows _)
    by_cases hcur : g = L.cur
    · subst hcur
      rw [if_pos rfl] at hn₀
      cases batch with
      | false =>
        rw [append, if_neg Bool.false_ne_true]
        exact place_first halone hgrows hm hroom hfull (by omega)
      | true =>
        have hlt : L.cur < m := lt_of_le_of_ne hm fun heq => hfit (heq ▸ hroom)
        have hroll : L.rollOver L.cur = { L with cur := L.cur + 1 } := if_pos rfl
        rw [append, if_pos rfl, if_neg hfit, if_neg hstuck, hroll]
        exact @place_first κ ν _ fits _ grows _ k v { L with cur := L.cur + 1 } (n + 1) halone hgrows m hlt hroom
          (fun j hj => hfull j (Nat.le_of_succ_le hj)) (by simp only; omega)
    · rw [if_neg hcur] at hn₀
      have hroll : L.rollOver g = L := if_neg (Ne.symm hcur)
      cases batch with
      | false =>
        rw [append, if_neg Bool.false_ne_true, place, if_neg hfit, if_neg hsize, if_neg hstuck, hroll]
        exact place_first halone hgrows hm hroom hfull (by omega)
      | true =>
        rw [append, if_pos rfl, if_neg hfit, if_neg hstuck, hroll]
        exact place_first halone hgrows hm hroom hfull (by omega)

/-- An entry that fits nowhere is not tried past an empty segment. -/
theorem place_of_empty (halone : ¬ fits (OMap.empty.put k v)) (hg : L.seg g = .empty) (n : ℕ) :
    (place fits grows k v n L g).2 = L := by
  cases n with
  | zero => rfl
  | succ n =>
    rw [place, hg, if_neg halone]
    rfl

theorem place_rollOver_cur_le (halone : ¬ fits (OMap.empty.put k v)) (hL : L.Topped)
    (hcur : (place fits grows k v n L L.cur).2.cur ≤ L.cur + 1) (g : ℕ) :
    (place fits grows k v n (L.rollOver g) (L.rollOver g).cur).2.cur ≤ L.cur + 1 := by
  by_cases hg : L.cur = g
  · subst hg
    have hnext : (L.rollOver L.cur).seg (L.rollOver L.cur).cur = .empty := by
      rw [rollOver_seg, rollOver_self_cur]
      exact hL _ (Nat.lt_succ_self _)
    rw [place_of_empty halone hnext, rollOver_self_cur]
  · rw [rollOver, if_neg hg]
    exact hcur

theorem place_cur_le (halone : ¬ fits (OMap.empty.put k v)) (hL : L.Topped) (n g : ℕ) :
    (place fits grows k v n L g).2.cur ≤ L.cur + 1 := by
  induction n generalizing g with
  | zero => exact Nat.le_succ _
  | succ n ih =>
    rw [place]
    split_ifs with hfit hsize hgrow
    · exact Nat.le_succ _
    · exact Nat.le_succ _
    · exact Nat.le_succ _
    · exact place_rollOver_cur_le halone hL (ih _) g

/-- Looking for room for an entry that fits nowhere advances `cur` once at most. -/
theorem append_cur_le (halone : ¬ fits (OMap.empty.put k v)) (hL : L.Topped) (attempts : ℕ)
    (batch : Bool) (g : ℕ) : (append fits grows k v attempts batch L g).2.cur ≤ L.cur + 1 := by
  rw [append]
  split_ifs with hb hfit hgrow
  · exact Nat.le_succ _
  · exact Nat.le_succ _
  · exact place_rollOver_cur_le halone hL (place_cur_le halone hL _ _) g
  · exact place_cur_le halone hL _ _

end Place

/-! ### Reading -/

/-- The entries of the segments below `n`, oldest segment first. -/
def below (L : Log κ ν) : ℕ → List (κ × ν)
  | 0 => []
  | g + 1 => L.below g ++ (L.seg g).entries

/-- All events, as an unfiltered read lists them. -/
def history (L : Log κ ν) : List (κ × ν) := L.below (L.cur + 1)

/-- The walk under a cutoff: newest segment first, up to the first segment that
holds nothing the filter keeps. -/
def walk (L : Log κ ν) (keep : κ → Bool) : ℕ → List (κ × ν)
  | 0 => []
  | g + 1 =>
    let kept := (L.seg g).entries.filter fun x => keep x.1
    if kept = [] then [] else L.walk keep g ++ kept

/-- The last `n` entries, or all of them. -/
def recent {ε : Type} : Option ℕ → List ε → List ε
  | none, l => l
  | some n, l => l.drop (l.length - n)

/-- What a read with or without a cutoff looks through. -/
def scan (L : Log κ ν) : Option (κ → Bool) → ℕ → List (κ × ν)
  | none, n => L.below n
  | some keep, n => L.walk keep n

section Recent
variable {ε : Type} {l l' : List ε} {N : Option ℕ}

/-- Enough entries at the end make the earlier ones immaterial. -/
theorem recent_append_of_le {n : ℕ} (h : n ≤ l'.length) :
    recent (some n) (l ++ l') = recent (some n) l' := by
  have hlen : (l ++ l').length - n = l.length + (l'.length - n) := by
    simp only [List.length_append]
    omega
  simp only [recent, hlen, List.drop_append, List.drop_eq_nil_of_le (Nat.le_add_right _ _),
    List.nil_append, Nat.add_sub_cancel_left]

/-- Fewer entries than asked for are all recent. -/
theorem recent_of_le (h : ∀ n, N = some n → l.length ≤ n) : recent N l = l := by
  cases N with
  | none => rfl
  | some n => simp [recent, Nat.sub_eq_zero_of_le (h n rfl)]

/-- Cutting first what cannot be needed changes nothing. -/
theorem recent_recent_append {n : ℕ} (h : l'.length ≤ n) :
    recent (some n) (recent (some (n - l'.length)) l ++ l') = recent (some n) (l ++ l') := by
  have hcut : l.length + l'.length - n = l.length - (n - l'.length) := by omega
  have hle : l.length - (n - l'.length) ≤ l.length := Nat.sub_le _ _
  have hzero : (l.drop (l.length - (n - l'.length)) ++ l').length - n = 0 := by
    simp only [List.length_append, List.length_drop]
    omega
  simp only [recent]
  rw [hzero, List.drop_zero, List.length_append, hcut, List.drop_append_of_le_length hle]

theorem length_recent {n : ℕ} : (recent (some n) l).length = min l.length n := by
  simp only [recent, List.length_drop]
  omega

theorem recent_map {δ : Type} (f : ε → δ) : recent N (l.map f) = (recent N l).map f := by
  cases N with
  | none => rfl
  | some n => rw [recent, recent, List.length_map, List.map_drop]

end Recent

variable {L L' : Log κ ν}

theorem mem_below {n : ℕ} {x : κ × ν} : x ∈ L.below n ↔ ∃ g < n, x ∈ (L.seg g).entries := by
  induction n with
  | zero => simp [below]
  | succ n ih =>
    simp only [below, List.mem_append, ih, Nat.lt_succ_iff_lt_or_eq]
    constructor
    · rintro (⟨g, hg, hx⟩ | hx)
      · exact ⟨g, .inl hg, hx⟩
      · exact ⟨n, .inr rfl, hx⟩
    · rintro ⟨g, hg | rfl, hx⟩
      · exact .inl ⟨g, hg, hx⟩
      · exact .inr hx

theorem mem_history {x : κ × ν} : x ∈ L.history ↔ ∃ g ≤ L.cur, x ∈ (L.seg g).entries := by
  simp only [history, mem_below, Nat.lt_succ_iff]

theorem mem_put_seg {g g' : ℕ} {k : κ} {v : ν} {x : κ × ν} (hx : x ∈ ((L.put g k v).seg g').entries) :
    x ∈ (L.seg g').entries ∨ g' = g ∧ x = (k, v) := by
  by_cases hg : g' = g
  · subst hg
    rw [put_seg_self] at hx
    rcases OMap.mem_entries_put.mp hx with rfl | ⟨hx, _⟩
    · exact .inr ⟨rfl, rfl⟩
    · exact .inl hx
  · rw [put_seg_of_ne L hg] at hx
    exact .inl hx

/-- The entry is in some segment. -/
def Holds (L : Log κ ν) (k : κ) (v : ν) : Prop := ∃ g, (L.seg g).lookup k = some v

theorem Topped.mem_history_iff (h : L.Topped) {k : κ} {v : ν} : (k, v) ∈ L.history ↔ L.Holds k v := by
  rw [mem_history]
  constructor
  · rintro ⟨g, -, hx⟩
    exact ⟨g, OMap.lookup_eq_some_iff.mpr hx⟩
  · rintro ⟨g, hg⟩
    refine ⟨g, not_lt.mp fun hlt => ?_, OMap.lookup_eq_some_iff.mp hg⟩
    rw [h g hlt] at hg
    cases hg

theorem holds_put {g : ℕ} {k k' : κ} {v v' : ν} (hk : ∀ u, L.Holds k u → u = v) :
    (L.put g k v).Holds k' v' ↔ L.Holds k' v' ∨ k' = k ∧ v' = v := by
  constructor
  · rintro ⟨i, hi⟩
    rw [OMap.lookup_eq_some_iff] at hi
    rcases mem_put_seg hi with hi | ⟨-, hkv⟩
    · exact .inl ⟨i, OMap.lookup_eq_some_iff.mpr hi⟩
    · cases hkv
      exact .inr ⟨rfl, rfl⟩
  · rintro (⟨i, hi⟩ | ⟨rfl, rfl⟩)
    · by_cases hig : i = g
      · subst hig
        by_cases hkk : k' = k
        · subst hkk
          refine ⟨i, ?_⟩
          rw [put_seg_self, OMap.lookup_put_self, hk v' ⟨i, hi⟩]
        · exact ⟨i, by rw [put_seg_self, OMap.lookup_put_of_ne hkk, hi]⟩
      · exact ⟨i, by rw [put_seg_of_ne _ hig, hi]⟩
    · exact ⟨g, by rw [put_seg_self, OMap.lookup_put_self]⟩

/-- What an append that does not meet another entry under its key leaves stored. -/
theorem Placed.holds {k k' : κ} {v v' : ν} {r : Except Bool ℕ × Log κ ν} (h : Placed L k v r)
    (hk : ∀ u, L.Holds k u → u = v) :
    r.2.Holds k' v' ↔ L.Holds k' v' ∨ r.1.isOk ∧ k' = k ∧ v' = v := by
  rcases hr : r.1 with e | j
  · have hsame : r.2.Holds k' v' ↔ L.Holds k' v' := by
      unfold Holds
      rw [h.error e hr]
    simp [hsame, Except.isOk, Except.toBool]
  · have hput : r.2.Holds k' v' ↔ (L.put j k v).Holds k' v' := by
      unfold Holds
      rw [(h.ok j hr).2]
    rw [hput, holds_put hk]
    simp [Except.isOk, Except.toBool]

theorem below_congr {n : ℕ} (h : ∀ g < n, L.seg g = L'.seg g) : L.below n = L'.below n := by
  induction n with
  | zero => rfl
  | succ n ih => rw [below, below, ih fun g hg => h g (by omega), h n (by omega)]

/-! ### The walk as a filter -/

section Walk
variable (keep : κ → Bool)

/-- Every segment strictly above `g` and below `n` holds something to keep. -/
def Passes (L : Log κ ν) (g n : ℕ) : Prop :=
  ∀ g', g < g' → g' < n → ∃ y ∈ (L.seg g').entries, keep y.1

/-- The walk below `n` shows an entry of segment `g` exactly when `keep'` holds of its key. -/
def ShowsExactly (keep' : κ → Bool) (L : Log κ ν) (n : ℕ) : Prop :=
  ∀ g < n, ∀ x ∈ (L.seg g).entries, keep' x.1 ↔ keep x.1 ∧ L.Passes keep g n

variable {keep} {keep' : κ → Bool} {n : ℕ}

theorem filter_eq_nil (g : ℕ) : (L.seg g).entries.filter (fun x => keep x.1) = [] ↔
    ¬ ∃ y ∈ (L.seg g).entries, keep y.1 := by
  simp [List.filter_eq_nil_iff]

theorem passes_succ {g : ℕ} (hg : g < n) :
    L.Passes keep g (n + 1) ↔ L.Passes keep g n ∧ ∃ y ∈ (L.seg n).entries, keep y.1 := by
  constructor
  · exact fun h => ⟨fun g' hgg hn => h g' hgg (by omega), h n hg (Nat.lt_succ_self n)⟩
  · rintro ⟨h, htop⟩ g' hgg hn
    by_cases hgn : g' = n
    · rw [hgn]
      exact htop
    · exact h g' hgg (by omega)

/-- The walk under a cutoff is the filtered history if it shows exactly what the
filter keeps. -/
theorem walk_eq_filter (h : L.ShowsExactly keep keep' n) :
    L.walk keep n = (L.below n).filter fun x => keep' x.1 := by
  induction n with
  | zero => rfl
  | succ n ih =>
    have htop : ∀ x ∈ (L.seg n).entries, keep' x.1 = keep x.1 := fun x hx => by
      have hx := h n (Nat.lt_succ_self n) x hx
      have hpass : L.Passes keep n (n + 1) := fun g' hgg hn => by omega
      rw [Bool.eq_iff_iff, hx]
      exact and_iff_left hpass
    rw [walk, below, List.filter_append, List.filter_congr htop]
    by_cases hn : (L.seg n).entries.filter (fun x => keep x.1) = []
    · -- the walk stops here, and nothing below may be kept
      have hbelow : (L.below n).filter (fun x => keep' x.1) = [] := by
        rw [List.filter_eq_nil_iff]
        intro x hx hk
        obtain ⟨g, hg, hx⟩ := mem_below.mp hx
        have hpass := ((h g (by omega) x hx).mp hk).2
        exact (filter_eq_nil n).mp hn ((passes_succ hg).mp hpass).2
      simp [hn, hbelow]
    · have hsome : ∃ y ∈ (L.seg n).entries, keep y.1 := not_not.mp fun hne => hn ((filter_eq_nil n).mpr hne)
      have hrest : L.ShowsExactly keep keep' n := fun g hg x hx => by
        rw [h g (by omega) x hx, passes_succ hg]
        simp [hsome]
      simp only [hn, if_false, ih hrest]

theorem walk_sublist (n : ℕ) : (L.walk keep n).Sublist (L.below n) := by
  induction n with
  | zero => exact List.Sublist.refl _
  | succ n ih =>
    simp only [walk, below]
    split_ifs
    · exact List.nil_sublist _
    · exact ih.append List.filter_sublist

/-- An entry to keep that the walk reaches is shown. -/
theorem mem_walk {g : ℕ} (hg : g < n) {x : κ × ν} (hx : x ∈ (L.seg g).entries) (hk : keep x.1)
    (hp : L.Passes keep g n) : x ∈ L.walk keep n := by
  induction n with
  | zero => omega
  | succ n ih =>
    rw [walk]
    by_cases hgn : g = n
    · subst hgn
      have hmem : x ∈ (L.seg g).entries.filter fun x => keep x.1 := List.mem_filter.mpr ⟨hx, hk⟩
      rw [if_neg (List.ne_nil_of_mem hmem)]
      exact List.mem_append_right _ hmem
    · have hlt : g < n := by omega
      obtain ⟨hp, htop⟩ := (passes_succ hlt).mp hp
      rw [if_neg fun h => (filter_eq_nil n).mp h htop]
      exact List.mem_append_left _ (ih hlt hp)

/-- A key that the walk does not show in some segment is shown less often than it is there. -/
theorem count_walk_lt {g : ℕ} (hg : g < n) {x : κ × ν} (hx : x ∈ (L.seg g).entries)
    (hp : ¬ (keep x.1 ∧ L.Passes keep g n)) :
    ((L.walk keep n).map Prod.fst).count x.1 < ((L.below n).map Prod.fst).count x.1 := by
  have hpos : ∀ {l : List (κ × ν)}, x ∈ l → 0 < (l.map Prod.fst).count x.1 := fun hx =>
    List.count_pos_iff.mpr (List.mem_map_of_mem hx)
  induction n with
  | zero => omega
  | succ n ih =>
    have hbelow : x ∈ L.below (n + 1) := mem_below.mpr ⟨g, hg, hx⟩
    by_cases hn : (L.seg n).entries.filter (fun x => keep x.1) = []
    · rw [walk, if_pos hn]
      exact hpos hbelow
    · rw [walk, if_neg hn, below, List.map_append, List.map_append, List.count_append,
        List.count_append]
      have hkept : ((((L.seg n).entries.filter fun x => keep x.1)).map Prod.fst).count x.1 ≤
          ((L.seg n).entries.map Prod.fst).count x.1 :=
        (List.filter_sublist.map Prod.fst).count_le x.1
      have hrest : ((L.walk keep n).map Prod.fst).count x.1 ≤ ((L.below n).map Prod.fst).count x.1 :=
        ((walk_sublist n).map Prod.fst).count_le x.1
      by_cases hgn : g = n
      · subst hgn
        -- the segment is reached, so the key itself is not kept
        have hk : ¬ keep x.1 := fun hk => hp ⟨hk, fun g' hgg hn => by omega⟩
        have hnone : (((L.seg g).entries.filter fun x => keep x.1).map Prod.fst).count x.1 = 0 := by
          rw [List.count_eq_zero, List.mem_map]
          rintro ⟨y, hy, hyx⟩
          have hky := (List.mem_filter.mp hy).2
          rw [hyx] at hky
          exact hk hky
        have := hpos hx
        omega
      · have hlt : g < n := by omega
        have hsome : ∃ y ∈ (L.seg n).entries, keep y.1 :=
          not_not.mp fun hne => hn ((filter_eq_nil n).mpr hne)
        have := ih hlt fun h => hp ⟨h.1, (passes_succ hlt).mpr ⟨h.2, hsome⟩⟩
        omega

/-- The walk lists the keys of the filtered history only if it shows exactly what
the filter keeps. -/
theorem showsExactly_of_keys_eq (h : (L.walk keep n).map Prod.fst =
    ((L.below n).filter fun x => keep' x.1).map Prod.fst) : L.ShowsExactly keep keep' n := by
  intro g hg x hx
  constructor
  · intro hk
    by_contra hp
    have hlt := count_walk_lt hg hx hp
    have hall : (((L.below n).filter fun x => keep' x.1).map Prod.fst).count x.1 =
        ((L.below n).map Prod.fst).count x.1 := by
      have hswap : ((L.below n).filter fun x => keep' x.1).map Prod.fst =
          ((L.below n).map Prod.fst).filter keep' := List.filter_map.symm
      rw [hswap, List.count_filter hk]
    rw [h, hall] at hlt
    exact lt_irrefl _ hlt
  · rintro ⟨hk, hp⟩
    have hmem : x.1 ∈ (L.walk keep n).map Prod.fst := List.mem_map_of_mem (mem_walk hg hx hk hp)
    rw [h, List.mem_map] at hmem
    obtain ⟨y, hy, hyx⟩ := hmem
    rw [← hyx]
    exact (List.mem_filter.mp hy).2

end Walk

/-! ### Order -/

/-- All keys of a segment are at most those of every later one. -/
def Chronological (L : Log κ ν) : Prop :=
  ∀ g g', g < g' → ∀ x ∈ (L.seg g).entries, ∀ y ∈ (L.seg g').entries, x.1 ≤ y.1

theorem Chronological.below_sorted (h : L.Chronological) (n : ℕ) :
    (L.below n).Pairwise fun x y => x.1 ≤ y.1 := by
  induction n with
  | zero => exact .nil
  | succ n ih =>
    refine List.pairwise_append.mpr ⟨ih, (L.seg n).sorted.imp fun hxy => hxy.le, ?_⟩
    intro x hx y hy
    obtain ⟨g, hg, hx⟩ := mem_below.mp hx
    exact h g n hg x hx y hy

/-- The key `k` may go to segment `g` without leaving the order of the segments. -/
def InOrder (L : Log κ ν) (g : ℕ) (k : κ) : Prop :=
  (∀ g' < g, ∀ x ∈ (L.seg g').entries, x.1 ≤ k) ∧ (∀ g' > g, ∀ x ∈ (L.seg g').entries, k ≤ x.1)

theorem Chronological.put {g : ℕ} {k : κ} {v : ν} (h : L.Chronological) (hk : L.InOrder g k) :
    (L.put g k v).Chronological := by
  intro i j hij x hx y hy
  rcases mem_put_seg hx with hx' | ⟨rfl, rfl⟩ <;> rcases mem_put_seg hy with hy' | ⟨rfl, rfl⟩
  · exact h i j hij x hx' y hy'
  · exact hk.1 i hij x hx'
  · exact hk.2 j hij y hy'
  · exact absurd hij (lt_irrefl _)

/-! ### Appending in order -/

/-- What one writer leaves who appends under ascending keys: the segments are in order,
none after the first is empty, and there is nothing past `cur`. -/
structure Tidy (L : Log κ ν) : Prop where
  topped : L.Topped
  chronological : L.Chronological
  filled : ∀ g, 0 < g → g ≤ L.cur → (L.seg g).entries ≠ []

/-- A walk under a cutoff filters a tidy log if the filter keeps all later keys too. -/
theorem Tidy.walk_eq_filter_history {keep keep' : κ → Bool} (h : L.Tidy)
    (hkeep : ∀ x ∈ L.history, keep x.1 = keep' x.1) (hup : ∀ k k', keep' k → k ≤ k' → keep' k') :
    L.walk keep (L.cur + 1) = L.history.filter fun x => keep' x.1 := by
  have hmem : ∀ g < L.cur + 1, ∀ x ∈ (L.seg g).entries, keep x.1 = keep' x.1 := fun g hg x hx =>
    hkeep x (mem_history.mpr ⟨g, Nat.lt_succ_iff.mp hg, hx⟩)
  refine walk_eq_filter fun g hg x hx => ?_
  rw [hmem g hg x hx]
  constructor
  · refine fun hk => ⟨hk, fun g' hgg hn => ?_⟩
    obtain ⟨y, hy⟩ := List.exists_mem_of_ne_nil _ (h.filled g' (by omega) (by omega))
    refine ⟨y, hy, ?_⟩
    rw [hmem g' hn y hy]
    exact hup x.1 y.1 hk (h.chronological g g' hgg x hx y hy)
  · exact fun hk => hk.1

/-- A key above all others of the current segment comes last. -/
theorem history_put_cur {k : κ} {v : ν} (hk : ∀ x ∈ (L.seg L.cur).entries, x.1 < k) :
    (L.put L.cur k v).history = L.history ++ [(k, v)] := by
  have hbelow : (L.put L.cur k v).below L.cur = L.below L.cur :=
    below_congr fun g hg => put_seg_of_ne L hg.ne k v
  rw [history, history, put_cur, below, below, hbelow, put_seg_self, OMap.entries_put_of_forall_lt hk,
    List.append_assoc]

/-- The current segment may be empty before it gets its entry. -/
theorem tidy_put_cur {k : κ} {v : ν} (htop : L.Topped) (hchron : L.Chronological)
    (hfilled : ∀ g, 0 < g → g < L.cur → (L.seg g).entries ≠ []) (hk : ∀ x ∈ L.history, x.1 < k) :
    (L.put L.cur k v).Tidy where
  topped g hg := by
    rw [put_cur] at hg
    rw [put_seg_of_ne L hg.ne', htop g hg]
  chronological := by
    refine hchron.put ⟨fun g hg x hx => (hk x (mem_history.mpr ⟨g, hg.le, hx⟩)).le, fun g hg x hx => ?_⟩
    rw [htop g hg] at hx
    cases hx
  filled g hg hle := by
    rw [put_cur] at hle
    rcases hle.lt_or_eq with hlt | rfl
    · rw [put_seg_of_ne L hlt.ne]
      exact hfilled g hg hlt
    · rw [put_seg_self]
      exact OMap.put_entries_ne_nil

/-- An entry that fits alone and has the greatest key comes last in the history, and
leaves the log tidy. -/
theorem Tidy.append {fits : OMap κ ν → Prop} [DecidablePred fits] {grows : ℕ → Prop}
    [DecidablePred grows] {k : κ} {v : ν} (h : L.Tidy) (halone : fits (OMap.empty.put k v))
    (hgrows : ¬ fits ((L.seg L.cur).put k v) → grows (L.cur + 1)) (hk : ∀ x ∈ L.history, x.1 < k)
    (attempts : ℕ) (batch : Bool) :
    let out := L.append fits grows k v (attempts + 2) batch L.cur
    (∃ j, out.1 = .ok j) ∧ out.2.Tidy ∧ out.2.history = L.history ++ [(k, v)] := by
  intro out
  rcases append_at_cur h.topped halone hgrows attempts batch with ⟨-, hout⟩ | ⟨hne, -, hout⟩
  · have hcur : ∀ x ∈ (L.seg L.cur).entries, x.1 < k := fun x hx =>
      hk x (mem_history.mpr ⟨L.cur, le_rfl, hx⟩)
    rw [show out = _ from hout]
    exact ⟨⟨_, rfl⟩, tidy_put_cur h.topped h.chronological (fun g hg hlt => h.filled g hg hlt.le) hk,
      history_put_cur hcur⟩
  · have hnext : (L.rollOver L.cur).seg (L.rollOver L.cur).cur = .empty := by
      rw [rollOver_seg, rollOver_self_cur]
      exact h.topped _ (Nat.lt_succ_self _)
    have hcur : ∀ x ∈ ((L.rollOver L.cur).seg (L.rollOver L.cur).cur).entries, x.1 < k := by
      rw [hnext]
      exact fun x hx => nomatch hx
    have hhist : (L.rollOver L.cur).history = L.history := by
      have hbelow : (L.rollOver L.cur).below (L.cur + 1) = L.below (L.cur + 1) :=
        below_congr fun g _ => by rw [rollOver_seg]
      rw [history, below, hnext, rollOver_self_cur, hbelow]
      exact List.append_nil _
    have hput : (L.rollOver L.cur).put (L.cur + 1) k v =
        (L.rollOver L.cur).put (L.rollOver L.cur).cur k v := by rw [rollOver_self_cur]
    rw [show out = _ from hout, hput]
    refine ⟨⟨_, rfl⟩, tidy_put_cur h.topped.rollOver ?_ (fun g hg hlt => ?_) (hhist ▸ hk),
      (history_put_cur hcur).trans (by rw [hhist])⟩
    · intro g g' hgg
      rw [rollOver_seg]
      exact h.chronological g g' hgg
    · rw [rollOver_self_cur] at hlt
      rw [rollOver_seg]
      rcases (Nat.lt_succ_iff.mp hlt).lt_or_eq with hlt | rfl
      · exact h.filled g hg hlt.le
      · exact hne

end Log

end AdkAerospike.Sessions
