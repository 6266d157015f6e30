import Mathlib.Algebra.Group.Int.Defs
import Mathlib.Data.Rat.Defs
import AdkAerospike.Data.Dict
import AdkAerospike.Data.Utf8

/-! Events, their stored form and their map keys (`_internal/codec.py`). The ADK
model's `model_dump` and `model_validate` belong to a third-party package: they
enter as a structure with the lossless round trip as its law. Timestamps are
rationals, as every finite double is one; `int(timestamp * 1_000_000)` in double
arithmetic enters as the function `micros`. -/

namespace AdkAerospike.Codec

open Data

structure Part (V : Type) where
  text : Option Str
  rest : V
  deriving DecidableEq

/-- The fields of an ADK event that the services read; `rest` stands for the others. -/
structure Event (V : Type) where
  id : Str
  timestamp : ℚ
  author : Str
  isPartial : Bool
  stateDelta : Dict V
  content : Option (Option (List (Part V)))
  rest : V

/-- `EVENT_SCHEMA_VERSION`. -/
def eventSchemaVersion : ℕ := 2

/-- The map stored for one event. Writers fill `payload`; the last three fields
occur in slim records of versions 0 and 1 only. -/
structure InlineEvent (V P : Type) where
  version : ℕ
  eid : Str
  ts : ℚ
  author : Str
  payload : Option P
  content : Option V
  actions : Option V
  branch : Option V
  deriving DecidableEq

/-- The ADK event model: its JSON dump, the constructor from a dump, and the
constructor from the fields of a slim record. -/
structure EventModel (V P : Type) where
  dump : Event V → P
  validate : P → Event V
  validateSlim : Str → ℚ → Str → Option V → Option V → Option V → Event V
  validate_dump : ∀ e, validate (dump e) = e

variable {V P : Type} (M : EventModel V P)

def eventToInlineDict (e : Event V) : InlineEvent V P where
  version := eventSchemaVersion
  eid := e.id
  ts := e.timestamp
  author := e.author
  payload := some (M.dump e)
  content := none
  actions := none
  branch := none

def eventFromInlineDict (d : InlineEvent V P) : Event V :=
  match decide (2 ≤ d.version), d.payload with
  | true, some p => M.validate p
  | _, _ => M.validateSlim d.eid d.ts d.author d.content d.actions d.branch

@[simp] theorem eventFromInlineDict_eventToInlineDict (e : Event V) :
    eventFromInlineDict M (eventToInlineDict M e) = e := M.validate_dump e

/-! ### Map keys -/

/-- `"{m:020d}:{event_id}"`. -/
def microsKey (m : ℤ) (eventId : Str) : Str := padInt 20 m ++ ':' :: eventId

def eventMapKey (micros : ℚ → ℤ) (eventId : Str) (timestamp : ℚ) : Str :=
  microsKey (micros timestamp) eventId

/-- The number in front of the first `:` of a map key. -/
def keyMicros (key : Str) : ℤ :=
  match key.takeWhile (· ≠ ':') with
  | '-' :: ds => -(digitValue ds)
  | ds => digitValue ds

theorem keyMicros_microsKey (m : ℤ) (eventId : Str) : keyMicros (microsKey m eventId) = m := by
  have hcut : ∀ x : Str, ':' ∉ x → (x ++ ':' :: eventId).takeWhile (· ≠ ':') = x := fun x hx => by
    rw [List.takeWhile_append_of_pos (by simpa using fun c hc => ne_of_mem_of_not_mem hc hx)]
    simp
  have hcolon : ∀ w n : ℕ, ':' ∉ padNat w n := fun w n => notMem_of_digits (padNat_digits w n) rfl
  have hminus : ∀ w n : ℕ, '-' ∉ padNat w n := fun w n => notMem_of_digits (padNat_digits w n) rfl
  cases m with
  | ofNat n =>
    rw [keyMicros, microsKey, padInt, hcut _ (hcolon 20 n)]
    split
    next ds hds => exact absurd (by simp [hds]) (hminus 20 n)
    next => simp
  | negSucc n =>
    rw [keyMicros, microsKey, padInt, hcut _ (by simpa using hcolon 19 (n + 1))]
    simp [Int.negSucc_eq]

/-- Every key lies below the upper end of the ranges that are asked for. -/
theorem microsKey_lt_colon (m : ℤ) (eventId : Str) : microsKey m eventId < [':'] := by
  have hhead : ∀ (c : Char) (x : Str), c < ':' → c :: x < [':'] := fun c x hc =>
    List.cons_lt_cons_iff.mpr (.inl hc)
  cases m with
  | negSucc n => exact hhead '-' _ (by decide)
  | ofNat n =>
    have hne : padNat 20 n ≠ [] := by simp [padNat, Nat.toDigits_ne_nil]
    obtain ⟨d, ds, hd⟩ := List.exists_cons_of_ne_nil hne
    have hdigit : d.isDigit := padNat_digits 20 n d (by simp [hd])
    simp only [Char.isDigit, Bool.and_eq_true, decide_eq_true_eq] at hdigit
    rw [microsKey, padInt, hd]
    exact hhead d _ (lt_of_le_of_lt hdigit.2 (by decide))

/-- Twenty digits of microseconds at most. -/
def InDigits (m : ℤ) : Prop := m < 10 ^ 20

/-- A key lies in the range that `after_timestamp` asks for exactly when its
microseconds reach the cutoff. -/
theorem microsKey_mem_range {m c : ℤ} (hm : InDigits m) (hc₀ : 0 ≤ c) (hc : InDigits c)
    (eventId : Str) :
    padInt 20 c ++ [':'] ≤ microsKey m eventId ∧ microsKey m eventId < [':'] ↔ c ≤ m := by
  obtain ⟨c, rfl⟩ := Int.eq_ofNat_of_zero_le hc₀
  have hc : c < 10 ^ 20 := by unfold InDigits at hc; omega
  cases m with
  | negSucc n =>
    have hlen : (padNat 20 c).length = 20 := length_padNat (by decide) hc
    obtain ⟨d, ds, hd⟩ := List.exists_cons_of_length_pos (show 0 < (padNat 20 c).length by omega)
    have hdigit : d.isDigit := padNat_digits 20 c d (by simp [hd])
    have hlt : microsKey (.negSucc n) eventId < padInt 20 (c : ℤ) ++ [':'] := by
      simp only [microsKey, padInt, hd, List.cons_append]
      refine List.cons_lt_cons_iff.mpr (.inl ?_)
      simp only [Char.isDigit, Bool.and_eq_true, decide_eq_true_eq] at hdigit
      exact lt_of_lt_of_le (by decide) hdigit.1
    constructor
    · exact fun h => absurd hlt (not_lt.mpr h.1)
    · intro h; omega
  | ofNat n =>
    have hn : n < 10 ^ 20 := by
      have : (n : ℤ) < 10 ^ 20 := hm
      omega
    have hlen : (padNat 20 n).length = 20 := length_padNat (by decide) hn
    obtain ⟨d, ds, hd⟩ := List.exists_cons_of_length_pos (show 0 < (padNat 20 n).length by omega)
    have hdigit : d.isDigit := padNat_digits 20 n d (by simp [hd])
    have hend : microsKey (.ofNat n) eventId < [':'] := by
      simp only [microsKey, padInt, hd, List.cons_append]
      refine List.cons_lt_cons_iff.mpr (.inl ?_)
      simp only [Char.isDigit, Bool.and_eq_true, decide_eq_true_eq] at hdigit
      exact lt_of_le_of_lt hdigit.2 (by decide)
    have hlo : microsKey (.ofNat n) eventId < padInt 20 (c : ℤ) ++ [':'] ↔ n < c := by
      have hnil : ¬ (':' :: eventId) < [':'] := by simp
      have h := padNat_append_lt_iff (by decide) hn hc (':' :: eventId) [':']
      rw [microsKey, padInt]
      exact h.trans ⟨fun h => h.elim id fun h => absurd h.2 hnil, .inl⟩
    constructor
    · exact fun h => Int.ofNat_le.mpr (not_lt.mp fun hlt => absurd (hlo.mpr hlt) (not_lt.mpr h.1))
    · exact fun h => ⟨not_lt.mp fun hlt => absurd (hlo.mp hlt) (not_lt.mpr (Int.ofNat_le.mp h)), hend⟩

theorem microsKey_inj {m m' : ℤ} {eventId eventId' : Str} :
    microsKey m eventId = microsKey m' eventId' ↔ m = m' ∧ eventId = eventId' := by
  constructor
  · intro h
    have hm : m = m' := by rw [← keyMicros_microsKey m eventId, h, keyMicros_microsKey]
    subst hm
    simpa [microsKey] using h
  · rintro ⟨rfl, rfl⟩
    rfl

/-- Keys compare as their microseconds, then as their ids. -/
theorem microsKey_lt_iff {m m' : ℕ} (hm : m < 10 ^ 20) (hm' : m' < 10 ^ 20) {eventId eventId' : Str} :
    microsKey m eventId < microsKey m' eventId' ↔ m < m' ∨ m = m' ∧ eventId < eventId' := by
  have h := padNat_append_lt_iff (by decide) hm hm' (':' :: eventId) (':' :: eventId')
  have hcolon : ':' :: eventId < ':' :: eventId' ↔ eventId < eventId' := by simp
  rw [hcolon] at h
  exact h

/-- Map keys embed the order of time: the server's byte order is that of the microseconds,
then of the ids, and the range from a cutoff on holds the keys that reach it. -/
theorem map_keys_chronological (m m' c : ℕ) (hm : m < 10 ^ 20) (hm' : m' < 10 ^ 20) (hc : c < 10 ^ 20)
    (eventId eventId' : Str) :
    (microsKey m eventId = microsKey m' eventId' ↔ m = m' ∧ eventId = eventId') ∧
      (utf8 (microsKey m eventId) < utf8 (microsKey m' eventId') ↔ m < m' ∨ m = m' ∧ eventId < eventId') ∧
      (utf8 (padInt 20 c ++ [':']) ≤ utf8 (microsKey m eventId) ∧ utf8 (microsKey m eventId) < utf8 [':'] ↔ c ≤ m) ∧
      keyMicros (microsKey m eventId) = m := by
  have hdigits : ∀ {n : ℕ}, n < 10 ^ 20 → InDigits n := fun hn => by
    unfold InDigits
    exact_mod_cast hn
  refine ⟨?_, ?_, ?_, keyMicros_microsKey m eventId⟩
  · rw [microsKey_inj, Int.natCast_inj]
  · rw [utf8_lt_iff, microsKey_lt_iff hm hm']
  · rw [utf8_le_iff, utf8_lt_iff, microsKey_mem_range (hdigits hm) (Int.natCast_nonneg c) (hdigits hc), Int.ofNat_le]

theorem map_keys_chronological_colons :
    (microsKey 7 [':'] = microsKey 12 ['0', ':'] ↔ 7 = 12 ∧ [':'] = ['0', ':']) ∧
      (utf8 (microsKey 7 [':']) < utf8 (microsKey 12 ['0', ':']) ↔ 7 < 12 ∨ 7 = 12 ∧ [':'] < ['0', ':']) ∧
      (utf8 (padInt 20 7 ++ [':']) ≤ utf8 (microsKey 7 [':']) ∧ utf8 (microsKey 7 [':']) < utf8 [':'] ↔ 7 ≤ 7) ∧
      keyMicros (microsKey 7 [':']) = 7 :=
  map_keys_chronological 7 12 7 (by decide) (by decide) (by decide) [':'] ['0', ':']

end AdkAerospike.Codec
