import AdkAerospike.Sessions.Alone.Create
import AdkAerospike.Sessions.Concurrent.Setting

/-! Any number of `_roll_over` calls on one session. The increment of `cur` is made
only under the guard `cur == n`, in one request with it, so a step is taken once
however often it is asked for and however many of the answers are lost; a call that
meets a failed guard reads an index that is already past its own. -/

namespace AdkAerospike.Sessions

open Program Data Codec Keys

variable {V P : Type} {cfg : ServerConfig V P} {a : Addr}

/-- The stored `cur` of the session. -/
def storedCur (a : Addr) (w : World V P) : Option ℕ := (w.store.get a.sessionPk).bind Record.cur

/-! ### Calls -/

/-- A world and the changes of the stored `cur` that have led to it. -/
abbrev Rolled (V P : Type) := World V P × List (Option ℕ × Option ℕ)

/-- Answer a request and write down if it has changed `cur`. -/
def noting (cfg : ServerConfig V P) (a : Addr) (inst : ℕ) (x : Weather) (q : Req V P) (u : Rolled V P) :
    Ans q × Rolled V P :=
  ((exec cfg inst x q u.1).1, (exec cfg inst x q u.1).2,
    if storedCur a (exec cfg inst x q u.1).2 = storedCur a u.1 then u.2
    else u.2 ++ [(storedCur a u.1, storedCur a (exec cfg inst x q u.1).2)])

/-- A call of `_roll_over`, on the instance `inst`. -/
structure RollOver where
  inst : ℕ
  n : ℕ

/-- Calls of `_roll_over` for one session. -/
def rolling (cfg : ServerConfig V P) (a : Addr) :
    System (Req V P) Ans Err ℕ (Rolled V P) RollOver Weather where
  body l := rollOver a l.n
  serve l := noting cfg a l.inst

abbrev RollPool (V P : Type) := Pool (Req V P) Ans Err ℕ (Rolled V P) RollOver

/-- A call is made with an index that is not above the stored one; requests meet
back-pressure and timeouts in any pattern. -/
def NotAhead (a : Addr) (s : RollPool V P) : Action RollOver Weather → Prop
  | .spawn l => ∃ c, storedCur a s.world.1 = some c ∧ l.n ≤ c
  | .step _ x => x.whole.Transient

/-! ### One request -/

/-- The stored `cur` does not decrease. -/
def CurGrows (a : Addr) (u u' : Rolled V P) : Prop :=
  ∀ c, storedCur a u.1 = some c → ∃ c', storedCur a u'.1 = some c' ∧ c ≤ c'

/-- Nothing, or the step from `n` to `n + 1`, which is written down. -/
def Steps (a : Addr) (n : ℕ) (u u' : Rolled V P) : Prop :=
  storedCur a u'.1 = storedCur a u.1 ∧ u'.2 = u.2 ∨
    storedCur a u.1 = some n ∧ storedCur a u'.1 = some (n + 1) ∧ u'.2 = u.2 ++ [(some n, some (n + 1))]

theorem CurGrows.refl (u : Rolled V P) : CurGrows a u u := fun c hc => ⟨c, hc, le_rfl⟩

theorem CurGrows.trans {u₁ u₂ u₃ : Rolled V P} (h₁ : CurGrows a u₁ u₂) (h₂ : CurGrows a u₂ u₃) :
    CurGrows a u₁ u₃ := fun c hc => by
  obtain ⟨c₂, hc₂, hle₂⟩ := h₁ c hc
  obtain ⟨c₃, hc₃, hle₃⟩ := h₂ c₂ hc₂
  exact ⟨c₃, hc₃, hle₂.trans hle₃⟩

theorem Steps.curGrows {n : ℕ} {u u' : Rolled V P} (h : Steps a n u u') : CurGrows a u u' := fun c hc => by
  rcases h with ⟨hsame, -⟩ | ⟨hn, hn', -⟩
  · exact ⟨c, hsame.trans hc, le_rfl⟩
  · rw [hn, Option.some.injEq] at hc
    exact ⟨n + 1, hn', by omega⟩

def roller (cfg : ServerConfig V P) (a : Addr) (l : RollOver) : Setting (Req V P) Ans (Rolled V P) Weather where
  serve := noting cfg a l.inst
  adm _ x := x.whole.Transient
  rely := CurGrows a
  guar := Steps a l.n
  rely_refl := CurGrows.refl
  rely_trans := CurGrows.trans

section Requests
variable {inst n c : ℕ} {x : Weather} {u : Rolled V P}

theorem noting_of_same {q : Req V P} (h : storedCur a (exec cfg inst x q u.1).2 = storedCur a u.1) :
    Steps a n u (noting cfg a inst x q u).2 := .inl ⟨h, if_pos h⟩

theorem noting_of_step {q : Req V P} (hn : storedCur a u.1 = some n)
    (hn' : storedCur a (exec cfg inst x q u.1).2 = some (n + 1)) : Steps a n u (noting cfg a inst x q u).2 := by
  have hne : storedCur a (exec cfg inst x q u.1).2 ≠ storedCur a u.1 := by
    rw [hn, hn']
    simp
  refine .inr ⟨hn, hn', (if_neg hne).trans ?_⟩
  rw [hn, hn']

/-- Every answer to the guarded increment. -/
theorem exec_bump_cases {w : World V P} (hc : storedCur a w = some c) (inst n : ℕ) (hx : x.whole.Transient) :
    let done := exec cfg inst x (.operate a.sessionPk [.incrementCur, .readCur] (some n)) w
    done.1 = .ok { cur := some (n + 1) } ∧ c = n ∧ storedCur a done.2 = some (n + 1) ∨
      done.1 = .error .filteredOut ∧ c ≠ n ∧ storedCur a done.2 = some c ∨
      ∃ e, done.1 = .error e ∧ e ≠ .filteredOut ∧
        (storedCur a done.2 = some c ∨ c = n ∧ storedCur a done.2 = some (n + 1)) := by
  intro done
  obtain ⟨r, hr, hcur⟩ := Option.bind_eq_some_iff.mp hc
  set σ' := (cfg.operate a.sessionPk [.incrementCur, .readCur] (some n) w.store).2 with hσ'
  have hans : (cfg.operate a.sessionPk [.incrementCur, .readCur] (some n) w.store).1 = _ := ServerConfig.operate_fst
  have hself : σ'.get a.sessionPk = _ := ServerConfig.operate_get_self
  rw [hr, onRecord_bump r hcur] at hans hself
  have hstay : σ'.get a.sessionPk = some r → storedCur a (w.withStore σ') = some c := fun h => by
    show (σ'.get a.sessionPk).bind Record.cur = some c
    rw [h]
    exact hcur
  have hstep : σ'.get a.sessionPk = some { r with cur := some (n + 1) } →
      storedCur a (w.withStore σ') = some (n + 1) := fun h => by
    show (σ'.get a.sessionPk).bind Record.cur = some (n + 1)
    rw [h]
    rfl
  rcases under_cases x.whole (cfg.operate a.sessionPk [.incrementCur, .readCur] (some n)) w.store
    with ⟨-, hu⟩ | ⟨e, he, hu, hu' | hu'⟩
  · have hdone : done = (_, w.withStore σ') := (onStore_eq w _).trans (by rw [hu])
    rw [hdone]
    dsimp only
    split_ifs at hans hself with hcn hfits
    · exact .inl ⟨hans, hcn, hstep hself⟩
    · exact .inr (.inr ⟨_, hans, by decide, .inl (hstay hself)⟩)
    · exact .inr (.inl ⟨hans, hcn, hstay hself⟩)
  all_goals
    have hne : e ≠ .filteredOut := by
      rintro rfl
      cases hx.error he
    refine .inr (.inr ⟨e, hu, hne, ?_⟩)
  · have hdone : done.2 = w.withStore w.store := congrArg w.withStore hu'
    rw [hdone]
    exact .inl hc
  · have hdone : done.2 = w.withStore σ' := congrArg w.withStore hu'
    rw [hdone]
    split_ifs at hself with hcn hfits
    · exact .inr ⟨hcn, hstep hself⟩
    · exact .inl (hstay hself)
    · exact .inl (hstay hself)

/-- The read of `cur` after a failed guard. -/
theorem exec_selectCur_cases {w : World V P} (hc : storedCur a w = some c) (inst : ℕ) (x : Weather) :
    (exec cfg inst x (.selectCur a.sessionPk) w).2 = w ∧
      ((exec cfg inst x (.selectCur a.sessionPk) w).1 = .ok (some c) ∨
        ∃ e, (exec cfg inst x (.selectCur a.sessionPk) w).1 = .error e) := by
  obtain ⟨r, hr, hcur⟩ := Option.bind_eq_some_iff.mp hc
  have hfetch : (ServerConfig.fetch a.sessionPk w.store).map (·.cur) = .ok (some c) := by
    simp [ServerConfig.fetch, hr, hcur, Except.map]
  simp only [exec, World.reading, hfetch]
  cases x.whole.error with
  | none => exact ⟨rfl, .inl rfl⟩
  | some e => exact ⟨rfl, .inr ⟨e, rfl⟩⟩

end Requests

/-! ### One call -/

/-- The stored `cur` is at least `n`. -/
def CurFrom (a : Addr) (n : ℕ) (u : Rolled V P) : Prop := ∃ c, storedCur a u.1 = some c ∧ n ≤ c

/-- The index `m` comes after `n` and has been reached. -/
def Passed (a : Addr) (n m : ℕ) (u : Rolled V P) : Prop := n < m ∧ CurFrom a m u

/-- What is known when the increment has been answered. -/
def Guarded (a : Addr) (n : ℕ) : Except Err (OpResult V P) → Rolled V P → Prop
  | .ok y, u => Passed a n (y.cur.getD (n + 1)) u
  | .error .filteredOut, u => CurFrom a (n + 1) u
  | .error _, u => CurFrom a n u

/-- What is known when the call has ended. -/
def Yielded (a : Addr) (n : ℕ) : Except Err ℕ → Rolled V P → Prop
  | .ok m, u => Passed a n m u
  | .error _, _ => True

section Calls
variable {l : RollOver} {n : ℕ} {u u' : Rolled V P}

theorem CurFrom.keep (h : CurFrom a n u) (hu : CurGrows a u u') : CurFrom a n u' := by
  obtain ⟨c, hc, hle⟩ := h
  obtain ⟨c', hc', hle'⟩ := hu c hc
  exact ⟨c', hc', hle.trans hle'⟩

theorem CurFrom.mono {m : ℕ} (h : CurFrom a n u) (hm : m ≤ n) : CurFrom a m u := by
  obtain ⟨c, hc, hle⟩ := h
  exact ⟨c, hc, hm.trans hle⟩

theorem guarded_stable : Safe.Stable (roller cfg a l) (Guarded a n : Except Err (OpResult V P) → _ → Prop) := by
  intro r u u' h hu
  rcases r with e | y
  · cases e <;> exact CurFrom.keep h hu
  · exact ⟨h.1, h.2.keep hu⟩

theorem yielded_stable : Safe.Stable (roller cfg a l) (Yielded a n : Except Err ℕ → Rolled V P → Prop) := by
  intro r u u' h hu
  cases r with
  | ok m => exact ⟨h.1, h.2.keep hu⟩
  | error e => trivial

theorem guarded_error {e : Err} (h : Guarded a n (.error e : Except Err (OpResult V P)) u) : CurFrom a n u := by
  cases e with
  | filteredOut => exact CurFrom.mono h (Nat.le_succ n)
  | _ => exact h

/-- One attempt at the increment. -/
theorem guarded_noting (h : CurFrom a n u) (inst : ℕ) {x : Weather} (hx : x.whole.Transient) :
    Steps a n u (noting cfg a inst x (.operate a.sessionPk [.incrementCur, .readCur] (some n)) u).2 ∧
      Guarded a n (noting cfg a inst x (.operate a.sessionPk [.incrementCur, .readCur] (some n)) u).1
        (noting cfg a inst x (.operate a.sessionPk [.incrementCur, .readCur] (some n)) u).2 := by
  obtain ⟨c, hc, hle⟩ := h
  set done := exec cfg inst x (.operate a.sessionPk [.incrementCur, .readCur] (some n)) u.1 with hdone
  have hans : (noting cfg a inst x (.operate a.sessionPk [.incrementCur, .readCur] (some n)) u).1 = done.1 := rfl
  rcases @exec_bump_cases V P cfg a c x u.1 hc inst n hx with ⟨hok, rfl, hcur⟩ | ⟨hout, hne, hcur⟩ | ⟨e, herr, hne, hcur⟩
  · rw [hans, show done.1 = _ from hok]
    exact ⟨noting_of_step hc hcur, Nat.lt_succ_self _, _, hcur, le_rfl⟩
  · rw [hans, show done.1 = _ from hout]
    exact ⟨noting_of_same (hcur.trans hc.symm), c, hcur, by omega⟩
  · rw [hans, show done.1 = _ from herr]
    have hweak : CurFrom a n (noting cfg a inst x (.operate a.sessionPk [.incrementCur, .readCur] (some n)) u).2 := by
      rcases hcur with hcur | ⟨rfl, hcur⟩
      · exact ⟨c, hcur, hle⟩
      · exact ⟨c + 1, hcur, Nat.le_succ c⟩
    have hpost : Guarded a n (.error e : Except Err (OpResult V P))
        (noting cfg a inst x (.operate a.sessionPk [.incrementCur, .readCur] (some n)) u).2 := by
      cases e with
      | filteredOut => exact absurd rfl hne
      | _ => exact hweak
    rcases hcur with hcur | ⟨rfl, hcur⟩
    · exact ⟨noting_of_same (hcur.trans hc.symm), hpost⟩
    · exact ⟨noting_of_step hc hcur, hpost⟩

/-- The increment with its retries: a retry after a lost answer finds the guard false. -/
theorem safe_increment (h : CurFrom a l.n u) (m : ℕ) : Safe (roller cfg a l) (Guarded a l.n)
    (writeRetryingOverload (operate a.sessionPk [.incrementCur, .readCur] (some l.n)) true m) u := by
  refine safe_writeRetryingOverload guarded_stable true (I := CurFrom a l.n) (fun v hv => ?_)
    (fun e v _ hv => guarded_error hv) m h
  intro v' hv' x hx
  obtain ⟨hsteps, hpost⟩ := @guarded_noting V P cfg a l.n v' (hv.keep hv') l.inst x hx
  exact ⟨hsteps, safe_ofExcept guarded_stable hpost⟩

/-- The read in place of the increment. -/
theorem safe_readBack (h : CurFrom a (l.n + 1) u) : Safe (roller cfg a l) (Yielded a l.n)
    ((selectCur a.sessionPk).bind fun c => .ret (c.getD (l.n + 1))) u := by
  intro v hv x _
  obtain ⟨c, hc, hle⟩ := h.keep hv
  obtain ⟨hsame, hans⟩ := @exec_selectCur_cases V P cfg a c v.1 hc l.inst x
  have hcur : storedCur a (exec cfg l.inst x (.selectCur a.sessionPk) v.1).2 = storedCur a v.1 := by rw [hsame]
  have hworld : (noting cfg a l.inst x (.selectCur a.sessionPk) v).2 = v := Prod.ext hsame (if_pos hcur)
  have hstay : (roller cfg a l).guar v v := .inl ⟨rfl, rfl⟩
  refine ⟨?_, ?_⟩
  · show (roller cfg a l).guar v (noting cfg a l.inst x (.selectCur a.sessionPk) v).2
    rw [hworld]
    exact hstay
  · show Safe (roller cfg a l) (Yielded a l.n) ((ofExcept (exec cfg l.inst x (.selectCur a.sessionPk) v.1).1).bind _)
      (noting cfg a l.inst x (.selectCur a.sessionPk) v).2
    rw [hworld]
    rcases hans with hans | ⟨e, hans⟩ <;> rw [hans]
    · exact Safe.ret yielded_stable ⟨by show l.n < c; omega, c, hc, le_rfl⟩
    · exact Safe.raise yielded_stable trivial

theorem safe_cacheIndex {m : ℕ} (h : Passed a l.n m u) : Safe (roller cfg a l) (Yielded a l.n)
    ((cacheSet a.pkStr m).bind fun _ => .ret m) u := by
  intro v hv x _
  have hsame : storedCur a (exec cfg l.inst x (.cacheSet a.pkStr m) v.1).2 = storedCur a v.1 := rfl
  have hsteps : Steps a l.n v (noting cfg a l.inst x (.cacheSet a.pkStr m) v).2 := noting_of_same hsame
  exact ⟨hsteps, Safe.ret yielded_stable ⟨h.1, (h.2.keep hv).keep hsteps.curGrows⟩⟩

/-- A call for an index that is not above the stored one only takes the step that it
guards, and returns a later index that has been reached. -/
theorem safe_rolling (h : CurFrom a l.n u) : Safe (roller cfg a l) (Yielded a l.n) (rollOver a l.n) u := by
  refine Safe.seq (Yielded a l.n) ?_ (fun m v hm => safe_cacheIndex hm) fun _ _ _ => trivial
  exact safe_catching_ret yielded_stable guarded_stable (safe_increment h _) (fun y v hy => hy)
    (fun v hv => safe_readBack hv) fun _ _ _ _ => trivial

end Calls

/-! ### Runs -/

/-- The steps from `c₀` to `c`, each once and in order. -/
def stepsBetween (c₀ c : ℕ) : List (Option ℕ × Option ℕ) :=
  (List.range' c₀ (c - c₀)).map fun k => (some k, some (k + 1))

theorem stepsBetween_succ {c₀ c : ℕ} (h : c₀ ≤ c) : stepsBetween c₀ (c + 1) = stepsBetween c₀ c ++ [(some c, some (c + 1))] := by
  have hsub : c + 1 - c₀ = c - c₀ + 1 := by omega
  have hlast : c₀ + (c - c₀) = c := by omega
  rw [stepsBetween, hsub, List.range'_concat, List.map_append, Nat.one_mul, hlast]
  rfl

theorem mem_stepsBetween {c₀ c k : ℕ} : (some k, some (k + 1)) ∈ stepsBetween c₀ c ↔ c₀ ≤ k ∧ k < c := by
  simp only [stepsBetween, List.mem_map, List.mem_range'_1, Prod.mk.injEq, Option.some.injEq]
  constructor
  · rintro ⟨j, hj, rfl, -⟩
    omega
  · intro h
    exact ⟨k, by omega, rfl, rfl⟩

/-- All that has happened to `cur` are the steps from `c₀` on, each once and each asked
for by some call, and every call is safe. -/
structure Counted (cfg : ServerConfig V P) (a : Addr) (c₀ : ℕ) (s : RollPool V P) : Prop where
  counted : ∃ c, c₀ ≤ c ∧ storedCur a s.world.1 = some c ∧ s.world.2 = stepsBetween c₀ c
  asked : ∀ k, (some k, some (k + 1)) ∈ s.world.2 → ∃ l ∈ s.calls, l.n = k
  safe : ∀ (i : ℕ) p, s.procs[i]? = some p → Safe (roller cfg a p.call) (Yielded a p.call.n) p.prog s.world

section Runs
variable {c₀ : ℕ} {s s' : RollPool V P}

theorem Counted.act (h : Counted cfg a c₀ s) {x : Action RollOver Weather} (hx : NotAhead a s x) :
    Counted cfg a c₀ ((rolling cfg a).act x s) := by
  rcases System.act_cases (Y := rolling cfg a) x s with ⟨l, rfl, hact⟩ | ⟨i, c, -, -, hact⟩ |
    ⟨i, y, l, q, k, rfl, hi, -, hact⟩ <;> rw [hact]
  · obtain ⟨c, hc, hle⟩ := hx
    refine ⟨h.counted, fun k hk => ?_, fun i p hi => ?_⟩
    · obtain ⟨l', hl', hn⟩ := h.asked k hk
      refine ⟨l', ?_, hn⟩
      rw [← hact, System.calls_spawn]
      exact List.mem_append_left _ hl'
    · rcases System.getElem?_concat hi with ⟨hi, -⟩ | ⟨rfl, -⟩
      · exact h.safe i p hi
      · exact safe_rolling ⟨c, hc, hle⟩
  · exact h
  · have hl : l ∈ s.calls := List.mem_map.mpr ⟨_, List.mem_of_getElem? hi, rfl⟩
    obtain ⟨hsteps, hnext⟩ := h.safe i _ hi s.world (CurGrows.refl _) y hx
    have hcalls : Pool.calls ⟨((rolling cfg a).serve l y q s.world).2,
        s.procs.set i ⟨l, k ((rolling cfg a).serve l y q s.world).1⟩⟩ = s.calls := by
      rw [← hact]
      exact System.calls_step i y s
    obtain ⟨c, hle, hc, hlog⟩ := h.counted
    refine ⟨?_, fun k' hk' => ?_, fun j p hj => ?_⟩
    · rcases hsteps with ⟨hsame, hsame'⟩ | ⟨hn, hn', hnote⟩
      · exact ⟨c, hle, hsame.trans hc, hsame'.trans hlog⟩
      · rw [hc, Option.some.injEq] at hn
        refine ⟨c + 1, by omega, ?_, ?_⟩
        · rw [hn]
          exact hn'
        · rw [stepsBetween_succ hle, ← hlog, hn]
          exact hnote
    · rw [hcalls]
      rcases hsteps with ⟨-, hsame'⟩ | ⟨-, -, hnote⟩
      · exact h.asked k' (hsame' ▸ hk')
      · have hmem : (some k', some (k' + 1)) ∈ s.world.2 ++ [(some l.n, some (l.n + 1))] := hnote ▸ hk'
        rcases List.mem_append.mp hmem with hold | hnew
        · exact h.asked k' hold
        · refine ⟨l, hl, ?_⟩
          simpa using (List.mem_singleton.mp hnew).symm
    · rcases System.getElem?_set_cases hj with ⟨rfl, rfl⟩ | ⟨-, hj⟩
      · exact hnext
      · exact (h.safe j p hj).of_rely hsteps.curGrows

theorem Counted.curGrows (h : Counted cfg a c₀ s) {x : Action RollOver Weather} (hx : NotAhead a s x) :
    CurGrows a s.world ((rolling cfg a).act x s).world := by
  rcases System.act_cases (Y := rolling cfg a) x s with ⟨l, -, hact⟩ | ⟨i, c, -, -, hact⟩ |
    ⟨i, y, l, q, k, rfl, hi, -, hact⟩ <;> rw [hact]
  · exact CurGrows.refl _
  · exact CurGrows.refl _
  · exact (h.safe i _ hi s.world (CurGrows.refl _) y hx).1.curGrows

theorem Counted.run (h : Counted cfg a c₀ s) (hs' : (rolling cfg a).Reach (NotAhead a) s s') :
    Counted cfg a c₀ s' ∧ CurGrows a s.world s'.world :=
  hs'.invariant (I := fun s' => Counted cfg a c₀ s' ∧ CurGrows a s.world s'.world) ⟨h, CurGrows.refl _⟩
    fun _ _ h hx => ⟨h.1.act hx, h.2.trans (h.1.curGrows hx)⟩

/-- In every run of `_roll_over` calls, each for an index not above the stored one, on a
session whose stored `cur` is `c₀`: what happens to `cur` are the steps from `c₀` on, each
once and in order, so `cur` never decreases; a call that returns yields an index past its
own that has been reached; and if all calls are for `c₀` the index is `c₀ + 1` as soon as
one of them has returned. -/
theorem rollover_exactly_once (w₀ : World V P) (hc₀ : storedCur a w₀ = some c₀)
    (hs : (rolling cfg a).Reach (NotAhead a) ⟨(w₀, []), []⟩ s) :
    ∃ c, storedCur a s.world.1 = some c ∧ c₀ ≤ c ∧
      s.world.2 = stepsBetween c₀ c ∧ s.world.2.Nodup ∧
      (∀ s', (rolling cfg a).Reach (NotAhead a) s s' → ∃ c', storedCur a s'.world.1 = some c' ∧ c ≤ c') ∧
      (∀ (i : ℕ) p m, s.procs[i]? = some p → p.prog = .ret m → p.call.n < m ∧ m ≤ c) ∧
      ((∀ l ∈ s.calls, l.n = c₀) → (∃ p ∈ s.procs, ∃ m, p.prog = .ret m) → c = c₀ + 1) := by
  have hstart : Counted cfg a c₀ ⟨(w₀, []), []⟩ := by
    refine ⟨⟨c₀, le_rfl, hc₀, ?_⟩, fun k hk => (nomatch hk), fun i p hi => (nomatch hi)⟩
    simp [stepsBetween]
  have h := (hstart.run hs).1
  obtain ⟨c, hle, hc, hlog⟩ := h.counted
  have hreturned : ∀ (i : ℕ) p m, s.procs[i]? = some p → p.prog = .ret m → p.call.n < m ∧ m ≤ c := fun i p m hi hm => by
    have hsafe := h.safe i p hi
    rw [hm] at hsafe
    obtain ⟨hlt, c', hc', hle'⟩ := hsafe.ret_post
    rw [hc, Option.some.injEq] at hc'
    exact ⟨hlt, hc' ▸ hle'⟩
  refine ⟨c, hc, hle, hlog, ?_, fun s' hs' => ?_, hreturned, fun hall hret => ?_⟩
  · rw [hlog]
    refine List.Nodup.map (fun i j hij => ?_) List.nodup_range'
    simpa using congrArg Prod.fst hij
  · exact (h.run hs').2 c hc
  · obtain ⟨p, hp, m, hm⟩ := hret
    obtain ⟨i, hi⟩ := List.mem_iff_getElem?.mp hp
    obtain ⟨hlt, hmc⟩ := hreturned i p m hi hm
    have hpn := hall p.call (List.mem_map.mpr ⟨p, hp, rfl⟩)
    by_contra hne
    -- the step from `c₀ + 1` has been taken, but nobody has asked for it
    have hmem : (some (c₀ + 1), some (c₀ + 1 + 1)) ∈ s.world.2 := by
      rw [hlog]
      exact mem_stepsBetween.mpr ⟨by omega, by omega⟩
    obtain ⟨l, hl, hln⟩ := h.asked _ hmem
    rw [hall l hl] at hln
    omega

end Runs

namespace Small

/-- Two calls for the first segment. The first one's increment is applied but times out,
so the second call and the first one's retry find the guard false. -/
def rolledOnce : RollPool ℕ (Event ℕ) := (rolling Small.cfg addr).run
  [.spawn ⟨0, 0⟩, .spawn ⟨1, 0⟩, .step 0 ⟨.timeout true, fun _ => .none⟩, .step 1 .calm, .step 1 .calm, .step 1 .calm,
    .step 0 .calm, .step 0 .calm, .step 0 .calm] ⟨(created, []), []⟩

theorem reach_rolledOnce : (rolling Small.cfg addr).Reach (NotAhead addr) ⟨(created, []), []⟩ rolledOnce :=
  System.reach_run ⟨⟨0, rfl, le_rfl⟩, ⟨0, rfl, le_rfl⟩, trivial, trivial, trivial, trivial, trivial, trivial, trivial,
    trivial⟩

end Small

open Sessions.Small in
theorem rollover_exactly_once_small : storedCur addr created = some 0 ∧
    ∃ c, storedCur addr rolledOnce.world.1 = some c ∧ rolledOnce.world.2 = stepsBetween 0 c ∧ c = 0 + 1 := by
  obtain ⟨c, hc, -, hsteps, -, -, -, hall⟩ := rollover_exactly_once created rfl reach_rolledOnce
  refine ⟨rfl, c, hc, hsteps, hall (by decide +kernel) ⟨⟨⟨0, 0⟩, .ret 1⟩, ?_, 1, rfl⟩⟩
  exact List.mem_of_getElem? (i := 0) rfl

end AdkAerospike.Sessions
