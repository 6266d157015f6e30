import AdkAerospike.Artifacts.Files

/-! Saves of one file that run at the same time. A save is given a version by one
request and writes its record by another, so any number of them may stand in between;
the versions they hold are different, lie below the counter, and have no record yet. -/

namespace AdkAerospike.Artifacts

open Program Data Keys

variable {V : Type}

abbrev ServicePool (V : Type) := Pool (Req V) Ans Err (Reply V) (Store V) (Call V)

/-- The versions held by saves that have not written their record are apart, lie below
the counter and have no record; and all records lie below the counter. -/
structure Reserved (f : File) (s : ServicePool V) : Prop where
  below : ∀ (i : ℕ) p v row, s.procs[i]? = some p → p.prog = writing f v row → v < counter f s.world
  vacant : ∀ (i : ℕ) p v row, s.procs[i]? = some p → p.prog = writing f v row →
    s.world.get (f.rowKey v) = none
  apart : ∀ (i j : ℕ) p q v row row', i ≠ j → s.procs[i]? = some p → s.procs[j]? = some q →
    p.prog = writing f v row → q.prog ≠ writing f v row'
  rows : ∀ (v : ℕ) r, s.world.get (f.rowKey v) = some r → v < counter f s.world

/-- How far a save has come. -/
inductive Stage (f : File) (c : Call V) : Service V (Reply V) → Prop
  | start (hc : c.saves f) : Stage f c c.body
  | holding (v : ℕ) (row : Record V) (hrow : c.row f v = some row) : Stage f c (writing f v row)
  | saved (v : ℕ) : Stage f c (.ret (.version v))
  | failed (e : Err) (he : e ≠ .server .recordExists) : Stage f c (.raise e)

section Pools
variable {cfg : ServerConfig V} {f : File} {s : ServicePool V}

/-- A call that starts holds no version. -/
theorem Reserved.spawn (h : Reserved f s) {c : Call V} (hc : ∀ v row, c.body ≠ writing f v row) :
    Reserved f ⟨s.world, s.procs ++ [⟨c, c.body⟩]⟩ where
  below i p v row hi hp := by
    rcases System.getElem?_concat hi with ⟨hi, -⟩ | ⟨rfl, -⟩
    · exact h.below i p v row hi hp
    · exact absurd hp (hc v row)
  vacant i p v row hi hp := by
    rcases System.getElem?_concat hi with ⟨hi, -⟩ | ⟨rfl, -⟩
    · exact h.vacant i p v row hi hp
    · exact absurd hp (hc v row)
  apart i j p q v row row' hij hi hj hp := by
    rcases System.getElem?_concat hi with ⟨hi, -⟩ | ⟨rfl, -⟩
    · rcases System.getElem?_concat hj with ⟨hj, -⟩ | ⟨rfl, -⟩
      · exact h.apart i j p q v row row' hij hi hj hp
      · exact hc v row'
    · exact absurd hp (hc v row)
  rows := h.rows

/-- One call goes on in a changed store: what has to be known of the store and of a
version that the call now holds. -/
theorem Reserved.replace (h : Reserved f s) {i : ℕ} {c : Call V} {p' : Service V (Reply V)} {σ' : Store V}
    (hcounter : ∀ (j : ℕ) q v row, j ≠ i → s.procs[j]? = some q → q.prog = writing f v row →
      v < counter f σ' ∧ σ'.get (f.rowKey v) = none)
    (hown : ∀ v row, p' = writing f v row → v < counter f σ' ∧ σ'.get (f.rowKey v) = none ∧
      ∀ (j : ℕ) q row', j ≠ i → s.procs[j]? = some q → q.prog ≠ writing f v row')
    (hrows : ∀ (v : ℕ) r, σ'.get (f.rowKey v) = some r → v < counter f σ') :
    Reserved f ⟨σ', s.procs.set i ⟨c, p'⟩⟩ where
  below j q v row hj hq := by
    rcases System.getElem?_set_cases hj with ⟨rfl, rfl⟩ | ⟨hji, hj⟩
    · exact (hown v row hq).1
    · exact (hcounter j q v row hji hj hq).1
  vacant j q v row hj hq := by
    rcases System.getElem?_set_cases hj with ⟨rfl, rfl⟩ | ⟨hji, hj⟩
    · exact (hown v row hq).2.1
    · exact (hcounter j q v row hji hj hq).2
  apart j k q q' v row row' hjk hj hk hq := by
    rcases System.getElem?_set_cases hj with ⟨rfl, rfl⟩ | ⟨hji, hj'⟩
    · rcases System.getElem?_set_cases hk with ⟨rfl, rfl⟩ | ⟨hki, hk'⟩
      · exact absurd rfl hjk
      · exact (hown v row hq).2.2 k q' row' hki hk'
    · rcases System.getElem?_set_cases hk with ⟨rfl, rfl⟩ | ⟨hki, hk'⟩
      · exact fun hq' => (hown v row' hq').2.2 j q row hji hj' hq
      · exact h.apart j k q q' v row row' hjk hj' hk' hq
  rows := hrows

/-- What one request of a save can do. -/
inductive Saves (f : File) (c : Call V) (σ : Store V) : Service V (Reply V) → Service V (Reply V) → Store V → Prop
  | idle {p : Service V (Reply V)} (hp : p.finished) : Saves f c σ p p σ
  | allocate {σ' : Store V} (hc : c.saves f) (hkeys : ∀ key, key ≠ f.headKey → σ'.get key = σ.get key)
      (hhead : σ'.get f.headKey = some (advanced f σ)) : Saves f c σ c.body (allocated f c (counter f σ)) σ'
  | refused {σ' : Store V} {e : Server.Err} (hc : c.saves f) (he : e ≠ .recordExists)
      (hkeys : ∀ key, key ≠ f.headKey → σ'.get key = σ.get key)
      (hhead : σ'.get f.headKey = σ.get f.headKey ∨ σ'.get f.headKey = some (advanced f σ)) :
      Saves f c σ c.body (.raise (.server e)) σ'
  | write {σ' : Store V} {v : ℕ} {row : Record V} (hrow : c.row f v = some row)
      (hkeys : ∀ key, key ≠ f.rowKey v → σ'.get key = σ.get key)
      (hnew : σ'.get (f.rowKey v) = some row) : Saves f c σ (writing f v row) (.ret (.version v)) σ'
  | lost {σ' : Store V} {v : ℕ} {row : Record V} {e : Server.Err} (he : e ≠ .recordExists)
      (hrow : c.row f v = some row) (hkeys : ∀ key, key ≠ f.rowKey v → σ'.get key = σ.get key)
      (hnew : σ'.get (f.rowKey v) = none ∨ σ'.get (f.rowKey v) = some row) :
      Saves f c σ (writing f v row) (.raise (.server e)) σ'

theorem counter_le_of_head {σ σ' : Store V}
    (h : σ'.get f.headKey = σ.get f.headKey ∨ σ'.get f.headKey = some (advanced f σ)) :
    counter f σ ≤ counter f σ' ∧ counter f σ' ≤ counter f σ + 1 := by
  rcases h with h | h
  · rw [counter_congr h]
    exact ⟨le_rfl, Nat.le_succ _⟩
  · rw [counter_of_advanced h]
    exact ⟨Nat.le_succ _, le_rfl⟩

theorem saves_of_stage {c : Call V} {p : Service V (Reply V)} (h : Stage f c p) (cfg : ServerConfig V)
    (x : Server.Weather) {σ : Store V} (hvacant : ∀ v row, p = writing f v row → σ.get (f.rowKey v) = none) :
    Saves f c σ p (p.step (exec cfg x) σ).1 (p.step (exec cfg x) σ).2 := by
  cases h with
  | start hc =>
    have hgiven : ∀ (cur : Option ℕ) (σ' : Store V), exec cfg x (.operate f.headKey allocation) σ = (.ok cur, σ') →
        c.body.step (exec cfg x) σ = (allocated f c (cur.getD 0), σ') := fun cur σ' hexec => by
      rw [body_save hc, Prog.step_ask, hexec]
    have hrefused : ∀ (e : Server.Err) (σ' : Store V), exec cfg x (.operate f.headKey allocation) σ = (.error e, σ') →
        c.body.step (exec cfg x) σ = (.raise (.server e), σ') := fun e σ' hexec => by
      rw [body_save hc, Prog.step_ask, hexec]
    obtain ⟨hkeys, ⟨cur, hans, hcur, hnew⟩ | ⟨e, hans, he, hhead⟩⟩ := exec_allocation cfg x f σ
    · rw [hgiven cur _ (Prod.ext hans rfl), hcur]
      exact .allocate hc hkeys hnew
    · rw [hrefused e _ (Prod.ext hans rfl)]
      exact .refused hc he hkeys hhead
  | holding v row hrow =>
    have hstep : ∀ (y : Except Server.Err Unit) (σ' : Store V),
        exec cfg x (.create (f.rowKey v) row) σ = (y, σ') →
        (writing f v row).step (exec cfg x) σ = ((answer y).bind fun _ => .ret (.version v), σ') := by
      intro y σ' hy
      rw [writing, Prog.step_ask, hy]
    obtain ⟨hkeys, ⟨hans, hnew⟩ | ⟨e, hans, he, hnew⟩⟩ :=
      exec_create_of_none cfg x σ (hvacant v row rfl) row
    · rw [hstep (.ok ()) _ (Prod.ext hans rfl)]
      exact .write hrow hkeys hnew
    · rw [hstep (.error e) _ (Prod.ext hans rfl)]
      exact .lost he hrow hkeys hnew
  | saved v => exact .idle rfl
  | failed e he => exact .idle rfl

/-- Only `writing` puts the record of a version. -/
theorem allocated_eq_writing {c : Call V} {n v : ℕ} {row : Record V} (h : allocated f c n = writing f v row) :
    v = n ∧ c.row f n = some row := by
  unfold allocated at h
  cases hrow : c.row f n with
  | none => rw [hrow] at h; cases h
  | some row' =>
    rw [hrow] at h
    simp only [writing, Prog.ask.injEq, Server.Req.create.injEq, File.rowKey_inj] at h
    exact ⟨by exact_mod_cast h.1.1.symm, congrArg some h.1.2⟩

theorem body_ne_writing {c : Call V} (hc : c.saves f) (v : ℕ) (row : Record V) : c.body ≠ writing f v row := by
  rw [body_save hc, writing]
  exact fun h => nomatch h

/-- The record of a version that was held may come into being, but no other. -/
theorem Reserved.written (h : Reserved f s) {i v : ℕ} {row : Record V}
    {p : Proc (Req V) Ans Err (Reply V) (Call V)} {p' : Service V (Reply V)} {σ' : Store V}
    (hi : s.procs[i]? = some p) (hp : p.prog = writing f v row)
    (hkeys : ∀ key, key ≠ f.rowKey v → σ'.get key = s.world.get key)
    (hp' : ∀ u row', p' ≠ writing f u row') : Reserved f ⟨σ', s.procs.set i ⟨p.call, p'⟩⟩ := by
  have hcounter : counter f σ' = counter f s.world := counter_congr (hkeys _ (Ne.symm File.rowKey_ne_headKey))
  have hother : ∀ u : ℕ, u ≠ v → σ'.get (f.rowKey u) = s.world.get (f.rowKey u) := fun u hu =>
    hkeys _ fun heq => hu (by exact_mod_cast File.rowKey_inj.mp heq)
  refine h.replace (fun j q u row' hji hj hq => ⟨?_, ?_⟩) (fun u row' hw => absurd hw (hp' u row'))
    fun u r hr => ?_
  · rw [hcounter]
    exact h.below j q u row' hj hq
  · have hu : u ≠ v := by
      rintro rfl
      exact h.apart i j p q u row row' (Ne.symm hji) hi hj hp hq
    rw [hother u hu]
    exact h.vacant j q u row' hj hq
  · rw [hcounter]
    by_cases hu : u = v
    · rw [hu]
      exact h.below i p v row hi hp
    · rw [hother u hu] at hr
      exact h.rows u r hr

/-- One request of a save keeps the reservations. -/
theorem Reserved.step (h : Reserved f s) {i : ℕ} {p : Proc (Req V) Ans Err (Reply V) (Call V)}
    {p' : Service V (Reply V)} {σ' : Store V} (hi : s.procs[i]? = some p)
    (hs : Saves f p.call s.world p.prog p' σ') : Reserved f ⟨σ', s.procs.set i ⟨p.call, p'⟩⟩ := by
  have hrowKey : ∀ v : ℕ, f.rowKey v ≠ f.headKey := fun v => File.rowKey_ne_headKey
  generalize hp : p.prog = prog at hs
  cases hs with
  | idle hfin =>
    refine h.replace (fun j q v row _ hj hq => ⟨h.below j q v row hj hq, h.vacant j q v row hj hq⟩)
      (fun v row hw => ?_) h.rows
    rw [hw] at hfin
    cases hfin
  | allocate hc hkeys hhead =>
    have hcounter := counter_of_advanced hhead
    refine h.replace (fun j q v row _ hj hq => ⟨?_, ?_⟩) (fun v row hw => ?_) fun v r hr => ?_
    · rw [hcounter]
      exact Nat.lt_succ_of_lt (h.below j q v row hj hq)
    · rw [hkeys _ (hrowKey v)]
      exact h.vacant j q v row hj hq
    · obtain ⟨rfl, -⟩ := allocated_eq_writing hw
      refine ⟨by rw [hcounter]; exact Nat.lt_succ_self _, ?_, fun j q row' _ hj hq => ?_⟩
      · rw [hkeys _ (hrowKey _)]
        exact vacant_counter h.rows
      · exact absurd (h.below j q _ row' hj hq) (lt_irrefl _)
    · rw [hkeys _ (hrowKey v)] at hr
      rw [hcounter]
      exact Nat.lt_succ_of_lt (h.rows v r hr)
  | refused hc he hkeys hhead =>
    have hle := (counter_le_of_head hhead).1
    refine h.replace (fun j q v row _ hj hq => ⟨?_, ?_⟩) (fun v row hw => nomatch hw) fun v r hr => ?_
    · exact (h.below j q v row hj hq).trans_le hle
    · rw [hkeys _ (hrowKey v)]
      exact h.vacant j q v row hj hq
    · rw [hkeys _ (hrowKey v)] at hr
      exact (h.rows v r hr).trans_le hle
  | write hrow hkeys hnew =>
    refine h.written hi hp hkeys fun v row hw => nomatch hw
  | lost he hrow hkeys hnew =>
    refine h.written hi hp hkeys fun v row hw => nomatch hw

/-! ### Pools of saves -/

/-- The call has not been given a version yet. -/
def waiting : Service V (Reply V) → Bool
  | .ask (.operate _ _) _ => true
  | _ => false

theorem waiting_body {c : Call V} (hc : c.saves f) : waiting c.body = true := by
  rw [body_save hc]
  rfl

theorem waiting_allocated (c : Call V) (n : ℕ) : waiting (allocated f c n) = false := by
  unfold allocated
  cases c.row f n <;> rfl

/-- All calls are saves of the file; those that have returned have their record stored
under a version of their own; and no more versions were given out than calls have
asked for one. -/
structure Saving (f : File) (n₀ : ℕ) (s : ServicePool V) : Prop extends Reserved f s where
  stage : ∀ (i : ℕ) p, s.procs[i]? = some p → Stage f p.call p.prog
  stored : ∀ (i : ℕ) p v, s.procs[i]? = some p → p.prog = .ret (.version v) →
    ∃ row, p.call.row f v = some row ∧ s.world.get (f.rowKey v) = some row
  returned : ∀ (i j : ℕ) p q v, i ≠ j → s.procs[i]? = some p → s.procs[j]? = some q →
    p.prog = .ret (.version v) → q.prog ≠ .ret (.version v)
  counted : counter f s.world + s.procs.countP (fun p => waiting p.prog) ≤ n₀ + s.procs.length

theorem Saving.spawn {n₀ : ℕ} (h : Saving f n₀ s) {c : Call V} (hc : c.saves f) :
    Saving f n₀ ⟨s.world, s.procs ++ [⟨c, c.body⟩]⟩ where
  toReserved := h.toReserved.spawn (body_ne_writing hc)
  stage i p hi := by
    rcases System.getElem?_concat hi with ⟨hi, -⟩ | ⟨rfl, -⟩
    · exact h.stage i p hi
    · exact .start hc
  stored i p v hi hp := by
    rcases System.getElem?_concat hi with ⟨hi, -⟩ | ⟨rfl, -⟩
    · exact h.stored i p v hi hp
    · rw [body_save hc] at hp
      cases hp
  returned i j p q v hij hi hj hp := by
    rcases System.getElem?_concat hi with ⟨hi, -⟩ | ⟨rfl, -⟩
    · rcases System.getElem?_concat hj with ⟨hj, -⟩ | ⟨rfl, -⟩
      · exact h.returned i j p q v hij hi hj hp
      · rw [body_save hc]
        exact fun h => nomatch h
    · rw [body_save hc] at hp
      cases hp
  counted := by
    have hcount := h.counted
    simp only [List.countP_append, List.countP_singleton, waiting_body hc, if_true, List.length_append,
      List.length_singleton]
    omega

theorem saves_stage {c : Call V} {σ σ' : Store V} {p p' : Service V (Reply V)} (h : Saves f c σ p p' σ')
    (hp : Stage f c p) : Stage f c p' := by
  cases h with
  | idle hfin => exact hp
  | allocate hc hkeys hhead =>
    unfold allocated
    cases hrow : c.row f (counter f σ) with
    | none => exact .failed _ (by simp)
    | some row => exact .holding _ row hrow
  | refused hc he hkeys hhead => exact .failed _ (by simpa using he)
  | write hrow hkeys hnew => exact .saved _
  | lost he hrow hkeys hnew => exact .failed _ (by simpa using he)

theorem Stage.raise_ne {c : Call V} {p : Service V (Reply V)} (h : Stage f c p) :
    p ≠ .raise (.server .recordExists) := by
  cases h with
  | start hc =>
    rw [body_save hc]
    exact fun h => nomatch h
  | holding v row hrow => exact fun h => nomatch h
  | saved v => exact fun h => nomatch h
  | failed e he => exact fun h => he (Prog.raise.inj h)

/-- No request of a save touches a record that exists, but for the head. -/
theorem saves_keeps {c : Call V} {σ σ' : Store V} {p p' : Service V (Reply V)} (h : Saves f c σ p p' σ')
    (hvacant : ∀ v row, p = writing f v row → σ.get (f.rowKey v) = none) {u : ℕ} {r : Record V}
    (hr : σ.get (f.rowKey u) = some r) : σ'.get (f.rowKey u) = some r := by
  have hne : ∀ {v : ℕ} {row : Record V}, p = writing f v row → f.rowKey u ≠ f.rowKey v :=
    fun {v} {row} hp heq => by
      rw [heq, hvacant v row hp] at hr
      cases hr
  cases h with
  | idle hfin => exact hr
  | allocate hc hkeys hhead => rw [hkeys _ File.rowKey_ne_headKey, hr]
  | refused hc he hkeys hhead => rw [hkeys _ File.rowKey_ne_headKey, hr]
  | write hrow hkeys hnew => rw [hkeys _ (hne rfl), hr]
  | lost he hrow hkeys hnew => rw [hkeys _ (hne rfl), hr]

/-- A save that has returned a version had returned it before, or has just stored its
record where there was none. -/
theorem saves_returned {c : Call V} {σ σ' : Store V} {p p' : Service V (Reply V)} (h : Saves f c σ p p' σ')
    {v : ℕ} (hp' : p' = .ret (.version v)) :
    p = .ret (.version v) ∧ σ' = σ ∨
      ∃ row, p = writing f v row ∧ c.row f v = some row ∧ σ'.get (f.rowKey v) = some row := by
  cases h with
  | idle hfin => exact .inl ⟨hp', rfl⟩
  | allocate hc hkeys hhead =>
    unfold allocated at hp'
    cases hrow : c.row f (counter f σ) <;> rw [hrow] at hp' <;> cases hp'
  | refused hc he hkeys hhead => cases hp'
  | write hrow hkeys hnew =>
    cases hp'
    exact .inr ⟨_, rfl, hrow, hnew⟩
  | lost he hrow hkeys hnew => cases hp'

/-- The counter advances only when a call stops waiting. -/
theorem saves_counts {c : Call V} {σ σ' : Store V} {p p' : Service V (Reply V)} (h : Saves f c σ p p' σ') :
    counter f σ' = counter f σ ∧ waiting p' = waiting p ∨
      counter f σ' ≤ counter f σ + 1 ∧ waiting p = true ∧ waiting p' = false := by
  have hhead : ∀ {σ' : Store V} {v : ℕ}, (∀ key, key ≠ f.rowKey v → σ'.get key = σ.get key) →
      counter f σ' = counter f σ := fun hkeys => counter_congr (hkeys _ (Ne.symm File.rowKey_ne_headKey))
  cases h with
  | idle hfin => exact .inl ⟨rfl, rfl⟩
  | allocate hc hkeys hhead => exact .inr ⟨(counter_of_advanced hhead).le, waiting_body hc, waiting_allocated c _⟩
  | refused hc he hkeys hhead => exact .inr ⟨(counter_le_of_head hhead).2, waiting_body hc, rfl⟩
  | write hrow hkeys hnew => exact .inl ⟨hhead hkeys, rfl⟩
  | lost he hrow hkeys hnew => exact .inl ⟨hhead hkeys, rfl⟩

theorem Saving.step {n₀ : ℕ} (h : Saving f n₀ s) {i : ℕ} {p : Proc (Req V) Ans Err (Reply V) (Call V)}
    {p' : Service V (Reply V)} {σ' : Store V} (hi : s.procs[i]? = some p)
    (hs : Saves f p.call s.world p.prog p' σ') : Saving f n₀ ⟨σ', s.procs.set i ⟨p.call, p'⟩⟩ := by
  have hvacant : ∀ v row, p.prog = writing f v row → s.world.get (f.rowKey v) = none :=
    fun v row hp => h.vacant i p v row hi hp
  -- a version that another call has returned has its record, so it is not returned again
  have hclash : ∀ (j : ℕ) q v, j ≠ i → s.procs[j]? = some q → q.prog = .ret (.version v) →
      p' ≠ .ret (.version v) := fun j q v hji hj hq hp' => by
    rcases saves_returned hs hp' with ⟨hp, -⟩ | ⟨row, hp, -, -⟩
    · exact h.returned j i q p v hji hj hi hq hp
    · obtain ⟨row', -, hr⟩ := h.stored j q v hj hq
      rw [hvacant v row hp] at hr
      cases hr
  refine ⟨h.toReserved.step hi hs, fun j q hj => ?_, fun j q v hj hq => ?_,
    fun j k q q' v hjk hj hk hq => ?_, ?_⟩
  · rcases System.getElem?_set_cases hj with ⟨rfl, rfl⟩ | ⟨-, hj'⟩
    · exact saves_stage hs (h.stage j p hi)
    · exact h.stage j q hj'
  · rcases System.getElem?_set_cases hj with ⟨rfl, rfl⟩ | ⟨-, hj'⟩
    · rcases saves_returned hs hq with ⟨hp, rfl⟩ | ⟨row, -, hrow, hnew⟩
      · exact h.stored j p v hi hp
      · exact ⟨row, hrow, hnew⟩
    · obtain ⟨row, hrow, hr⟩ := h.stored j q v hj' hq
      exact ⟨row, hrow, saves_keeps hs hvacant hr⟩
  · rcases System.getElem?_set_cases hj with ⟨rfl, rfl⟩ | ⟨hji, hj'⟩
    · rcases System.getElem?_set_cases hk with ⟨rfl, rfl⟩ | ⟨hki, hk'⟩
      · exact absurd rfl hjk
      · exact fun hq' => hclash k q' v hki hk' hq' hq
    · rcases System.getElem?_set_cases hk with ⟨rfl, rfl⟩ | ⟨hki, hk'⟩
      · exact hclash j q v hji hj' hq
      · exact h.returned j k q q' v hjk hj' hk' hq
  · obtain ⟨hlt, hget⟩ := List.getElem?_eq_some_iff.mp hi
    have hcount := h.counted
    simp only [List.countP_set (p := fun p => waiting p.prog) hlt, hget, List.length_set]
    rcases saves_counts hs with ⟨hsame, hw⟩ | ⟨hle, hw, hw'⟩
    · have hpos : waiting p.prog = true → 0 < s.procs.countP fun p => waiting p.prog := fun hp =>
        List.countP_pos_iff.mpr ⟨p, List.mem_of_getElem? hi, hp⟩
      rw [hw, hsame]
      by_cases hp : waiting p.prog = true
      · have := hpos hp
        simp only [hp, if_true]
        omega
      · simp only [hp, Bool.false_eq_true, if_false]
        omega
    · have hpos : 0 < s.procs.countP fun p => waiting p.prog :=
        List.countP_pos_iff.mpr ⟨p, List.mem_of_getElem? hi, hw⟩
      simp only [hw, hw', if_true, Bool.false_eq_true, if_false]
      omega

end Pools

/-- Only saves of the file are started; they are answered in any order and weather. -/
def OnlySaves (f : File) (_ : ServicePool V) : Action (Call V) Server.Weather → Prop
  | .spawn c => c.saves f
  | .step _ _ => True

theorem Saving.of_reach {cfg : ServerConfig V} {f : File} {n₀ : ℕ} {s₀ s : ServicePool V}
    (h₀ : Saving f n₀ s₀) (hs : (service cfg).Reach (OnlySaves f) s₀ s) : Saving f n₀ s := by
  refine hs.invariant h₀ fun s a h ha => ?_
  cases a with
  | spawn c => exact h.spawn ha
  | step i x =>
    cases hi : s.procs[i]? with
    | none =>
      rw [System.act_step_none x hi]
      exact h
    | some p =>
      rw [System.act_step x hi]
      exact h.step hi (saves_of_stage (h.stage i p hi) cfg x fun v row hp => h.vacant i p v row hi hp)

/-- Further saves leave the records that exist as they are. -/
theorem Saving.keeps {cfg : ServerConfig V} {f : File} {n₀ : ℕ} {s s' : ServicePool V} (h : Saving f n₀ s)
    (hs : (service cfg).Reach (OnlySaves f) s s') {v : ℕ} {r : Record V}
    (hr : s.world.get (f.rowKey v) = some r) : s'.world.get (f.rowKey v) = some r := by
  induction hs with
  | init => exact hr
  | act hs ha ih =>
    rename_i s' a
    have h' := h.of_reach hs
    cases a with
    | spawn c => exact ih
    | step i x =>
      cases hi : s'.procs[i]? with
      | none =>
        rw [System.act_step_none x hi]
        exact ih
      | some p =>
        have hvacant : ∀ v row, p.prog = writing f v row → s'.world.get (f.rowKey v) = none :=
          fun v row hp => h'.vacant i p v row hi hp
        rw [System.act_step x hi]
        exact saves_keeps (saves_of_stage (h'.stage i p hi) cfg x hvacant) hvacant ih

theorem saving_start {f : File} {σ : Store V}
    (h : ∀ (v : ℕ) r, σ.get (f.rowKey v) = some r → v < counter f σ) :
    Saving f (counter f σ) ⟨σ, []⟩ where
  below _ _ _ _ hi := nomatch hi
  vacant _ _ _ _ hi := nomatch hi
  apart _ _ _ _ _ _ _ _ hi := nomatch hi
  rows := h
  stage _ _ hi := nomatch hi
  stored _ _ _ hi := nomatch hi
  returned _ _ _ _ _ _ hi := nomatch hi
  counted := le_rfl

/-- Numbers that differ and lie below how many they are, are all of them. -/
theorem perm_range_of_nodup {vs : List ℕ} (hnodup : vs.Nodup) (hlt : ∀ v ∈ vs, v < vs.length) :
    vs.Perm (List.range vs.length) :=
  (List.subperm_of_subset hnodup fun v hv => List.mem_range.mpr (hlt v hv)).perm_of_length_le (by simp)

/-- Saves of one file in any order and any weather: no two return the same version,
none finds the record of its version taken, the record of a version that was returned
stays as its save has written it, and if all saves of a fresh file return, they return
the versions from zero on. -/
theorem saves_get_distinct_versions (cfg : ServerConfig V) (f : File) (σ₀ : Store V)
    (h₀ : ∀ (v : ℕ) r, σ₀.get (f.rowKey v) = some r → v < counter f σ₀) (s : ServicePool V)
    (hs : (service cfg).Reach (OnlySaves f) ⟨σ₀, []⟩ s) :
    (∀ (i j : ℕ) p q v, i ≠ j → s.procs[i]? = some p → s.procs[j]? = some q →
      p.prog = .ret (.version v) → q.prog ≠ .ret (.version v)) ∧
    (∀ (i : ℕ) p, s.procs[i]? = some p → p.prog ≠ .raise (.server .recordExists)) ∧
    (∀ (i : ℕ) p v, s.procs[i]? = some p → p.prog = .ret (.version v) →
      ∃ row, p.call.row f v = some row ∧
        ∀ s', (service cfg).Reach (OnlySaves f) s s' → s'.world.get (f.rowKey v) = some row) ∧
    ∀ vs : List ℕ, counter f σ₀ = 0 →
      s.procs.map Proc.prog = vs.map (fun v => .ret (.version v)) → vs.Perm (List.range vs.length) := by
  have h := (saving_start h₀).of_reach hs
  refine ⟨h.returned, fun i p hi => (h.stage i p hi).raise_ne, fun i p v hi hp => ?_,
    fun vs hfresh hvs => ?_⟩
  · obtain ⟨row, hrow, hr⟩ := h.stored i p v hi hp
    exact ⟨row, hrow, fun s' hs' => h.keeps hs' hr⟩
  · have hproc : ∀ (i : ℕ) v, vs[i]? = some v → ∃ p, s.procs[i]? = some p ∧ p.prog = .ret (.version v) := by
      intro i v hv
      have hi := congrArg (·[i]?) hvs
      simpa [hv] using hi
    have hlen : s.procs.length = vs.length := by simpa using congrArg List.length hvs
    refine perm_range_of_nodup ?_ fun v hv => ?_
    · rw [List.nodup_iff_getElem?_ne_getElem?]
      intro i j hij hj heq
      obtain ⟨v, hv⟩ : ∃ v, vs[j]? = some v := ⟨_, List.getElem?_eq_getElem hj⟩
      obtain ⟨p, hi, hp⟩ := hproc i v (heq.trans hv)
      obtain ⟨q, hj, hq⟩ := hproc j v hv
      exact h.returned i j p q v hij.ne hi hj hp hq
    · obtain ⟨i, hi⟩ := List.mem_iff_getElem?.mp hv
      obtain ⟨p, hi, hp⟩ := hproc i v hi
      obtain ⟨row, -, hr⟩ := h.stored i p v hi hp
      have hrow := h.rows v row hr
      have hcount := h.counted
      omega

/-! ### A small instance -/

namespace Small

def file : File := ⟨['a'], ['u'], ['s'], ['f']⟩

/-- A save of some bytes under a MIME type that tells the saves apart. -/
def save (mime : Str) : Call ℕ :=
  .save ['a'] ['u'] ['f'] { inlineData := some ⟨some mime, some ByteArray.empty⟩ } (some ['s']) none 0

theorem save_saves (mime : Str) : (save mime).saves file := ⟨rfl, rfl, rfl, rfl⟩

/-- Two saves that are given their versions before either has written its record. -/
def racing : ServicePool ℕ :=
  (service cfg).run [.spawn (save ['b']), .spawn (save ['c']), .step 0 .fair, .step 1 .fair, .step 1 .fair,
    .step 0 .fair] ⟨∅, []⟩

theorem reach_racing : (service cfg).Reach (OnlySaves file) ⟨∅, []⟩ racing := by
  refine System.reach_run (System.permitted_of_forall fun a ha s => ?_)
  simp only [List.mem_cons, List.not_mem_nil, or_false] at ha
  rcases ha with rfl | rfl | rfl | rfl | rfl | rfl
  all_goals first | exact save_saves _ | trivial

end Small

open Artifacts.Small in
theorem saves_get_distinct_versions_small :
    racing.procs.map Proc.prog = [0, 1].map (fun v => .ret (.version v)) ∧
    [0, 1].Perm (List.range [0, 1].length) ∧
    ∃ row, (save ['c']).row file 1 = some row ∧
      ∀ s', (service cfg).Reach (OnlySaves file) racing s' → s'.world.get (file.rowKey (1 : ℕ)) = some row := by
  obtain ⟨-, -, hkept, hall⟩ :=
    saves_get_distinct_versions cfg file ∅ (fun _ _ h => nomatch h) racing reach_racing
  exact ⟨rfl, hall [0, 1] rfl rfl, hkept 1 _ 1 rfl rfl⟩

end AdkAerospike.Artifacts
