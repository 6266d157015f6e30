import AdkAerospike.Sessions.Alone.Create

/-! `delete_session` run alone: if the row exists, the segments up to one past its
index go, then the row, then the cached index, and last the manifest entry. -/

namespace AdkAerospike.Sessions

open Program Data Codec Keys

variable {V P : Type} {cfg : ServerConfig V P} {inst : ℕ} {a : Addr} {w : World V P}

/-- A removal that does not mind a missing record. -/
theorem alone_removeQuietly (key : Key) (w : World V P) :
    alone cfg inst (catching .recordNotFound (remove key) (.ret ())) w =
      (.ok (), w.withStore (ServerConfig.remove key w.store).2) := by
  have hrun : alone cfg inst (remove key) w = _ := alone_remove key w
  cases hr : w.store.get key with
  | none =>
    have hnone : ServerConfig.remove key w.store = (.error .recordNotFound, w.store) := by
      simp [ServerConfig.remove, hr]
    rw [hnone] at hrun ⊢
    rw [alone_catching_caught hrun]
    rfl
  | some r =>
    have hsome : ServerConfig.remove key w.store = (.ok (), w.store.erase key) := by
      simp [ServerConfig.remove, hr]
    rw [hsome] at hrun ⊢
    exact alone_catching_ok hrun

/-- The store without `n` segments from `g` on. -/
def clearSegments (a : Addr) : ℕ → ℕ → Store V P → Store V P
  | 0, _, σ => σ
  | n + 1, g, σ => clearSegments a n (g + 1) (ServerConfig.remove (a.segmentPk g) σ).2

theorem get_clearSegments_of_ne {key : Key} (hkey : ∀ g, key ≠ a.segmentPk g) (n g : ℕ) (σ : Store V P) :
    (clearSegments a n g σ).get key = σ.get key := by
  induction n generalizing g σ with
  | zero => rfl
  | succ n ih => rw [clearSegments, ih, ServerConfig.remove_get, if_neg (hkey g)]

theorem get_clearSegments (n g j : ℕ) (σ : Store V P) :
    (clearSegments a n g σ).get (a.segmentPk j) =
      if g ≤ j ∧ j < g + n then none else σ.get (a.segmentPk j) := by
  induction n generalizing g σ with
  | zero => rw [clearSegments, if_neg (by omega)]
  | succ n ih =>
    rw [clearSegments, ih, ServerConfig.remove_get]
    by_cases hj : j = g
    · subst hj
      rw [if_pos rfl, if_pos (show j ≤ j ∧ j < j + (n + 1) by omega)]
      split_ifs <;> rfl
    · rw [if_neg (show a.segmentPk j ≠ a.segmentPk g by simpa using hj)]
      have hiff : (g + 1 ≤ j ∧ j < g + 1 + n) ↔ (g ≤ j ∧ j < g + (n + 1)) := by omega
      simp only [hiff]

theorem alone_removeSegments (n g : ℕ) (w : World V P) :
    alone cfg inst (removeSegments a n g) w = (.ok (), w.withStore (clearSegments a n g w.store)) := by
  induction n generalizing g w with
  | zero => rfl
  | succ n ih =>
    rw [removeSegments]
    simp only [Prog.bind_eq, Prog.pure_eq]
    rw [alone_bind_ok (alone_removeQuietly _ w), ih]
    rfl

/-- A manifest removal: a missing manifest counts as done. -/
theorem alone_manifestRemove (app user id : Str) (w : World V P) :
    (alone cfg inst (manifestRemove app user id) w).2 =
      w.withStore (cfg.operate (manifestPk app user) [.listRemoveByValue id] none w.store).2 ∧
    ((alone cfg inst (manifestRemove app user id) w).1 = .ok () ∨
      ∃ r, w.store.get (manifestPk app user) = some r ∧
        ¬ cfg.Fits (Op.write (.listRemoveByValue id) r)) := by
  have hrun : alone cfg inst (operate (manifestPk app user) [.listRemoveByValue id]) w = _ :=
    alone_operate _ _ none w
  unfold manifestRemove
  simp only [Prog.bind_eq, Prog.pure_eq]
  cases hr : w.store.get (manifestPk app user) with
  | none =>
    rw [ServerConfig.operate_of_missing hr rfl] at hrun ⊢
    rw [alone_catching_caught (alone_bind_error hrun)]
    exact ⟨rfl, .inl rfl⟩
  | some r =>
    by_cases hfits : cfg.Fits (Op.write (.listRemoveByValue id) r)
    · have hok : cfg.operate (manifestPk app user) [.listRemoveByValue id] none w.store =
          (.ok {}, w.store.insert (manifestPk app user) (Op.write (.listRemoveByValue id) r)) := by
        simp [ServerConfig.operate, hr, Op.writes, Op.apply, Op.read, ServerConfig.commit, hfits]
      rw [hok] at hrun ⊢
      rw [alone_catching_ok (alone_bind_ok hrun)]
      exact ⟨rfl, .inl rfl⟩
    · have hbig : cfg.operate (manifestPk app user) [.listRemoveByValue id] none w.store =
          (.error .recordTooBig, w.store) := by
        simp [ServerConfig.operate, hr, Op.writes, Op.apply, Op.read, ServerConfig.commit, hfits]
      rw [hbig] at hrun ⊢
      rw [alone_catching_error (alone_bind_error hrun) (by decide)]
      exact ⟨rfl, .inr ⟨r, rfl, hfits⟩⟩

/-- The store before `delete_session` comes to the manifest. -/
def withoutSession (a : Addr) (n : ℕ) (σ : Store V P) : Store V P :=
  (ServerConfig.remove a.sessionPk (clearSegments a n 0 σ)).2

theorem alone_deleteSession (w : World V P) :
    alone cfg inst (deleteSession a) w = match row a w with
      | none => (.ok (), w)
      | some r => alone cfg inst (manifestRemove a.app a.user a.id)
          ((w.withStore (withoutSession a (r.cur.getD 0 + 2) w.store)).setCache inst a.pkStr none) := by
  unfold deleteSession
  simp only [Prog.bind_eq, Prog.pure_eq]
  rw [alone_bind_ok (run_getOrNone rfl a.sessionPk w), row]
  cases w.store.get a.sessionPk with
  | none => rfl
  | some r =>
    simp only [deleteFound, Prog.bind_eq, Prog.pure_eq]
    rw [alone_bind_ok (alone_removeSegments _ _ _), alone_bind_ok (alone_removeQuietly _ _),
      alone_bind_ok (alone_cachePop _ _)]
    rfl

/-- What a deletion leaves of a session's own records. -/
theorem get_withoutSession (n : ℕ) (σ : Store V P) :
    (withoutSession a n σ).get a.sessionPk = none ∧
    (∀ g, (withoutSession a n σ).get (a.segmentPk g) =
      if g < n then none else σ.get (a.segmentPk g)) ∧
    ∀ key, key ≠ a.sessionPk → (∀ g, key ≠ a.segmentPk g) →
      (withoutSession a n σ).get key = σ.get key := by
  refine ⟨?_, fun g => ?_, fun key hrow hseg => ?_⟩
  · rw [withoutSession, ServerConfig.remove_get, if_pos rfl]
  · rw [withoutSession, ServerConfig.remove_get, if_neg (segmentPk_ne_sessionPk a g),
      get_clearSegments]
    simp
  · rw [withoutSession, ServerConfig.remove_get, if_neg hrow, get_clearSegments_of_ne hseg]

end AdkAerospike.Sessions
