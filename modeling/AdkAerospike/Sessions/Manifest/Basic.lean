import AdkAerospike.Sessions.Alone.Delete

/-! The manifest of a user: the list of session ids that `list_sessions` starts
from. It is a record of its own, beside the session rows it speaks of; this module
says what the requests of the service do to it, and what listing shows of it. -/

namespace AdkAerospike.Sessions

open Program Data Codec Keys

variable {V P : Type}

/-! ### Identifiers without separators -/

/-- The identifiers hold no separator, and the session is not called like the manifest. -/
structure Addr.Named (a : Addr) : Prop where
  app : Plain a.app
  user : Plain a.user
  id : Plain a.id
  ne : a.id ≠ sessionManifestSuffix

section Named
variable {a b : Addr} {app user app' user' : Str}

theorem sessionPk_inj (ha : a.Named) (hb : b.Named) : a.sessionPk = b.sessionPk ↔ a = b := by
  constructor
  · intro h
    obtain ⟨happ, huser, hid⟩ :=
      (sessionKey_inj ha.app hb.app ha.user hb.user).mp (congrArg Key.key h)
    cases a
    cases b
    simp only at happ huser hid
    rw [happ, huser, hid]
  · rintro rfl
    rfl

theorem sessionPk_ne_segmentPk (ha : a.Named) (hb : b.Named) (g : ℕ) : a.sessionPk ≠ b.segmentPk g := by
  intro h
  have hkey : sessionKey a.app a.user a.id = segmentKey b.app b.user b.id g := congrArg Key.key h
  rw [segmentKey_eq_sessionKey, sessionKey_inj ha.app hb.app ha.user hb.user] at hkey
  exact plain_ne_segment ha.id _ hkey.2.2

/-- Segments of different sessions are different records. -/
theorem segmentPk_ne_segmentPk (ha : a.Named) (hb : b.Named) (hne : a ≠ b) (g g' : ℕ) :
    a.segmentPk g ≠ b.segmentPk g' := by
  intro h
  have hkey : segmentKey a.app a.user a.id g = segmentKey b.app b.user b.id g' := congrArg Key.key h
  rw [segmentKey_eq_sessionKey, segmentKey_eq_sessionKey,
    sessionKey_inj ha.app hb.app ha.user hb.user] at hkey
  obtain ⟨happ, huser, hid⟩ := hkey
  obtain ⟨hid, -⟩ := segmentSuffix_inj ha.id hb.id hid
  cases a
  cases b
  simp only at happ huser hid
  exact hne (by rw [happ, huser, hid])

theorem sessionPk_ne_manifestPk (ha : a.Named) (happ : Plain app) (huser : Plain user) :
    a.sessionPk ≠ manifestPk app user := by
  intro h
  have hkey : sessionKey a.app a.user a.id = sessionKey app user sessionManifestSuffix :=
    congrArg Key.key h
  rw [sessionKey_inj ha.app happ ha.user huser] at hkey
  exact ha.ne hkey.2.2

theorem segmentPk_ne_manifestPk (ha : a.Named) (happ : Plain app) (huser : Plain user) (g : ℕ) :
    a.segmentPk g ≠ manifestPk app user := by
  intro h
  have hkey : segmentKey a.app a.user a.id g = sessionKey app user sessionManifestSuffix :=
    congrArg Key.key h
  rw [segmentKey_eq_sessionKey, sessionKey_inj ha.app happ ha.user huser] at hkey
  exact plain_ne_segment (by decide) _ hkey.2.2.symm

theorem manifestPk_inj (happ : Plain app) (huser : Plain user) (happ' : Plain app')
    (huser' : Plain user') : manifestPk app user = manifestPk app' user' ↔ app = app' ∧ user = user' := by
  constructor
  · intro h
    have hkey : sessionKey app user sessionManifestSuffix = sessionKey app' user' sessionManifestSuffix :=
      congrArg Key.key h
    rw [sessionKey_inj happ happ' huser huser'] at hkey
    exact ⟨hkey.1, hkey.2.1⟩
  · rintro ⟨rfl, rfl⟩
    rfl

end Named

/-! ### The list of ids -/

/-- The ids in a user's manifest. -/
def ids (app user : Str) (w : World V P) : List Str :=
  ((w.store.get (manifestPk app user)).bind (·.sman)).getD []

section Ids
variable {cfg : ServerConfig V P} {app user : Str} {w w' : World V P} {id : Str}

theorem ids_congr (h : w'.store.get (manifestPk app user) = w.store.get (manifestPk app user)) :
    ids app user w' = ids app user w := by
  unfold ids
  rw [h]

/-- Taking an id off a list within the limit is never refused. -/
theorem onRecord_listRemove {old : Option (Record V P)} (h : ∀ r, old = some r → cfg.Fits r) (id : Str) :
    (cfg.onRecord [.listRemoveByValue id] none old).2 = old.map (Op.write (.listRemoveByValue id)) := by
  cases old with
  | none => rfl
  | some r =>
    have hfits : cfg.Fits (Op.write (.listRemoveByValue id) r) := (cfg.shrink r id).trans (h r rfl)
    simp [ServerConfig.onRecord, Op.writes, Op.apply, ServerConfig.commitRecord, hfits]

theorem ids_listRemove (h : cfg.Fitting w.store)
    (hm : w'.store.get (manifestPk app user) =
      (cfg.onRecord [.listRemoveByValue id] none (w.store.get (manifestPk app user))).2) :
    ids app user w' = (ids app user w).filter (· ≠ id) := by
  rw [onRecord_listRemove fun r hr => h _ r hr] at hm
  unfold ids
  rw [hm]
  cases w.store.get (manifestPk app user) with
  | none => rfl
  | some r => cases hs : r.sman <;> simp [Op.write, hs]

theorem onRecord_listAppend_eq (cfg : ServerConfig V P) (id : Str) (old : Option (Record V P)) :
    cfg.onRecord [.listAppend id] none old =
      if cfg.Fits (Op.write (.listAppend id) (old.getD {})) then
        (.ok {}, some (Op.write (.listAppend id) (old.getD {})))
      else (.error .recordTooBig, old) := by
  cases old <;> rfl

/-- An id that is appended to the manifest comes last, unless the record is full. -/
theorem ids_listAppend
    (hm : w'.store.get (manifestPk app user) =
      (cfg.onRecord [.listAppend id] none (w.store.get (manifestPk app user))).2) :
    (cfg.onRecord [.listAppend id] none (w.store.get (manifestPk app user))).1 = .error .recordTooBig ∧
        ids app user w' = ids app user w ∨
      (cfg.onRecord [.listAppend id] none (w.store.get (manifestPk app user))).1 = .ok {} ∧
        ids app user w' = ids app user w ++ [id] := by
  rw [onRecord_listAppend_eq] at hm ⊢
  split_ifs at hm ⊢
  · refine .inr ⟨rfl, ?_⟩
    unfold ids
    rw [hm]
    cases w.store.get (manifestPk app user) <;> rfl
  · exact .inl ⟨rfl, ids_congr hm⟩

end Ids

end AdkAerospike.Sessions
