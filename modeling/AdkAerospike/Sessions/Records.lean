import AdkAerospike.Sessions.Requests

/-! What each action on the store does to each record. An action reads and writes
the record under its own key only, so it is determined there by a function of that
record; in a batch the records are independent of each other. -/

namespace AdkAerospike.Sessions

open Data Codec Keys

variable {V P ρ : Type}

namespace ServerConfig
variable (cfg : ServerConfig V P)

/-- The outcome of storing `r` over `old`. -/
def commitRecord (r : Record V P) (x : ρ) (old : Option (Record V P)) :
    Except Err ρ × Option (Record V P) :=
  if cfg.Fits r then (.ok x, some r) else (.error .recordTooBig, old)

/-- `operate` on the record under its key. -/
def onRecord (ops : List (Op V P)) (guard : Option ℕ) (old : Option (Record V P)) :
    Except Err (OpResult V P) × Option (Record V P) :=
  match old with
  | none =>
    if ops.any Op.creates then
      if guard.isSome && !cfg.guardOnAbsent then (.error .filteredOut, none)
      else cfg.commitRecord (Op.apply ops {}).1 (Op.apply ops {}).2 none
    else (.error .recordNotFound, none)
  | some r =>
    if guard.all (fun n => decide (r.cur = some n)) then
      if ops.any Op.writes then
        cfg.commitRecord (Op.apply ops r).1 (Op.apply ops r).2 (some r)
      else (.ok (Op.apply ops r).2, some r)
    else (.error .filteredOut, some r)

variable {cfg} {key key' : Key} {ops : List (Op V P)} {guard : Option ℕ} {σ σ' : Store V P}

theorem commit_fst (r : Record V P) (x : ρ) (σ : Store V P) (old : Option (Record V P)) :
    (cfg.commit key r x σ).1 = (cfg.commitRecord r x old).1 := by
  unfold commit commitRecord
  split <;> rfl

theorem commit_get (r : Record V P) (x : ρ) (σ : Store V P) :
    (cfg.commit key r x σ).2.get key' =
      if key' = key then (cfg.commitRecord r x (σ.get key)).2 else σ.get key' := by
  unfold commit commitRecord
  by_cases hk : key' = key
  · subst hk
    split <;> simp
  · split <;> simp [hk]

theorem operate_fst : (cfg.operate key ops guard σ).1 = (cfg.onRecord ops guard (σ.get key)).1 := by
  unfold operate onRecord
  cases σ.get key with
  | none =>
    dsimp only
    split_ifs <;> first | rfl | exact commit_fst _ _ _ _
  | some r =>
    dsimp only
    split_ifs <;> first | rfl | exact commit_fst _ _ _ _

theorem operate_get : (cfg.operate key ops guard σ).2.get key' =
    if key' = key then (cfg.onRecord ops guard (σ.get key)).2 else σ.get key' := by
  unfold operate onRecord
  by_cases hk : key' = key
  · subst hk
    simp only [if_true]
    cases hr : σ.get key' with
    | none =>
      dsimp only
      split_ifs <;> simp [commit_get, hr]
    | some r =>
      dsimp only
      split_ifs <;> simp [commit_get, hr]
  · simp only [hk, if_false]
    cases σ.get key with
    | none =>
      dsimp only
      split_ifs <;> simp [commit_get, hk]
    | some r =>
      dsimp only
      split_ifs <;> simp [commit_get, hk]

theorem operate_of_missing (h : σ.get key = none) (hcreates : ops.any Op.creates = false) :
    cfg.operate key ops guard σ = (.error .recordNotFound, σ) := by
  rw [operate, h]
  simp [hcreates]

/-- Operations that only read. -/
theorem operate_of_reads {r : Record V P} (h : σ.get key = some r) (hwrites : ops.any Op.writes = false) :
    cfg.operate key ops none σ = (.ok (Op.apply ops r).2, σ) := by
  rw [operate, h]
  simp [hwrites]

theorem operate_get_self :
    (cfg.operate key ops guard σ).2.get key = (cfg.onRecord ops guard (σ.get key)).2 := by
  rw [operate_get, if_pos rfl]

theorem operate_get_of_ne (h : key' ≠ key) :
    (cfg.operate key ops guard σ).2.get key' = σ.get key' := by
  rw [operate_get, if_neg h]

/-- A record that `operate` leaves is the one it found or one that fits. -/
theorem onRecord_snd (ops : List (Op V P)) (guard : Option ℕ) (old : Option (Record V P)) :
    (cfg.onRecord ops guard old).2 = old ∨
      cfg.Fits (Op.apply ops (old.getD {})).1 ∧
        (cfg.onRecord ops guard old).2 = some (Op.apply ops (old.getD {})).1 ∧
        (cfg.onRecord ops guard old).1 = .ok (Op.apply ops (old.getD {})).2 := by
  unfold onRecord commitRecord
  cases old with
  | none =>
    dsimp only
    split_ifs with h₁ h₂ h₃ <;> simp_all
  | some r =>
    dsimp only
    split_ifs with h₁ h₂ h₃ <;> simp_all

/-! ### Puts and removals -/

theorem put_of_exists {r : Record V P} (h : σ.get key = some r) (bins : Record V P) :
    cfg.put key bins σ = (.error .recordExists, σ) := by
  rw [put, h]

theorem put_of_fits {bins : Record V P} (h : σ.get key = none) (hfits : cfg.Fits bins) :
    cfg.put key bins σ = (.ok (), σ.insert key bins) := by
  rw [put, h]
  exact if_pos hfits

theorem put_of_big {bins : Record V P} (h : σ.get key = none) (hbig : ¬ cfg.Fits bins) :
    cfg.put key bins σ = (.error .recordTooBig, σ) := by
  rw [put, h]
  exact if_neg hbig

/-- What a put can do. -/
theorem put_cases (cfg : ServerConfig V P) (key : Key) (bins : Record V P) (σ : Store V P) :
    (∃ r, σ.get key = some r) ∧ cfg.put key bins σ = (.error .recordExists, σ) ∨
      σ.get key = none ∧ cfg.Fits bins ∧ cfg.put key bins σ = (.ok (), σ.insert key bins) ∨
      σ.get key = none ∧ ¬ cfg.Fits bins ∧ cfg.put key bins σ = (.error .recordTooBig, σ) := by
  cases h : σ.get key with
  | some r => exact .inl ⟨⟨r, rfl⟩, put_of_exists h bins⟩
  | none =>
    by_cases hfits : cfg.Fits bins
    · exact .inr (.inl ⟨rfl, hfits, put_of_fits h hfits⟩)
    · exact .inr (.inr ⟨rfl, hfits, put_of_big h hfits⟩)

variable (cfg) in
theorem put_get (bins : Record V P) : (cfg.put key bins σ).2.get key' =
    if key' = key ∧ σ.get key = none ∧ cfg.Fits bins then some bins else σ.get key' := by
  unfold put
  cases hr : σ.get key with
  | some r => simp
  | none =>
    rw [commit_get, commitRecord, hr]
    by_cases hk : key' = key
    · subst hk
      by_cases hfit : cfg.Fits bins <;> simp [hfit, hr]
    · simp [hk]

theorem remove_get : (remove key σ).2.get key' = if key' = key then none else σ.get key' := by
  unfold remove
  by_cases hk : key' = key
  · subst hk
    cases hr : σ.get key' <;> simp [hr]
  · cases σ.get key <;> simp [hk]

end ServerConfig

/-! ### Faults -/

/-- Under a fault an action is carried out, or fails with the fault's error and is
carried out or not. -/
theorem under_cases (f : Fault) (act : Store V P → Except Err ρ × Store V P) (σ : Store V P) :
    f = .none ∧ under f act σ = act σ ∨
      ∃ e, f.error = some e ∧ (under f act σ).1 = .error e ∧
        ((under f act σ).2 = σ ∨ (under f act σ).2 = (act σ).2) := by
  cases f with
  | none => exact .inl ⟨rfl, rfl⟩
  | timeout b => exact .inr ⟨_, rfl, rfl, by cases b <;> simp [under, Fault.error, Fault.applied]⟩
  | overload => exact .inr ⟨_, rfl, rfl, .inl rfl⟩
  | errorRate => exact .inr ⟨_, rfl, rfl, .inl rfl⟩
  | other c => exact .inr ⟨_, rfl, rfl, .inl rfl⟩

/-- Whatever an action preserves of a record, it preserves under every fault. -/
theorem under_get (f : Fault) (act : Store V P → Except Err ρ × Store V P) (σ : Store V P) (key : Key) :
    (under f act σ).2.get key = σ.get key ∨ (under f act σ).2.get key = (act σ).2.get key := by
  rcases under_cases f act σ with ⟨-, h⟩ | ⟨e, -, -, h | h⟩
  · exact .inr (by rw [h])
  · exact .inl (by rw [h])
  · exact .inr (by rw [h])

/-! ### Batches -/

namespace ServerConfig
variable {cfg : ServerConfig V P} {key : Key} {σ : Store V P}

/-- A batch leaves alone the records it does not name. -/
theorem batchWrite_get_of_notMem {writes : List (Key × List (Op V P))} (faults : ℕ → Fault)
    (h : key ∉ writes.map Prod.fst) : (cfg.batchWrite faults writes σ).2.get key = σ.get key := by
  induction writes generalizing faults σ with
  | nil => rfl
  | cons x rest ih =>
    have hne : key ≠ x.1 := fun heq => h (by simp [heq])
    have hrest : key ∉ rest.map Prod.fst := fun hmem => h (List.mem_cons_of_mem _ hmem)
    have hfirst : (under (faults 0) (cfg.operate x.1 x.2 none) σ).2.get key = σ.get key := by
      rcases under_get (faults 0) (cfg.operate x.1 x.2 none) σ key with hu | hu
      · exact hu
      · rw [hu, operate_get_of_ne hne]
    rw [batchWrite, ih _ hrest, hfirst]

/-- What each write to a record preserves, the batch preserves of that record. -/
theorem batchWrite_preserves {writes : List (Key × List (Op V P))} {I : Option (Record V P) → Prop}
    (faults : ℕ → Fault)
    (hI : ∀ ops, (key, ops) ∈ writes → ∀ r, I r → I (cfg.onRecord ops none r).2)
    (hσ : I (σ.get key)) : I ((cfg.batchWrite faults writes σ).2.get key) := by
  induction writes generalizing faults σ with
  | nil => exact hσ
  | cons x rest ih =>
    rw [batchWrite]
    refine ih _ (fun ops hmem => hI ops (List.mem_cons_of_mem _ hmem)) ?_
    rcases under_get (faults 0) (cfg.operate x.1 x.2 none) σ key with hu | hu
    · rw [hu]
      exact hσ
    · rw [hu, operate_get]
      split_ifs with hk
      · subst hk
        exact hI x.2 (List.mem_cons_self ..) _ hσ
      · exact hσ

/-- Without faults, a batch over distinct records acts on each of them as a single
`operate` would. -/
theorem batchWrite_get {writes : List (Key × List (Op V P))} {ops : List (Op V P)}
    (hd : (writes.map Prod.fst).Nodup) (h : (key, ops) ∈ writes) :
    (cfg.batchWrite (fun _ => .none) writes σ).2.get key = (cfg.onRecord ops none (σ.get key)).2 := by
  induction writes generalizing σ with
  | nil => cases h
  | cons x rest ih =>
    have hd' := List.nodup_cons.mp hd
    have hfirst : under (.none) (cfg.operate x.1 x.2 none) σ = cfg.operate x.1 x.2 none σ := rfl
    rw [batchWrite, hfirst]
    rcases List.mem_cons.mp h with rfl | h
    · rw [batchWrite_get_of_notMem _ hd'.1, operate_get_self]
    · have hne : key ≠ x.1 := by
        rintro rfl
        exact hd'.1 (List.mem_map.mpr ⟨_, h, rfl⟩)
      rw [ih hd'.2 h, operate_get_of_ne hne]

theorem batchWrite_status {writes : List (Key × List (Op V P))}
    (hd : (writes.map Prod.fst).Nodup) :
    (cfg.batchWrite (fun _ => .none) writes σ).1 =
      writes.map fun x => statusOf (cfg.onRecord x.2 none (σ.get x.1)).1 := by
  induction writes generalizing σ with
  | nil => rfl
  | cons x rest ih =>
    have hd' := List.nodup_cons.mp hd
    have hfirst : under (.none) (cfg.operate x.1 x.2 none) σ = cfg.operate x.1 x.2 none σ := rfl
    rw [batchWrite, hfirst, ih hd'.2, List.map_cons, operate_fst]
    refine congrArg (List.cons _) (List.map_congr_left fun y hy => ?_)
    have hne : y.1 ≠ x.1 := fun heq => hd'.1 (List.mem_map.mpr ⟨y, hy, heq⟩)
    rw [operate_get_of_ne hne]

end ServerConfig

/-! ### What a request leaves alone -/

/-- The keys whose records a request may write. -/
def Req.keys : Req V P → List Key
  | .put key _ | .remove key | .operate key _ _ => [key]
  | .batchWrite writes => writes.map Prod.fst
  | _ => []

theorem reading_snd (f : Fault) (y : Except Err ρ) (w : World V P) : (w.reading f y).2 = w := by
  unfold World.reading
  split <;> rfl

theorem under_get_of_eq {act : Store V P → Except Err ρ × Store V P} {σ : Store V P} {key : Key}
    (h : (act σ).2.get key = σ.get key) (f : Fault) : (under f act σ).2.get key = σ.get key := by
  rcases under_get f act σ key with hu | hu
  · exact hu
  · exact hu.trans h

theorem exec_get_of_notMem (cfg : ServerConfig V P) (inst : ℕ) (x : Weather) {q : Req V P} {key : Key}
    (h : key ∉ q.keys) (w : World V P) :
    (exec cfg inst x q w).2.store.get key = w.store.get key := by
  cases q with
  | put key' bins =>
    refine under_get_of_eq ?_ x.whole
    rw [ServerConfig.put_get, if_neg fun hk => h (by simp [Req.keys, hk.1])]
  | remove key' =>
    refine under_get_of_eq ?_ x.whole
    rw [ServerConfig.remove_get, if_neg fun hk => h (by simp [Req.keys, hk])]
  | operate key' ops guard =>
    exact under_get_of_eq (ServerConfig.operate_get_of_ne fun hk => h (by simp [Req.keys, hk])) x.whole
  | batchWrite writes => exact under_get_of_eq (ServerConfig.batchWrite_get_of_notMem _ h) x.whole
  | cacheGet pk => rfl
  | cacheSet pk n => rfl
  | cachePop pk => rfl
  | _ => simp only [exec, reading_snd]

/-! ### Reads leave the world as it is -/

theorem exec_readOnly {cfg : ServerConfig V P} {inst : ℕ} {x : Weather} {key : Key} {ops : List (Op V P)}
    {guard : Option ℕ} (hops : ops.any Op.writes = false) (hcreates : ops.any Op.creates = false)
    (w : World V P) : (exec cfg inst x (.operate key ops guard) w).2 = w := by
  have hop : (cfg.operate key ops guard w.store).2 = w.store := by
    unfold ServerConfig.operate
    rw [hops, hcreates]
    cases w.store.get key with
    | none => rfl
    | some r =>
      dsimp only
      split_ifs <;> first | rfl | contradiction
  have hu : (under x.whole (cfg.operate key ops guard) w.store).2 = w.store := by
    rcases under_cases x.whole (cfg.operate key ops guard) w.store with ⟨-, h⟩ | ⟨e, -, -, h | h⟩
    · rw [h, hop]
    · exact h
    · rw [h, hop]
  change { w with store := _ } = w
  rw [hu]

/-! ### What holds of every record -/

/-- Every stored record satisfies `φ`. -/
def Each (φ : Key → Record V P → Prop) (σ : Store V P) : Prop := ∀ key r, σ.get key = some r → φ key r

/-- The records that a request may store, within the size limit, satisfy `φ`. -/
def Req.Stores (cfg : ServerConfig V P) (φ : Key → Record V P → Prop) : Req V P → Prop
  | .put key bins => cfg.Fits bins → φ key bins
  | .operate key ops _ => ∀ old : Option (Record V P), (∀ r, old = some r → φ key r) →
      cfg.Fits (Op.apply ops (old.getD {})).1 → φ key (Op.apply ops (old.getD {})).1
  | .batchWrite writes => ∀ x ∈ writes, ∀ old : Option (Record V P), (∀ r, old = some r → φ x.1 r) →
      cfg.Fits (Op.apply x.2 (old.getD {})).1 → φ x.1 (Op.apply x.2 (old.getD {})).1
  | _ => True

section Each
variable {cfg : ServerConfig V P} {φ : Key → Record V P → Prop} {σ : Store V P}

theorem Each.operate (h : Each φ σ) {key : Key} {ops : List (Op V P)}
    (hops : ∀ old : Option (Record V P), (∀ r, old = some r → φ key r) →
      cfg.Fits (Op.apply ops (old.getD {})).1 → φ key (Op.apply ops (old.getD {})).1)
    (guard : Option ℕ) : Each φ (cfg.operate key ops guard σ).2 := by
  intro key' r hr
  rw [ServerConfig.operate_get] at hr
  split_ifs at hr with hk
  · subst hk
    rcases cfg.onRecord_snd ops guard (σ.get key') with hold | ⟨hfits, hnew, -⟩
    · exact h key' r (hold ▸ hr)
    · rw [hnew, Option.some.injEq] at hr
      rw [← hr]
      exact hops _ (fun r hr => h key' r hr) hfits
  · exact h key' r hr

theorem Each.put (h : Each φ σ) {key : Key} {bins : Record V P} (hbins : cfg.Fits bins → φ key bins) :
    Each φ (cfg.put key bins σ).2 := by
  intro key' r hr
  rw [ServerConfig.put_get] at hr
  split_ifs at hr with hk
  · cases hr
    rw [hk.1]
    exact hbins hk.2.2
  · exact h key' r hr

theorem Each.remove (h : Each φ σ) (key : Key) : Each φ (ServerConfig.remove key σ).2 := by
  intro key' r hr
  rw [ServerConfig.remove_get] at hr
  split_ifs at hr with hk
  exact h key' r hr

theorem Each.under {act : Store V P → Except Err ρ × Store V P} (h : Each φ σ)
    (hact : Each φ (act σ).2) (f : Fault) : Each φ (under f act σ).2 := by
  rcases under_cases f act σ with ⟨-, hu⟩ | ⟨e, -, -, hu | hu⟩ <;> rw [hu]
  · exact hact
  · exact h
  · exact hact

theorem Each.batchWrite {writes : List (Key × List (Op V P))} (h : Each φ σ)
    (hwrites : Req.Stores cfg φ (.batchWrite writes)) (faults : ℕ → Fault) :
    Each φ (cfg.batchWrite faults writes σ).2 := by
  induction writes generalizing σ faults with
  | nil => exact h
  | cons x rest ih =>
    exact ih (h.under (h.operate (hwrites x (List.mem_cons_self ..)) none) _)
      (fun y hy => hwrites y (List.mem_cons_of_mem _ hy)) _

theorem Each.exec {q : Req V P} {w : World V P} (h : Each φ w.store) (hq : q.Stores cfg φ) (inst : ℕ)
    (x : Weather) : Each φ (exec cfg inst x q w).2.store := by
  cases q with
  | put key bins => exact h.under (h.put hq) _
  | remove key => exact h.under (h.remove key) _
  | operate key ops guard => exact h.under (h.operate hq guard) _
  | batchWrite writes => exact h.under (h.batchWrite hq _) _
  | cacheGet pk => exact h
  | cacheSet pk n => exact h
  | cachePop pk => exact h
  | _ =>
    simp only [Sessions.exec, reading_snd]
    exact h

end Each

/-! ### What the records of an answer satisfy -/

/-- Whatever the answer shows is from a record that satisfies `φ`. -/
def Legal (φ : Key → Record V P → Prop) : (q : Req V P) → Ans q → Prop
  | .get key, x => ∀ r, x = .ok r → φ key r
  | .operate key ops _, x => ∀ y, x = .ok y →
      ∃ old : Option (Record V P), (∀ r, old = some r → φ key r) ∧ y = (Op.apply ops (old.getD {})).2
  | .batchRead keys, x => ∀ rs, x = .ok rs → ∀ key code r, (key, code, some r) ∈ keys.zip rs → φ key r
  | .batchReadBins keys, x => ∀ rs, x = .ok rs → ∀ key code r, (key, code, some r) ∈ keys.zip rs →
      ∃ r', φ key r' ∧ r = ServerConfig.listingBins r'
  | .query app, x => ∀ rs, x = .ok rs → ∀ r ∈ rs, r.app = some app ∧ ∃ key, φ key r
  | _, _ => True

section Legal
variable {cfg : ServerConfig V P} {φ : Key → Record V P → Prop} {σ : Store V P}

theorem reading_ok {f : Fault} {y : Except Err ρ} {w : World V P} {a : ρ} (h : (w.reading f y).1 = .ok a) :
    y = .ok a := by
  unfold World.reading at h
  cases hf : f.error with
  | none =>
    rw [hf] at h
    exact h
  | some e =>
    rw [hf] at h
    cases h

theorem ServerConfig.mem_zip_batchRead {faults : ℕ → Fault} {keys : List Key} {key : Key} {code : ℤ} {r : Record V P}
    (h : (key, code, some r) ∈ keys.zip (ServerConfig.batchRead faults keys σ)) : σ.get key = some r := by
  obtain ⟨i, hi⟩ := List.mem_iff_getElem?.mp h
  obtain ⟨hkey, hstatus⟩ := List.getElem?_zip_eq_some.mp hi
  rw [ServerConfig.batchRead, List.getElem?_mapIdx, hkey, Option.map_some, Option.some.injEq] at hstatus
  cases hget : σ.get key with
  | none =>
    rw [hget] at hstatus
    cases hstatus
  | some r' =>
    rw [hget] at hstatus
    unfold ServerConfig.readStatus at hstatus
    cases hf : (faults i).error with
    | none =>
      rw [hf] at hstatus
      exact congrArg (fun s => s.2) hstatus
    | some e =>
      rw [hf] at hstatus
      cases hstatus

theorem Each.legal {w : World V P} (h : Each φ w.store) (inst : ℕ) (x : Weather) (q : Req V P) :
    Legal φ q (Sessions.exec cfg inst x q w).1 := by
  cases q with
  | get key =>
    intro r hr
    have hfetch := reading_ok hr
    unfold ServerConfig.fetch at hfetch
    cases hget : w.store.get key with
    | none =>
      rw [hget] at hfetch
      cases hfetch
    | some r' =>
      rw [hget] at hfetch
      exact h key r (hget.trans (congrArg some (Except.ok.inj hfetch)))
  | operate key ops guard =>
    intro y hy
    have hdone : (cfg.operate key ops guard w.store).1 = .ok y := by
      change (Sessions.under x.whole _ w.store).1 = .ok y at hy
      rcases under_cases x.whole (cfg.operate key ops guard) w.store with ⟨-, hu⟩ | ⟨e, -, hu, -⟩
      · rw [← hu, hy]
      · rw [hu] at hy
        cases hy
    refine ⟨w.store.get key, fun r hr => h key r hr, ?_⟩
    rw [ServerConfig.operate_fst] at hdone
    unfold ServerConfig.onRecord ServerConfig.commitRecord at hdone
    cases hget : w.store.get key with
    | none =>
      rw [hget] at hdone
      dsimp only at hdone
      split_ifs at hdone
      exact (Except.ok.inj hdone).symm
    | some r =>
      rw [hget] at hdone
      dsimp only at hdone
      split_ifs at hdone <;> exact (Except.ok.inj hdone).symm
  | batchRead keys =>
    intro rs hrs key code r hr
    cases Except.ok.inj (reading_ok hrs)
    exact h key r (ServerConfig.mem_zip_batchRead hr)
  | batchReadBins keys =>
    intro rs hrs key code r hr
    cases Except.ok.inj (reading_ok hrs)
    rw [List.zip_map_right] at hr
    obtain ⟨⟨key', code', r'⟩, hr', heq⟩ := List.mem_map.mp hr
    obtain ⟨rfl, hcode⟩ := Prod.mk.inj heq
    obtain ⟨-, hrecord⟩ := Prod.mk.inj hcode
    cases r' with
    | none => cases hrecord
    | some r' =>
      exact ⟨r', h key' r' (ServerConfig.mem_zip_batchRead hr'), (Option.some.inj hrecord).symm⟩
  | query app =>
    intro rs hrs r hr
    cases Except.ok.inj (reading_ok hrs)
    obtain ⟨⟨key, r'⟩, hmem, hr⟩ := List.mem_filterMap.mp hr
    split_ifs at hr with hkey
    cases hr
    exact ⟨hkey.2, key, h key _ ((FMap.mem_entries_iff w.store key).mp hmem)⟩
  | _ => trivial

end Legal

/-! ### The size limit -/

/-- Every stored record is within the size limit. -/
def ServerConfig.Fitting (cfg : ServerConfig V P) (σ : Store V P) : Prop :=
  ∀ key r, σ.get key = some r → cfg.Fits r

section Fitting
variable {cfg : ServerConfig V P} {σ : Store V P}

theorem fitting_operate (h : cfg.Fitting σ) (key : Key) (ops : List (Op V P)) (guard : Option ℕ) :
    cfg.Fitting (cfg.operate key ops guard σ).2 :=
  Each.operate (φ := fun _ r => cfg.Fits r) h (fun _ _ hfits => hfits) guard

/-- The server never stores a record past the limit under the keys in `K`. -/
theorem fits_exec {K : Key → Prop} (inst : ℕ) (x : Weather) (q : Req V P) (w : World V P)
    (h : Each (fun key r => K key → cfg.Fits r) w.store) :
    Each (fun key r => K key → cfg.Fits r) (exec cfg inst x q w).2.store := by
  refine h.exec ?_ inst x
  cases q with
  | put key bins => exact fun hfits _ => hfits
  | operate key ops guard => exact fun _ _ hfits _ => hfits
  | batchWrite writes => exact fun _ _ _ _ hfits _ => hfits
  | _ => trivial

theorem fitting_exec (inst : ℕ) (x : Weather) (q : Req V P) (w : World V P) (h : cfg.Fitting w.store) :
    cfg.Fitting (exec cfg inst x q w).2.store := by
  have hall : Each (fun _ r => True → cfg.Fits r) w.store := fun key r hr _ => h key r hr
  exact fun key r hr => fits_exec inst x q w hall key r hr trivial

end Fitting

end AdkAerospike.Sessions
