import AdkAerospike.Server

/-! What all records of a set have in common. A property that the records put have, and that
no operation takes away, is a property of every record there ever is, and so of every record
that a request is answered with. And what a request can be refused with: each kind has its
own errors, and any may meet a fault. -/

namespace AdkAerospike.Server

open Data

variable {K R O X I ρ : Type} {P : R → Prop}

/-- A property that no operation takes away. -/
structure Table.Closed (T : Table R O X I) (P : R → Prop) : Prop where
  blank : P T.blank
  merge : ∀ {r bins}, P r → P bins → P (T.merge r bins)
  apply : ∀ op {r}, P r → P (T.apply op r).1

/-- What the request puts has the property. -/
def Req.Puts (P : R → Prop) : Req K R O I → Prop
  | .create _ bins | .put _ bins => P bins
  | _ => True

/-- The records of the answer have the property, and those of a query the value asked for. -/
def Legal (T : Table R O X I) (P : R → Prop) : (q : Req K R O I) → Ans X q → Prop
  | .get _, x => ∀ r, x = .ok r → P r
  | .batchRead _, x => ∀ rs r, x = .ok rs → some r ∈ rs → P r
  | .query i, x => ∀ rs, x = .ok rs → ∀ r ∈ rs, P r ∧ T.index r = some i
  | _, _ => True

section Legal
variable [DecidableEq K] [DecidableEq I] {T : Table R O X I} {σ : Store K R} {x : Weather} {q : Req K R O I}

def All (P : R → Prop) (σ : Store K R) : Prop := ∀ key r, σ.get key = some r → P r

omit [DecidableEq I] in
theorem All.change (h : All P σ) {key : K} {f : Option R → Except Err (ρ × Option R)}
    (hf : ∀ a r, f (σ.get key) = .ok (a, some r) → P r) (x : Weather) : All P (under x σ (change key f σ)).2 := by
  rcases under_snd x σ (Server.change key f σ) with hs | hs <;> rw [hs]
  · exact h
  intro key' r hr
  rcases change_get_cases key key' f σ with heq | ⟨-, a, ha⟩
  · exact h key' r (heq ▸ hr)
  · rw [hr] at ha
    exact hf a r ha

theorem All.exec (hT : T.Closed P) (h : All P σ) (hq : q.Puts P) (x : Weather) :
    All P (Server.exec T x q σ).2 := by
  have hleave : ∀ {ρ : Type} {r r' : R} {x a : ρ}, P r → T.leave r x = .ok (a, some r') → P r' :=
    fun hr hl => by
      cases Table.leave_eq_ok hl
      exact hr
  cases q with
  | create key bins =>
    refine h.change (fun a r hr => ?_) x
    cases hold : σ.get key with
    | some r₀ =>
      rw [hold] at hr
      cases hr
    | none =>
      rw [hold] at hr
      exact hleave hq hr
  | put key bins =>
    refine h.change (f := T.onPut bins) (fun a r hr => hleave ?_ hr) x
    cases hold : σ.get key with
    | none => exact hq
    | some r₀ => exact hT.merge (h key r₀ hold) hq
  | remove key =>
    refine h.change (fun a r hr => ?_) x
    cases hold : σ.get key <;> rw [hold] at hr <;> cases hr
  | operate key op =>
    refine h.change (fun a r hr => ?_) x
    cases hold : σ.get key with
    | some r₀ =>
      rw [hold] at hr
      exact hleave (hT.apply op (h key r₀ hold)) hr
    | none =>
      rw [hold, Table.onOperate] at hr
      split_ifs at hr
      exact hleave (hT.apply op hT.blank) hr
  | get key => exact (under_same x σ (fetch key σ)).symm ▸ h
  | batchRead keys => exact (under_same x σ (.ok (keys.map fun key => σ.get key))).symm ▸ h
  | query value => exact (under_same x σ (.ok (T.arrange (T.found value σ)))).symm ▸ h

omit [DecidableEq K] in
/-- An answer that is not an error is the one in fair weather. -/
theorem of_under_ok {y : Except Err ρ} {a : ρ} (h : (under x σ (y, σ)).1 = .ok a) : y = .ok a := by
  cases x with
  | fair => exact h
  | failed code applied => cases h

theorem All.legal (h : All P σ) (q : Req K R O I) (x : Weather) : Legal T P q (Server.exec T x q σ).1 := by
  cases q with
  | get key =>
    intro r hr
    have hfetch := of_under_ok hr
    unfold fetch at hfetch
    cases hget : σ.get key with
    | none =>
      rw [hget] at hfetch
      cases hfetch
    | some r' =>
      rw [hget] at hfetch
      exact h key r (hget.trans (congrArg some (Except.ok.inj hfetch)))
  | batchRead keys =>
    intro rs r hrs hr
    have hread := of_under_ok hrs
    cases hread
    obtain ⟨key, -, hget⟩ := List.mem_map.mp hr
    exact h key r hget
  | query value =>
    intro rs hrs r hr
    have hread := of_under_ok hrs
    cases hread
    obtain ⟨key, hget, hindex⟩ := mem_found.mp ((T.arrange_perm _).mem_iff.mp hr)
    exact ⟨h key r hget, hindex⟩
  | _ => trivial

/-- The errors that a request is refused with in fair weather. -/
def Table.Refuses (T : Table R O X I) : Req K R O I → Err → Prop
  | .create .., e => e = .recordTooBig ∨ e = .recordExists
  | .put .., e => e = .recordTooBig
  | .get _, e | .remove _, e => e = .recordNotFound
  | .operate _ op, e => e = .recordTooBig ∨ T.creates op = false ∧ e = .recordNotFound
  | _, _ => False

/-- What a store refuses in fair weather. -/
def Table.Denies (T : Table R O X I) (σ : Store K R) : Req K R O I → Err → Prop
  | .create key bins, e => e = .recordExists ∧ (σ.get key).isSome ∨ e = .recordTooBig ∧ T.fits bins = false
  | .put key bins, e => e = .recordTooBig ∧ T.fits ((σ.get key).elim bins fun r => T.merge r bins) = false
  | .get key, e | .remove key, e => e = .recordNotFound ∧ σ.get key = none
  | .operate key op, e =>
    e = .recordTooBig ∧ ((σ.get key).isSome ∨ T.creates op) ∧ T.fits (T.apply op ((σ.get key).getD T.blank)).1 = false ∨
      e = .recordNotFound ∧ σ.get key = none ∧ T.creates op = false
  | _, _ => False

omit [DecidableEq K] [DecidableEq I] in
theorem Table.leave_eq_error {T : Table R O X I} {r : R} {a : ρ} {e : Err} (h : T.leave r a = .error e) :
    e = .recordTooBig ∧ T.fits r = false := by
  unfold leave at h
  split_ifs at h with hfits
  cases h
  exact ⟨rfl, by simpa using hfits⟩

omit [DecidableEq K] in
theorem failure_under {x : Weather} {σ : Store K R} {y : Except Err ρ × Store K R} {e : Err}
    (h : failure (under x σ y).1 = some e) :
    (∃ code applied, x = .failed code applied ∧ e = .status code) ∨ failure y.1 = some e := by
  cases x with
  | fair => exact .inr h
  | failed code applied => exact .inl ⟨code, applied, rfl, (Option.some.inj h).symm⟩

/-- An error is a denial or a fault. -/
theorem denies_of_errorOf (T : Table R O X I) {x : Weather} {q : Req K R O I} {σ : Store K R} {e : Err}
    (h : errorOf q (Server.exec T x q σ).1 = some e) :
    (∃ code applied, x = .failed code applied ∧ e = .status code) ∨ T.Denies σ q e := by
  -- a change fails as its function does
  have hchange : ∀ {ρ : Type} (key : K) (f : Option R → Except Err (ρ × Option R)),
      failure (under x σ (change key f σ)).1 = some e →
        (∃ code applied, x = .failed code applied ∧ e = .status code) ∨ f (σ.get key) = .error e :=
    fun key f hf => by
      refine (failure_under hf).imp id fun hf => ?_
      cases hget : f (σ.get key) with
      | error e' =>
        rw [change_of_error hget] at hf
        exact congrArg Except.error (Option.some.inj hf)
      | ok a =>
        rw [change_of_ok hget] at hf
        cases hf
  cases q with
  | create key bins =>
    refine (hchange key (T.onCreate bins) h).imp id fun hf => ?_
    cases hold : σ.get key with
    | some r =>
      rw [hold] at hf
      exact .inl ⟨(Except.error.inj hf).symm, by rw [hold]; rfl⟩
    | none =>
      rw [hold] at hf
      exact .inr (Table.leave_eq_error hf)
  | put key bins => exact (hchange key (T.onPut bins) h).imp id Table.leave_eq_error
  | remove key =>
    refine (hchange key Table.onRemove h).imp id fun hf => ?_
    cases hold : σ.get key with
    | some r =>
      rw [hold] at hf
      cases hf
    | none =>
      rw [hold] at hf
      exact ⟨(Except.error.inj hf).symm, hold⟩
  | operate key op =>
    refine (hchange key (T.onOperate op) h).imp id fun hf => ?_
    cases hold : σ.get key with
    | some r =>
      rw [hold] at hf
      obtain ⟨he, hfits⟩ := Table.leave_eq_error hf
      exact .inl ⟨he, .inl (by rw [hold]; rfl), by rwa [hold]⟩
    | none =>
      rw [hold, Table.onOperate] at hf
      split_ifs at hf with hcreates
      · obtain ⟨he, hfits⟩ := Table.leave_eq_error hf
        exact .inl ⟨he, .inr hcreates, by rwa [hold]⟩
      · exact .inr ⟨(Except.error.inj hf).symm, hold, by simpa using hcreates⟩
  | get key =>
    refine (failure_under h).imp id fun hf => ?_
    unfold fetch at hf
    cases hget : σ.get key with
    | some r =>
      rw [hget] at hf
      cases hf
    | none =>
      rw [hget] at hf
      exact ⟨(Option.some.inj hf).symm, hget⟩
  | batchRead keys => exact (failure_under h).imp id fun hf => by cases hf
  | query value => exact (failure_under h).imp id fun hf => by cases hf

/-- An error is a refusal or a fault. -/
theorem refuses_of_errorOf (T : Table R O X I) (x : Weather) (q : Req K R O I) (σ : Store K R) {e : Err}
    (h : errorOf q (Server.exec T x q σ).1 = some e) : (∃ code, e = .status code) ∨ T.Refuses q e := by
  rcases denies_of_errorOf T h with ⟨code, -, -, rfl⟩ | hdenies
  · exact .inl ⟨code, rfl⟩
  right
  cases q with
  | create key bins => exact hdenies.symm.imp And.left And.left
  | put key bins => exact hdenies.1
  | get key => exact hdenies.1
  | remove key => exact hdenies.1
  | operate key op => exact hdenies.imp And.left fun hmissing => ⟨hmissing.2.2, hmissing.1⟩
  | batchRead keys => exact hdenies
  | query value => exact hdenies

/-! ### What stays -/

/-- Only a removal takes a record away. -/
theorem exec_get_isSome {T : Table R O X I} {σ : Store K R} {q : Req K R O I} {key : K} (x : Weather)
    (h : (σ.get key).isSome) (hq : q ≠ .remove key) : ((Server.exec T x q σ).2.get key).isSome := by
  have hchange : ∀ {ρ : Type} (key' : K) (f : Option R → Except Err (ρ × Option R)),
      (∀ r a r', f (some r) = .ok (a, r') → r'.isSome) → ((under x σ (change key' f σ)).2.get key).isSome :=
    fun key' f hf => by
      rcases under_snd x σ (change key' f σ) with hs | hs <;> rw [hs]
      · exact h
      rcases change_get_cases key' key f σ with heq | ⟨rfl, a, ha⟩
      · rwa [heq]
      · obtain ⟨r, hr⟩ := Option.isSome_iff_exists.mp h
        rw [hr] at ha
        exact hf r a _ ha
  have hleave : ∀ {ρ : Type} {r : R} {a b : ρ} {r' : Option R}, T.leave r a = .ok (b, r') → r'.isSome := fun hl => by
    rw [Table.leave_eq_ok hl]
    rfl
  cases q with
  | create key' bins => exact hchange key' (T.onCreate bins) fun r a r' hr => by cases hr
  | put key' bins => exact hchange key' (T.onPut bins) fun r a r' hr => hleave hr
  | operate key' op => exact hchange key' (T.onOperate op) fun r a r' hr => hleave hr
  | remove key' =>
    have hne : key ∉ (Req.remove key' : Req K R O I).keys := fun hmem => hq (by rw [List.mem_singleton.mp hmem])
    rwa [exec_get_of_notMem x hne]
  | get key' => rwa [exec_of_keys x rfl]
  | batchRead keys => rwa [exec_of_keys x rfl]
  | query value => rwa [exec_of_keys x rfl]

/-- Only what fits is stored. -/
theorem All.fits {T : Table R O X I} {σ : Store K R} (h : All (fun r => T.fits r = true) σ) (x : Weather)
    (q : Req K R O I) :
    All (fun r => T.fits r = true) (Server.exec T x q σ).2 := by
  have hleave : ∀ {ρ : Type} {r r' : R} {a b : ρ}, T.leave r a = .ok (b, some r') → T.fits r' = true := fun hl => by
    unfold Table.leave at hl
    split_ifs at hl with hfits
    cases hl
    exact hfits
  cases q with
  | create key bins =>
    refine h.change (f := T.onCreate bins) (fun a r hr => ?_) x
    cases hold : σ.get key with
    | some r₀ =>
      rw [hold] at hr
      cases hr
    | none =>
      rw [hold] at hr
      exact hleave hr
  | put key bins => exact h.change (f := T.onPut bins) (fun a r hr => hleave hr) x
  | remove key =>
    refine h.change (f := Table.onRemove) (fun a r hr => ?_) x
    cases hold : σ.get key <;> rw [hold] at hr <;> cases hr
  | operate key op =>
    refine h.change (f := T.onOperate op) (fun a r hr => ?_) x
    cases hold : σ.get key with
    | some r₀ =>
      rw [hold] at hr
      exact hleave hr
    | none =>
      rw [hold, Table.onOperate] at hr
      split_ifs at hr
      exact hleave hr
  | get key => exact (under_same x σ (fetch key σ)).symm ▸ h
  | batchRead keys => exact (under_same x σ (.ok (keys.map fun key => σ.get key))).symm ▸ h
  | query value => exact (under_same x σ (.ok (T.arrange (T.found value σ)))).symm ▸ h

end Legal

end AdkAerospike.Server
