import AdkAerospike.Program.Basic

/-! Rely-guarantee reasoning about one program among others. Between any two of
its requests the world may move along `rely`; every request it issues must move
the world along `guar`. The weakest precondition `Safe` is defined on the program
tree, so it composes along `bind` and `tryCatch`, and it is closed under `rely`
by construction. A run alone is the case in which nobody else moves the world. -/

namespace AdkAerospike.Program

variable {Q : Type} {A : Q → Type} {E α β W C : Type}

/-- One party's setting: how the server answers under each choice `c : C`, which
choices are admissible for which request, what the others may do and what this
party promises to do. -/
structure Setting (Q : Type) (A : Q → Type) (W C : Type) where
  serve : C → (q : Q) → W → A q × W
  adm : Q → C → Prop
  rely : W → W → Prop
  guar : W → W → Prop
  rely_refl : ∀ w, rely w w
  rely_trans : ∀ {w₁ w₂ w₃}, rely w₁ w₂ → rely w₂ w₃ → rely w₁ w₃

variable {S : Setting Q A W C}

/-- From `w` on, every request of the program keeps the guarantee and every end
of it satisfies `post`, there and after any further move of the others. -/
def Safe (S : Setting Q A W C) (post : Except E α → W → Prop) : Prog Q A E α → W → Prop
  | .ret a, w => ∀ w', S.rely w w' → post (.ok a) w'
  | .raise e, w => ∀ w', S.rely w w' → post (.error e) w'
  | .ask q k, w => ∀ w', S.rely w w' → ∀ c, S.adm q c →
      S.guar w' (S.serve c q w').2 ∧ Safe S post (k (S.serve c q w').1) (S.serve c q w').2

namespace Safe
variable {post post' : Except E α → W → Prop} {p : Prog Q A E α} {w w' : W}

/-- Moves of the others keep a program safe. -/
theorem of_rely (hp : Safe S post p w) (hw : S.rely w w') : Safe S post p w' := by
  cases p with
  | ret a => exact fun v hv => hp v (S.rely_trans hw hv)
  | raise e => exact fun v hv => hp v (S.rely_trans hw hv)
  | ask q k => exact fun v hv => hp v (S.rely_trans hw hv)

theorem mono (hp : Safe S post p w) (hpost : ∀ r v, post r v → post' r v) : Safe S post' p w := by
  induction p generalizing w with
  | ret a => exact fun v hv => hpost _ _ (hp v hv)
  | raise e => exact fun v hv => hpost _ _ (hp v hv)
  | ask q k ih => exact fun v hv c hc => ⟨(hp v hv c hc).1, ih _ (hp v hv c hc).2⟩

theorem bind {f : α → Prog Q A E β} {post : Except E β → W → Prop}
    (hp : Safe S (fun r v => match r with
      | .ok a => Safe S post (f a) v
      | .error e => post (.error e) v) p w) : Safe S post (p.bind f) w := by
  induction p generalizing w with
  | ret a => exact hp w (S.rely_refl w)
  | raise e => exact hp
  | ask q k ih => exact fun v hv c hc => ⟨(hp v hv c hc).1, ih _ (hp v hv c hc).2⟩

/-- Sequencing through an assertion between the two parts. -/
theorem seq {f : α → Prog Q A E β} (mid : Except E α → W → Prop) {post : Except E β → W → Prop}
    (hp : Safe S mid p w) (hok : ∀ a v, mid (.ok a) v → Safe S post (f a) v)
    (herr : ∀ e v, mid (.error e) v → post (.error e) v) : Safe S post (p.bind f) w := by
  refine bind (hp.mono fun r v hr => ?_)
  cases r with
  | ok a => exact hok a v hr
  | error e => exact herr e v hr

theorem tryCatch {f : E → Prog Q A E α}
    (hp : Safe S (fun r v => match r with
      | .ok a => post (.ok a) v
      | .error e => Safe S post (f e) v) p w) : Safe S post (p.tryCatch f) w := by
  induction p generalizing w with
  | ret a => exact hp
  | raise e => exact hp w (S.rely_refl w)
  | ask q k ih => exact fun v hv c hc => ⟨(hp v hv c hc).1, ih _ (hp v hv c hc).2⟩

/-- A postcondition that the others' moves do not disturb. -/
def Stable (S : Setting Q A W C) (post : Except E α → W → Prop) : Prop :=
  ∀ r w w', post r w → S.rely w w' → post r w'

theorem ret {a : α} (hs : Stable S post) (h : post (.ok a) w) : Safe S post (.ret a) w :=
  fun w' hw => hs _ w w' h hw

theorem raise {e : E} (hs : Stable S post) (h : post (.error e) w) : Safe S post (.raise e) w :=
  fun w' hw => hs _ w w' h hw

/-- A program whose requests all keep the guarantee and a stable assertion is safe,
and the assertion holds when it ends. -/
theorem of_uses {P : Q → Prop} {I : W → Prop} (hp : p.Uses P)
    (hI : ∀ v v', I v → S.rely v v' → I v')
    (hP : ∀ q c v, P q → S.adm q c → I v → S.guar v (S.serve c q v).2 ∧ I (S.serve c q v).2)
    (hw : I w) : Safe S (fun _ v => I v) p w := by
  induction p generalizing w with
  | ret a => exact fun v hv => hI w v hw hv
  | raise e => exact fun v hv => hI w v hw hv
  | ask q k ih =>
    intro v hv c hc
    obtain ⟨hg, hnext⟩ := hP q c v hp.1 hc (hI w v hw hv)
    exact ⟨hg, ih _ (hp.2 _) hnext⟩

/-- A program that is safe in a view of the world is safe in the whole of it, if every
request of its footprint is answered there as in the view. -/
theorem lift {W' : Type} (S' : Setting Q A W' C) (π : W' → W) {u : W'} (hp : Safe S post p (π u)) {F : Q → Prop}
    (hF : p.Uses F)
    (hserve : ∀ c q u, (S'.serve c q u).1 = (S.serve c q (π u)).1 ∧ π (S'.serve c q u).2 = (S.serve c q (π u)).2)
    (hadm : ∀ q c, S'.adm q c → S.adm q c) (hrely : ∀ u u', S'.rely u u' → S.rely (π u) (π u'))
    (hguar : ∀ c q u, F q → S'.adm q c → S.guar (π u) (π (S'.serve c q u).2) → S'.guar u (S'.serve c q u).2) :
    Safe S' (fun r u' => post r (π u')) p u := by
  induction p generalizing u with
  | ret a => exact fun u' hu => hp _ (hrely u u' hu)
  | raise e => exact fun u' hu => hp _ (hrely u u' hu)
  | ask q k ih =>
    intro u' hu c hc
    obtain ⟨hg, hk⟩ := hp _ (hrely u u' hu) c (hadm q c hc)
    obtain ⟨hans, hworld⟩ := hserve c q u'
    rw [← hworld] at hg hk
    rw [← hans] at hk
    exact ⟨hguar c q u' hF.1 hc hg, ih _ hk (hF.2 _)⟩

/-- A run alone, with the same choice throughout: what the guarantee preserves holds
when it ends, and so does the postcondition. -/
theorem run {c : C} {I : W → Prop} (hadm : ∀ q, S.adm q c) (hI : ∀ w w', S.guar w w' → I w → I w')
    (hp : Safe S post p w) (hw : I w) :
    I (p.run (S.serve c) w).2 ∧ post (p.run (S.serve c) w).1 (p.run (S.serve c) w).2 := by
  induction p generalizing w with
  | ret a => exact ⟨hw, hp w (S.rely_refl w)⟩
  | raise e => exact ⟨hw, hp w (S.rely_refl w)⟩
  | ask q k ih =>
    obtain ⟨hg, hk⟩ := hp w (S.rely_refl w) c (hadm q)
    exact ih _ hk (hI _ _ hg hw)

/-- The postcondition of a program that has returned holds now. -/
theorem ret_post {a : α} (hp : Safe S post (.ret a) w) : post (.ok a) w := hp w (S.rely_refl w)

end Safe

end AdkAerospike.Program
