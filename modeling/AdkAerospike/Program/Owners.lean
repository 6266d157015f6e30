import AdkAerospike.Program.Pool
import AdkAerospike.Program.Cut

/-! Calls of several owners in one pool. What an owner's calls can see and change is a
slice of the world, and nobody else's requests change it. If no two calls of one owner
overlap, then however the calls of all owners are interleaved, each call comes to what it
comes to when the owner's calls are made one after the other in a world of their own. -/

namespace AdkAerospike.Program

variable {Q : Type} {A : Q → Type} {E α β W L C O : Type}

namespace Prog

/-! ### What a program heeds -/

/-- Every request satisfies `F`, and the program goes on alike after answers that `sim`
does not tell apart; answers that `sim` does not list are not expected. -/
def Heeds (F : Q → Prop) (sim : (q : Q) → A q → A q → Prop) : Prog Q A E α → Prop
  | ret _ => True
  | raise _ => True
  | ask q k => F q ∧ ∀ x x', sim q x x' → k x = k x' ∧ (k x).Heeds F sim

section Heeds
variable {F : Q → Prop} {sim : (q : Q) → A q → A q → Prop}

theorem Heeds.bind {p : Prog Q A E α} {f : α → Prog Q A E β} (hp : p.Heeds F sim) (hf : ∀ a, (f a).Heeds F sim) :
    (p.bind f).Heeds F sim := by
  induction p with
  | ret a => exact hf a
  | raise e => trivial
  | ask q k ih =>
    refine ⟨hp.1, fun x x' hx => ?_⟩
    obtain ⟨heq, hk⟩ := hp.2 x x' hx
    exact ⟨congrArg (Prog.bind · f) heq, ih x hk⟩

theorem Heeds.tryCatch {p : Prog Q A E α} {f : E → Prog Q A E α} (hp : p.Heeds F sim) (hf : ∀ e, (f e).Heeds F sim) :
    (p.tryCatch f).Heeds F sim := by
  induction p with
  | ret a => trivial
  | raise e => exact hf e
  | ask q k ih =>
    refine ⟨hp.1, fun x x' hx => ?_⟩
    obtain ⟨heq, hk⟩ := hp.2 x x' hx
    exact ⟨congrArg (Prog.tryCatch · f) heq, ih x hk⟩

/-- A program that is given equal answers goes on alike. -/
theorem Uses.heeds {p : Prog Q A E α} (hp : p.Uses F) : p.Heeds F fun _ => Eq := by
  induction p with
  | ret a => trivial
  | raise e => trivial
  | ask q k ih => exact ⟨hp.1, fun x x' hx => ⟨congrArg k hx, ih x (hp.2 x)⟩⟩

end Heeds

/-! ### What a program has come to -/

def outcome : Prog Q A E α → Option (Except E α)
  | ret a => some (.ok a)
  | raise e => some (.error e)
  | ask _ _ => none

theorem outcome_isSome (p : Prog Q A E α) : p.outcome.isSome = p.finished := by cases p <;> rfl

theorem eq_ret_of_outcome {p : Prog Q A E α} {a : α} (h : p.outcome = some (.ok a)) : p = .ret a := by
  cases p with
  | ret b =>
    cases h
    rfl
  | raise e => cases h
  | ask q k => cases h

theorem outcome_of_finished {p : Prog Q A E α} (hp : p.finished) (h : (q : Q) → W → A q × W) (w : W) :
    p.outcome = some (run h p w).1 := by
  cases p with
  | ask q k => cases hp
  | _ => rfl

/-- A program that has ended after some requests has been run. -/
theorem run_of_outcome {h : (q : Q) → W → A q × W} {n : ℕ} {p : Prog Q A E α} {w : W} {r : Except E α}
    (hr : (runFor h n p w).1.outcome = some r) : run h p w = (r, (runFor h n p w).2) := by
  rw [← run_runFor n p w]
  cases hp : (runFor h n p w).1 with
  | ret a =>
    rw [hp] at hr
    exact congrArg (·, _) (Option.some.inj hr)
  | raise e =>
    rw [hp] at hr
    exact congrArg (·, _) (Option.some.inj hr)
  | ask q k =>
    rw [hp] at hr
    cases hr

end Prog

/-! ### Sequences of calls -/

section Outputs
variable {Λ : Type} (step : Λ → W → β × W)

/-- The world after a sequence of steps. -/
def after (ls : List Λ) (w : W) : W := ls.foldl (fun w l => (step l w).2) w

theorem after_append (ls ls' : List Λ) (w : W) : after step (ls ++ ls') w = after step ls' (after step ls w) :=
  List.foldl_append

theorem outputs_append (ls ls' : List Λ) (w : W) :
    outputs step (ls ++ ls') w = outputs step ls w ++ outputs step ls' (after step ls w) := by
  induction ls generalizing w with
  | nil => rfl
  | cons l ls ih => exact congrArg ((step l w).1 :: ·) (ih _)

theorem outputs_map {Λ' : Type} (f : Λ' → Λ) (ls : List Λ') (w : W) :
    outputs step (ls.map f) w = outputs (fun l => step (f l)) ls w := by
  induction ls generalizing w with
  | nil => rfl
  | cons l ls ih => exact congrArg ((step (f l) w).1 :: ·) (ih _)

@[simp] theorem length_outputs (ls : List Λ) (w : W) : (outputs step ls w).length = ls.length := by
  induction ls generalizing w with
  | nil => rfl
  | cons l ls ih => exact congrArg (· + 1) (ih _)

end Outputs

namespace System
variable (Y : System Q A E α W L C) (c : C)

/-- One complete call with no other call in between. -/
def alone (l : L) (w : W) : Except E α × W := (Y.body l).run (Y.serve l c) w

/-- The calls have been carried out one after the other, the last one perhaps not to its end. -/
inductive InTurn (w₀ : W) : List (Proc Q A E α L) → W → Prop
  | nil : InTurn w₀ [] w₀
  | call {ps : List (Proc Q A E α L)} {w : W} (h : InTurn w₀ ps w) (hps : ∀ p ∈ ps, p.prog.finished) (l : L) (n : ℕ) :
      InTurn w₀ (ps ++ [⟨l, ((Y.body l).runFor (Y.serve l c) n w).1⟩]) ((Y.body l).runFor (Y.serve l c) n w).2

namespace InTurn
variable {Y c} {w₀ w : W} {ps : List (Proc Q A E α L)}

/-- When all calls have ended the world is the one after the complete calls. -/
theorem world_eq (h : InTurn Y c w₀ ps w) (hps : ∀ p ∈ ps, p.prog.finished) :
    w = after (Y.alone c) (ps.map Proc.call) w₀ := by
  induction h with
  | nil => rfl
  | @call ps w _ hps' l n ih =>
    have hlast := hps _ (List.mem_append_right ps (List.mem_singleton.mpr rfl))
    obtain ⟨r, hr⟩ := Option.isSome_iff_exists.mp ((Prog.outcome_isSome _).trans hlast)
    rw [List.map_append, after_append, ← ih hps']
    exact (congrArg Prod.snd (Prog.run_of_outcome hr)).symm

/-- A call that has ended has come to what it comes to among the complete calls. -/
theorem outcome (h : InTurn Y c w₀ ps w) {i : ℕ} {p : Proc Q A E α L} {r : Except E α} (hi : ps[i]? = some p)
    (hr : p.prog.outcome = some r) : (outputs (Y.alone c) (ps.map Proc.call) w₀)[i]? = some r := by
  induction h with
  | nil => cases hi
  | @call ps w h hps l n ih =>
    rw [List.map_append, outputs_append]
    rcases getElem?_concat hi with ⟨hi, hlt⟩ | ⟨rfl, rfl⟩
    · rw [List.getElem?_append_left (by simpa using hlt)]
      exact ih hi
    · have hlen : (outputs (Y.alone c) (ps.map Proc.call) w₀).length = ps.length := by simp
      rw [List.getElem?_append_right (Nat.le_of_eq hlen), hlen, Nat.sub_self, ← h.world_eq hps]
      exact congrArg (fun x => some x.1) (Prog.run_of_outcome hr)

/-- The last call goes on. -/
theorem step {l : L} {q : Q} {k : A q → Prog Q A E α} (h : InTurn Y c w₀ (ps ++ [⟨l, .ask q k⟩]) w) :
    InTurn Y c w₀ (ps ++ [⟨l, k (Y.serve l c q w).1⟩]) (Y.serve l c q w).2 := by
  generalize heq : ps ++ [(⟨l, .ask q k⟩ : Proc Q A E α L)] = ps' at h
  cases h with
  | nil => simp at heq
  | @call ps' w h hps l' n =>
    obtain ⟨rfl, hlast⟩ := List.append_inj' heq rfl
    obtain ⟨rfl, hprog⟩ := Proc.mk.inj (List.singleton_inj.mp hlast)
    have hnext := h.call hps l (n + 1)
    rw [Prog.runFor_add, ← hprog] at hnext
    exact hnext

/-- All calls but the last have ended. -/
theorem finished_front {p : Proc Q A E α L} (h : InTurn Y c w₀ (ps ++ [p]) w) : ∀ p' ∈ ps, p'.prog.finished := by
  generalize heq : ps ++ [p] = ps' at h
  cases h with
  | nil => simp at heq
  | @call ps' w h hps l' n =>
    obtain ⟨rfl, -⟩ := List.append_inj' heq rfl
    exact hps

end InTurn

/-! ### Slices -/

/-- The call changes nothing. -/
def Silent (l : L) : Prop := (Y.body l).Uses fun q => ∀ w, (Y.serve l c q w).2 = w

/-- `R o w w'` says that what the owner `o` has of the world `w` is the world `w'`. The
owner's requests cannot tell the two apart, and the requests of others leave the slice
alone, as far as the worlds reached are `fit`. -/
structure Slices (owns : O → L → Prop) (F : O → Q → Prop) (sim : O → (q : Q) → A q → A q → Prop) (fit : W → Prop)
    (R : O → W → W → Prop) : Prop where
  heeds : ∀ {o l}, owns o l → (Y.body l).Heeds (F o) (sim o)
  own : ∀ {o l q w w'}, owns o l → F o q → fit (Y.serve l c q w).2 → R o w w' →
    sim o q (Y.serve l c q w).1 (Y.serve l c q w').1 ∧ R o (Y.serve l c q w).2 (Y.serve l c q w').2
  other : ∀ {o o' l q w w'}, o' ≠ o → owns o' l → F o' q → fit (Y.serve l c q w).2 → R o w w' →
    R o (Y.serve l c q w).2 w'

/-- A call is started when the earlier calls of its owner have ended; a call that nobody
owns changes nothing. All requests are answered alike, and lead to a fit world. -/
def Turns (owns : O → L → Prop) (fit : W → Prop) (s : Pool Q A E α W L) : Action L C → Prop
  | .spawn l => (∀ o, owns o l → ∀ p ∈ s.procs, owns o p.call → p.prog.finished) ∧ ((∃ o, owns o l) ∨ Y.Silent c l)
  | .step i c' => c' = c ∧ fit (Y.act (.step i c') s).world

section Slices
variable {Y c} {owns : O → L → Prop} [∀ o, DecidablePred (owns o)] {F : O → Q → Prop}
  {sim : O → (q : Q) → A q → A q → Prop} {fit : W → Prop} {R : O → W → W → Prop} {s₀ s : Pool Q A E α W L} {o : O}

/-- The owner's calls, in the order in which they were started. -/
def ownCalls (owns : O → L → Prop) [∀ o, DecidablePred (owns o)] (o : O) (s : Pool Q A E α W L) :
    List (Proc Q A E α L) := s.procs.filter fun p => owns o p.call

theorem calls_ownCalls (owns : O → L → Prop) [∀ o, DecidablePred (owns o)] (o : O) (s : Pool Q A E α W L) :
    (ownCalls owns o s).map Proc.call = s.calls.filter fun l => owns o l := by
  rw [ownCalls, Pool.calls, List.filter_map]
  rfl

theorem split_getElem? {l : List β} {i : ℕ} {x : β} (hi : l[i]? = some x) :
    i < l.length ∧ l = l.take i ++ x :: l.drop (i + 1) := by
  obtain ⟨hlt, hget⟩ := List.getElem?_eq_some_iff.mp hi
  refine ⟨hlt, ?_⟩
  rw [← hget, List.getElem_cons_drop, List.take_append_drop]

/-- The one call of an owner that has not ended is the last one. -/
theorem ownCalls_set {procs ps : List (Proc Q A E α L)} {i : ℕ} {l : L} {p : Prog Q A E α} {x : Proc Q A E α L}
    (hi : procs[i]? = some ⟨l, p⟩) (hl : owns o l) (hp : p.finished = false)
    (hps : procs.filter (fun p => owns o p.call) = ps ++ [x]) (hfin : ∀ p ∈ ps, p.prog.finished) (p' : Prog Q A E α) :
    x = ⟨l, p⟩ ∧ (procs.set i ⟨l, p'⟩).filter (fun p => owns o p.call) = ps ++ [⟨l, p'⟩] := by
  obtain ⟨hlt, hsplit⟩ := split_getElem? hi
  have hset : procs.set i ⟨l, p'⟩ = procs.take i ++ ⟨l, p'⟩ :: procs.drop (i + 1) := List.set_eq_take_cons_drop _ hlt
  set before := (procs.take i).filter fun p => owns o p.call
  set behind := (procs.drop (i + 1)).filter fun p => owns o p.call
  have hold : procs.filter (fun p => owns o p.call) = before ++ ⟨l, p⟩ :: behind := by
    conv_lhs => rw [hsplit]
    rw [List.filter_append, List.filter_cons_of_pos (by simpa using hl)]
  have hnew : (procs.set i ⟨l, p'⟩).filter (fun p => owns o p.call) = before ++ ⟨l, p'⟩ :: behind := by
    rw [hset, List.filter_append, List.filter_cons_of_pos (by simpa using hl)]
  rw [hold] at hps
  rcases List.eq_nil_or_concat' behind with hnil | ⟨front, y, hy⟩
  · rw [hnil] at hps hnew
    obtain ⟨hbefore, hx⟩ := List.append_inj' hps rfl
    exact ⟨(List.singleton_inj.mp hx).symm, by rw [hnew, hbefore]⟩
  · -- otherwise the call stands before the last one, and has ended
    rw [hy, ← List.cons_append, ← List.append_assoc] at hps
    obtain ⟨hfront, -⟩ := List.append_inj' hps rfl
    have hmem : (⟨l, p⟩ : Proc Q A E α L) ∈ ps := by simp [← hfront]
    have hdone := hfin _ hmem
    rw [hp] at hdone
    cases hdone

theorem ownCalls_set_of_not {procs : List (Proc Q A E α L)} {i : ℕ} {l : L} {p p' : Prog Q A E α}
    (hi : procs[i]? = some ⟨l, p⟩) (hl : ¬ owns o l) :
    (procs.set i ⟨l, p'⟩).filter (fun p => owns o p.call) = procs.filter fun p => owns o p.call := by
  obtain ⟨hlt, hsplit⟩ := split_getElem? hi
  rw [List.set_eq_take_cons_drop _ hlt]
  conv_rhs => rw [hsplit]
  rw [List.filter_append, List.filter_append, List.filter_cons_of_neg (by simpa using hl),
    List.filter_cons_of_neg (by simpa using hl)]

/-- What is left of a call heeds its owner's footprint, or changes nothing. -/
def Minds (Y : System Q A E α W L C) (c : C) (owns : O → L → Prop) (F : O → Q → Prop)
    (sim : O → (q : Q) → A q → A q → Prop) (p : Proc Q A E α L) : Prop :=
  (∀ o, owns o p.call → p.prog.Heeds (F o) (sim o)) ∧
    ((∃ o, owns o p.call) ∨ p.prog.Uses fun q => ∀ w, (Y.serve p.call c q w).2 = w)

/-- All calls mind their owners, and every owner's slice is what its calls leave in turn. -/
structure Sliced (Y : System Q A E α W L C) (c : C) (owns : O → L → Prop) [∀ o, DecidablePred (owns o)] (F : O → Q → Prop)
    (sim : O → (q : Q) → A q → A q → Prop) (R : O → W → W → Prop) (w₀ : O → W) (s : Pool Q A E α W L) : Prop where
  minds : ∀ p ∈ s.procs, Y.Minds c owns F sim p
  turns : ∀ o, ∃ w, R o s.world w ∧ InTurn Y c (w₀ o) (ownCalls owns o s) w

section Sliced
variable {w₀ : O → W} {l : L} {q : Q} {k : A q → Prog Q A E α} {i : ℕ}

theorem Sliced.spawn (h : Y.Slices c owns F sim fit R) (hs : Sliced Y c owns F sim R w₀ s)
    (hl : Y.Turns c owns fit s (.spawn l)) :
    Sliced Y c owns F sim R w₀ ⟨s.world, s.procs ++ [⟨l, Y.body l⟩]⟩ where
  minds p hp := by
    rcases List.mem_append.mp hp with hp | hp
    · exact hs.minds p hp
    · rw [List.mem_singleton.mp hp]
      exact ⟨fun _ ho => h.heeds ho, hl.2⟩
  turns o := by
    obtain ⟨w, hR, hturn⟩ := hs.turns o
    refine ⟨w, hR, ?_⟩
    change InTurn Y c (w₀ o) ((s.procs ++ [Proc.mk l (Y.body l)]).filter fun p => owns o p.call) w
    rw [List.filter_append]
    by_cases ho : owns o l
    · have hfin : ∀ p ∈ ownCalls owns o s, p.prog.finished := fun p hp => by
        obtain ⟨hmem, hown⟩ := List.mem_filter.mp hp
        exact hl.1 o ho p hmem (by simpa using hown)
      have hnext := hturn.call hfin l 0
      rw [Prog.runFor_zero] at hnext
      rw [List.filter_cons_of_pos (by simpa using ho)]
      exact hnext
    · rw [List.filter_cons_of_neg (by simpa using ho), List.filter_nil, List.append_nil]
      exact hturn

/-- The owner of the call that is answered: its last call goes on. -/
theorem Sliced.answer_own (h : Y.Slices c owns F sim fit R) (hs : Sliced Y c owns F sim R w₀ s)
    (hi : s.procs[i]? = some ⟨l, .ask q k⟩) (hfit : fit (Y.serve l c q s.world).2) (hl : owns o l) :
    ∃ w, R o (Y.serve l c q s.world).2 w ∧ InTurn Y c (w₀ o)
      ((s.procs.set i ⟨l, k (Y.serve l c q s.world).1⟩).filter fun p => owns o p.call) w := by
  have hmem := List.mem_of_getElem? hi
  obtain ⟨w, hR, hturn⟩ := hs.turns o
  obtain ⟨hF, hk⟩ := (hs.minds _ hmem).1 o hl
  obtain ⟨hsim, hnext⟩ := h.own hl hF hfit hR
  have hne : ownCalls owns o s ≠ [] := List.ne_nil_of_mem (List.mem_filter.mpr ⟨hmem, by simpa using hl⟩)
  obtain ⟨ps, x, hps⟩ := (List.eq_nil_or_concat' _).resolve_left hne
  rw [hps] at hturn
  obtain ⟨rfl, hset⟩ := ownCalls_set hi hl rfl hps hturn.finished_front (k (Y.serve l c q s.world).1)
  have hstep := hturn.step
  rw [← (hk _ _ hsim).1] at hstep
  rw [hset]
  exact ⟨_, hnext, hstep⟩

/-- Another owner has of the world what it had. -/
theorem Sliced.answer_other (h : Y.Slices c owns F sim fit R) (hs : Sliced Y c owns F sim R w₀ s)
    (hi : s.procs[i]? = some ⟨l, .ask q k⟩) (hfit : fit (Y.serve l c q s.world).2) (hl : ¬ owns o l) :
    ∃ w, R o (Y.serve l c q s.world).2 w ∧ InTurn Y c (w₀ o)
      ((s.procs.set i ⟨l, k (Y.serve l c q s.world).1⟩).filter fun p => owns o p.call) w := by
  obtain ⟨hheeds, howned⟩ := hs.minds _ (List.mem_of_getElem? hi)
  obtain ⟨w, hR, hturn⟩ := hs.turns o
  rw [ownCalls_set_of_not hi hl]
  refine ⟨w, ?_, hturn⟩
  rcases howned with ⟨o', ho'⟩ | hsilent
  · have hne : o' ≠ o := fun heq => hl (heq ▸ ho')
    exact h.other hne ho' (hheeds o' ho').1 hfit hR
  · rw [hsilent.1]
    exact hR

theorem Sliced.answer (h : Y.Slices c owns F sim fit R) (hs : Sliced Y c owns F sim R w₀ s)
    (hi : s.procs[i]? = some ⟨l, .ask q k⟩) (hfit : fit (Y.serve l c q s.world).2) :
    Sliced Y c owns F sim R w₀
      ⟨(Y.serve l c q s.world).2, s.procs.set i ⟨l, k (Y.serve l c q s.world).1⟩⟩ where
  minds p hp := by
    obtain ⟨hheeds, howned⟩ := hs.minds _ (List.mem_of_getElem? hi)
    rcases List.mem_or_eq_of_mem_set hp with hp | rfl
    · exact hs.minds p hp
    · refine ⟨fun o ho => ?_, howned.imp id fun hu => hu.2 _⟩
      obtain ⟨w, hR, -⟩ := hs.turns o
      obtain ⟨hF, hk⟩ := hheeds o ho
      exact (hk _ _ (h.own ho hF hfit hR).1).2
  turns o := by
    by_cases hl : owns o l
    · exact hs.answer_own h hi hfit hl
    · exact hs.answer_other h hi hfit hl

end Sliced

theorem Slices.sliced (h : Y.Slices c owns F sim fit R) (hs : Y.Reach (Y.Turns c owns fit) s₀ s)
    (hp₀ : s₀.procs = []) (w₀ : O → W) (h₀ : ∀ o, R o s₀.world (w₀ o)) : Sliced Y c owns F sim R w₀ s := by
  refine hs.invariant (I := Sliced Y c owns F sim R w₀) ⟨fun p hp => ?_, fun o => ⟨w₀ o, h₀ o, ?_⟩⟩ fun s a hsliced ha => ?_
  · rw [hp₀] at hp
    cases hp
  · rw [ownCalls, hp₀]
    exact .nil
  · rcases act_cases (Y := Y) a s with ⟨l, rfl, hact⟩ | ⟨i, c', -, -, hact⟩ | ⟨i, c', l, q, k, rfl, hi, -, hact⟩
    · rw [hact]
      exact hsliced.spawn h ha
    · rw [hact]
      exact hsliced
    · obtain ⟨rfl, hfit⟩ := ha
      rw [hact] at hfit ⊢
      exact hsliced.answer h hi hfit

/-- Every owner's slice of the world is what its calls leave of a world of their own. -/
theorem Slices.inTurn (h : Y.Slices c owns F sim fit R) (hs : Y.Reach (Y.Turns c owns fit) s₀ s)
    (hp₀ : s₀.procs = []) (w₀ : O → W) (h₀ : ∀ o, R o s₀.world (w₀ o)) (o : O) :
    ∃ w, R o s.world w ∧ InTurn Y c (w₀ o) (ownCalls owns o s) w :=
  (h.sliced hs hp₀ w₀ h₀).turns o

/-- Every call that has ended has come to what it comes to when the owner's calls are made
one after the other. -/
theorem Slices.outcome (h : Y.Slices c owns F sim fit R) (hs : Y.Reach (Y.Turns c owns fit) s₀ s)
    (hp₀ : s₀.procs = []) (w₀ : O → W) (h₀ : ∀ o, R o s₀.world (w₀ o)) {i : ℕ} {p : Proc Q A E α L} {r : Except E α}
    (hi : (ownCalls owns o s)[i]? = some p) (hr : p.prog.outcome = some r) :
    (outputs (Y.alone c) (s.calls.filter fun l => owns o l) (w₀ o))[i]? = some r := by
  obtain ⟨w, -, hturn⟩ := h.inTurn hs hp₀ w₀ h₀ o
  rw [← calls_ownCalls]
  exact hturn.outcome hi hr

/-- When the owner's calls have ended, its slice of the world is what they leave when they
are made one after the other. -/
theorem Slices.world (h : Y.Slices c owns F sim fit R) (hs : Y.Reach (Y.Turns c owns fit) s₀ s)
    (hp₀ : s₀.procs = []) (w₀ : O → W) (h₀ : ∀ o, R o s₀.world (w₀ o))
    (hfin : ∀ p ∈ ownCalls owns o s, p.prog.finished) :
    R o s.world (after (Y.alone c) (s.calls.filter fun l => owns o l) (w₀ o)) := by
  obtain ⟨w, hR, hturn⟩ := h.inTurn hs hp₀ w₀ h₀ o
  rw [← calls_ownCalls, ← hturn.world_eq hfin]
  exact hR

end Slices

end System

end AdkAerospike.Program
