import AdkAerospike.Memory.Index

/-! Posting rows that several calls append to at the same time. `_append_posting_ref`
reads the length of the list with its append and trims by another request, with a count
that was right when the length was read. A trim of another call in between makes the
count too large. -/

namespace AdkAerospike.Memory

open Program Data Keys

variable {V : Type}

/-! ### Calls on one row -/

/-- The references that a request appends. -/
def appended : Req V → List Ref
  | .operate _ ops => ops.filterMap fun op => match op with
    | .append ref => some ref
    | _ => none
  | _ => []

/-- Calls of `_append_posting_ref` on one row. Beside the store, all references that
have been appended are written down in order. -/
def appending (cfg : ServerConfig V) (app user token : Str) :
    System (Req V) Ans Err Unit (Store V × List Ref) Ref Unit where
  body ref := appendPostingRef app user token ref
  serve _ _ q w := ((exec cfg .fair q w.1).1, (exec cfg .fair q w.1).2,
    if Server.errorOf q (exec cfg .fair q w.1).1 = none then w.2 ++ appended q else w.2)

abbrev AppendPool (V : Type) := Pool (Req V) Ans Err Unit (Store V × List Ref) Ref

/-- The references that were appended last, as many as a row may hold. -/
def newest (log : List Ref) : List Ref := log.drop (log.length - maxPostingListSize)

/-- The request succeeds. -/
def Succeeds (cfg : ServerConfig V) (s : AppendPool V) : Action Ref Unit → Prop
  | .spawn _ => True
  | .step i _ => ∀ q, System.next s i = some q → Server.errorOf q (exec cfg .fair q s.world.1).1 = none

/-- If the request is a trim, it takes away what the row holds in excess, and no more. -/
def TrimsExcess (app user token : Str) (s : AppendPool V) : Action Ref Unit → Prop
  | .spawn _ => True
  | .step i _ => ∀ count, System.next s i = some (.operate (memoryPostingKey app user token) [.removeFirst count]) →
      maxPostingListSize + count ≤ (postings app user token s.world.1).length

section Requests
variable {cfg : ServerConfig V} {σ : Store V}

theorem exec_operate_of_success {key : Str} {ops : List Op}
    (h : Server.errorOf (.operate key ops : Req V) (exec cfg .fair (.operate key ops) σ).1 = none) :
    (exec cfg .fair (.operate key ops) σ).2.get key = some (ops.foldl Op.act ((σ.get key).getD {}, none)).1 := by
  have hchange : exec cfg .fair (.operate key ops) σ = Server.change key (cfg.table.onOperate ops) σ := rfl
  cases hop : cfg.table.onOperate ops (σ.get key) with
  | error e =>
    rw [hchange, Server.change_of_error hop] at h
    cases h
  | ok x =>
    rw [hchange, Server.change_of_ok hop, FMap.get_set, if_pos rfl]
    cases hr : σ.get key with
    | some r =>
      rw [hr] at hop
      exact Server.Table.leave_eq_ok hop
    | none =>
      rw [hr, Server.Table.onOperate] at hop
      split_ifs at hop
      exact Server.Table.leave_eq_ok hop

theorem refs_append (ref : Ref) (r : Option (Record V)) :
    Record.refs (some ([Op.append ref, .read].foldl Op.act (r.getD {}, none)).1) = Record.refs r ++ [ref] := by
  cases r <;> rfl

theorem refs_removeFirst (count : ℕ) (r : Option (Record V)) :
    Record.refs (some ([Op.removeFirst count].foldl Op.act (r.getD {}, none)).1) = (Record.refs r).drop count := by
  cases r with
  | none => simp [Record.refs, Op.act]
  | some r => cases h : r.postings <;> simp [Record.refs, Op.act, h]

end Requests

/-! ### Runs -/

/-- The requests of a call. -/
def AppendRequest (app user token : Str) (ref : Ref) (q : Req V) : Prop :=
  q = .operate (memoryPostingKey app user token) [.append ref, .read] ∨
    ∃ count, q = .operate (memoryPostingKey app user token) [.removeFirst count]

theorem uses_appendPostingRef (app user token : Str) (ref : Ref) :
    (appendPostingRef app user token ref : Service V Unit).Uses (AppendRequest app user token ref) := by
  refine Prog.Uses.bind ⟨.inl rfl, uses_answer⟩ fun result => ?_
  dsimp only
  split_ifs
  · trivial
  · exact Prog.Uses.bind ⟨.inr ⟨_, rfl⟩, uses_answer⟩ fun _ => trivial

/-- The row is what is left of the log after some have been dropped, and so many have
been dropped only as there were in excess. -/
def Trimmed (row log : List Ref) : Prop := ∃ dropped, row = log.drop dropped ∧ dropped ≤ log.length - maxPostingListSize

theorem Trimmed.append {row log : List Ref} (h : Trimmed row log) (ref : Ref) : Trimmed (row ++ [ref]) (log ++ [ref]) := by
  obtain ⟨dropped, rfl, hle⟩ := h
  refine ⟨dropped, ?_, ?_⟩
  · rw [List.drop_append_of_le_length (by omega)]
  · rw [List.length_append]
    omega

theorem Trimmed.drop {row log : List Ref} (h : Trimmed row log) {count : ℕ}
    (hcount : maxPostingListSize + count ≤ row.length) : Trimmed (row.drop count) log := by
  obtain ⟨dropped, rfl, hle⟩ := h
  rw [List.length_drop] at hcount
  refine ⟨dropped + count, ?_, by omega⟩
  rw [List.drop_drop]

theorem Trimmed.newest_suffix {row log : List Ref} (h : Trimmed row log) : newest log <:+ row := by
  obtain ⟨dropped, rfl, hle⟩ := h
  have hsplit : newest log = (log.drop dropped).drop (log.length - maxPostingListSize - dropped) := by
    have hsum : dropped + (log.length - maxPostingListSize - dropped) = log.length - maxPostingListSize := by omega
    rw [newest, List.drop_drop, hsum]
  rw [hsplit]
  exact List.drop_suffix _ _

/-- A request that succeeds, and is no trim of more than the excess. -/
theorem Trimmed.serve {cfg : ServerConfig V} {app user token : Str} {ref : Ref} {q : Req V} {w : Store V × List Ref}
    (h : Trimmed (postings app user token w.1) w.2)
    (hsuccess : Server.errorOf q (exec cfg .fair q w.1).1 = none) (hq : AppendRequest app user token ref q)
    (htrim : ∀ count, q = .operate (memoryPostingKey app user token) [.removeFirst count] →
      maxPostingListSize + count ≤ (postings app user token w.1).length) :
    Trimmed (postings app user token ((appending cfg app user token).serve ref () q w).2.1)
      ((appending cfg app user token).serve ref () q w).2.2 := by
  have hlog : ((appending cfg app user token).serve ref () q w).2.2 = w.2 ++ appended q := if_pos hsuccess
  rw [hlog]
  show Trimmed (Record.refs ((exec cfg .fair q w.1).2.get (memoryPostingKey app user token))) (w.2 ++ appended q)
  rcases hq with rfl | ⟨count, rfl⟩
  · rw [exec_operate_of_success hsuccess, refs_append]
    exact h.append ref
  · rw [exec_operate_of_success hsuccess, refs_removeFirst]
    simp only [appended, List.filterMap_cons, List.filterMap_nil, List.append_nil]
    exact h.drop (htrim count rfl)

/-- In every run in which each trim is served while the row holds that many references
in excess, the row holds the newest references at every moment. -/
theorem trimming_keeps_newest (cfg : ServerConfig V) (app user token : Str) (σ₀ : Store V) {s : AppendPool V}
    (hs : (appending cfg app user token).Reach (fun s a => Succeeds cfg s a ∧ TrimsExcess app user token s a)
      ⟨(σ₀, postings app user token σ₀), []⟩ s) :
    newest s.world.2 <:+ postings app user token s.world.1 := by
  have hstart : Trimmed (postings app user token σ₀)
      (postings app user token σ₀) := ⟨0, List.drop_zero.symm, Nat.zero_le _⟩
  have htrimmed : Trimmed (postings app user token s.world.1) s.world.2 :=
    (System.Reach.uses (F := AppendRequest app user token)
      (I := fun w : Store V × List Ref => Trimmed (postings app user token w.1) w.2)
      (fun _ ref _ => uses_appendPostingRef app user token ref)
      (fun s i _ _ q hok hnext hq h => h.serve (hok.1 q hnext) hq fun count hcount => hok.2 count (hcount ▸ hnext))
      hs hstart rfl).1
  exact htrimmed.newest_suffix

/-! ### Two trims for the same excess -/

section Race
variable {cfg : ServerConfig V} {app user token : Str} {s : AppendPool V} {i : ℕ} {ref : Ref}

theorem errorOf_append (hcfg : cfg.Ample) (key : Str) (ref : Ref) (σ : Store V) :
    Server.errorOf (.operate key [.append ref, .read] : Req V) (exec cfg .fair (.operate key [.append ref, .read]) σ).1 =
      none := by
  rw [exec_append hcfg]
  rfl

theorem errorOf_trim (hcfg : cfg.Ample) {key : Str} {σ : Store V} (h : Record.refs (σ.get key) ≠ []) (count : ℕ) :
    Server.errorOf (.operate key [.removeFirst count] : Req V) (exec cfg .fair (.operate key [.removeFirst count]) σ).1 =
      none := by
  cases hr : σ.get key with
  | none =>
    rw [hr] at h
    exact absurd rfl h
  | some r =>
    have hop : cfg.table.onOperate [.removeFirst count] (σ.get key) =
        .ok (none, some (Op.act (r, none) (.removeFirst count)).1) := by
      rw [hr]
      exact if_pos (hcfg _)
    have hexec : exec cfg .fair (.operate key [.removeFirst count]) σ =
        (.ok none, σ.set key (some (Op.act (r, none) (.removeFirst count)).1)) := Server.change_of_ok hop
    rw [hexec]
    rfl

/-- A call that has just started appends its reference. -/
theorem act_append (hcfg : cfg.Ample) (hi : s.procs[i]? = some ⟨ref, appendPostingRef app user token ref⟩) :
    Succeeds cfg s (.step i ()) ∧
      postings app user token ((appending cfg app user token).act (.step i ()) s).world.1 = postings app user token s.world.1 ++ [ref] ∧
      ((appending cfg app user token).act (.step i ()) s).world.2 = s.world.2 ++ [ref] ∧
      ((appending cfg app user token).act (.step i ()) s).procs =
        s.procs.set i ⟨ref, trim app user token (some (postings app user token s.world.1 ++ [ref]))⟩ := by
  have hsuccess := errorOf_append hcfg (memoryPostingKey app user token) ref s.world.1
  have hget := exec_operate_of_success hsuccess
  have hact := System.act_step (Y := appending cfg app user token) () hi
  refine ⟨fun q hq => ?_, ?_, ?_, ?_⟩
  · have hnext : System.next s i = some (.operate (memoryPostingKey app user token) [.append ref, .read]) := by
      simp [System.next, hi, appendPostingRef_eq, operate, Prog.bind]
    cases hnext.symm.trans hq
    exact hsuccess
  · rw [hact, postings, postings, ← refs_append, ← hget]
    rfl
  · rw [hact]
    exact if_pos hsuccess
  · rw [hact]
    show s.procs.set i ⟨ref, (answer (exec cfg .fair (.operate (memoryPostingKey app user token) [.append ref, .read])
      s.world.1).1).bind (trim app user token)⟩ = _
    rw [exec_append hcfg]
    rfl

/-- A call that has read a list with references in excess trims the row. -/
theorem act_trim (hcfg : cfg.Ample) {l : List Ref} (hi : s.procs[i]? = some ⟨ref, trim app user token (some l)⟩)
    (hl : maxPostingListSize < l.length) (hrow : postings app user token s.world.1 ≠ []) :
    System.next s i = some (.operate (memoryPostingKey app user token) [.removeFirst (l.length - maxPostingListSize)]) ∧
      Succeeds cfg s (.step i ()) ∧
      postings app user token ((appending cfg app user token).act (.step i ()) s).world.1 =
        (postings app user token s.world.1).drop (l.length - maxPostingListSize) ∧
      ((appending cfg app user token).act (.step i ()) s).world.2 = s.world.2 ∧
      ∀ j, j ≠ i → ((appending cfg app user token).act (.step i ()) s).procs[j]? = s.procs[j]? := by
  have htrim : (trim app user token (some l) : Service V Unit) = (operate (memoryPostingKey app user token)
      [.removeFirst (l.length - maxPostingListSize)]).bind fun _ => .ret () := if_neg (not_le.mpr hl)
  rw [htrim] at hi
  have hsuccess := errorOf_trim hcfg hrow (l.length - maxPostingListSize)
  have hget := exec_operate_of_success hsuccess
  have hact := System.act_step (Y := appending cfg app user token) () hi
  have hnext : System.next s i =
      some (.operate (memoryPostingKey app user token) [.removeFirst (l.length - maxPostingListSize)]) := by
    simp [System.next, hi, operate, Prog.bind]
  refine ⟨hnext, fun q hq => ?_, ?_, ?_, fun j hj => ?_⟩
  · cases hnext.symm.trans hq
    exact hsuccess
  · rw [hact, postings, postings, ← refs_removeFirst, ← hget]
    rfl
  · rw [hact]
    refine (if_pos hsuccess).trans ?_
    simp [appended]
  · rw [hact]
    exact List.getElem?_set_ne (Ne.symm hj)

/-- Calls one after the other fill a row. -/
theorem run_fill (hcfg : cfg.Ample) {refs : List Ref}
    (hroom : (postings app user token s.world.1).length + refs.length ≤ maxPostingListSize) :
    (appending cfg app user token).Reach (fun s a => Succeeds cfg s a ∧ TrimsExcess app user token s a) s
        ((appending cfg app user token).run (System.turns () 1 s.procs.length refs) s) ∧
      postings app user token ((appending cfg app user token).run (System.turns () 1 s.procs.length refs) s).world.1 =
        postings app user token s.world.1 ++ refs ∧
      ((appending cfg app user token).run (System.turns () 1 s.procs.length refs) s).world.2 = s.world.2 ++ refs ∧
      ((appending cfg app user token).run (System.turns () 1 s.procs.length refs) s).procs.length =
        s.procs.length + refs.length := by
  induction refs generalizing s with
  | nil => exact ⟨.init, (List.append_nil _).symm, (List.append_nil _).symm, rfl⟩
  | cons ref refs ih =>
    set Y := appending cfg app user token with hY
    set s₁ := Y.act (.spawn ref) s with hs₁
    have hi : s₁.procs[s.procs.length]? = some ⟨ref, appendPostingRef app user token ref⟩ := by
      rw [hs₁]
      exact List.getElem?_concat_length
    obtain ⟨hok, hrow, hlog, hprocs⟩ := act_append hcfg hi
    set s₂ := Y.act (.step s.procs.length ()) s₁ with hs₂
    have hlen : s₂.procs.length = s.procs.length + 1 := by
      rw [hprocs, List.length_set, hs₁]
      simp [System.act]
    have hrun : Y.run (System.turns () 1 s.procs.length (ref :: refs)) s =
        Y.run (System.turns () 1 s₂.procs.length refs) s₂ := by
      rw [hlen]
      rfl
    have hrow₂ : postings app user token s₂.world.1 = postings app user token s.world.1 ++ [ref] := hrow
    rw [List.length_cons] at hroom
    obtain ⟨hreach, hrest, hlog', hcount⟩ := @ih s₂ (by rw [hrow₂, List.length_append, List.length_singleton]; omega)
    have hfair : TrimsExcess app user token s₁ (.step s.procs.length ()) := fun count hnext => by
      simp [System.next, hi, appendPostingRef_eq, operate, Prog.bind] at hnext
    rw [hrun]
    refine ⟨.trans (.act (.act (a := .spawn ref) .init ⟨trivial, trivial⟩) ⟨hok, hfair⟩) hreach, ?_, ?_, ?_⟩
    · rw [hrest, hrow₂, List.append_assoc, List.singleton_append]
    · rw [hlog', hlog, List.append_assoc, List.singleton_append]
      rfl
    · rw [hcount, hlen, List.length_cons]
      omega

/-- Two calls append to a full row, then both trim. -/
def race (n : ℕ) (a b : Ref) : List (Action Ref Unit) :=
  [.spawn a, .spawn b, .step n (), .step (n + 1) (), .step n (), .step (n + 1) ()]

theorem run_race (hcfg : cfg.Ample) (hfull : (postings app user token s.world.1).length = maxPostingListSize) (a b : Ref) :
    (appending cfg app user token).Reach (Succeeds cfg) s
        ((appending cfg app user token).run (race s.procs.length a b) s) ∧
      postings app user token ((appending cfg app user token).run (race s.procs.length a b) s).world.1 =
        (postings app user token s.world.1 ++ [a, b]).drop 3 ∧
      ((appending cfg app user token).run (race s.procs.length a b) s).world.2 = s.world.2 ++ [a, b] := by
  set Y := appending cfg app user token with hY
  set n := s.procs.length with hn
  set s₂ := Y.act (.spawn b) (Y.act (.spawn a) s) with hs₂
  have hprocs₂ : s₂.procs = s.procs ++ [⟨a, appendPostingRef app user token a⟩] ++
      [⟨b, appendPostingRef app user token b⟩] := rfl
  have hlen : (s.procs ++ [(⟨a, appendPostingRef app user token a⟩ : Proc (Req V) Ans Err Unit Ref)]).length =
      n + 1 := by rw [List.length_append, List.length_singleton]
  have ha : s₂.procs[n]? = some ⟨a, appendPostingRef app user token a⟩ := by
    rw [hprocs₂, List.getElem?_append_left (by omega), hn]
    exact List.getElem?_concat_length
  have hb : s₂.procs[n + 1]? = some ⟨b, appendPostingRef app user token b⟩ := by
    rw [hprocs₂, ← hlen]
    exact List.getElem?_concat_length
  have hrow₂ : postings app user token s₂.world.1 = postings app user token s.world.1 := rfl
  obtain ⟨hok₃, hrow₃, hlog₃, hprocs₃⟩ := act_append hcfg ha
  set s₃ := Y.act (.step n ()) s₂ with hs₃
  have hlt : n < s₂.procs.length := (List.getElem?_eq_some_iff.mp ha).1
  have ha₃ : s₃.procs[n]? = some ⟨a, trim app user token (some (postings app user token s.world.1 ++ [a]))⟩ := by
    rw [hprocs₃, List.getElem?_set_self hlt, hrow₂]
  have hb₃ : s₃.procs[n + 1]? = some ⟨b, appendPostingRef app user token b⟩ := by
    rw [hprocs₃, List.getElem?_set_ne (by omega), hb]
  obtain ⟨hok₄, hrow₄, hlog₄, hprocs₄⟩ := act_append hcfg hb₃
  set s₄ := Y.act (.step (n + 1) ()) s₃ with hs₄
  have hlt₃ : n + 1 < s₃.procs.length := (List.getElem?_eq_some_iff.mp hb₃).1
  have ha₄ : s₄.procs[n]? = some ⟨a, trim app user token (some (postings app user token s.world.1 ++ [a]))⟩ := by
    rw [hprocs₄, List.getElem?_set_ne (by omega), ha₃]
  have hrow₄' : postings app user token s₄.world.1 = postings app user token s.world.1 ++ [a, b] := by
    rw [hrow₄, hrow₃, hrow₂, List.append_assoc]
    rfl
  have hb₄ : s₄.procs[n + 1]? = some ⟨b, trim app user token (some (postings app user token s.world.1 ++ [a, b]))⟩ := by
    rw [hprocs₄, List.getElem?_set_self hlt₃, ← hrow₄, hrow₄']
  obtain ⟨-, hok₅, hrow₅, hlog₅, hprocs₅⟩ := act_trim hcfg ha₄ (by simp [hfull]) (by simp [hrow₄'])
  set s₅ := Y.act (.step n ()) s₄ with hs₅
  have hb₅ : s₅.procs[n + 1]? = some ⟨b, trim app user token (some (postings app user token s.world.1 ++ [a, b]))⟩ := by
    rw [hprocs₅ (n + 1) (by omega), hb₄]
  have hrow₅' : postings app user token s₅.world.1 = (postings app user token s.world.1 ++ [a, b]).drop 1 := by
    rw [hrow₅, hrow₄', List.length_append, List.length_singleton, hfull, Nat.add_sub_cancel_left]
  have hrow₅ne : postings app user token s₅.world.1 ≠ [] := fun hnil => by
    have hzero := congrArg List.length hnil
    rw [hrow₅', List.length_drop, List.length_append] at hzero
    simp at hzero
  obtain ⟨-, hok₆, hrow₆, hlog₆, -⟩ := act_trim hcfg hb₅ (by simp [hfull]) hrow₅ne
  refine ⟨?_, ?_, ?_⟩
  · exact .act (.act (.act (.act (.act (a := .spawn b) (.act (a := .spawn a) .init trivial) trivial) hok₃) hok₄) hok₅) hok₆
  · show postings app user token (Y.act (.step (n + 1) ()) s₅).world.1 = _
    rw [hrow₆, hrow₅', List.length_append, hfull, Nat.add_sub_cancel_left, List.drop_drop]
    rfl
  · show (Y.act (.step (n + 1) ()) s₅).world.2 = _
    rw [hlog₆, hlog₅, hlog₄, hlog₃, List.append_assoc]
    rfl

/-- One call appends to a full row and trims it. -/
theorem run_one (hcfg : cfg.Ample) (hfull : (postings app user token s.world.1).length = maxPostingListSize) (a : Ref) :
    (appending cfg app user token).Reach (fun s a => Succeeds cfg s a ∧ TrimsExcess app user token s a) s
      ((appending cfg app user token).run [.spawn a, .step s.procs.length (), .step s.procs.length ()] s) := by
  set Y := appending cfg app user token with hY
  set s₁ := Y.act (.spawn a) s with hs₁
  have ha : s₁.procs[s.procs.length]? = some ⟨a, appendPostingRef app user token a⟩ := by
    rw [hs₁]
    exact List.getElem?_concat_length
  have hrow₁ : postings app user token s₁.world.1 = postings app user token s.world.1 := rfl
  obtain ⟨hok₂, hrow₂, -, hprocs₂⟩ := act_append hcfg ha
  set s₂ := Y.act (.step s.procs.length ()) s₁ with hs₂
  have ha₂ : s₂.procs[s.procs.length]? = some ⟨a, trim app user token (some (postings app user token s.world.1 ++ [a]))⟩ := by
    rw [hprocs₂, List.getElem?_set_self (List.getElem?_eq_some_iff.mp ha).1, hrow₁]
  obtain ⟨hnext, hok₃, -⟩ := act_trim hcfg ha₂ (by simp [hfull]) (by simp [hrow₂])
  have hfair : TrimsExcess app user token s₁ (.step s.procs.length ()) := fun count hnext => by
    simp [System.next, ha, appendPostingRef_eq, operate, Prog.bind] at hnext
  have hexcess : TrimsExcess app user token s₂ (.step s.procs.length ()) := fun count hcount => by
    rw [hnext] at hcount
    simp only [Option.some.injEq, Server.Req.operate.injEq, List.cons.injEq, Op.removeFirst.injEq, true_and,
      and_true] at hcount
    rw [hrow₂, hrow₁, ← hcount, List.length_append, List.length_singleton, hfull]
    omega
  have hreach₁ : Y.Reach (fun s a => Succeeds cfg s a ∧ TrimsExcess app user token s a) s s₁ :=
    .act (a := .spawn a) .init ⟨trivial, trivial⟩
  have hreach₂ : Y.Reach (fun s a => Succeeds cfg s a ∧ TrimsExcess app user token s a) s s₂ :=
    hreach₁.act ⟨hok₂, hfair⟩
  exact hreach₂.act ⟨hok₃, hexcess⟩

end Race

namespace Small

def mark (n : ℕ) : Ref := ⟨List.replicate (n + 1) 'x', ['s'], 1⟩

def marks (n : ℕ) : List Ref := (List.range n).map mark

theorem nodup_marks (n : ℕ) : (marks n).Nodup := by
  refine List.Nodup.map (fun i j hij => ?_) List.nodup_range
  have hlen := congrArg (fun r : Ref => r.eid.length) hij
  simpa [mark] using hlen

theorem length_marks (n : ℕ) : (marks n).length = n := by rw [marks, List.length_map, List.length_range]

theorem marks_add_two (n : ℕ) : marks (n + 2) = marks n ++ [mark n, mark (n + 1)] := by
  simp [marks, List.range_succ]

theorem exists_mem_drop_two {l : List Ref} (hl : l.Nodup) (hlen : 2 < l.length) : ∃ ref ∈ l.drop 2, ref ∉ l.drop 3 := by
  have hcons : l.drop 2 = l[2] :: l.drop 3 := List.drop_eq_getElem_cons hlen
  have hnodup : (l.drop 2).Nodup := hl.sublist (List.drop_sublist 2 l)
  refine ⟨l[2], ?_, ?_⟩
  · rw [hcons]
    exact List.mem_cons_self
  · rw [hcons] at hnodup
    exact (List.nodup_cons.mp hnodup).1

/-- No row and no calls. -/
def start : AppendPool ℕ := ⟨(∅, []), []⟩

/-- As many calls as a row may hold references, one after the other. -/
def filled : AppendPool ℕ :=
  (appending cfg ['a'] ['u'] ['t']).run (System.turns () 1 0 (marks maxPostingListSize)) start

theorem filled_eq :
    (appending cfg ['a'] ['u'] ['t']).Reach (fun s a => Succeeds cfg s a ∧ TrimsExcess ['a'] ['u'] ['t'] s a) start
        filled ∧
      postings ['a'] ['u'] ['t'] filled.world.1 = marks maxPostingListSize ∧
      filled.world.2 = marks maxPostingListSize ∧ filled.procs.length = maxPostingListSize := by
  have hrow₀ : postings ['a'] ['u'] ['t'] start.world.1 = [] := rfl
  have hlog₀ : start.world.2 = [] := rfl
  have hprocs₀ : start.procs.length = 0 := rfl
  have hroom : (postings ['a'] ['u'] ['t'] start.world.1).length + (marks maxPostingListSize).length ≤
      maxPostingListSize := by
    rw [hrow₀, length_marks, List.length_nil, Nat.zero_add]
  obtain ⟨hreach, hrow, hlog, hcount⟩ := @run_fill ℕ cfg ['a'] ['u'] ['t'] start (fun _ => rfl) _ hroom
  rw [hprocs₀] at hreach hrow hlog hcount
  rw [hrow₀, List.nil_append] at hrow
  rw [hlog₀, List.nil_append] at hlog
  rw [length_marks, Nat.zero_add] at hcount
  unfold filled
  exact ⟨hreach, hrow, hlog, hcount⟩

/-- Two more calls, which both trim after both have appended. -/
def raced : AppendPool ℕ :=
  (appending cfg ['a'] ['u'] ['t']).run
    (race filled.procs.length (mark maxPostingListSize) (mark (maxPostingListSize + 1))) filled

end Small

open Memory.Small in
theorem trimming_keeps_newest_one :
    newest ((appending cfg ['a'] ['u'] ['t']).run [.spawn (mark maxPostingListSize), .step filled.procs.length (),
        .step filled.procs.length ()] filled).world.2 <:+
      postings ['a'] ['u'] ['t'] ((appending cfg ['a'] ['u'] ['t']).run [.spawn (mark maxPostingListSize),
        .step filled.procs.length (), .step filled.procs.length ()] filled).world.1 := by
  obtain ⟨hreach, hrow, -⟩ := filled_eq
  have hfull : (postings ['a'] ['u'] ['t'] filled.world.1).length = maxPostingListSize := by
    rw [hrow, length_marks]
  exact trimming_keeps_newest cfg ['a'] ['u'] ['t'] ∅ (hreach.trans (run_one (fun _ => rfl) hfull _))

open Memory.Small in
/-- Two calls trim for the same excess, and the row is one reference short of the newest. -/
theorem two_trims_drop_newest : (appending cfg ['a'] ['u'] ['t']).Reach (Succeeds cfg) start raced ∧
    ∃ ref ∈ newest raced.world.2, ref ∉ postings ['a'] ['u'] ['t'] raced.world.1 := by
  obtain ⟨hreach, hrow, hlog, -⟩ := filled_eq
  have hfull : (postings ['a'] ['u'] ['t'] filled.world.1).length = maxPostingListSize := by
    rw [hrow, length_marks]
  obtain ⟨hrace, hrow', hlog'⟩ := @run_race ℕ cfg ['a'] ['u'] ['t'] filled (fun _ => rfl) hfull
    (mark maxPostingListSize) (mark (maxPostingListSize + 1))
  rw [hrow, ← marks_add_two] at hrow'
  rw [hlog, ← marks_add_two] at hlog'
  refine ⟨(hreach.mono fun _ _ h => h.1).trans hrace, ?_⟩
  have hnewest : newest raced.world.2 = (marks (maxPostingListSize + 2)).drop 2 := by
    rw [raced, hlog', newest, length_marks, Nat.add_sub_cancel_left]
  rw [hnewest, raced, hrow']
  have hpos : 0 < maxPostingListSize := by decide
  exact exists_mem_drop_two (nodup_marks _) (by rw [length_marks]; omega)

end AdkAerospike.Memory
