import AdkAerospike.Sessions.Effects

/-! Calls that run alone and in calm weather: what each request returns and
leaves, and how the handlers and retry loops around requests reduce. -/

namespace AdkAerospike.Sessions

open Program Data Codec Keys

variable {V P α β : Type}

/-- Run a program of instance `inst` alone and in calm weather. -/
abbrev alone (cfg : ServerConfig V P) (inst : ℕ) (p : Service V P α) (w : World V P) :
    Except Err α × World V P := p.run (exec cfg inst .calm) w

section Alone
variable {cfg : ServerConfig V P} {inst : ℕ} {w w' : World V P}

/-! ### Requests -/

theorem alone_ofExcept (x : Except Err α) (w : World V P) : alone cfg inst (ofExcept x) w = (x, w) := by
  cases x <;> rfl

theorem alone_put (key : Key) (r : Record V P) (w : World V P) :
    alone cfg inst (put key r) w =
      ((cfg.put key r w.store).1, w.withStore (cfg.put key r w.store).2) := alone_ofExcept _ _

theorem alone_selectCur (key : Key) (w : World V P) :
    alone cfg inst (selectCur key) w = ((ServerConfig.fetch key w.store).map (·.cur), w) :=
  alone_ofExcept _ _

theorem alone_remove (key : Key) (w : World V P) :
    alone cfg inst (remove key) w =
      ((ServerConfig.remove key w.store).1, w.withStore (ServerConfig.remove key w.store).2) :=
  alone_ofExcept _ _

theorem alone_operate (key : Key) (ops : List (Op V P)) (guard : Option ℕ) (w : World V P) :
    alone cfg inst (operate key ops guard) w =
      ((cfg.operate key ops guard w.store).1, w.withStore (cfg.operate key ops guard w.store).2) :=
  alone_ofExcept _ _

theorem alone_cacheGet (pk : Str) (w : World V P) :
    alone cfg inst (cacheGet pk) w = (.ok (w.cache inst pk), w) := rfl

theorem alone_cacheSet (pk : Str) (n : ℕ) (w : World V P) :
    alone cfg inst (cacheSet pk n) w = (.ok (), w.setCache inst pk (some n)) := rfl

theorem alone_cachePop (pk : Str) (w : World V P) :
    alone cfg inst (cachePop pk) w = (.ok (), w.setCache inst pk none) := rfl

/-! ### Sequencing -/

theorem alone_bind_ok {p : Service V P α} {f : α → Service V P β} {a : α}
    (h : alone cfg inst p w = (.ok a, w')) :
    alone cfg inst (p.bind f) w = alone cfg inst (f a) w' := Prog.run_bind_ok _ h

theorem alone_bind_error {p : Service V P α} {f : α → Service V P β} {e : Err}
    (h : alone cfg inst p w = (.error e, w')) :
    alone cfg inst (p.bind f) w = (.error e, w') := Prog.run_bind_error _ h

theorem alone_bind_ret (p : Service V P α) (f : α → β) (w : World V P) :
    alone cfg inst (p.bind fun x => .ret (f x)) w =
      ((alone cfg inst p w).1.map f, (alone cfg inst p w).2) := Prog.run_bind_ret _ p f w

theorem alone_catching_ok {e : Err} {p h : Service V P α} {a : α}
    (hp : alone cfg inst p w = (.ok a, w')) : alone cfg inst (catching e p h) w = (.ok a, w') := by
  unfold alone at hp ⊢
  rw [catching, Prog.run_tryCatch, hp]

theorem alone_catching_caught {e : Err} {p h : Service V P α}
    (hp : alone cfg inst p w = (.error e, w')) :
    alone cfg inst (catching e p h) w = alone cfg inst h w' := by
  unfold alone at hp ⊢
  rw [catching, Prog.run_tryCatch, hp]
  simp

theorem alone_catching_error {e e' : Err} {p h : Service V P α}
    (hp : alone cfg inst p w = (.error e', w')) (hne : e' ≠ e) :
    alone cfg inst (catching e p h) w = (.error e', w') := by
  unfold alone at hp ⊢
  rw [catching, Prog.run_tryCatch, hp]
  simp [hne]

/-- Where the first attempt does not meet back-pressure, nothing is retried. -/
theorem alone_writeRetryingOverload {fn : Service V P α} {b : Bool} {r : Except Err α}
    (h : alone cfg inst fn w = (r, w')) (hr : ∀ e, r = .error e → e.transient = false) (n : ℕ) :
    alone cfg inst (writeRetryingOverload fn b n) w = (r, w') := by
  cases n with
  | zero => exact h
  | succ n =>
    unfold alone at h ⊢
    rw [writeRetryingOverload, Prog.run_tryCatch, h]
    rcases r with e | a
    · have he := hr e rfl
      cases e <;> first | rfl | simp [Err.transient] at he
    · rfl

theorem operate_error_not_transient {key : Key} {ops : List (Op V P)} {guard : Option ℕ}
    {σ : Store V P} {e : Err} (h : (cfg.operate key ops guard σ).1 = .error e) :
    e.transient = false := by
  unfold ServerConfig.operate ServerConfig.commit at h
  split at h
  · split_ifs at h <;> cases h <;> rfl
  · split_ifs at h <;> cases h <;> rfl

theorem alone_retried_operate (key : Key) (ops : List (Op V P)) (guard : Option ℕ) (b : Bool) (n : ℕ)
    (w : World V P) :
    alone cfg inst (writeRetryingOverload (operate key ops guard) b n) w =
      ((cfg.operate key ops guard w.store).1, w.withStore (cfg.operate key ops guard w.store).2) :=
  alone_writeRetryingOverload (alone_operate key ops guard w)
    (fun _ he => operate_error_not_transient he) n

theorem alone_retried_put (key : Key) (r : Record V P) (b : Bool) (n : ℕ) (w : World V P) :
    alone cfg inst (writeRetryingOverload (put key r) b n) w =
      ((cfg.put key r w.store).1, w.withStore (cfg.put key r w.store).2) := by
  refine alone_writeRetryingOverload (alone_put key r w) (fun e he => ?_) n
  rcases ServerConfig.put_cases cfg key r w.store with ⟨-, hput⟩ | ⟨-, -, hput⟩ | ⟨-, -, hput⟩ <;> rw [hput] at he
  · cases he
    rfl
  · cases he
  · cases he
    rfl

/-- A record that may be missing, read while the request itself meets no fault. -/
theorem run_getOrNone {x : Weather} (hx : x.whole = .none) (key : Key) (w : World V P) :
    (catching .recordNotFound ((get key).bind fun r => .ret (some r)) (.ret none)).run
      (exec cfg inst x) w = (.ok (w.store.get key), w) := by
  obtain ⟨f, faults⟩ := x
  obtain rfl : f = .none := hx
  have hans : ∀ y : Except Err (Record V P),
      (ofExcept y).run (exec cfg inst ⟨.none, faults⟩) w = (y, w) := fun y => by cases y <;> rfl
  have hget : (get key).run (exec cfg inst ⟨.none, faults⟩) w = (ServerConfig.fetch key w.store, w) :=
    hans _
  rw [catching, Prog.run_tryCatch, Prog.run_bind, hget, ServerConfig.fetch]
  cases w.store.get key <;> rfl

theorem alone_batchRead {keys : List Key} (hk : keys ≠ []) (w : World V P) :
    ∃ out, alone cfg inst (batchRead keys) w = (.ok out, w) ∧
      ∀ key ∈ keys, bins out key = w.store.get key := by
  refine ⟨byKey keys (keys.map fun k => ServerConfig.readStatus .none (w.store.get k)), ?_, ?_⟩
  · rw [batchRead, if_neg hk, ← batchRead_none]
    rfl
  · exact fun key hkey => by rw [bins_byKey _ hkey, foldStatus_readStatus]

/-! ### Complete calls -/

section Perform
variable {env : Env V P}

theorem perform_create (app user : Str) (state : Dict V) (sessionId : Option Str) (fresh : Str)
    (now : ℚ) (w : World V P) :
    perform env cfg ⟨inst, .create app user state sessionId fresh now⟩ w =
      ((alone cfg inst (createSession app user state sessionId fresh now) w).1.map .session,
        (alone cfg inst (createSession app user state sessionId fresh now) w).2) :=
  alone_bind_ret _ _ w

theorem perform_append (a : Addr) (e : Event V) (clock : ℚ) (w : World V P) :
    perform env cfg ⟨inst, .append a e clock⟩ w =
      ((alone cfg inst (persistEvent env a e clock) w).1.map fun _ => .done,
        (alone cfg inst (persistEvent env a e clock) w).2) :=
  alone_bind_ret _ _ w

theorem perform_get (a : Addr) (config : GetSessionConfig) (w : World V P) :
    perform env cfg ⟨inst, .get a config⟩ w =
      ((alone cfg inst (getSession env a config) w).1.map .found,
        (alone cfg inst (getSession env a config) w).2) :=
  alone_bind_ret _ _ w

theorem perform_delete (a : Addr) (w : World V P) :
    perform env cfg ⟨inst, .delete a⟩ w =
      ((alone cfg inst (deleteSession a) w).1.map fun _ => .done,
        (alone cfg inst (deleteSession a) w).2) :=
  alone_bind_ret _ _ w

theorem perform_listForUser (app user : Str) (w : World V P) :
    perform env cfg ⟨inst, .listForUser app user⟩ w =
      ((alone cfg inst (listSessionsForUser app user) w).1.map .sessions,
        (alone cfg inst (listSessionsForUser app user) w).2) :=
  alone_bind_ret _ _ w

end Perform

end Alone

/-! ### Sequences of complete calls -/

/-- The world that a complete call leaves. -/
def after (env : Env V P) (cfg : ServerConfig V P) (l : Issued V) (w : World V P) : World V P :=
  (perform env cfg l w).2

theorem fitting_after {env : Env V P} {cfg : ServerConfig V P} {l : Issued V} {w : World V P}
    (h : cfg.Fitting w.store) : cfg.Fitting (after env cfg l w).store :=
  (Prog.uses_true (l.call.body env)).run_invariant (I := fun w => cfg.Fitting w.store)
    (fun q w _ hw => fitting_exec l.inst .calm q w hw) h

end AdkAerospike.Sessions
