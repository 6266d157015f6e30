import AdkAerospike.Program.Cut
import AdkAerospike.Memory.Service

/-! The programs of the memory service run alone on a server that refuses no record.
Each is described by the records it leaves. All of them stop at the first error but a
missing record, so a run that returns is the same with and without a size limit. -/

namespace AdkAerospike.Memory

open Program Data Keys Codec

variable {V : Type}

/-- A program run alone, in fair weather. -/
def alone {α : Type} (cfg : ServerConfig V) (p : Service V α) (σ : Store V) : Except Err α × Store V :=
  p.run (exec cfg .fair) σ

/-- No record is too big. -/
def ServerConfig.Ample (cfg : ServerConfig V) : Prop := ∀ r, cfg.fits r = true

/-- The program returns, having changed the records as `f` says. -/
def Leaves (cfg : ServerConfig V) (p : Service V Unit) (σ : Store V)
    (f : Str → Option (Record V) → Option (Record V)) : Prop :=
  ∃ σ', alone cfg p σ = (.ok (), σ') ∧ ∀ key, σ'.get key = f key (σ.get key)

section Alone
variable {cfg : ServerConfig V} {σ σ' : Store V} {α β : Type}

theorem alone_bind_ok {p : Service V α} {k : α → Service V β} {a : α} (h : alone cfg p σ = (.ok a, σ')) :
    alone cfg (p.bind k) σ = alone cfg (k a) σ' := Prog.run_bind_ok _ h

theorem alone_bind_error {p : Service V α} {k : α → Service V β} {e : Err} (h : alone cfg p σ = (.error e, σ')) :
    alone cfg (p.bind k) σ = (.error e, σ') := Prog.run_bind_error _ h

/-- Programs one after the other. -/
theorem Leaves.bind {p q : Service V Unit} {f g : Str → Option (Record V) → Option (Record V)}
    (hp : Leaves cfg p σ f) (hq : ∀ σ', (∀ key, σ'.get key = f key (σ.get key)) → Leaves cfg q σ' g) :
    Leaves cfg (p.bind fun _ => q) σ fun key r => g key (f key r) := by
  obtain ⟨σ₁, hrun₁, h₁⟩ := hp
  obtain ⟨σ₂, hrun₂, h₂⟩ := hq σ₁ h₁
  refine ⟨σ₂, (alone_bind_ok hrun₁).trans hrun₂, fun key => ?_⟩
  rw [h₂, h₁]

theorem Leaves.congr {p : Service V Unit} {f g : Str → Option (Record V) → Option (Record V)}
    (h : Leaves cfg p σ f) (hfg : ∀ key, f key (σ.get key) = g key (σ.get key)) : Leaves cfg p σ g := by
  obtain ⟨σ', hrun, hget⟩ := h
  exact ⟨σ', hrun, fun key => (hget key).trans (hfg key)⟩

theorem leaves_ret : Leaves cfg (.ret ()) σ fun _ r => r := ⟨σ, rfl, fun _ => rfl⟩

/-! ### Single requests -/

/-- Apply a function to the record under one key. -/
def atKey (key : Str) (h : Option (Record V) → Option (Record V)) (key' : Str) (r : Option (Record V)) :
    Option (Record V) :=
  if key' = key then h r else r

theorem atKey_set (key : Str) (h : Option (Record V) → Option (Record V)) (σ : Store V) (key' : Str) :
    (σ.set key (h (σ.get key))).get key' = atKey key h key' (σ.get key') := by
  rw [FMap.get_set, atKey]
  by_cases hk : key' = key
  · rw [if_pos hk, if_pos hk, hk]
  · rw [if_neg hk, if_neg hk]

/-- The outcome of a request whose error nobody handles. -/
def outcome (y : Except Server.Err α × Store V) : Except Err α × Store V := (y.1.mapError .server, y.2)

theorem alone_answer (x : Except Server.Err α) (σ : Store V) : alone cfg (answer x) σ = outcome (x, σ) := by
  cases x <;> rfl

theorem alone_put (key : Str) (bins : Record V) (σ : Store V) :
    alone cfg (put key bins) σ = outcome (Server.change key (cfg.table.onPut bins) σ) := alone_answer _ _

theorem alone_remove (key : Str) (σ : Store V) :
    alone cfg (remove key) σ = outcome (Server.change key Server.Table.onRemove σ) := alone_answer _ _

theorem alone_operate (key : Str) (ops : List Op) (σ : Store V) :
    alone cfg (operate key ops) σ = outcome (Server.change key (cfg.table.onOperate ops) σ) := alone_answer _ _

theorem leaves_put (hcfg : cfg.Ample) {key : Str} (hnone : σ.get key = none) (bins : Record V) :
    Leaves cfg (put key bins) σ (atKey key fun _ => some bins) := by
  have hput : cfg.table.onPut bins (σ.get key) = .ok ((), some bins) := by
    rw [hnone]
    exact if_pos (hcfg bins)
  exact ⟨_, (alone_put key bins σ).trans (congrArg outcome (Server.change_of_ok hput)), atKey_set key (fun _ => some bins) σ⟩

/-- A change of one record where a missing record is none to worry about. -/
theorem leaves_unlessNotFound {p : Service V α} {key : Str}
    {g : Option (Record V) → Except Server.Err (α × Option (Record V))} {h : Option (Record V) → Option (Record V)}
    (hp : alone cfg p σ = outcome (Server.change key g σ)) (hnone : g none = .error .recordNotFound ∧ h none = none)
    (hsome : ∀ r, ∃ a, g (some r) = .ok (a, h (some r))) : Leaves cfg (unlessNotFound p) σ (atKey key h) := by
  unfold Leaves alone unlessNotFound
  rw [Prog.run_tryCatch, Prog.run_bind]
  rw [← alone, hp]
  cases hr : σ.get key with
  | none =>
    have hg : g (σ.get key) = .error .recordNotFound := by rw [hr, hnone.1]
    rw [Server.change_of_error hg]
    refine ⟨σ, rfl, fun key' => ?_⟩
    unfold atKey
    by_cases hk : key' = key
    · rw [if_pos hk, hk, hr, hnone.2]
    · rw [if_neg hk]
  | some r =>
    obtain ⟨a, ha⟩ := hsome r
    have hg : g (σ.get key) = .ok (a, h (σ.get key)) := by rw [hr, ha]
    rw [Server.change_of_ok hg]
    exact ⟨_, rfl, atKey_set key h σ⟩

/-- A record without a reference. -/
def Record.drop (ref : Ref) (r : Record V) : Record V :=
  { r with postings := r.postings.map fun l => l.filter fun x => x ≠ ref }

theorem leaves_removeByValue (hcfg : cfg.Ample) (key : Str) (ref : Ref) (σ : Store V) :
    Leaves cfg (unlessNotFound (operate key [.removeByValue ref])) σ (atKey key (Option.map (Record.drop ref))) :=
  leaves_unlessNotFound (alone_operate key _ σ) ⟨rfl, rfl⟩ fun r => ⟨none, if_pos (hcfg (r.drop ref))⟩

theorem leaves_remove (key : Str) (σ : Store V) :
    Leaves cfg (unlessNotFound (remove key)) σ (atKey key fun _ => none) :=
  leaves_unlessNotFound (alone_remove key σ) ⟨rfl, rfl⟩ fun _ => ⟨(), rfl⟩

/-! ### Posting rows -/

/-- The references that a record holds. -/
def Record.refs (r : Option (Record V)) : List Ref := (r.bind Record.postings).getD []

/-- A record with one more reference. -/
def Record.add (ref : Ref) (r : Option (Record V)) : Record V :=
  { r.getD {} with postings := some (Record.refs r ++ [ref]) }

/-- A record with one more reference, and without the first ones if there are then more
than there may be. -/
def Record.push (ref : Ref) (r : Option (Record V)) : Record V :=
  { r.getD {} with
    postings := some ((Record.refs r ++ [ref]).drop ((Record.refs r).length + 1 - maxPostingListSize)) }

theorem Record.refs_push (ref : Ref) (r : Option (Record V)) : Record.refs (some (Record.push ref r)) =
    (Record.refs r ++ [ref]).drop ((Record.refs r).length + 1 - maxPostingListSize) := by
  simp only [Record.refs, Record.push, Option.bind_some, Option.getD_some]

theorem Record.push_eq_add (ref : Ref) {r : Option (Record V)}
    (hroom : (Record.refs r).length < maxPostingListSize) : Record.push ref r = Record.add ref r := by
  have hnone : (Record.refs r).length + 1 - maxPostingListSize = 0 := by omega
  rw [push, add, hnone, List.drop_zero]

theorem exec_append (hcfg : cfg.Ample) (key : Str) (ref : Ref) (σ : Store V) :
    exec cfg .fair (.operate key [.append ref, .read]) σ =
      (.ok (some (Record.refs (σ.get key) ++ [ref])), σ.set key (some (Record.add ref (σ.get key)))) := by
  have hop : cfg.table.onOperate [.append ref, .read] (σ.get key) =
      .ok (some (Record.refs (σ.get key) ++ [ref]), some (Record.add ref (σ.get key))) := by
    cases σ.get key with
    | none => exact if_pos (hcfg _)
    | some r => exact if_pos (hcfg _)
  exact Server.change_of_ok hop

theorem alone_append (hcfg : cfg.Ample) (key : Str) (ref : Ref) (σ : Store V) :
    alone cfg (operate key [.append ref, .read]) σ =
      (.ok (some (Record.refs (σ.get key) ++ [ref])), σ.set key (some (Record.add ref (σ.get key)))) := by
  rw [alone_operate]
  exact congrArg outcome (exec_append hcfg key ref σ)

/-- What `_append_posting_ref` does after it has read the list. -/
def trim (app user token : Str) (result : Option (List Ref)) : Service V Unit :=
  if (result.getD []).length ≤ maxPostingListSize then .ret ()
  else (operate (memoryPostingKey app user token)
    [.removeFirst ((result.getD []).length - maxPostingListSize)]).bind fun _ => .ret ()

theorem appendPostingRef_eq (app user token : Str) (ref : Ref) : (appendPostingRef app user token ref : Service V Unit) =
    (operate (memoryPostingKey app user token) [.append ref, .read]).bind (trim app user token) := rfl

theorem trim_of_le (app user token : Str) {l : List Ref} (h : l.length ≤ maxPostingListSize) :
    (trim app user token (some l) : Service V Unit) = .ret () := if_pos h

/-- A reference is appended and the list is trimmed. -/
theorem leaves_appendPostingRef (hcfg : cfg.Ample) (app user token : Str) (ref : Ref) (σ : Store V) :
    Leaves cfg (appendPostingRef app user token ref) σ
      (atKey (memoryPostingKey app user token) fun r => some (Record.push ref r)) := by
  have hrun := alone_append hcfg (memoryPostingKey app user token) ref σ
  generalize hr : σ.get (memoryPostingKey app user token) = r at hrun
  unfold Leaves appendPostingRef
  simp only [Prog.bind_eq]
  rw [alone_bind_ok hrun, Option.getD_some]
  split_ifs with hroom
  · rw [List.length_append, List.length_singleton] at hroom
    have hadd : Record.push ref (σ.get (memoryPostingKey app user token)) = Record.add ref r := by
      rw [hr]
      exact Record.push_eq_add ref hroom
    refine ⟨_, rfl, ?_⟩
    rw [← hadd]
    exact atKey_set _ (fun r => some (Record.push ref r)) σ
  · set count := (Record.refs r ++ [ref]).length - maxPostingListSize with hcount
    rw [List.length_append, List.length_singleton] at hcount
    have htrim : cfg.table.onOperate [.removeFirst count] (some (Record.add ref r)) =
        .ok (none, some (Record.push ref r)) := by
      refine (if_pos (hcfg _)).trans ?_
      rw [hcount]
      rfl
    have hrun' := (@alone_operate V cfg (memoryPostingKey app user token) [.removeFirst count]
      (FMap.set σ (memoryPostingKey app user token) (some (Record.add ref r)))).trans
        (congrArg outcome (Server.change_of_ok (by rw [FMap.get_set, if_pos rfl]; exact htrim)))
    rw [alone_bind_ok hrun']
    refine ⟨_, rfl, fun key' => ?_⟩
    rw [FMap.get_set, atKey, FMap.get_set]
    by_cases hk : key' = memoryPostingKey app user token
    · rw [if_pos hk, if_pos hk, hk, hr]
    · rw [if_neg hk, if_neg hk, if_neg hk]

theorem memoryPostingKey_right_inj {app user t t' : Str} :
    memoryPostingKey app user t = memoryPostingKey app user t' ↔ t = t' := by simp [memoryPostingKey]

/-- Apply a function to the posting rows of some tokens. -/
def atTokens (app user : Str) (tokens : List Str) (h : Option (Record V) → Option (Record V)) (key : Str)
    (r : Option (Record V)) : Option (Record V) :=
  if ∃ t ∈ tokens, key = memoryPostingKey app user t then h r else r

/-- Rows of distinct tokens are changed one after the other. -/
theorem atTokens_cons {app user t : Str} {ts : List Str} (ht : t ∉ ts)
    (h : Option (Record V) → Option (Record V)) (key : Str) (r : Option (Record V)) :
    atTokens app user ts h key (atKey (memoryPostingKey app user t) h key r) =
      atTokens app user (t :: ts) h key r := by
  unfold atTokens atKey
  by_cases hk : key = memoryPostingKey app user t
  · have hts : ¬ ∃ t' ∈ ts, key = memoryPostingKey app user t' := fun ⟨t', ht', hkey⟩ => by
      have htt : t = t' := memoryPostingKey_right_inj.mp (hk.symm.trans hkey)
      exact ht (htt ▸ ht')
    rw [if_pos hk, if_neg hts, if_pos ⟨t, by simp, hk⟩]
  · by_cases hts : ∃ t' ∈ ts, key = memoryPostingKey app user t'
    · obtain ⟨t', ht', hkey⟩ := hts
      rw [if_neg hk, if_pos ⟨t', ht', hkey⟩, if_pos ⟨t', by simp [ht'], hkey⟩]
    · have hcons : ¬ ∃ t' ∈ t :: ts, key = memoryPostingKey app user t' := fun ⟨t', ht', hkey⟩ => by
        rcases List.mem_cons.mp ht' with rfl | ht'
        · exact hk hkey
        · exact hts ⟨t', ht', hkey⟩
      rw [if_neg hk, if_neg hts, if_neg hcons]

theorem leaves_appendPostingRefs (hcfg : cfg.Ample) (app user : Str) (ref : Ref) {tokens : List Str}
    (hnodup : tokens.Nodup) (σ : Store V) :
    Leaves cfg (appendPostingRefs app user ref tokens) σ
      (atTokens app user tokens fun r => some (Record.push ref r)) := by
  induction tokens generalizing σ with
  | nil => exact leaves_ret.congr fun key => by simp [atTokens]
  | cons t ts ih =>
    obtain ⟨ht, hts⟩ := List.nodup_cons.mp hnodup
    exact ((leaves_appendPostingRef hcfg app user t ref σ).bind fun σ' _ => ih hts σ').congr
      fun key => atTokens_cons ht _ key _

/-- References are appended; lists that stay below the limit are not trimmed. -/
theorem leaves_appendPostingRefs_of_room (hcfg : cfg.Ample) (app user : Str) (ref : Ref) {tokens : List Str}
    (hnodup : tokens.Nodup) (σ : Store V)
    (hroom : ∀ t ∈ tokens, (Record.refs (σ.get (memoryPostingKey app user t))).length < maxPostingListSize) :
    Leaves cfg (appendPostingRefs app user ref tokens) σ
      (atTokens app user tokens fun r => some (Record.add ref r)) := by
  refine (leaves_appendPostingRefs hcfg app user ref hnodup σ).congr fun key => ?_
  unfold atTokens
  split_ifs with hkey
  · obtain ⟨t, ht, rfl⟩ := hkey
    exact congrArg some (Record.push_eq_add ref (hroom t ht))
  · rfl

theorem leaves_removePostingRefs (hcfg : cfg.Ample) (app user : Str) (ref : Ref) {tokens : List Str}
    (hnodup : tokens.Nodup) (σ : Store V) :
    Leaves cfg (removePostingRefs app user ref tokens) σ
      (atTokens app user tokens (Option.map (Record.drop ref))) := by
  induction tokens generalizing σ with
  | nil => exact leaves_ret.congr fun key => by simp [atTokens]
  | cons t ts ih =>
    obtain ⟨ht, hts⟩ := List.nodup_cons.mp hnodup
    exact ((leaves_removeByValue hcfg _ ref σ).bind fun σ' _ => ih hts σ').congr
      fun key => atTokens_cons ht _ key _

end Alone

/-! ### Errors -/

/-- The request was answered with an error that no program of the service handles. -/
def Halts (q : Req V) (x : Ans q) (e : Err) : Prop :=
  ∃ e', e = .server e' ∧ Server.errorOf q x = some e' ∧ e' ≠ .recordNotFound

section Stops
variable {α : Type}

theorem stopsOn_answer (x : Except Server.Err α) : (answer x : Service V α).StopsOn Halts := by
  cases x <;> trivial

theorem answer_of_failure {x : Except Server.Err α} {e : Server.Err} (h : Server.failure x = some e) :
    (answer x : Service V α) = .raise (.server e) := by
  cases x with
  | ok a => cases h
  | error e' =>
    obtain rfl : e' = e := Option.some.inj h
    rfl

/-- A request whose error nobody handles. -/
theorem stopsOn_ask {q : Req V} {k : Ans q → Service V α} (hk : ∀ x, (k x).StopsOn Halts)
    (hraise : ∀ x e, Server.errorOf q x = some e → k x = .raise (.server e)) : (Prog.ask q k).StopsOn Halts :=
  fun x => ⟨fun _ ⟨e', he, herror, _⟩ => he ▸ hraise x e' herror, hk x⟩

theorem stopsOn_put (key : Str) (bins : Record V) : (put key bins).StopsOn Halts :=
  stopsOn_ask stopsOn_answer fun _ _ => answer_of_failure

theorem stopsOn_remove (key : Str) : (remove key : Service V Unit).StopsOn Halts :=
  stopsOn_ask stopsOn_answer fun _ _ => answer_of_failure

theorem stopsOn_operate (key : Str) (ops : List Op) : (operate key ops : Service V _).StopsOn Halts :=
  stopsOn_ask stopsOn_answer fun _ _ => answer_of_failure

theorem stopsOn_batchRead (keys : List Str) : (batchRead keys : Service V _).StopsOn Halts :=
  stopsOn_ask stopsOn_answer fun _ _ => answer_of_failure

theorem stopsOn_query (aus : Str) : (query aus : Service V _).StopsOn Halts :=
  stopsOn_ask stopsOn_answer fun _ _ => answer_of_failure

theorem stopsOn_unlessNotFound {p : Service V α} (hp : p.StopsOn Halts) : (unlessNotFound p).StopsOn Halts := by
  refine Prog.StopsOn.tryCatch (hp.bind fun _ => trivial) (fun e => ?_) ?_
  · split_ifs <;> trivial
  · rintro q x e ⟨e', rfl, -, hne⟩
    exact if_neg fun h => hne (Err.server.inj h)

variable (app user session : Str) (inst : Instance V)

theorem stopsOn_appendPostingRef (token : Str) (ref : Ref) :
    (appendPostingRef app user token ref : Service V Unit).StopsOn Halts := by
  refine Prog.StopsOn.bind (stopsOn_operate _ _) fun result => ?_
  dsimp only
  split_ifs
  · trivial
  · exact Prog.StopsOn.bind (stopsOn_operate _ _) fun _ => trivial

theorem stopsOn_appendPostingRefs (ref : Ref) (tokens : List Str) :
    (appendPostingRefs app user ref tokens : Service V Unit).StopsOn Halts := by
  induction tokens with
  | nil => trivial
  | cons t ts ih => exact Prog.StopsOn.bind (stopsOn_appendPostingRef app user t ref) fun _ => ih

theorem stopsOn_upsertMemory (e : Event V) (text : Str) :
    (upsertMemory inst app user session e text).StopsOn Halts :=
  Prog.StopsOn.bind (stopsOn_put _ _) fun _ => stopsOn_appendPostingRefs app user _ _

theorem stopsOn_removePostingRefs (ref : Ref) (tokens : List Str) :
    (removePostingRefs app user ref tokens : Service V Unit).StopsOn Halts := by
  induction tokens with
  | nil => trivial
  | cons t ts ih => exact Prog.StopsOn.bind (stopsOn_unlessNotFound (stopsOn_operate _ _)) fun _ => ih

theorem stopsOn_purgeRow (r : Record V) : (purgeRow app user session r).StopsOn Halts := by
  have hrow : (unlessNotFound (remove (memoryKey app user session (r.eid.getD [])) : Service V Unit)).StopsOn
      Halts := stopsOn_unlessNotFound (stopsOn_remove _)
  unfold purgeRow
  dsimp only
  split_ifs
  · exact Prog.StopsOn.bind (stopsOn_removePostingRefs app user _ _) fun _ => hrow
  · exact hrow

theorem stopsOn_purgeRows (rs : List (Record V)) : (purgeRows app user session rs).StopsOn Halts := by
  induction rs with
  | nil => trivial
  | cons r rs ih => exact Prog.StopsOn.bind (stopsOn_purgeRow app user session r) fun _ => ih

theorem stopsOn_addAll (events : List (Event V)) : (addAll inst app user session events).StopsOn Halts := by
  induction events with
  | nil => trivial
  | cons e es ih =>
    refine Prog.StopsOn.bind ?_ fun _ => ih
    unfold addEvent
    split
    · trivial
    · exact stopsOn_upsertMemory app user session inst e _

theorem stopsOn_addSessionToMemory (events : List (Event V)) :
    (addSessionToMemory inst app user session events).StopsOn Halts :=
  Prog.StopsOn.bind (Prog.StopsOn.bind (stopsOn_query _) fun rs => stopsOn_purgeRows app user session rs)
    fun _ => stopsOn_addAll app user session inst events

theorem stopsOn_addAbsent (events : List (Event V)) : (addAbsent inst app user session events).StopsOn Halts := by
  induction events with
  | nil => trivial
  | cons e es ih =>
    refine Prog.StopsOn.bind ?_ fun _ => ih
    unfold addEventIfAbsent
    split
    · trivial
    · refine Prog.StopsOn.bind (stopsOn_batchRead _) fun rows => ?_
      split
      · trivial
      · exact stopsOn_upsertMemory app user session inst e _

end Stops

/-- The same server without a limit on the size of records. -/
def ServerConfig.ample (cfg : ServerConfig V) : ServerConfig V := { cfg with fits := fun _ => true }

theorem ServerConfig.ample_ample (cfg : ServerConfig V) : cfg.ample.Ample := fun _ => rfl

/-- A run that returns has met no refusal, so it is the same without a size limit, and
so is every part of it. -/
theorem alone_ample {α : Type} {cfg : ServerConfig V} {p : Service V α} (hp : p.StopsOn Halts) {σ σ' : Store V}
    {a : α} (h : alone cfg p σ = (.ok a, σ')) :
    alone cfg.ample p σ = (.ok a, σ') ∧
      ∀ n, p.runFor (exec cfg .fair) n σ = p.runFor (exec cfg.ample .fair) n σ := by
  refine hp.run_eq (fun q v => ?_) h
  rcases Server.exec_ample cfg.table q v with heq | herr
  · exact .inl heq
  · exact .inr ⟨.server .recordTooBig, .recordTooBig, rfl, herr, by simp⟩

end AdkAerospike.Memory
