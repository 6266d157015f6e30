import AdkAerospike.Program.Moments
import AdkAerospike.Memory.Sound

/-! What the calls raise, whatever else is going on. A fault has its own errors. What else is
raised by the server stops the adding of one event: a record that has no room, or a list of
references that was found too long and has gone before it is trimmed, which only a purge does
whose row has the key of the list. A search fails of itself at a timestamp that cannot be shown. -/

namespace AdkAerospike.Memory

open Program Data Keys Codec

variable {V : Type}

abbrev ServicePool (V : Type) := Pool (Req V) Ans Err (Reply V) (Store V) (Instance V × Call V)

/-- A list that is made shorter does not take more room. -/
def ServerConfig.Shrinks (cfg : ServerConfig V) : Prop :=
  ∀ (r : Record V) l l', r.postings = some l → l'.Sublist l → cfg.fits r = true →
    cfg.fits { r with postings := some l' } = true

/-- A call that purges its session may remove the record. -/
def Purges (l : Instance V × Call V) (key : Str) : Prop := ∃ app user session events eid,
  l.2 = .addSession app user session events ∧ key = memoryKey app user session eid

/-- A stretch of a run, and a call that is made in it. -/
structure Stretch (V : Type) where
  cfg : ServerConfig V
  start : ServicePool V
  stop : ServicePool V
  number : ℕ
  issued : Instance V × Call V
  reached : (service cfg).Reach (fun _ _ => True) ⟨∅, []⟩ start
  leads : (service cfg).Reach (fun _ _ => True) start stop
  late : start.procs.length ≤ number
  shrinks : cfg.Shrinks

namespace Stretch
variable (S : Stretch V)

abbrev Reach : ServicePool V → ServicePool V → Prop := (service S.cfg).Reach fun _ _ => True

/-- The store did once look so. -/
def Sometime (φ : Store V → Prop) : Prop := ∃ t, S.Reach S.start t ∧ S.Reach t S.stop ∧ φ t.world

/-- A request of the call met this fault. -/
def Struck (code : ℤ) : Prop := ∃ t applied q, S.Reach S.start t ∧ System.next t S.number = some q ∧
  S.Reach ((service S.cfg).act (.step S.number (.failed code applied)) t) S.stop

abbrev Way {α : Type} : ServicePool V → Service V α → ServicePool V → Service V α → Prop :=
  System.Moments (service S.cfg) (fun _ _ => True) S.number S.issued

/-- If the program raises, it is for such an error. -/
def Raises {α : Type} (p : Service V α) (E : Err → Prop) : Prop :=
  ∀ t t' e, S.Reach S.start t → S.Reach t' S.stop → S.Way t p t' (.raise e) → E e

/-- The record had no room for what the operations make of it. -/
def Overflows (key : Str) (ops : List Op) : Prop :=
  S.Sometime fun σ => S.cfg.fits (S.cfg.table.apply ops ((σ.get key).getD {})).1 = false

/-- What adding an event to the memories is stopped by: a fault; a record that is too big, of
the event or of one of its words; or a long list of references that is purged as a row. -/
def Stops (inst : Instance V) (app user session : Str) (ev : Event V) (text : Str) : Err → Prop
  | .server (.status code) => S.Struck code
  | .server .recordTooBig =>
    (S.Sometime fun σ => S.cfg.fits { inst.newRow app user session ev text with
      postings := (σ.get (memoryKey app user session ev.id)).bind Record.postings } = false) ∨
    ∃ t ∈ inst.tokenize text, S.Overflows (memoryPostingKey app user t) [.append ⟨ev.id, session, ev.timestamp⟩, .read]
  | .server .recordNotFound => ∃ t ∈ inst.tokenize text,
    (S.Sometime fun σ => maxPostingListSize < (Record.refs (σ.get (memoryPostingKey app user t))).length) ∧
      ∃ l ∈ S.stop.calls, Purges l (memoryPostingKey app user t)
  | .server .recordExists | .range _ => False

/-- A row of the user that matches the query was stored, and its timestamp cannot be shown. -/
def Unshown (inst : Instance V) (app user text : Str) (e : RangeErr) : Prop := ∃ key row ts,
  (S.Sometime fun σ => σ.get key = some row) ∧ row.app = some app ∧ row.uid = some user ∧
    overlap (inst.tokenize text) row ≠ 0 ∧ row.ts = some ts ∧ ts ≠ 0 ∧ inst.formatTimestamp ts = .error e

/-- The error of a fault. -/
def Faulty (e : Err) : Prop := ∃ code, e = .server (.status code) ∧ S.Struck code

/-- What a call may raise. -/
def MayRaise (e : Err) : Prop :=
  S.Faulty e ∨
    (∃ app user session ev text, S.issued.2.adds app user session ev ∧ memoryText ev = some text ∧
      S.Stops S.issued.1 app user session ev text e) ∨
    ∃ app user text e', S.issued.2 = .search app user text ∧ e = .range e' ∧ S.Unshown S.issued.1 app user text e'

variable {S} {α β : Type} {E E' : Err → Prop}

theorem Raises.mono {p : Service V α} (hp : S.Raises p E) (h : ∀ e, E e → E' e) : S.Raises p E' :=
  fun t t' e ht ht' hway => h e (hp t t' e ht ht' hway)

theorem raises_ret (a : α) : S.Raises (.ret a) E := fun t t' e _ _ hway => by
  cases hway.of_finished rfl

/-- Either part raises; what the first one has returned may be used for the second. -/
theorem raises_bind {p : Service V α} {f : α → Service V β} (hp : S.Raises p E)
    (hf : ∀ a t u, S.Reach S.start t → S.Way t p u (.ret a) →
      ∀ u' e, S.Reach u' S.stop → S.Way u (f a) u' (.raise e) → E e) :
    S.Raises (p.bind f) E := fun t t' e ht ht' hway => by
  rcases hway.bind rfl with ⟨u, a, hp', hf'⟩ | ⟨e', hp', he⟩
  · exact hf a t u ht hp' t' e ht' hf'
  · cases he
    exact hp t t' e ht ht' hp'

theorem Raises.bind {p : Service V α} {f : α → Service V β} (hp : S.Raises p E) (hf : ∀ a, S.Raises (f a) E) :
    S.Raises (p.bind f) E :=
  raises_bind hp fun a _ _ ht hway u' e hu' hway' => hf a _ u' e (ht.trans hway.reach) hu' hway'

/-- A request, and an error that is made of its answer. -/
theorem raises_ask {t : ServicePool V} (ht : S.Reach S.start t) {q : Req V} {k : Ans q → Service V α}
    (hk : ∀ x, (k x).finished)
    (herror : ∀ x e, k x = .raise e → ∃ e', e = .server e' ∧ Server.errorOf q x = some e')
    (hstruck : ∀ code, S.Struck code → E (.server (.status code)))
    (hdenied : ∀ u x e, S.Reach t u → S.Reach u S.stop → k x = .raise (.server e) → S.cfg.table.Denies u.world q e →
      E (.server e))
    {t' : ServicePool V} {e : Err} (ht' : S.Reach t' S.stop) (hway : S.Way t (.ask q k) t' (.raise e)) :
    E e := by
  obtain ⟨u, x, hu, hnext, -, -, hut', hend⟩ := hway.single hk rfl
  obtain ⟨e', rfl, herr⟩ := herror _ e hend.symm
  rcases Server.denies_of_errorOf S.cfg.table herr with ⟨code, applied, rfl, rfl⟩ | hdenies
  · exact hstruck code ⟨u, applied, _, ht.trans hu, hnext, hut'.trans ht'⟩
  · exact hdenied u _ e' hu ((System.Reach.init.act trivial).trans (hut'.trans ht')) hend.symm hdenies

end Stretch

/-! ### Answers -/

section Answers
variable {ρ : Type} {y : Except Server.Err ρ} {e : Err}

theorem answer_eq_raise (h : (answer y : Service V ρ) = .raise e) : ∃ e', e = .server e' ∧ y = .error e' := by
  cases y with
  | ok a => cases h
  | error e' =>
    cases h
    exact ⟨e', rfl, rfl⟩

theorem answer_eq_ret {a : ρ} (h : (answer y : Service V ρ) = .ret a) : y = .ok a := by
  cases y with
  | ok a' =>
    cases h
    rfl
  | error e' => cases h

theorem unlessNotFound_eq_raise (h : unlessNotFound (answer y : Service V ρ) = .raise e) :
    (∃ e', e = .server e' ∧ y = .error e') ∧ e ≠ .server .recordNotFound := by
  cases y with
  | ok a => cases h
  | error e' =>
    change (if Err.server e' = .server .recordNotFound then .ret () else .raise (.server e') : Service V Unit) = .raise e at h
    split_ifs at h with hfound
    cases h
    exact ⟨⟨e', rfl, rfl⟩, hfound⟩

theorem errorOf_answer (h : (answer y : Service V ρ) = .raise e) : ∃ e', e = .server e' ∧ Server.failure y = some e' := by
  obtain ⟨e', rfl, rfl⟩ := answer_eq_raise h
  exact ⟨e', rfl, rfl⟩

theorem errorOf_unlessNotFound (h : unlessNotFound (answer y : Service V ρ) = .raise e) :
    ∃ e', e = .server e' ∧ Server.failure y = some e' := by
  obtain ⟨⟨e', rfl, rfl⟩, -⟩ := unlessNotFound_eq_raise h
  exact ⟨e', rfl, rfl⟩

end Answers

/-- The answer to an append is the list that is stored then. -/
theorem exec_append_read {cfg : ServerConfig V} {x : Server.Weather} {key : Str} {ref : Ref} {σ : Store V}
    {a : Option (List Ref)} (h : (exec cfg x (.operate key [.append ref, .read]) σ).1 = .ok a) :
    ∃ r, (exec cfg x (.operate key [.append ref, .read]) σ).2.get key = some r ∧ a = r.postings := by
  have hop : cfg.table.onOperate [.append ref, .read] (σ.get key) =
      cfg.table.leave (Record.add ref (σ.get key)) (Record.add ref (σ.get key)).postings := by
    cases σ.get key <;> rfl
  rcases Server.under_change_leave hop x with ⟨hans, hstore⟩ | ⟨e, hans, -⟩
  · refine ⟨Record.add ref (σ.get key), ?_, Except.ok.inj (h.symm.trans hans)⟩
    refine (congrArg (FMap.get · key) hstore).trans ?_
    rw [FMap.get_set, if_pos rfl]
  · cases h.symm.trans hans

/-! ### Removals -/

section Removals
variable {inst : Instance V} {app user session : Str}

/-- Only a purge of its own session removes a record. -/
def Mine (l : Instance V × Call V) : Req V → Prop
  | .remove key => Purges l key
  | _ => True

theorem mine_upsert (l : Instance V × Call V) {ev : Event V} {text : Str} :
    (upsertMemory inst app user session ev text).Uses (Mine l) :=
  Uses.upsertMemory trivial fun _ _ => trivial

theorem mine_body (l : Instance V × Call V) : (l.2.body l.1).Uses (Mine l) := by
  obtain ⟨inst, c⟩ := l
  cases c with
  | addSession app user session events =>
    have hpurge : (purgeSessionMemories app user session : Service V Unit).Uses
        (Mine (inst, .addSession app user session events)) :=
      Uses.purgeSessionMemories trivial (fun _ _ => trivial) fun eid => ⟨app, user, session, events, eid, rfl, rfl⟩
    exact (hpurge.bind fun _ => Uses.addAll fun _ _ _ _ => mine_upsert _).bind fun _ => trivial
  | addEvents app user events session =>
    exact (Uses.addAbsent (fun _ _ => trivial) fun _ _ _ _ => mine_upsert _).bind fun _ => trivial
  | search app user text => exact (Uses.searchMemory (fun _ => trivial) fun _ => trivial).bind fun _ => trivial

end Removals

namespace Stretch
variable {S : Stretch V}

/-- A record that has gone was removed by a purge. -/
theorem purged {t u : ServicePool V} (ht : S.Reach S.start t) (htu : S.Reach t u) (hu : S.Reach u S.stop) {key : Str}
    (hthere : (t.world.get key).isSome) (hgone : u.world.get key = none) : ∃ l ∈ S.stop.calls, Purges l key := by
  have hkept : (u.world.get key).isSome ∨ ∃ l ∈ u.calls, Purges l key := by
    clear hu hgone
    induction htu with
    | init => exact .inl hthere
    | @act v a hv _ ih =>
      rcases ih with hsome | ⟨l, hl, hpurges⟩
      · rcases System.act_cases (Y := service S.cfg) a v with ⟨l, rfl, hact⟩ | ⟨i, x, -, -, hact⟩ |
          ⟨i, x, l, q, k, rfl, hi, -, hact⟩
        · exact .inl (by rw [hact]; exact hsome)
        · exact .inl (by rw [hact]; exact hsome)
        · by_cases hq : q = .remove key
          · have huses := ((S.reached.trans (ht.trans hv)).uses (I := fun _ => True) (F := Mine)
              (fun _ l _ => mine_body l) (fun _ _ _ _ _ _ _ _ _ => trivial) trivial rfl).2 i _ hi
            subst hq
            refine .inr ⟨l, ?_, huses.1⟩
            rw [System.calls_step]
            exact List.mem_map.mpr ⟨_, List.mem_of_getElem? hi, rfl⟩
          · rw [hact]
            exact .inl (Server.exec_get_isSome x hsome hq)
      · have hnext : S.Reach v ((service S.cfg).act a v) := System.Reach.init.act trivial
        exact .inr ⟨l, hnext.calls_subset hl, hpurges⟩
  rcases hkept with hsome | ⟨l, hl, hpurges⟩
  · rw [hgone] at hsome
    cases hsome
  · exact ⟨l, hu.calls_subset hl, hpurges⟩

/-- What is stored fits. -/
theorem fitting {t : ServicePool V} (ht : S.Reach S.start t) :
    Server.All (fun r => S.cfg.table.fits r = true) t.world := by
  refine (S.reached.trans ht).invariant (I := fun t => Server.All (fun r => S.cfg.table.fits r = true) t.world)
    (fun _ _ h => by cases h) fun t a h _ => ?_
  rcases System.act_cases (Y := service S.cfg) a t with ⟨l, rfl, hact⟩ | ⟨i, x, -, -, hact⟩ |
    ⟨i, x, l, q, k, rfl, -, -, hact⟩ <;> rw [hact]
  · exact h
  · exact h
  · exact h.fits x q

theorem fits_shorter {r : Record V} (hr : S.cfg.fits r = true) {f : List Ref → List Ref} (hf : ∀ l, (f l).Sublist l) :
    S.cfg.fits { r with postings := r.postings.map f } = true := by
  cases hl : r.postings with
  | none =>
    have hsame : ({ r with postings := none } : Record V) = r := by rw [← hl]
    rwa [Option.map_none, hsame]
  | some l => exact S.shrinks r l (f l) hl (hf l) hr

/-- A list is made shorter where there is one. -/
theorem denies_shorter {t : ServicePool V} (ht : S.Reach S.start t) {key : Str} {op : Op} {f : List Ref → List Ref}
    (hop : ∀ x : Record V × Option (List Ref), (op.act x).1 = { x.1 with postings := x.1.postings.map f })
    (hcreates : S.cfg.table.creates [op] = false) (hf : ∀ l, (f l).Sublist l) {e : Server.Err}
    (h : S.cfg.table.Denies t.world (.operate key [op]) e) : e = .recordNotFound ∧ t.world.get key = none := by
  rcases h with ⟨-, hthere, hfits⟩ | ⟨he, hnone, -⟩
  · exfalso
    rw [hcreates] at hthere
    obtain ⟨r, hr⟩ := Option.isSome_iff_exists.mp (hthere.resolve_right Bool.false_ne_true)
    have hroom := fits_shorter (S := S) (fitting ht key r hr) hf
    rw [hr] at hfits
    change S.cfg.fits (op.act (r, none)).1 = false at hfits
    rw [hop, hroom] at hfits
    cases hfits
  · exact ⟨he, hnone⟩

/-! ### Programs -/

section Programs
variable {inst : Instance V} {app user session : Str} {ev : Event V} {text : Str}

/-- A request that is never denied. -/
theorem raises_query (aus : Str) : S.Raises (query aus) S.Faulty := fun _ _ _ ht ht' hway =>
  raises_ask ht finished_answer (fun _ _ => errorOf_answer) (fun code h => ⟨code, rfl, h⟩)
    (fun _ _ _ _ _ _ h => by cases h) ht' hway

theorem raises_batchRead (keys : List Str) : S.Raises (batchRead keys) S.Faulty := fun _ _ _ ht ht' hway =>
  raises_ask ht finished_answer (fun _ _ => errorOf_answer) (fun code h => ⟨code, rfl, h⟩)
    (fun _ _ _ _ _ _ h => by cases h) ht' hway

theorem raises_remove (key : Str) : S.Raises (unlessNotFound (remove key)) S.Faulty := fun _ _ _ ht ht' hway =>
  raises_ask ht finished_unlessNotFound (fun _ _ => errorOf_unlessNotFound)
    (fun code h => ⟨code, rfl, h⟩)
    (fun _ _ _ _ _ h ⟨hmissing, _⟩ => absurd (congrArg Err.server hmissing) (unlessNotFound_eq_raise h).2) ht' hway

theorem raises_removePostingRefs (ref : Ref) (tokens : List Str) :
    S.Raises (removePostingRefs app user ref tokens) S.Faulty := by
  induction tokens with
  | nil => exact raises_ret ()
  | cons token tokens ih =>
    refine Raises.bind (fun _ _ _ ht ht' hway => ?_) fun _ => ih
    refine raises_ask ht finished_unlessNotFound (fun _ _ => errorOf_unlessNotFound)
      (fun code h => ⟨code, rfl, h⟩) (fun u _ _ hu _ h hdenies => ?_) ht' hway
    have hnone := denies_shorter (ht.trans hu) (f := fun l => l.filter fun r => r ≠ ref) (fun _ => rfl) rfl
      (fun _ => List.filter_sublist) hdenies
    exact absurd (congrArg Err.server hnone.1) (unlessNotFound_eq_raise h).2

theorem raises_purge (app user session : Str) : S.Raises (purgeSessionMemories app user session) S.Faulty := by
  refine (raises_query _).bind fun rs => ?_
  induction rs with
  | nil => exact raises_ret ()
  | cons r rs ih =>
    refine Raises.bind ?_ fun _ => ih
    unfold purgeRow
    dsimp only
    split_ifs
    · exact (raises_removePostingRefs _ _).bind fun _ => raises_remove _
    · exact raises_remove _

/-- A list that is long enough to be trimmed and then is missing was purged. -/
theorem raises_trim {token : Str} (htoken : token ∈ inst.tokenize text) {t : ServicePool V} (ht : S.Reach S.start t)
    {r : Record V} (hr : t.world.get (memoryPostingKey app user token) = some r) {u u' : ServicePool V} {e : Err}
    (htu : S.Reach t u) (hu' : S.Reach u' S.stop) (hway : S.Way u (trim app user token r.postings) u' (.raise e)) :
    S.Stops inst app user session ev text e := by
  unfold trim at hway
  split_ifs at hway with hshort
  · cases hway.of_finished rfl
  rcases hway.bind rfl with ⟨_, _, -, hret⟩ | ⟨e', hway, he⟩
  · cases hret.of_finished rfl
  cases he
  refine raises_ask (ht.trans htu) finished_answer (fun _ _ => errorOf_answer) (fun code h => h)
    (fun v _ e huv hv _ hdenies => ?_) hu' hway
  have htv : S.Reach t v := htu.trans huv
  obtain ⟨rfl, hnone⟩ := denies_shorter (ht.trans htv) (f := List.drop _) (fun _ => rfl) rfl
    (fun _ => List.drop_sublist ..) hdenies
  refine ⟨token, htoken, ⟨t, ht, htv.trans hv, ?_⟩, purged ht htv hv (by rw [hr]; rfl) hnone⟩
  change maxPostingListSize < (Record.refs (t.world.get (memoryPostingKey app user token))).length
  rw [hr]
  exact Nat.lt_of_not_ge hshort

theorem raises_appendPostingRef {token : Str} (htoken : token ∈ inst.tokenize text) :
    S.Raises (appendPostingRef app user token ⟨ev.id, session, ev.timestamp⟩)
      (S.Stops inst app user session ev text) := by
  rw [appendPostingRef_eq]
  refine raises_bind (fun _ _ _ ht ht' hway => ?_) fun a t u ht hway u' e hu' hway' => ?_
  · refine raises_ask ht finished_answer (fun _ _ => errorOf_answer) (fun code h => h)
      (fun v _ _ hv hv' _ hdenies => ?_) ht' hway
    rcases hdenies with ⟨rfl, -, hfits⟩ | ⟨-, -, hcreates⟩
    · exact .inr ⟨token, htoken, v, ht.trans hv, hv', hfits⟩
    · cases hcreates
  · obtain ⟨v, x, hv, -, -, hworld, hvu, hend⟩ := hway.single finished_answer rfl
    -- what the answer tells is the list of the store it leaves
    obtain ⟨r, hr, rfl⟩ := exec_append_read (answer_eq_ret hend.symm)
    exact raises_trim htoken (ht.trans (hv.act trivial)) ((congrArg (FMap.get · _) hworld).trans hr) hvu hu' hway'

theorem raises_upsert :
    S.Raises (upsertMemory inst app user session ev text) (S.Stops inst app user session ev text) := by
  refine Raises.bind (fun _ _ _ ht ht' hway => ?_) fun _ => ?_
  · refine raises_ask ht finished_answer (fun _ _ => errorOf_answer) (fun code h => h)
      (fun u _ e hu hu' _ hdenies => ?_) ht' hway
    obtain ⟨rfl, hfits⟩ := hdenies
    have hrow : ∀ old : Option (Record V), (old.elim (inst.newRow app user session ev text) fun r =>
        S.cfg.table.merge r (inst.newRow app user session ev text)) =
          { inst.newRow app user session ev text with postings := old.bind Record.postings } := fun old => by
      cases old <;> rfl
    rw [hrow] at hfits
    exact .inl ⟨u, ht.trans hu, hu', hfits⟩
  · have hall : ∀ tokens ⊆ inst.tokenize text,
        S.Raises (appendPostingRefs app user ⟨ev.id, session, ev.timestamp⟩ tokens)
          (S.Stops inst app user session ev text) := fun tokens hsub => by
      induction tokens with
      | nil => exact raises_ret ()
      | cons token tokens ih =>
        obtain ⟨htoken, hsub⟩ := List.cons_subset.mp hsub
        exact (raises_appendPostingRef htoken).bind fun _ => ih hsub
    exact hall _ (List.Subset.refl _)

/-- What is not shown of the candidates is a row that was read for them. -/
theorem unshown_of_error {t : ServicePool V} (ht : S.Reach S.start t) (ht' : S.Reach t S.stop) {keys : List Str}
    {candidates : Candidates} {e : RangeErr}
    (h : (sliceTo (ranked (scoredRows app user (inst.tokenize text)
      (candidates.zip (keys.map fun key => t.world.get key)))) inst.topK).mapM
        (fun x => inst.memoryEntryFromBins x.2) = .error e) : S.Unshown inst app user text e := by
  rcases mapM_cases (fun x : (ℕ × ℚ) × Record V => inst.memoryEntryFromBins x.2) _ with ⟨l, hl, -⟩ | ⟨x, hx, e', he, hl⟩
  · cases h.symm.trans hl
  · cases h.symm.trans hl
    obtain ⟨ts, hts, hzero, hformat⟩ := inst.error_entry he
    obtain ⟨⟨c, hfound⟩, -, happ, huser, hmatch⟩ := found_of_scored (List.mem_mergeSort.mp ((sliceTo_sublist _ _).subset hx))
    obtain ⟨key, -, hget⟩ := List.mem_map.mp (List.of_mem_zip hfound).2
    exact ⟨key, x.2, ts, ⟨t, ht, ht', hget⟩, happ, huser, hmatch, hts, hzero, hformat⟩

theorem raises_search : S.Raises (searchMemory inst app user text)
    fun e => S.Faulty e ∨ ∃ e', e = .range e' ∧ S.Unshown inst app user text e' := by
  unfold searchMemory
  dsimp only
  split_ifs
  · exact raises_ret _
  refine Raises.bind ((raises_batchRead _).mono fun _ => .inl) fun rows => ?_
  split_ifs
  · exact raises_ret _
  refine raises_bind ((raises_batchRead _).mono fun _ => .inl) fun found t u ht hway u' e hu' hway' => ?_
  obtain ⟨v, x, hv, -, -, -, hvu, hend⟩ := hway.single finished_answer rfl
  obtain rfl := Except.ok.inj (Server.of_under_ok (answer_eq_ret hend.symm))
  unfold formatted at hway'
  split at hway'
  · cases hway'.of_finished rfl
  · cases hway'.of_finished rfl
    have hstop : S.Reach v S.stop := (System.Reach.init.act trivial).trans (hvu.trans (hway'.reach.trans hu'))
    exact .inr ⟨_, rfl, unshown_of_error (ht.trans hv) hstop (by assumption)⟩

end Programs

theorem Faulty.mayRaise {e : Err} (h : S.Faulty e) : S.MayRaise e := .inl h

theorem raises_body : S.Raises (S.issued.2.body S.issued.1) S.MayRaise := by
  have hupsert : ∀ {app user session ev text}, S.issued.2.adds app user session ev → memoryText ev = some text →
      S.Raises (upsertMemory S.issued.1 app user session ev text) S.MayRaise := fun hadds htext =>
    raises_upsert.mono fun e he => .inr (.inl ⟨_, _, _, _, _, hadds, htext, he⟩)
  rcases hissued : S.issued with ⟨inst, c⟩
  rw [hissued] at hupsert
  cases c with
  | addSession app user session events =>
    have hall : ∀ es ⊆ events, S.Raises (addAll inst app user session es) S.MayRaise := fun es hes => by
      induction es with
      | nil => exact raises_ret ()
      | cons e es ih =>
        obtain ⟨he, hes⟩ := List.cons_subset.mp hes
        refine Raises.bind ?_ fun _ => ih hes
        unfold addEvent
        cases htext : memoryText e with
        | none => exact raises_ret ()
        | some text => exact hupsert ⟨rfl, rfl, rfl, he⟩ htext
    refine Raises.bind (Raises.bind ?_ fun _ => hall events (List.Subset.refl _)) fun _ => raises_ret _
    exact Raises.mono (raises_purge app user session) fun _ => Faulty.mayRaise
  | addEvents app user events session =>
    have hall : ∀ es ⊆ events,
        S.Raises (addAbsent inst app user (scopedSessionId session) es) S.MayRaise := fun es hes => by
      induction es with
      | nil => exact raises_ret ()
      | cons e es ih =>
        obtain ⟨he, hes⟩ := List.cons_subset.mp hes
        refine Raises.bind ?_ fun _ => ih hes
        unfold addEventIfAbsent
        cases htext : memoryText e with
        | none => exact raises_ret ()
        | some text =>
          refine Raises.bind ((raises_batchRead _).mono fun _ => Faulty.mayRaise) fun rows => ?_
          split
          · exact raises_ret ()
          · exact hupsert ⟨rfl, rfl, rfl, he⟩ htext
    exact (hall events (List.Subset.refl _)).bind fun _ => raises_ret _
  | search app user text =>
    refine Raises.bind (raises_search.mono fun e he => ?_) fun _ => raises_ret _
    rcases he with hfault | ⟨e', he, hunshown⟩
    · exact hfault.mayRaise
    · exact .inr (.inr ⟨app, user, text, e', by rw [hissued], he, by rwa [hissued]⟩)

end Stretch

/-- However calls and faults fall together, and whatever the identifiers are, a purge raises the
errors of faults only. A search raises besides what the timestamp of a row that matches, and
that was stored, is refused with. Adding an event is stopped besides by its row or the list of
one of its words having no room, or, with the error that a record was not found, by a list that
was over its limit and that a purge has removed as one of its rows. -/
theorem memory_calls_raise_for_a_reason (S : Stretch V) (e : Err)
    (hi : S.stop.procs[S.number]? = some ⟨S.issued, .raise e⟩) : S.MayRaise e := by
  obtain ⟨t, ht, hnumber, -, hts⟩ := S.leads.spawned hi S.late
  rw [← hnumber] at hi
  obtain ⟨-, hm⟩ := hts.moments_spawn hi
  rw [hnumber] at hm
  exact Stretch.raises_body _ _ e (ht.act trivial) .init hm

namespace Small

theorem perm_id (l : List (Record ℕ)) : (id l).Perm l := .refl l

/-- A server with no room for any list. -/
def tight : ServerConfig ℕ := ⟨fun r => (r.postings.getD []).isEmpty, id, perm_id⟩

theorem tight_shrinks : tight.Shrinks := by
  intro r l l' hl hsub hfits
  have hnil : l = [] := by simpa [tight, hl] using hfits
  subst hnil
  simp [tight, List.sublist_nil.mp hsub]

def telling : Instance ℕ × Call ℕ := (Small.inst, .addEvents ['a'] ['u'] [event ['x'] "red".toList 1] (some ['s']))

def refused : ServicePool ℕ :=
  (service tight).run [.spawn telling, .step 0 .fair, .step 0 .fair, .step 0 .fair] ⟨∅, []⟩

theorem refused_reached : (service tight).Reach (fun _ _ => True) ⟨∅, []⟩ refused :=
  System.reach_run (System.permitted_of_forall fun _ _ _ => trivial)

def nothing : ServicePool ℕ := ⟨∅, []⟩

theorem nothing_reached : (service tight).Reach (fun _ _ => True) ⟨∅, []⟩ nothing := .init

theorem nothing_length : nothing.procs.length ≤ 0 := Nat.le_refl 0

def refusing : Stretch ℕ :=
  ⟨tight, nothing, refused, 0, telling, nothing_reached, refused_reached, nothing_length, tight_shrinks⟩

end Small

open Memory.Small in
theorem memory_calls_raise_for_a_reason_tight : refusing.MayRaise (.server .recordTooBig) :=
  memory_calls_raise_for_a_reason refusing (.server .recordTooBig) rfl

end AdkAerospike.Memory
