import AdkAerospike.Program.Moments
import AdkAerospike.Program.Once
import AdkAerospike.Sessions.Sound
import AdkAerospike.Sessions.Manifest.Race

/-! Sessions that are not deleted. Every request but a removal leaves each record at least
as it was: an index does not go back, and no key of an event goes. So what one read shows,
every later read shows as well, and of the calls that create a session one returns. -/

namespace AdkAerospike.Sessions

open Program Data Codec Keys

variable {V P : Type}

/-! ### Records that only grow -/

/-- The record has grown. -/
structure Record.Grown (r r' : Record V P) : Prop where
  cur : r.cur.getD 0 ≤ r'.cur.getD 0
  keys : (r.events.getD .empty).keys ⊆ (r'.events.getD .empty).keys

/-- No record has gone, and all have grown. -/
def Grown (σ σ' : Store V P) : Prop := ∀ key r, σ.get key = some r → ∃ r', σ'.get key = some r' ∧ r.Grown r'

theorem Record.Grown.refl (r : Record V P) : r.Grown r := ⟨le_rfl, List.Subset.refl _⟩

theorem Record.Grown.trans {r r' r'' : Record V P} (h : r.Grown r') (h' : r'.Grown r'') : r.Grown r'' :=
  ⟨h.cur.trans h'.cur, List.Subset.trans h.keys h'.keys⟩

theorem Grown.refl (σ : Store V P) : Grown σ σ := fun _ r hr => ⟨r, hr, .refl r⟩

theorem Grown.trans {σ σ' σ'' : Store V P} (h : Grown σ σ') (h' : Grown σ' σ'') : Grown σ σ'' := fun key r hr => by
  obtain ⟨r', hr', hgrown⟩ := h key r hr
  obtain ⟨r'', hr'', hgrown'⟩ := h' key r' hr'
  exact ⟨r'', hr'', hgrown.trans hgrown'⟩

theorem grown_write (op : Op V P) (r : Record V P) : r.Grown (op.write r) := by
  cases op with
  | mapPut k v =>
    refine ⟨le_rfl, fun k' hk' => ?_⟩
    obtain ⟨v', hv'⟩ := OMap.mem_keys_iff.mp hk'
    refine OMap.mem_keys_iff.mpr ?_
    change ∃ x, ((r.events.getD .empty).put k v).lookup k' = some x
    by_cases hk : k' = k
    · subst hk
      exact ⟨v, OMap.lookup_put_self⟩
    · exact ⟨v', (OMap.lookup_put_of_ne hk).trans hv'⟩
  | incrementCur => exact ⟨Nat.le_succ _, List.Subset.refl _⟩
  | _ => exact ⟨le_rfl, List.Subset.refl _⟩

theorem grown_apply (ops : List (Op V P)) (r : Record V P) : r.Grown (Op.apply ops r).1 := by
  have hfold : ∀ (x : Record V P × OpResult V P),
      x.1.Grown (ops.foldl (fun x op => (op.write x.1, op.read x.1 x.2)) x).1 := by
    induction ops with
    | nil => exact fun x => .refl x.1
    | cons op ops ih => exact fun x => (grown_write op x.1).trans (ih (op.write x.1, op.read x.1 x.2))
  exact hfold (r, {})

section Requests
variable {cfg : ServerConfig V P} {σ : Store V P} {w : World V P}

theorem grown_onRecord (ops : List (Op V P)) (guard : Option ℕ) (r : Record V P) :
    ∃ r', (cfg.onRecord ops guard (some r)).2 = some r' ∧ r.Grown r' := by
  rcases cfg.onRecord_snd ops guard (some r) with hold | ⟨-, hnew, -⟩
  · exact ⟨r, hold, .refl r⟩
  · exact ⟨_, hnew, grown_apply ops r⟩

theorem grown_under {ρ : Type} {act : Store V P → Except Err ρ × Store V P} (h : Grown σ (act σ).2) (f : Fault) :
    Grown σ (under f act σ).2 := by
  rcases under_cases f act σ with ⟨-, hu⟩ | ⟨e, -, -, hu | hu⟩ <;> rw [hu]
  · exact h
  · exact .refl σ
  · exact h

theorem grown_operate (key : Key) (ops : List (Op V P)) (guard : Option ℕ) :
    Grown σ (cfg.operate key ops guard σ).2 := fun key' r hr => by
  by_cases hk : key' = key
  · subst hk
    rw [ServerConfig.operate_get_self, hr]
    exact grown_onRecord ops guard r
  · exact ⟨r, (ServerConfig.operate_get_of_ne hk).trans hr, .refl r⟩

theorem grown_put (key : Key) (bins : Record V P) : Grown σ (cfg.put key bins σ).2 := fun key' r hr => by
  refine ⟨r, ?_, .refl r⟩
  rw [ServerConfig.put_get, if_neg fun h => ?_, hr]
  rw [h.1, h.2.1] at hr
  cases hr

theorem grown_batchWrite (faults : ℕ → Fault) (writes : List (Key × List (Op V P))) :
    Grown σ (cfg.batchWrite faults writes σ).2 := fun key r hr => by
  refine ServerConfig.batchWrite_preserves (I := fun o => ∃ r', o = some r' ∧ r.Grown r') faults (fun ops _ o h => ?_)
    ⟨r, hr, .refl r⟩
  obtain ⟨r', rfl, hgrown⟩ := h
  obtain ⟨r'', hr'', hgrown'⟩ : ∃ r'', (cfg.onRecord ops none (some r')).2 = some r'' ∧ r'.Grown r'' :=
    grown_onRecord ops none r'
  exact ⟨r'', hr'', hgrown.trans hgrown'⟩

/-- The request removes no record. -/
def Req.keeps : Req V P → Prop
  | .remove _ => False
  | _ => True

theorem grown_exec {q : Req V P} (hq : q.keeps) (inst : ℕ) (x : Weather) (w : World V P) :
    Grown w.store (exec cfg inst x q w).2.store := by
  cases q with
  | remove key => exact hq.elim
  | put key bins => exact grown_under (grown_put key bins) x.whole
  | operate key ops guard => exact grown_under (grown_operate key ops guard) x.whole
  | batchWrite writes => exact grown_under (grown_batchWrite x.record writes) x.whole
  | cacheGet pk => exact .refl _
  | cacheSet pk n => exact .refl _
  | cachePop pk => exact .refl _
  | _ =>
    simp only [exec, reading_snd]
    exact .refl _

end Requests

/-! ### Runs -/

/-- The call deletes no session. -/
def Call.keeps : Call V → Prop
  | .delete _ => False
  | _ => True

/-- Nothing is deleted; requests are answered in any order and weather. -/
def NoDeletes (_ : ServicePool V P) : Action (Issued V) Weather → Prop
  | .spawn l => l.call.keeps
  | .step _ _ => True

theorem Call.keeps.uses {c : Call V} (hc : c.keeps) (env : Env V P) : (c.body env).Uses Req.keeps := by
  cases c with
  | create app user state sessionId fresh now =>
    exact (uses_createSession_of trivial trivial (fun _ => trivial) trivial trivial trivial).bind fun _ => trivial
  | append a e clock =>
    refine Prog.Uses.bind (uses_persistEvent_of (fun _ q hq => ?_) fun _ _ => trivial) fun _ => trivial
    cases hq <;> trivial
  | get a config =>
    refine Prog.Uses.bind ((uses_getSession env a config).mono fun q hq => ?_) fun _ => trivial
    rcases hq with _ | _ | ⟨g, N, T, rfl⟩
    all_goals trivial
  | listForUser app user =>
    exact (uses_listSessionsForUser_of trivial (fun _ => trivial) fun _ => trivial).bind fun _ => trivial
  | listForApp app =>
    have hquery : (query app : Service V P _).Uses Req.keeps := ⟨trivial, uses_ofExcept⟩
    exact Prog.Uses.bind (hquery.bind fun _ => trivial) fun _ => trivial
  | delete a => exact hc.elim

/-- The records are within the size limit, and no call under way removes one. -/
structure Growing (cfg : ServerConfig V P) (s : ServicePool V P) : Prop where
  fitting : cfg.Fitting s.world.store
  uses : ∀ p ∈ s.procs, p.prog.Uses Req.keeps

section Runs
variable {env : Env V P} {cfg : ServerConfig V P} {s s' : ServicePool V P}

theorem growing_start (cfg : ServerConfig V P) : Growing cfg (⟨.empty, []⟩ : ServicePool V P) where
  fitting _ _ h := nomatch h
  uses _ h := nomatch h

theorem Growing.act (h : Growing cfg s) {a : Action (Issued V) Weather} (ha : NoDeletes s a) :
    Growing cfg ((service env cfg).act a s) ∧ Grown s.world.store ((service env cfg).act a s).world.store := by
  rcases System.act_cases (Y := service env cfg) a s with ⟨l, rfl, hact⟩ | ⟨i, x, -, -, hact⟩ |
    ⟨i, x, l, q, k, rfl, hi, -, hact⟩ <;> rw [hact]
  · refine ⟨⟨h.fitting, fun p hp => ?_⟩, .refl _⟩
    rcases List.mem_append.mp hp with hp | hp
    · exact h.uses p hp
    · rw [List.mem_singleton.mp hp]
      exact ha.uses env
  · exact ⟨h, .refl _⟩
  · have hq := h.uses _ (List.mem_of_getElem? hi)
    refine ⟨⟨fitting_exec l.inst x q s.world h.fitting, fun p hp => ?_⟩, grown_exec hq.1 l.inst x s.world⟩
    rcases List.mem_or_eq_of_mem_set hp with hp | rfl
    · exact h.uses p hp
    · exact hq.2 _

theorem Growing.reach (h : Growing cfg s) (hs : (service env cfg).Reach NoDeletes s s') :
    Growing cfg s' ∧ Grown s.world.store s'.world.store := by
  induction hs with
  | init => exact ⟨h, .refl _⟩
  | act _ ha ih => exact ⟨(ih.1.act ha).1, ih.2.trans (ih.1.act ha).2⟩

end Runs

/-! ### What is stored of a session -/

section Filed
variable {a : Addr} {w w' : World V P} {k : Str} {g : ℕ}

/-- An event is in a segment that reads walk through. -/
def Filed (a : Addr) (k : Str) (w : World V P) : Prop := ∃ g ≤ (logOf a w).cur, k ∈ (segment a w g).keys

theorem Grown.mem_segment (h : Grown w.store w'.store) (hk : k ∈ (segment a w g).keys) : k ∈ (segment a w' g).keys := by
  unfold segment at hk ⊢
  cases hr : w.store.get (a.segmentPk g) with
  | none =>
    rw [hr] at hk
    cases hk
  | some r =>
    obtain ⟨r', hr', hgrown⟩ := h _ r hr
    rw [hr] at hk
    rw [hr']
    exact hgrown.keys hk

theorem Grown.cur (h : Grown w.store w'.store) : (logOf a w).cur ≤ (logOf a w').cur := by
  change ((row a w).bind (·.cur)).getD 0 ≤ ((row a w').bind (·.cur)).getD 0
  unfold row
  cases hr : w.store.get a.sessionPk with
  | none => exact Nat.zero_le _
  | some r =>
    obtain ⟨r', hr', hgrown⟩ := h _ r hr
    rw [hr']
    exact hgrown.cur

theorem Filed.grown (hk : Filed a k w) (h : Grown w.store w'.store) : Filed a k w' := by
  obtain ⟨g, hg, hmem⟩ := hk
  exact ⟨g, hg.trans h.cur, h.mem_segment hmem⟩

end Filed

/-! ### Reads -/

section Reads
variable {env : Env V P} {cfg : ServerConfig V P} {s s' : ServicePool V P} {i : ℕ} {l : Issued V} {a : Addr}

/-- From one pool to another the program comes from its start to a result. -/
abbrev Comes (env : Env V P) (cfg : ServerConfig V P) (i : ℕ) (l : Issued V) {α : Type} (s : ServicePool V P)
    (p : Service V P α) (s' : ServicePool V P) (x : α) : Prop :=
  System.Moments (service env cfg) NoDeletes i l s p s' (.ret x)

theorem Comes.bind {α β : Type} {p : Service V P α} {f : α → Service V P β} {x : β}
    (h : Comes env cfg i l s (p.bind f) s' x) : ∃ t y, Comes env cfg i l s p t y ∧ Comes env cfg i l t (f y) s' x := by
  rcases System.Moments.bind h rfl with h | ⟨e, -, he⟩
  · exact h
  · cases he

theorem Comes.ret {α : Type} {x y : α} (h : Comes env cfg i l s (.ret x) s' y) : y = x :=
  Prog.ret.inj (System.Moments.of_finished h rfl)

/-- A segment is read at one moment. -/
theorem Comes.readSegment {g : ℕ} {N : Option ℕ} {T : Option ℚ} {E : List (Str × InlineEvent V P)} (hs : Growing cfg s)
    (h : Comes env cfg i l s (readSegmentEntries env a g N T) s' E) :
    ∃ t, (service env cfg).Reach NoDeletes s t ∧ (service env cfg).Reach NoDeletes t s' ∧
      E = readRange env N T (segment a t.world g) := by
  have hsingle : System.Moments (service env cfg) NoDeletes i l s
      (.ask (.operate (a.segmentPk g) [readOp env N T] none) fun y => catching .recordNotFound
        ((ofExcept y).bind fun y => .ret (y.entries.getD [])) (.ret [])) s' (.ret E) := h
  obtain ⟨t, x, ht, -, ha, -, hafter, heq⟩ := hsingle.single (fun y => by
    cases y with
    | ok y => rfl
    | error e =>
      change Prog.finished (if e = .recordNotFound then .ret [] else .raise e : Service V P (List (Str × InlineEvent V P))) = true
      split_ifs <;> rfl) rfl
  refine ⟨t, ht, (System.Reach.act .init ha).trans hafter, ?_⟩
  rcases under_cases x.whole (cfg.operate (a.segmentPk g) [readOp env N T] none) t.world.store with
    ⟨hcalm, -⟩ | ⟨e, he, hans, -⟩
  · have hexec : exec cfg l.inst .calm (.operate (a.segmentPk g) [readOp env N T] none) t.world =
        (service env cfg).serve l x (.operate (a.segmentPk g) [readOp env N T] none) t.world := by
      change exec cfg l.inst .calm _ t.world = exec cfg l.inst x _ t.world
      simp only [exec, hcalm, Weather.calm]
    have halone : Prog.run (exec cfg l.inst .calm) (catching .recordNotFound
        ((ofExcept (exec cfg l.inst .calm (.operate (a.segmentPk g) [readOp env N T] none) t.world).1).bind
          fun y => .ret (y.entries.getD [])) (.ret []))
        (exec cfg l.inst .calm (.operate (a.segmentPk g) [readOp env N T] none) t.world).2 = _ :=
      alone_readSegmentEntries (hs.reach ht).1.fitting.readable g N T
    rw [hexec, ← heq] at halone
    exact Except.ok.inj (congrArg Prod.fst halone)
  · change _ = catching _ ((ofExcept (under x.whole _ t.world.store).1).bind _) _ at heq
    rw [hans] at heq
    change Prog.ret E = if e = .recordNotFound then .ret [] else .raise e at heq
    rw [if_neg (by rintro rfl; cases h : x.whole <;> rw [h] at he <;> cases he)] at heq
    cases heq

theorem mem_collect {ε : Type} {N : Option ℕ} {r c : List ε} {x : ε} (h : x ∈ (collect N r c).1) : x ∈ r ∨ x ∈ c := by
  induction r generalizing c with
  | nil => exact .inr h
  | cons y r ih =>
    rw [collect] at h
    split_ifs at h with hfull
    · rcases List.mem_cons.mp h with rfl | h
      · exact .inl (List.mem_cons_self ..)
      · exact .inr h
    · rcases ih h with h | h
      · exact .inl (List.mem_cons_of_mem _ h)
      · rcases List.mem_cons.mp h with rfl | h
        · exact .inl (List.mem_cons_self ..)
        · exact .inr h

theorem mem_of_mem_readRange {N : Option ℕ} {T : Option ℚ} {m : OMap Str (InlineEvent V P)} {x : Str × InlineEvent V P}
    (h : x ∈ readRange env N T m) : x.1 ∈ m.keys := by
  refine List.mem_map_of_mem ?_
  cases T with
  | some t => exact List.mem_of_mem_filter h
  | none =>
    cases N with
    | none => exact h
    | some n => exact List.mem_of_mem_drop h

/-- What is shown is stored. -/
theorem Comes.shown {n : ℕ} {N : Option ℕ} {T : Option ℚ} {c c' : List (Str × InlineEvent V P)} (hs : Growing cfg s)
    (h : Comes env cfg i l s (loadLoop env a N T n c) s' c') {x : Str × InlineEvent V P} (hx : x ∈ c') :
    x ∈ c ∨ ∃ g < n, x.1 ∈ (segment a s'.world g).keys := by
  induction n generalizing c s with
  | zero =>
    obtain rfl := h.ret
    exact .inl hx
  | succ n ih =>
    obtain ⟨t, E, hread, hrest⟩ := Comes.bind h
    obtain ⟨u, hu, hut, rfl⟩ := hread.readSegment hs
    have hafter := hut.trans hrest.reach
    have hnext : x ∈ (collect N (readRange env (N.map (· - c.length)) T (segment a u.world n)).reverse c).1 →
        x ∈ c ∨ ∃ g < n + 1, x.1 ∈ (segment a s'.world g).keys := fun h => by
      rcases mem_collect h with h | h
      · have hkey := mem_of_mem_readRange (List.mem_reverse.mp h)
        exact .inr ⟨n, Nat.lt_succ_self n, ((hs.reach hu).1.reach hafter).2.mem_segment hkey⟩
      · exact .inl h
    dsimp only at hrest
    split_ifs at hrest
    · obtain rfl := hrest.ret
      exact hnext hx
    · obtain rfl := hrest.ret
      exact hnext hx
    · rcases ih (hs.reach hread.reach).1 hrest with h | ⟨g, hg, h⟩
      · exact hnext h
      · exact .inr ⟨g, Nat.lt_succ_of_lt hg, h⟩

/-- The walk with no filter passes by all that is stored. -/
theorem Comes.all {n : ℕ} {c c' : List (Str × InlineEvent V P)} (hs : Growing cfg s)
    (h : Comes env cfg i l s (loadLoop env a none none n c) s' c') :
    c ⊆ c' ∧ ∀ g < n, (segment a s.world g).keys ⊆ c'.map Prod.fst := by
  induction n generalizing c s with
  | zero =>
    obtain rfl := h.ret
    exact ⟨List.Subset.refl _, fun g hg => absurd hg (Nat.not_lt_zero g)⟩
  | succ n ih =>
    obtain ⟨t, E, hread, hrest⟩ := Comes.bind h
    obtain ⟨u, hu, hut, rfl⟩ := hread.readSegment hs
    have hcollect : collect none (readRange env none none (segment a u.world n)).reverse c =
        ((segment a u.world n).entries ++ c, false) := by
      rw [collect_eq none _ _ fun _ hn => nomatch hn]
      simp [Log.recent, readRange]
    dsimp only [Option.map_none] at hrest
    simp only [hcollect, Option.isSome_none, Bool.false_and, Bool.false_eq_true, if_false] at hrest
    obtain ⟨hsub, hall⟩ := ih (hs.reach hread.reach).1 hrest
    refine ⟨fun x hx => hsub (List.mem_append_right _ hx), fun g hg k hk => ?_⟩
    rcases Nat.lt_succ_iff_lt_or_eq.mp hg with hlt | rfl
    · exact hall g hlt ((hs.reach hread.reach).2.mem_segment hk)
    · obtain ⟨⟨k', v⟩, hmem, rfl⟩ := List.mem_map.mp ((hs.reach hu).2.mem_segment hk)
      exact List.mem_map.mpr ⟨_, hsub (List.mem_append_left _ hmem), rfl⟩

/-- A row that is read was there at one moment. -/
theorem Comes.rowRead {keys : List Key} {out : FMap Key (Option (Record V P))} {key : Key} {r : Record V P}
    (h : Comes env cfg i l s (batchRead keys) s' out) (hr : bins out key = some r) :
    ∃ t, (service env cfg).Reach NoDeletes s t ∧ (service env cfg).Reach NoDeletes t s' ∧ t.world.store.get key = some r := by
  unfold batchRead at h
  split_ifs at h with hkeys
  · obtain rfl := h.ret
    cases hr
  obtain ⟨t, x, ht, -, ha, -, hafter, heq⟩ := System.Moments.single h (fun (y : Except Err _) => by cases y <;> rfl) rfl
  refine ⟨t, ht, (System.Reach.act .init ha).trans hafter, ?_⟩
  change _ = (ofExcept (t.world.reading x.whole (.ok (ServerConfig.batchRead x.record keys t.world.store))).1).bind _ at heq
  cases hans : (t.world.reading x.whole (.ok (ServerConfig.batchRead x.record keys t.world.store))).1 with
  | error e =>
    rw [hans] at heq
    cases heq
  | ok rs =>
    rw [hans] at heq
    obtain rfl := Prog.ret.inj heq
    obtain rfl := Except.ok.inj (reading_ok hans)
    obtain ⟨code, hmem⟩ := mem_zip_of_bins_byKey hr
    exact ServerConfig.mem_zip_batchRead hmem

/-- What a read shows is stored at its end; with no filter it shows all that was stored at its start. -/
theorem Comes.got {config : GetSessionConfig} {x : Session V} (hs : Growing cfg s)
    (h : Comes env cfg i l s (getSession env a config) s' (some x)) :
    (∀ y ∈ x.events, Filed a y.1 s'.world) ∧
      (config = {} → ∀ k, Filed a k s.world → k ∈ x.events.map Prod.fst) := by
  obtain ⟨t, records, hread, hrest⟩ := Comes.bind h
  cases hrow : bins records a.sessionPk with
  | none =>
    rw [hrow] at hrest
    cases hrest.ret
  | some r =>
    rw [hrow] at hrest
    obtain ⟨u, hu, hut, hget⟩ := hread.rowRead hrow
    have hcur : r.cur.getD 0 = (logOf a u.world).cur := by
      change _ = ((row a u.world).bind (·.cur)).getD 0
      rw [row, hget]
      rfl
    obtain ⟨t₁, _, hcache, hrest⟩ := Comes.bind hrest
    obtain ⟨t₂, events, hload, hend⟩ := Comes.bind hrest
    cases hend.ret
    have hfrom := hut.trans hcache.reach
    have hloading := (hs.reach (hu.trans hfrom)).1
    have hafter : (service env cfg).Reach NoDeletes u s' := (hfrom.trans hload.reach).trans hend.reach
    have hlast : (logOf a u.world).cur ≤ (logOf a s'.world).cur := ((hs.reach hu).1.reach hafter).2.cur
    unfold loadEvents at hload
    split_ifs at hload with hzero
    · obtain rfl := hload.ret
      refine ⟨(fun y hy => by cases hy), fun hconfig => ?_⟩
      rw [hconfig] at hzero
      cases hzero
    · obtain ⟨t₃, collected, hwalk, hmap⟩ := Comes.bind hload
      obtain rfl := hmap.ret
      refine ⟨fun y hy => ?_, fun hconfig k hk => ?_⟩
      · obtain ⟨z, hz, rfl⟩ := List.mem_map.mp hy
        rcases hwalk.shown hloading hz with hz | ⟨g, hg, hz⟩
        · cases hz
        · have hthere := (hloading.reach hwalk.reach).1.reach (hmap.reach.trans hend.reach)
          exact ⟨g, (Nat.le_of_lt_succ hg).trans (hcur.le.trans hlast), hthere.2.mem_segment hz⟩
      · subst hconfig
        obtain ⟨g, hg, hmem⟩ := hk
        have hle : g < r.cur.getD 0 + 1 := Nat.lt_succ_of_le (hg.trans (((hs.reach hu).2.cur).trans hcur.ge))
        have hkey := (hwalk.all hloading).2 g hle ((hs.reach (hu.trans hfrom)).2.mem_segment hmem)
        rw [List.map_map]
        exact hkey

/-- A call that has read the session and been started in between. -/
theorem Growing.got {config : GetSessionConfig} {x : Session V} {n : ℕ} (h : Growing cfg s)
    (hs : (service env cfg).Reach NoDeletes s s') (hi : s'.procs[i]? = some ⟨⟨n, .get a config⟩, .ret (.found (some x))⟩)
    (hlate : s.procs.length ≤ i) :
    (∀ y ∈ x.events, Filed a y.1 s'.world) ∧
      (config = {} → ∀ k, Filed a k s.world → k ∈ x.events.map Prod.fst) := by
  obtain ⟨t, ht, rfl, hkeeps, hts⟩ := hs.spawned hi hlate
  obtain ⟨hgrowing, hgrown⟩ := h.reach (ht.act hkeeps)
  obtain ⟨-, hm⟩ := hts.moments_spawn hi
  obtain ⟨u, o, hget, hend⟩ := Comes.bind (p := getSession env a config) hm
  obtain rfl := Reply.found.inj hend.ret
  obtain ⟨hshown, hall⟩ := hget.got hgrowing
  refine ⟨fun y hy => (hshown y hy).grown ((hgrowing.reach hget.reach).1.reach hend.reach).2, fun hconfig k hk => ?_⟩
  exact hall hconfig k (hk.grown hgrown)

end Reads

/-- As long as no session is deleted, a read of a session with no filter shows every event
that was stored when it was started, and only events that are stored when it has ended,
whatever is appended meanwhile; and so it shows all that a read showed, with whatever
filter and by whatever instance, that had ended when it was started. -/
theorem reads_never_go_back (env : Env V P) (cfg : ServerConfig V P) (s s' : ServicePool V P)
    (hs : (service env cfg).Reach NoDeletes ⟨.empty, []⟩ s) (hs' : (service env cfg).Reach NoDeletes s s') (a : Addr)
    (j n : ℕ) (y : Session V) (hlate : s.procs.length ≤ j)
    (hj : s'.procs[j]? = some ⟨⟨n, .get a {}⟩, .ret (.found (some y))⟩) :
    (∀ k, Filed a k s.world → k ∈ y.events.map Prod.fst) ∧ (∀ k ∈ y.events.map Prod.fst, Filed a k s'.world) ∧
      ∀ (i m : ℕ) (config : GetSessionConfig) (x : Session V),
        s.procs[i]? = some ⟨⟨m, .get a config⟩, .ret (.found (some x))⟩ → x.events.map Prod.fst ⊆ y.events.map Prod.fst := by
  have hgrowing := growing_start cfg
  obtain ⟨hshown, hall⟩ := (hgrowing.reach hs).1.got hs' hj hlate
  refine ⟨hall rfl, fun k hk => ?_, fun i m config x hi k hk => ?_⟩
  · obtain ⟨z, hz, rfl⟩ := List.mem_map.mp hk
    exact hshown z hz
  · obtain ⟨z, hz, rfl⟩ := List.mem_map.mp hk
    obtain ⟨hearlier, -⟩ := hgrowing.got hs hi (Nat.zero_le _)
    exact hall rfl z.1 (hearlier z hz)

/-! ### Creating -/

section Creating
variable {env : Env V P} {cfg : ServerConfig V P}

/-- The call creates a session under the key. -/
def Call.creates (pk : Str) : Call V → Prop
  | .create app user _ sessionId fresh _ => Addr.pkStr ⟨app, user, chooseId sessionId fresh⟩ = pk
  | _ => False

/-- A row has been put under the key. -/
def Founds (pk : Str) : (q : Req V P) → Ans q → Prop
  | .put key _, x => key = ⟨.sessions, pk⟩ ∧ x = .ok ()
  | _, _ => False

theorem earns_writeRetryingOverload {R : (q : Req V P) → Ans q → Prop} {α : Type} {fn : Service V P α} (h : fn.Earns R)
    (b : Bool) (n : ℕ) : (writeRetryingOverload fn b n).Earns R := by
  induction n with
  | zero => exact h
  | succ n ih =>
    refine h.tryCatch fun e => ?_
    cases e with
    | deviceOverload => exact ih
    | maxErrorRate => exact ih
    | timeout =>
      dsimp only
      split_ifs
      · exact ih
      · trivial
    | _ => trivial

theorem earns_create {pk : Str} {c : Call V} (hc : c.creates pk) : (c.body env).Earns (Founds pk) := by
  cases c with
  | create app user state sessionId fresh now =>
    have hput : ∀ bins, (put (Addr.sessionPk ⟨app, user, chooseId sessionId fresh⟩) bins : Service V P Unit).Earns (Founds pk) :=
      fun bins (x : Except Err Unit) => by
        cases x with
        | ok u => exact .inl ⟨congrArg (Key.mk .sessions) hc, rfl⟩
        | error e => exact .inr trivial
    exact Prog.Earns.bind (Prog.Earns.bind (earns_writeRetryingOverload (hput _) _ _) _) _
  | _ => exact hc.elim

/-- A row is put where there is none. -/
theorem founds_take {pk : Str} {q : Req V P} {inst : ℕ} {x : Weather} {w : World V P}
    (h : Founds pk q (exec cfg inst x q w).1) :
    ¬ (w.store.get ⟨.sessions, pk⟩).isSome ∧ ((exec cfg inst x q w).2.store.get ⟨.sessions, pk⟩).isSome := by
  cases q with
  | put key bins =>
    obtain ⟨rfl, hans⟩ := h
    change (under x.whole (cfg.put ⟨.sessions, pk⟩ bins) w.store).1 = .ok () at hans
    change ¬ (w.store.get ⟨.sessions, pk⟩).isSome ∧
      ((under x.whole (cfg.put ⟨.sessions, pk⟩ bins) w.store).2.get ⟨.sessions, pk⟩).isSome
    rcases under_cases x.whole (cfg.put ⟨.sessions, pk⟩ bins) w.store with ⟨-, hu⟩ | ⟨e, -, herr, -⟩
    · rw [hu] at hans ⊢
      rcases cfg.put_cases ⟨.sessions, pk⟩ bins w.store with ⟨-, hput⟩ | ⟨hnone, -, hput⟩ | ⟨-, -, hput⟩
      · rw [hput] at hans
        cases hans
      · rw [hput, hnone]
        simp
      · rw [hput] at hans
        cases hans
    · rw [herr] at hans
      cases hans
  | _ => exact h.elim

/-- The right to have created the session. -/
def rowPrize (env : Env V P) (cfg : ServerConfig V P) (pk : Str) :
    (service env cfg).Prize (Founds pk) NoDeletes where
  competes l := l.call.creates pk
  Taken w := (w.store.get ⟨.sessions, pk⟩).isSome
  I := Growing cfg
  keep s a h ha := by
    refine ⟨(h.act ha).1, fun htaken => ?_⟩
    obtain ⟨r, hr⟩ := Option.isSome_iff_exists.mp htaken
    obtain ⟨r', hr', -⟩ := (h.act ha).2 _ r hr
    exact Option.isSome_iff_exists.mpr ⟨r', hr'⟩
  earns _ := earns_create
  take _ _ _ _ := founds_take

end Creating

/-- As long as no session is deleted, once a call that creates a session has returned, every
other call that creates one under the same key ends by raising, however calls, retries and
lost answers fall together. -/
theorem created_at_most_once (env : Env V P) (cfg : ServerConfig V P) (s : ServicePool V P)
    (hs : (service env cfg).Reach NoDeletes ⟨.empty, []⟩ s) (pk : Str) (i j : ℕ) (l l' : Issued V) (r : Reply V)
    (p : Service V P (Reply V)) (hi : s.procs[i]? = some ⟨l, .ret r⟩) (hj : s.procs[j]? = some ⟨l', p⟩) (hne : i ≠ j)
    (hl : l.call.creates pk) (hl' : l'.call.creates pk) (hp : p.finished) : ∃ e, p = .raise e := by
  cases p with
  | raise e => exact ⟨e, rfl⟩
  | ret r' => exact absurd ((rowPrize env cfg pk).once hs (growing_start cfg) rfl hi hj hl hl') hne
  | ask q k => cases hp

namespace Small

/-- A session is created twice at once, appended to and read; then it is read again while
more is appended to it. -/
def growing : ServicePool ℕ (Event ℕ) × ServicePool ℕ (Event ℕ) :=
  let again : Issued ℕ := ⟨1, founding.call⟩
  let s := (service env cfg).run ([.spawn founding, .spawn again] ++ List.replicate 5 (.step 0 .calm) ++ [.step 1 .calm] ++
    System.turns .calm 5 2 [⟨0, .append addr (event ['x'] 1) 1⟩, ⟨1, .get addr { numRecentEvents := some 1 }⟩]) ⟨.empty, []⟩
  (s, (service env cfg).run ([.spawn ⟨1, .get addr {}⟩, .step 4 .calm] ++
    System.turns .calm 5 5 [⟨0, .append addr (event ['y'] 2) 2⟩] ++ List.replicate 4 (.step 4 .calm)) s)

theorem reach_growing : (service env cfg).Reach NoDeletes ⟨.empty, []⟩ growing.1 ∧
    (service env cfg).Reach NoDeletes growing.1 growing.2 := by
  constructor <;> refine System.reach_run (System.permitted_of_forall fun a ha s => ?_)
  all_goals
    cases a with
    | step i x => trivial
    | spawn l =>
      simp only [System.turns, List.reduceReplicate, List.append_nil, List.cons_append, List.nil_append, List.mem_cons,
        Action.spawn.injEq, reduceCtorEq, List.not_mem_nil, or_self, or_false, false_or] at ha
      casesm* _ ∨ _ <;> subst_vars <;> trivial

end Small

open Sessions.Small in
theorem reads_never_go_back_small : ∃ x y,
    growing.1.procs[3]? = some ⟨⟨1, .get addr { numRecentEvents := some 1 }⟩, .ret (.found (some x))⟩ ∧
    growing.2.procs[4]? = some ⟨⟨1, .get addr {}⟩, .ret (.found (some y))⟩ ∧
    x.events.map Prod.fst = [eventKey env (event ['x'] 1) 1] ∧ y.events.length = 2 ∧
    x.events.map Prod.fst ⊆ y.events.map Prod.fst :=
  ⟨_, _, rfl, rfl, rfl, rfl, (reads_never_go_back env cfg growing.1 growing.2 reach_growing.1 reach_growing.2 addr 4 1 _
    (by decide) rfl).2.2 3 1 { numRecentEvents := some 1 } _ rfl⟩

open Sessions.Small in
theorem created_at_most_once_small :
    (∃ r, growing.1.procs[0]? = some ⟨founding, .ret r⟩) ∧
    ∃ p, growing.1.procs[1]? = some ⟨⟨1, founding.call⟩, p⟩ ∧ ∃ e, p = .raise e :=
  ⟨⟨_, rfl⟩, _, rfl, created_at_most_once env cfg growing.1 reach_growing.1 addr.pkStr 0 1 founding ⟨1, founding.call⟩ _ _
    rfl rfl (by decide) rfl rfl rfl⟩

end AdkAerospike.Sessions
