import AdkAerospike.Sessions.Alone.Create
import AdkAerospike.Sessions.Concurrent.Reader

/-! Appends and reads of one session from any number of instances, interleaved at
single requests and under faults. Every call is safe in a role of its own, and the
roles respect each other because the event keys are distinct. -/

namespace AdkAerospike.Sessions

open Program Data Codec Keys

variable {V P : Type}

/-- A pool of calls on the service. -/
abbrev Calls (V P : Type) := Pool (Req V P) Ans Err (Reply V) (World V P) (Issued V)

/-- The key and value that a call stores, if it is an append that is persisted. -/
def Call.stores (env : Env V P) : Call V → Option (Str × InlineEvent V P)
  | .append _ e clock =>
    if e.isPartial then none else some (eventKey env e clock, eventToInlineDict env.model e)
  | _ => none

/-- Calls append to or read the session `a`, appends have keys of their own, and
each request meets admissible weather. -/
def Orderly (env : Env V P) (a : Addr) (s : Calls V P) : Action (Issued V) Weather → Prop
  | .spawn l =>
    ((∃ e clock, l.call = .append a e clock) ∨ ∃ config, l.call = .get a config) ∧
      ∀ k v, l.call.stores env = some (k, v) →
        ∀ l' ∈ s.calls, ∀ v', l'.call.stores env ≠ some (k, v')
  | .step i x => ∀ q, System.next s i = some q → Admissible q x

/-! ### Roles -/

inductive Role (V P : Type) where
  | writer (k : Str) (v : InlineEvent V P)
  | reader (obs : Set (Str × InlineEvent V P)) (config : GetSessionConfig)
  | idle

namespace Role

/-- The keys whose slots the others leave alone. -/
def own : Role V P → Set Str
  | writer k _ => {k}
  | reader obs _ => {k | ∃ v, (k, v) ∈ obs}
  | idle => ∅

/-- The keys whose slots this party leaves alone. -/
def spares : Role V P → Set Str
  | writer k _ => {k}ᶜ
  | _ => Set.univ

def setting (cfg : ServerConfig V P) (a : Addr) (γ : Role V P) (l : Issued V) :
    Setting (Req V P) Ans (World V P) Weather := party cfg a l.inst γ.own γ.spares

def post (env : Env V P) (cfg : ServerConfig V P) (a : Addr) :
    Role V P → Except Err (Reply V) → World V P → Prop
  | writer k v => Appended cfg a k v
  | reader obs config => fun r w => config = {} → Listed env obs r w
  | idle => fun _ _ => True

end Role

/-- The append that stores `v` under `k` has returned normally. -/
def Returned (env : Env V P) (s : Calls V P) (k : Str) (v : InlineEvent V P) : Prop :=
  ∃ (j : ℕ) (l : Issued V) (r : Reply V),
    s.procs[j]? = some ⟨l, .ret r⟩ ∧ l.call.stores env = some (k, v)

/-- The role a call plays. A read may watch what had returned when it started. -/
def Plays (env : Env V P) (a : Addr) (s : Calls V P) : Role V P → Call V → Prop
  | .writer k v, c => c.stores env = some (k, v)
  | .reader obs config, c => c = .get a config ∧ ∀ k v, (k, v) ∈ obs → Returned env s k v
  | .idle, c => c.stores env = none ∧ ∀ config, c ≠ .get a config

/-- The invariant of a run. -/
structure Running (env : Env V P) (cfg : ServerConfig V P) (a : Addr) (γ : ℕ → Role V P)
    (s : Calls V P) : Prop where
  good : Good cfg a s.world
  safe : System.AllSafe (Role.setting cfg a) (Role.post env cfg a) γ s
  plays : ∀ i l, s.calls[i]? = some l → Plays env a s (γ i) l.call
  distinct : ∀ (i j : ℕ) (l l' : Issued V) k v v', s.calls[i]? = some l → s.calls[j]? = some l' →
    l.call.stores env = some (k, v) → l'.call.stores env = some (k, v') → i = j
  started : ∀ k, (∀ l ∈ s.calls, ∀ v, l.call.stores env ≠ some (k, v)) → Absent a k s.world

theorem calls_getElem {s : Calls V P} {i : ℕ} {l : Issued V} {p : Service V P (Reply V)}
    (hi : s.procs[i]? = some ⟨l, p⟩) : s.calls[i]? = some l := by
  rw [Pool.calls, List.getElem?_map, hi]
  rfl

section Run
variable {env : Env V P} {cfg : ServerConfig V P} {a : Addr} {γ : ℕ → Role V P} {s : Calls V P}
  {k : Str} {v : InlineEvent V P} {w₀ : World V P}

/-- An append that has returned is in place. -/
theorem Running.stored (h : Running env cfg a γ s) (hr : Returned env s k v) :
    ∃ g, Stored cfg a k v g s.world := by
  obtain ⟨j, l, r, hj, hst⟩ := hr
  have hplays := h.plays j l (calls_getElem hj)
  have hsafe := (h.safe j _ hj).ret_post
  rcases hγ : γ j with ⟨k', v'⟩ | ⟨obs, config⟩ | _ <;> rw [hγ] at hplays hsafe
  · have heq : some (k', v') = some (k, v) := hplays.symm.trans hst
    obtain ⟨rfl, rfl⟩ := Prod.mk.inj (Option.some.inj heq)
    exact hsafe
  · rw [show l.call = _ from hplays.1] at hst
    cases hst
  · rw [show l.call.stores env = none from hplays.1] at hst
    cases hst

theorem Running.watching (h : Running env cfg a γ s) :
    Watching cfg a {kv | Returned env s kv.1 kv.2} s.world := by
  refine ⟨h.good, fun k v hkv => ?_⟩
  obtain ⟨g, hg⟩ := h.stored hkv
  exact ⟨g, hg.here⟩

theorem Returned.act (h : Returned env s k v) (x : Action (Issued V) Weather) :
    Returned env ((service env cfg).act x s) k v := by
  obtain ⟨j, l, r, hj, hst⟩ := h
  exact ⟨j, l, r, System.finished_act hj rfl, hst⟩

theorem Plays.act {ρ : Role V P} {c : Call V} (h : Plays env a s ρ c)
    (x : Action (Issued V) Weather) : Plays env a ((service env cfg).act x s) ρ c := by
  cases ρ with
  | writer k v => exact h
  | reader obs config => exact ⟨h.1, fun k v hkv => (h.2 k v hkv).act x⟩
  | idle => exact h

/-! ### Starting a call -/

/-- The role in which a call starts. -/
def roleOf (env : Env V P) (s : Calls V P) (c : Call V) : Role V P :=
  match c.stores env, c with
  | some (k, v), _ => .writer k v
  | none, .get _ config => .reader {kv | Returned env s kv.1 kv.2} config
  | none, _ => .idle

theorem roleOf_reader {c : Call V} {obs : Set (Str × InlineEvent V P)} {config : GetSessionConfig}
    (h : roleOf env s c = .reader obs config) : obs = {kv | Returned env s kv.1 kv.2} := by
  unfold roleOf at h
  split at h <;> cases h
  rfl

theorem Running.safe_start (h : Running env cfg a γ s) {l : Issued V} (hl : Orderly env a s (.spawn l)) :
    Safe (Role.setting cfg a (roleOf env s l.call) l) (Role.post env cfg a (roleOf env s l.call))
      (l.call.body env) s.world ∧ Plays env a s (roleOf env s l.call) l.call := by
  obtain ⟨inst, c⟩ := l
  obtain ⟨⟨e, clock, rfl⟩ | ⟨config, rfl⟩, hnew⟩ := hl
  · by_cases hp : e.isPartial
    · have hst : (Call.append a e clock).stores env = none := by simp [Call.stores, hp]
      have hrole : roleOf env s (.append a e clock) = .idle := by simp [roleOf, hst]
      have hbody : (Call.append a e clock).body env = .ret .done := by
        simp [Call.body, persistEvent, hp, Prog.bind]
      rw [hrole, hbody]
      refine ⟨fun _ _ => trivial, hst, fun config hget => ?_⟩
      cases hget
    · have hwhole : e.isPartial = false := by simpa using hp
      have hst : (Call.append a e clock).stores env =
          some (eventKey env e clock, eventToInlineDict env.model e) := by simp [Call.stores, hp]
      have hrole : roleOf env s (.append a e clock) =
          .writer (eventKey env e clock) (eventToInlineDict env.model e) := by simp [roleOf, hst]
      rw [hrole]
      exact ⟨safe_append env hwhole h.good (h.started _ (hnew _ _ hst)), hst⟩
  · exact ⟨safe_get config h.watching, rfl, fun k v hkv => hkv⟩

theorem Running.spawn (h : Running env cfg a γ s) {l : Issued V} (hl : Orderly env a s (.spawn l)) :
    Running env cfg a (Function.update γ s.procs.length (roleOf env s l.call))
      ((service env cfg).act (.spawn l) s) := by
  obtain ⟨hsafe, hplays⟩ := h.safe_start hl
  have hlen : s.calls.length = s.procs.length := List.length_map _
  refine ⟨h.good, h.safe.spawn hsafe, fun i l' hi => ?_, fun i j l₁ l₂ k v v' hi hj hk hk' => ?_,
    fun k hk => ?_⟩
  · rw [System.calls_spawn] at hi
    rcases System.getElem?_concat hi with ⟨hi, hlt⟩ | ⟨rfl, rfl⟩
    · rw [Function.update_of_ne (by omega)]
      exact (h.plays i l' hi).act _
    · rw [hlen, Function.update_self]
      exact hplays.act _
  · rw [System.calls_spawn] at hi hj
    have hnew := hl.2
    rcases System.getElem?_concat hi with ⟨hi', -⟩ | ⟨rfl, rfl⟩ <;>
      rcases System.getElem?_concat hj with ⟨hj', -⟩ | ⟨rfl, rfl⟩
    · exact h.distinct i j l₁ l₂ k v v' hi' hj' hk hk'
    · exact absurd hk (hnew k v' hk' l₁ (List.mem_of_getElem? hi') v)
    · exact absurd hk' (hnew k v hk l₂ (List.mem_of_getElem? hj') v')
    · rfl
  · rw [System.calls_spawn] at hk
    exact h.started k fun l' hl' => hk l' (List.mem_append_left _ hl')

/-! ### A request of one call -/

/-- Roles respect each other: no call leaves alone less than another one owns. -/
theorem Running.compatible (h : Running env cfg a γ s) {i : ℕ} {l : Issued V} {q : Req V P}
    {k : Ans q → Service V P (Reply V)} (hi : s.procs[i]? = some ⟨l, .ask q k⟩) {j : ℕ}
    {l' : Issued V} (hj : s.calls[j]? = some l') (hne : j ≠ i) : (γ j).own ⊆ (γ i).spares := by
  have hpi := h.plays i l (calls_getElem hi)
  have hpj := h.plays j l' hj
  rcases hγi : γ i with ⟨k', v'⟩ | ⟨obs, config⟩ | _
  · rw [hγi] at hpi
    intro key hkey heq
    cases heq
    rcases hγj : γ j with ⟨k'', v''⟩ | ⟨obs, config⟩ | _ <;> rw [hγj] at hpj hkey
    · obtain rfl : k' = k'' := hkey
      exact hne (h.distinct j i _ _ k' v'' v' hj (calls_getElem hi) hpj hpi)
    · -- what a read watches had returned, and call `i` has not
      obtain ⟨v'', hobs⟩ := hkey
      obtain ⟨m, l'', r, hm, hst⟩ := hpj.2 _ _ hobs
      have hmi := h.distinct m i _ _ k' v'' v' (calls_getElem hm) (calls_getElem hi) hst hpi
      rw [hmi, hi] at hm
      cases hm
    · cases hkey
  · exact fun _ _ => trivial
  · exact fun _ _ => trivial

theorem Running.step (h : Running env cfg a γ s) {i : ℕ} {x : Weather}
    (hx : Orderly env a s (.step i x)) : Running env cfg a γ ((service env cfg).act (.step i x) s) := by
  rcases System.act_cases (Y := service env cfg) (.step i x) s with
    ⟨l, hl, -⟩ | ⟨j, c, -, -, hact⟩ | ⟨j, c, l, q, k, heq, hj, hnext, hact⟩
  · cases hl
  · rw [hact]
    exact h
  · cases heq
    have hcalls := System.calls_step (Y := service env cfg) i x s
    obtain ⟨hguar, -⟩ := h.safe i _ hj s.world (Keeps.refl _) x (hx q hnext)
    have hkeep : Keeps cfg a (γ i).spares s.world (exec cfg l.inst x q s.world).2 := hguar
    have hsafe := h.safe.step (Y := service env cfg) hj rfl (hx q hnext) fun j p hne hp w w' hw =>
      Keeps.mono hw (h.compatible hj (calls_getElem hp) hne)
    refine ⟨?_, ?_, fun j l' hl' => ?_, ?_, fun key hkey => ?_⟩
    · rw [hact]
      exact (hkeep h.good).1
    · rw [hact]
      exact hsafe
    · rw [hcalls] at hl'
      exact (h.plays j l' hl').act _
    · rw [hcalls]
      exact h.distinct
    · rw [hcalls] at hkey
      have habs := h.started key hkey
      have hspare : key ∈ (γ i).spares := by
        have hpi := h.plays i l (calls_getElem hj)
        rcases hγi : γ i with ⟨k', v'⟩ | ⟨obs, config⟩ | _
        · rw [hγi] at hpi
          rintro rfl
          exact hkey l (List.mem_of_getElem? (calls_getElem hj)) v' hpi
        · trivial
        · trivial
      rw [hact]
      intro g
      exact ((hkeep h.good).2.2 key hspare g).trans (habs g)

/-! ### Whole runs -/

theorem Created.good (h : Created env cfg a w₀) : Good cfg a w₀ := by
  obtain ⟨hblank, hcache⟩ := h.blank
  obtain ⟨hsound, hcur, hempty⟩ := hblank.sound cfg
  refine ⟨hsound, fun g _ => hempty g, fun i n hn => ?_⟩
  rw [hcache i n hn]
  exact Nat.zero_le _

theorem running_init (h : Created env cfg a w₀) (γ : ℕ → Role V P) :
    Running env cfg a γ (⟨w₀, []⟩ : Calls V P) := by
  have hnone : ∀ {β : Type} (i : ℕ), ([] : List β)[i]? = none := fun _ => rfl
  refine ⟨h.good, fun i p hi => ?_, fun i l hi => ?_, fun i j l l' k v v' hi => ?_, fun k _ g => ?_⟩
  · cases hi
  · cases hi
  · cases hi
  · change (segment a w₀ g).lookup k = none
    rw [(h.blank.1.sound cfg).2.2 g]
    rfl

theorem running_of_reach (h : Created env cfg a w₀)
    (hs : (service env cfg).Reach (Orderly env a) ⟨w₀, []⟩ s) : ∃ γ, Running env cfg a γ s := by
  refine hs.invariant (I := fun s => ∃ γ, Running env cfg a γ s)
    ⟨fun _ => .idle, running_init h _⟩ ?_
  rintro s x ⟨γ, hγ⟩ hx
  cases x with
  | spawn l => exact ⟨_, hγ.spawn hx⟩
  | step i x => exact ⟨γ, hγ.step hx⟩

/-- Reads that start after an append has returned watch its event. -/
theorem watched_of_reach {s' : Calls V P} (h : Running env cfg a γ s) (hr : Returned env s k v)
    (hs : (service env cfg).Reach (Orderly env a) s s') :
    ∃ γ', Running env cfg a γ' s' ∧ ∀ (j : ℕ) obs config, s.procs.length ≤ j →
      j < s'.procs.length → γ' j = .reader obs config → (k, v) ∈ obs := by
  have hinv := hs.invariant (I := fun s' => Returned env s' k v ∧ ∃ γ', Running env cfg a γ' s' ∧
    ∀ (j : ℕ) obs config, s.procs.length ≤ j → j < s'.procs.length →
      γ' j = .reader obs config → (k, v) ∈ obs)
    ⟨hr, γ, h, fun j _ _ hle hlt => absurd hlt (not_lt.mpr hle)⟩ ?_
  · exact hinv.2
  rintro t x ⟨hrt, γ', hγ, hobs⟩ hx
  cases x with
  | spawn l =>
    refine ⟨hrt.act _, _, hγ.spawn hx, fun j obs config hle hlt hrole => ?_⟩
    have hlt : j < t.procs.length + 1 := by simpa [System.act] using hlt
    by_cases hj : j = t.procs.length
    · subst hj
      rw [Function.update_self] at hrole
      rw [roleOf_reader hrole]
      exact hrt
    · rw [Function.update_of_ne hj] at hrole
      exact hobs j obs config hle (by omega) hrole
  | step i x =>
    refine ⟨hrt.act _, γ', hγ.step hx, fun j obs config hle hlt => hobs j obs config hle ?_⟩
    have hlen := congrArg List.length (System.calls_step (Y := service env cfg) i x t)
    simp only [Pool.calls, List.length_map] at hlen
    omega

end Run

/-- Exactly-once appends: from the moment an append has returned, its key is in
exactly one segment, at most at the stored index; every unfiltered read that starts
afterwards and returns lists the event exactly once; and no cached index is ever
past the stored one. -/
theorem append_exactly_once (env : Env V P) (cfg : ServerConfig V P) (a : Addr) (w₀ : World V P)
    (hw₀ : Created env cfg a w₀) (s : Calls V P)
    (hs : (service env cfg).Reach (Orderly env a) ⟨w₀, []⟩ s) :
    (∀ inst n, s.world.cache inst a.pkStr = some n → n ≤ (logOf a s.world).cur) ∧
    ∀ (i inst : ℕ) (e : Event V) (clock : ℚ) (r : Reply V), s.procs[i]? = some ⟨⟨inst, .append a e clock⟩, .ret r⟩ →
      e.isPartial = false →
      (∃ g ≤ (logOf a s.world).cur, ∀ g', eventKey env e clock ∈ (segment a s.world g').keys ↔ g' = g) ∧
      ∀ s', (service env cfg).Reach (Orderly env a) s s' → ∀ (j inst' : ℕ) (reply : Reply V), s.procs.length ≤ j →
        s'.procs[j]? = some ⟨⟨inst', .get a {}⟩, .ret reply⟩ →
        ∃ session, reply = .found (some session) ∧
          session.events.filter (fun x => x.1 = eventKey env e clock) =
            [(eventKey env e clock, e)] := by
  obtain ⟨γ, hγ⟩ := running_of_reach hw₀ hs
  refine ⟨hγ.good.cached, fun i inst e clock r hi hwhole => ?_⟩
  have hret : Returned env s (eventKey env e clock) (eventToInlineDict env.model e) :=
    ⟨i, _, r, hi, by simp [Call.stores, hwhole]⟩
  refine ⟨?_, fun s' hs' j inst' reply hle hj => ?_⟩
  · obtain ⟨g, hst⟩ := hγ.stored hret
    refine ⟨g, hst.le, fun g' => ⟨fun hmem => ?_, fun hg => ?_⟩⟩
    · by_contra hne
      have hnone := hst.here.2 g' hne
      exact OMap.lookup_eq_none_iff.mp hnone hmem
    · rw [hg]
      exact OMap.mem_keys_iff.mpr ⟨_, hst.here.1⟩
  · obtain ⟨γ', hγ', hobs⟩ := watched_of_reach hγ hret hs'
    have hplays := hγ'.plays j _ (calls_getElem hj)
    have hpost := (hγ'.safe j _ hj).ret_post
    have hlt : j < s'.procs.length := (List.getElem?_eq_some_iff.mp hj).1
    rcases hrole : γ' j with ⟨k, v⟩ | ⟨obs, config⟩ | _ <;> rw [hrole] at hplays hpost
    · cases hplays
    · cases hplays.1
      obtain ⟨session, hreply, hlist⟩ := hpost rfl
      refine ⟨session, hreply, ?_⟩
      rw [hlist _ _ (hobs j obs {} hle hlt hrole), eventFromInlineDict_eventToInlineDict]
    · exact absurd rfl (hplays.2 {})

namespace Small

def first : Event ℕ := event ['x'] 5

/-- The request is carried out, and its answer is lost. -/
def lost : Weather := ⟨.timeout true, fun _ => .none⟩

theorem admissible_lost (q : Req ℕ (Event ℕ)) : Admissible q lost :=
  ⟨trivial, fun _ => trivial, by cases q <;> first | trivial | exact fun _ => rfl⟩

def second : Event ℕ := event ['y'] 4

/-- Two appends of two instances overlap; the first put of one of them is applied, and
made again as its answer is lost. -/
def overlapping : Calls ℕ (Event ℕ) := (service env cfg).run
  [.spawn ⟨0, .append addr first 0⟩, .spawn ⟨1, .append addr second 0⟩, .step 0 .calm, .step 1 .calm, .step 0 lost,
    .step 1 .calm, .step 1 .calm, .step 1 .calm, .step 0 .calm, .step 1 .calm, .step 0 .calm] ⟨created, []⟩

/-- A read of another instance after them. -/
def readBack : Calls ℕ (Event ℕ) := (service env cfg).run
  [.spawn ⟨2, .get addr {}⟩, .step 2 .calm, .step 2 .calm, .step 2 .calm] overlapping

theorem orderly_step (s : Calls ℕ (Event ℕ)) (i : ℕ) : Orderly env addr s (.step i .calm) :=
  fun q _ => admissible_calm q

theorem reach_overlapping : (service env cfg).Reach (Orderly env addr) ⟨created, []⟩ overlapping := by
  refine System.reach_run ⟨⟨.inl ⟨first, 0, rfl⟩, fun _ _ _ _ h => nomatch h⟩, ⟨.inl ⟨second, 0, rfl⟩, ?_⟩,
    orderly_step _ 0, orderly_step _ 1, fun q _ => admissible_lost q, orderly_step _ 1, orderly_step _ 1, orderly_step _ 1,
    orderly_step _ 0, orderly_step _ 1, orderly_step _ 0, trivial⟩
  intro k v hk l hl v' hl'
  rw [List.mem_singleton.mp hl] at hl'
  have hkeys : eventKey env second 0 ≠ eventKey env first 0 := by decide +kernel
  obtain ⟨rfl, -⟩ := Prod.mk.inj (Option.some.inj hk)
  exact hkeys (Prod.mk.inj (Option.some.inj hl')).1.symm

theorem reach_readBack : (service env cfg).Reach (Orderly env addr) overlapping readBack :=
  System.reach_run ⟨⟨.inr ⟨{}, rfl⟩, fun _ _ h => nomatch h⟩, orderly_step _ 2,
    orderly_step _ 2, orderly_step _ 2, trivial⟩

/-- A fragment of a streamed event. -/
def fragment : Event ℕ := { first with isPartial := true }

def fragmented : Calls ℕ (Event ℕ) := (service env cfg).act (.spawn ⟨0, .append addr fragment 0⟩)
  ⟨created, []⟩

end Small

open Sessions.Small in
/-- The event that was put twice is there once. -/
theorem append_exactly_once_small :
    (∃ g ≤ (logOf addr overlapping.world).cur, ∀ g',
      eventKey env first 0 ∈ (segment addr overlapping.world g').keys ↔ g' = g) ∧
    ∃ session, readBack.procs[2]? = some ⟨⟨2, .get addr {}⟩, .ret (.found (some session))⟩ ∧
      session.events.length = 2 ∧
      session.events.filter (fun x => x.1 = eventKey env first 0) = [(eventKey env first 0, first)] := by
  obtain ⟨-, happend⟩ := append_exactly_once env cfg addr created created_created overlapping reach_overlapping
  obtain ⟨hseg, hget⟩ := happend 0 0 first 0 .done rfl rfl
  obtain ⟨session, hreply, hone⟩ := hget readBack reach_readBack 2 2 _ (by decide) rfl
  obtain rfl := Option.some.inj (Reply.found.inj hreply)
  exact ⟨hseg, _, rfl, rfl, hone⟩

open Sessions.Small in
/-- An append of a fragment returns and stores nothing. -/
theorem fragment_append_returns_unstored :
    Created env cfg addr created ∧
    (service env cfg).Reach (Orderly env addr) ⟨created, []⟩ fragmented ∧
    fragmented.procs[0]? = some ⟨⟨0, .append addr fragment 0⟩, .ret .done⟩ ∧
    ¬ ∃ g, eventKey env fragment 0 ∈ (segment addr fragmented.world g).keys := by
  refine ⟨created_created, .act .init ⟨.inl ⟨fragment, 0, rfl⟩, fun _ _ h => nomatch h⟩, rfl, ?_⟩
  rintro ⟨g, hg⟩
  have hnone : created.store.get (addr.segmentPk g) = none := created_created.blank.1.segs g
  have hempty : segment addr fragmented.world g = .empty := by
    change segment addr created g = .empty
    simp [segment, hnone]
  rw [hempty] at hg
  cases hg

end AdkAerospike.Sessions
