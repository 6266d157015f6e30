import AdkAerospike.Sessions.Service
import AdkAerospike.Sessions.Records
import AdkAerospike.Sessions.Log

/-! The event log of a session, read off its row and its segment records, and
what the writes of an append do to it: a `map_put` into a segment, the guarded
increment of `cur`, and the state writes beside them. -/

namespace AdkAerospike.Sessions

open Program Data Codec Keys

variable {V P : Type}

/-- The world with another store. -/
def World.withStore (w : World V P) (σ : Store V P) : World V P := { w with store := σ }

@[simp] theorem World.withStore_store (w : World V P) (σ : Store V P) : (w.withStore σ).store = σ :=
  rfl

@[simp] theorem World.withStore_cache (w : World V P) (σ : Store V P) :
    (w.withStore σ).cache = w.cache := rfl

@[simp] theorem World.setCache_store (w : World V P) (i : ℕ) (pk : Str) (n : Option ℕ) :
    (w.setCache i pk n).store = w.store := rfl

@[simp] theorem World.setCache_self (w : World V P) (i : ℕ) (pk : Str) (n : Option ℕ) :
    (w.setCache i pk n).cache i pk = n := by simp [World.setCache]

theorem World.setCache_of_ne (w : World V P) {i i' : ℕ} {pk pk' : Str} (n : Option ℕ)
    (h : i' ≠ i ∨ pk' ≠ pk) : (w.setCache i pk n).cache i' pk' = w.cache i' pk' := by
  by_cases hi : i' = i
  · subst hi
    simp [World.setCache, Function.update_of_ne (h.resolve_left (by simp))]
  · simp [World.setCache, Function.update_of_ne hi]

/-! ### Views -/

section View
variable (a : Addr) (w : World V P)

/-- The session's row. -/
def row : Option (Record V P) := w.store.get a.sessionPk

/-- The event map of a segment record; a missing record counts as empty. -/
def segment (g : ℕ) : OMap Str (InlineEvent V P) :=
  ((w.store.get (a.segmentPk g)).bind (·.events)).getD .empty

def logOf : Log Str (InlineEvent V P) := ⟨((row a w).bind (·.cur)).getD 0, segment a w⟩

end View

@[simp] theorem segmentPk_ne_sessionPk (a : Addr) (g : ℕ) : a.segmentPk g ≠ a.sessionPk := fun h =>
  segmentKey_ne_sessionKey (congrArg Key.key h)

@[simp] theorem segmentPk_inj (a : Addr) {g g' : ℕ} : a.segmentPk g = a.segmentPk g' ↔ g = g' :=
  ⟨fun h => segmentKey_right_inj.mp (congrArg Key.key h), fun h => h ▸ rfl⟩

variable {cfg : ServerConfig V P} {a : Addr} {w w' : World V P}

theorem segment_congr {g : ℕ} (h : w'.store.get (a.segmentPk g) = w.store.get (a.segmentPk g)) :
    segment a w' g = segment a w g := by
  unfold segment
  rw [h]

/-- The log depends on the row and the segments only. -/
theorem logOf_congr (hrow : row a w' = row a w)
    (hseg : ∀ g, w'.store.get (a.segmentPk g) = w.store.get (a.segmentPk g)) :
    logOf a w' = logOf a w := by
  have hall : segment a w' = segment a w := funext fun g => segment_congr (hseg g)
  unfold logOf
  rw [hrow, hall]

/-- A segment record holds an event map and nothing else. -/
def ServerConfig.SegFits (cfg : ServerConfig V P) (m : OMap Str (InlineEvent V P)) : Prop :=
  cfg.Fits { events := some m }

instance (m : OMap Str (InlineEvent V P)) : Decidable (cfg.SegFits m) :=
  inferInstanceAs (Decidable (cfg.Fits _))

/-- The records of a session that exists are as the service writes them: a row
with an index, and segments that hold some events within the size limit. -/
structure Sound (cfg : ServerConfig V P) (a : Addr) (w : World V P) : Prop where
  live : ∃ r, row a w = some r ∧ r.cur = some (logOf a w).cur
  segs : ∀ g r, w.store.get (a.segmentPk g) = some r →
    r = { events := some (segment a w g) } ∧ cfg.SegFits (segment a w g) ∧
      (segment a w g).entries ≠ []

theorem Sound.congr (h : Sound cfg a w) (hrow : row a w' = row a w)
    (hseg : ∀ g, w'.store.get (a.segmentPk g) = w.store.get (a.segmentPk g)) : Sound cfg a w' where
  live := by
    rw [hrow, logOf_congr hrow hseg]
    exact h.live
  segs g r hr := by
    rw [segment_congr (hseg g)]
    exact h.segs g r (hseg g ▸ hr)

/-- A segment is missing, or holds a map that fits. -/
theorem Sound.segment_cases (h : Sound cfg a w) (g : ℕ) :
    w.store.get (a.segmentPk g) = none ∧ segment a w g = .empty ∨
      w.store.get (a.segmentPk g) = some { events := some (segment a w g) } ∧
        cfg.SegFits (segment a w g) := by
  rcases hr : w.store.get (a.segmentPk g) with _ | r
  · exact .inl ⟨rfl, by simp [segment, hr]⟩
  · obtain ⟨heq, hfits, -⟩ := h.segs g r hr
    exact .inr ⟨congrArg some heq, hfits⟩

/-- A segment without events has no record. -/
theorem Sound.get_of_empty (h : Sound cfg a w) {g : ℕ} (hg : segment a w g = .empty) :
    w.store.get (a.segmentPk g) = none := by
  cases hr : w.store.get (a.segmentPk g) with
  | none => rfl
  | some r =>
    obtain ⟨-, -, hne⟩ := h.segs g r hr
    rw [hg] at hne
    exact absurd rfl hne

/-! ### Putting an event -/

/-- `map_put` of an event into a segment. -/
theorem Sound.onRecord_mapPut (h : Sound cfg a w) (g : ℕ) (k : Str) (v : InlineEvent V P) :
    cfg.onRecord [.mapPut k v] none (w.store.get (a.segmentPk g)) =
      if cfg.SegFits ((segment a w g).put k v) then
        (.ok {}, some { events := some ((segment a w g).put k v) })
      else (.error .recordTooBig, w.store.get (a.segmentPk g)) := by
  rcases h.segment_cases g with ⟨hr, hseg⟩ | ⟨hr, -⟩
  · rw [hr, hseg]
    rfl
  · rw [hr]
    rfl

/-- The store after an event went into segment `g`. -/
theorem Sound.put (h : Sound cfg a w) (w' : World V P) {g : ℕ} {k : Str} {v : InlineEvent V P}
    (hfits : cfg.SegFits ((segment a w g).put k v)) (hrow : row a w' = row a w)
    (hself : w'.store.get (a.segmentPk g) = some { events := some ((segment a w g).put k v) })
    (hother : ∀ g' ≠ g, w'.store.get (a.segmentPk g') = w.store.get (a.segmentPk g')) :
    logOf a w' = (logOf a w).put g k v ∧ Sound cfg a w' := by
  have hseg : segment a w' g = (segment a w g).put k v := by simp [segment, hself]
  have hcur : (logOf a w').cur = (logOf a w).cur := by simp [logOf, hrow]
  refine ⟨Log.ext hcur (funext fun g' => ?_), ⟨?_, fun g' r hr => ?_⟩⟩
  · by_cases hg : g' = g
    · subst hg
      rw [Log.put_seg_self]
      exact hseg
    · rw [Log.put_seg_of_ne _ hg]
      exact segment_congr (hother g' hg)
  · rw [hrow, hcur]
    exact h.live
  · by_cases hg : g' = g
    · subst hg
      rw [hself, Option.some.injEq] at hr
      rw [hseg, ← hr]
      exact ⟨rfl, hfits, OMap.put_entries_ne_nil⟩
    · rw [segment_congr (hother g' hg)]
      exact h.segs g' r (hother g' hg ▸ hr)

/-! ### Advancing `cur` -/

/-- The guarded increment of `_roll_over`. -/
theorem onRecord_bump (r : Record V P) {c n : ℕ} (hc : r.cur = some c) :
    cfg.onRecord [.incrementCur, .readCur] (some n) (some r) =
      if c = n then
        if cfg.Fits { r with cur := some (n + 1) } then
          (.ok { cur := some (n + 1) }, some { r with cur := some (n + 1) })
        else (.error .recordTooBig, some r)
      else (.error .filteredOut, some r) := by
  by_cases hcn : c = n
  · subst hcn
    simp [ServerConfig.onRecord, ServerConfig.commitRecord, hc, Op.apply, Op.write, Op.read,
      Op.writes, Op.creates]
  · simp [ServerConfig.onRecord, hc, hcn]

theorem Sound.bump (h : Sound cfg a w) (w' : World V P) {r : Record V P} {c : ℕ}
    (hrow : row a w' = some { r with cur := some c })
    (hother : ∀ g, w'.store.get (a.segmentPk g) = w.store.get (a.segmentPk g)) :
    logOf a w' = { logOf a w with cur := c } ∧ Sound cfg a w' := by
  have hcur : (logOf a w').cur = c := by simp [logOf, hrow]
  refine ⟨Log.ext hcur (funext fun g => segment_congr (hother g)), ⟨⟨_, hrow, by rw [hcur]⟩, ?_⟩⟩
  intro g r' hr
  rw [segment_congr (hother g)]
  exact h.segs g r' (hother g ▸ hr)

/-! ### State writes -/

/-- Operations that write a state map or the update time. -/
def Op.stateOnly : Op V P → Bool
  | .mapPutItems _ | .writeTs _ => true
  | _ => false

theorem apply_stateOnly {ops : List (Op V P)} (hops : ∀ op ∈ ops, op.stateOnly) (r : Record V P) :
    ∃ s t, (Op.apply ops r).1 = { r with state := s, ts := t } := by
  suffices ∀ x : Record V P × OpResult V P,
      ∃ s t, (ops.foldl (fun x op => (op.write x.1, op.read x.1 x.2)) x).1 =
        { x.1 with state := s, ts := t } from this (r, {})
  induction ops with
  | nil => exact fun x => ⟨_, _, rfl⟩
  | cons op ops ih =>
    intro x
    obtain ⟨s, t, h⟩ := ih (fun o ho => hops o (List.mem_cons_of_mem _ ho))
      (op.write x.1, op.read x.1 x.2)
    rw [List.foldl_cons, h]
    have hop := hops op (List.mem_cons_self ..)
    cases op with
    | mapPutItems d => exact ⟨s, t, rfl⟩
    | writeTs u => exact ⟨s, t, rfl⟩
    | _ => cases hop

/-- The delta for a record, of those that an append to `a` writes. -/
def Deltas.at (a : Addr) (d : Deltas V) (R : Key) : Dict V :=
  if R = a.sessionPk then d.session
  else if R = appPk a.app then d.app
  else if R = userPk a.app a.user then d.user
  else ∅

theorem mem_stateWrites {d : Deltas V} {now : ℚ} {x : Key × List (Op V P)} :
    x ∈ stateWrites a d now ↔
      (d.session.entries ≠ [] ∧ x = (a.sessionPk, [.mapPutItems d.session, .writeTs now])) ∨
      (d.app.entries ≠ [] ∧ x = (appPk a.app, [.mapPutItems d.app])) ∨
      (d.user.entries ≠ [] ∧ x = (userPk a.app a.user, [.mapPutItems d.user])) := by
  unfold stateWrites
  rw [List.mem_append, List.mem_append, or_assoc]
  refine or_congr ?_ (or_congr ?_ ?_) <;> split_ifs with h <;> simp_all

theorem stateWrites_nodup (a : Addr) (d : Deltas V) (now : ℚ) :
    ((stateWrites a d now : List (Key × List (Op V P))).map Prod.fst).Nodup := by
  have h₁ : a.sessionPk ≠ appPk a.app := ne_of_set nofun
  have h₂ : a.sessionPk ≠ userPk a.app a.user := ne_of_set nofun
  have h₃ : appPk a.app ≠ userPk a.app a.user := ne_of_set nofun
  unfold stateWrites
  split_ifs <;> simp [h₁, h₂, h₃]

theorem stateWrites_stateOnly {d : Deltas V} {now : ℚ} {x : Key × List (Op V P)}
    (hx : x ∈ stateWrites a d now) : ∀ op ∈ x.2, op.stateOnly := by
  rcases mem_stateWrites.mp hx with ⟨-, rfl⟩ | ⟨-, rfl⟩ | ⟨-, rfl⟩ <;> simp [Op.stateOnly]

theorem segmentPk_notMem_stateWrites (d : Deltas V) (now : ℚ) (g : ℕ) :
    a.segmentPk g ∉ (stateWrites a d now : List (Key × List (Op V P))).map Prod.fst := by
  intro h
  obtain ⟨x, hx, hkey⟩ := List.mem_map.mp h
  rcases mem_stateWrites.mp hx with ⟨-, rfl⟩ | ⟨-, rfl⟩ | ⟨-, rfl⟩
  · exact segmentPk_ne_sessionPk a g hkey.symm
  · cases congrArg Key.set hkey
  · cases congrArg Key.set hkey

/-- A state write to the row keeps everything but state and update time. -/
theorem onRecord_stateOnly {ops : List (Op V P)} (hops : ∀ op ∈ ops, op.stateOnly)
    (r : Record V P) :
    ∃ s t, (cfg.onRecord ops none (some r)).2 = some { r with state := s, ts := t } := by
  rcases cfg.onRecord_snd ops none (some r) with h | ⟨-, h, -⟩
  · exact ⟨r.state, r.ts, h⟩
  · obtain ⟨s, t, hst⟩ := apply_stateOnly hops r
    exact ⟨s, t, by rw [h, Option.getD_some, hst]⟩

/-- The state writes of a batch keep the row's index and the segments. -/
theorem row_batchWrite_stateWrites {r : Record V P} {σ : Store V P} (hr : σ.get a.sessionPk = some r)
    (faults : ℕ → Fault) (d : Deltas V) (now : ℚ) :
    ∃ s t, (cfg.batchWrite faults (stateWrites a d now) σ).2.get a.sessionPk =
      some { r with state := s, ts := t } := by
  refine ServerConfig.batchWrite_preserves
    (I := fun x => ∃ s t, x = some { r with state := s, ts := t }) faults ?_ ⟨r.state, r.ts, hr⟩
  rintro ops hmem x ⟨s, t, rfl⟩
  obtain ⟨s', t', h⟩ := onRecord_stateOnly (stateWrites_stateOnly hmem) { r with state := s, ts := t }
  exact ⟨s', t', h⟩

/-- A change of the row that keeps its index keeps the log. -/
theorem Sound.restate (h : Sound cfg a w) (w' : World V P) {r r' : Record V P}
    (hr : row a w = some r) (hrow : row a w' = some r') (hc : r'.cur = r.cur)
    (hother : ∀ g, w'.store.get (a.segmentPk g) = w.store.get (a.segmentPk g)) :
    logOf a w' = logOf a w ∧ Sound cfg a w' := by
  have hcur : (logOf a w').cur = (logOf a w).cur := by simp [logOf, hr, hrow, hc]
  refine ⟨Log.ext hcur (funext fun g => segment_congr (hother g)), ⟨⟨_, hrow, ?_⟩, ?_⟩⟩
  · obtain ⟨r₀, hr₀, hc₀⟩ := h.live
    rw [hr, Option.some.injEq] at hr₀
    rw [hcur, ← hc₀, ← hr₀, hc]
  · intro g r' hr'
    rw [segment_congr (hother g)]
    exact h.segs g r' (hother g ▸ hr')

/-! ### Batches of reads -/

theorem foldStatus_readStatus (r : Option (Record V P)) :
    foldStatus (ServerConfig.readStatus .none r) = r := by
  cases r <;> rfl

/-- A dict built from results that depend on their key only. -/
theorem bins_foldl (f : Key → Option (Record V P)) (keys : List Key)
    (out : FMap Key (Option (Record V P))) (key : Key) :
    bins (keys.foldl (fun out k => out.insert k (f k)) out) key =
      if key ∈ keys then f key else bins out key := by
  induction keys generalizing out with
  | nil => simp
  | cons k keys ih =>
    rw [List.foldl_cons, ih]
    by_cases hk : key ∈ keys
    · simp [hk]
    · by_cases hkk : key = k
      · subst hkk
        simp [bins, hk]
      · simp [bins, hk, hkk]

theorem byKey_eq (keys : List Key) (f : Key → ℤ × Option (Record V P)) :
    byKey keys (keys.map f) = keys.foldl (fun out k => out.insert k (foldStatus (f k))) ∅ := by
  rw [byKey, List.zip_map_right, List.foldl_map]
  suffices ∀ (out : FMap Key (Option (Record V P))),
      (keys.zip keys).foldl (fun out x => out.insert x.1 (foldStatus (f x.2))) out =
        keys.foldl (fun out k => out.insert k (foldStatus (f k))) out from this ∅
  induction keys with
  | nil => exact fun _ => rfl
  | cons k keys ih => exact fun out => ih _

/-- A batch read in calm weather returns what is stored. -/
theorem bins_byKey {keys : List Key} (f : Key → ℤ × Option (Record V P)) {key : Key}
    (hkey : key ∈ keys) : bins (byKey keys (keys.map f)) key = foldStatus (f key) := by
  rw [byKey_eq, bins_foldl fun k => foldStatus (f k), if_pos hkey]

theorem bins_foldl_zip_of_notMem {keys : List Key} {results : List (ℤ × Option (Record V P))}
    {key : Key} (hk : key ∉ keys) (out : FMap Key (Option (Record V P))) :
    bins ((keys.zip results).foldl (fun out x => out.insert x.1 (foldStatus x.2)) out) key =
      bins out key := by
  induction keys generalizing results out with
  | nil => rfl
  | cons k keys ih =>
    rw [List.mem_cons, not_or] at hk
    cases results with
    | nil => rfl
    | cons r results =>
      rw [List.zip_cons_cons, List.foldl_cons, ih hk.2, bins, FMap.get_insert_of_ne _ _ hk.1, bins]

/-- A key shows the result that stands at its last place. -/
theorem bins_byKey_last {keys : List Key} {results : List (ℤ × Option (Record V P))}
    (hlen : keys.length = results.length) {i : ℕ} {key : Key} {s : ℤ × Option (Record V P)}
    (hk : keys[i]? = some key) (hs : results[i]? = some s)
    (hlast : ∀ j, i < j → keys[j]? ≠ some key) : bins (byKey keys results) key = foldStatus s := by
  unfold byKey
  generalize (∅ : FMap Key (Option (Record V P))) = out
  induction keys generalizing results i out with
  | nil => cases hk
  | cons k keys ih =>
    obtain ⟨r, results, rfl⟩ : ∃ r rs, results = r :: rs := by
      cases results with
      | nil => cases hlen
      | cons r rs => exact ⟨r, rs, rfl⟩
    rw [List.zip_cons_cons, List.foldl_cons]
    cases i with
    | zero =>
      obtain rfl : k = key := Option.some.inj hk
      obtain rfl : r = s := Option.some.inj hs
      have hnot : k ∉ keys := fun hmem => by
        obtain ⟨j, hj⟩ := List.mem_iff_getElem?.mp hmem
        exact hlast (j + 1) (Nat.succ_pos j) hj
      rw [bins_foldl_zip_of_notMem hnot, bins, FMap.get_insert_self]
      rfl
    | succ i =>
      exact ih (Nat.succ.inj hlen) hk hs (fun j hj => hlast (j + 1) (Nat.succ_lt_succ hj)) _

/-- Every record shown is one of the results under its key. -/
theorem mem_zip_of_bins_byKey {keys : List Key} {results : List (ℤ × Option (Record V P))} {key : Key} {r : Record V P}
    (h : bins (byKey keys results) key = some r) : ∃ code, (key, code, some r) ∈ keys.zip results := by
  suffices hall : ∀ (l : List (Key × ℤ × Option (Record V P))) out,
      bins (l.foldl (fun out x => out.insert x.1 (foldStatus x.2)) out) key = some r →
        (∃ code, (key, code, some r) ∈ l) ∨ bins out key = some r from
    (hall _ ∅ h).resolve_right (by simp [bins])
  intro l
  induction l with
  | nil => exact fun out h => .inr h
  | cons x l ih =>
    intro out h
    rcases ih _ h with ⟨code, hmem⟩ | hout
    · exact .inl ⟨code, List.mem_cons_of_mem _ hmem⟩
    obtain ⟨k, code, r'⟩ := x
    by_cases hk : key = k
    · subst hk
      rw [bins, FMap.get_insert_self, Option.join_some, foldStatus] at hout
      split_ifs at hout
      dsimp only at hout
      subst hout
      exact .inl ⟨code, List.mem_cons_self ..⟩
    · rw [bins, FMap.get_insert_of_ne _ _ hk] at hout
      exact .inr hout

theorem batchRead_none (keys : List Key) (σ : Store V P) :
    ServerConfig.batchRead (fun _ => .none) keys σ =
      keys.map fun k => ServerConfig.readStatus .none (σ.get k) := by
  rw [ServerConfig.batchRead]
  induction keys with
  | nil => rfl
  | cons k keys ih => simpa using ih

end AdkAerospike.Sessions
