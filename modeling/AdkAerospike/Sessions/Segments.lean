import AdkAerospike.Sessions.Concurrent.ExactlyOnce
import AdkAerospike.Sessions.Isolation
import AdkAerospike.Sessions.Manifest.Basic

/-! The segment records of a session. Whatever calls are made on the session and beside
it, in any order and in any weather, and also if it is deleted and created again: a
segment record holds a map of events and nothing else, and the map is not empty. -/

namespace AdkAerospike.Sessions

open Program Data Codec Keys

variable {V P : Type} {cfg : ServerConfig V P} {a : Addr} {w : World V P}

/-- If there is a record, it is one that appends have written. -/
def SegmentRecord (cfg : ServerConfig V P) (old : Option (Record V P)) : Prop :=
  ∀ r, old = some r → ∃ m, r = { events := some m } ∧ cfg.SegFits m ∧ m.entries ≠ []

theorem SegmentRecord.mapPut {old : Option (Record V P)} (h : SegmentRecord cfg old) (k : Str) (v : InlineEvent V P) :
    SegmentRecord cfg (cfg.onRecord [.mapPut k v] none old).2 := by
  rcases cfg.onRecord_snd [.mapPut k v] none old with hsame | ⟨hfits, hnew, -⟩
  · rw [hsame]
    exact h
  · rw [hnew]
    rintro r ⟨⟩
    cases old with
    | none => exact ⟨_, rfl, hfits, OMap.put_entries_ne_nil⟩
    | some r =>
      obtain ⟨m, rfl, -, -⟩ := h r rfl
      exact ⟨_, rfl, hfits, OMap.put_entries_ne_nil⟩

/-- All segment records of the session are such. -/
def SegmentRecords (cfg : ServerConfig V P) (a : Addr) (w : World V P) : Prop :=
  ∀ g, SegmentRecord cfg (w.store.get (a.segmentPk g))

theorem SegmentRecords.sound (h : SegmentRecords cfg a w) {r : Record V P} {c : ℕ} (hr : row a w = some r)
    (hc : r.cur = some c) : Sound cfg a w where
  live := ⟨r, hr, by simp [logOf, hr, hc]⟩
  segs g s hs := by
    obtain ⟨m, rfl, hfits, hne⟩ := h g s hs
    have hm : segment a w g = m := by simp [segment, hs]
    rw [hm]
    exact ⟨rfl, hfits, hne⟩

/-! ### Requests -/

section Requests
variable {q : Req V P} {k : Str} {v : InlineEvent V P}

theorem SegmentRecords.exec_of_notMem (h : SegmentRecords cfg a w) (hq : ∀ g, a.segmentPk g ∉ q.keys) (inst : ℕ)
    (x : Weather) : SegmentRecords cfg a (exec cfg inst x q w).2 := fun g => by
  rw [exec_get_of_notMem cfg inst x (hq g)]
  exact h g

theorem SegmentRecords.append (h : SegmentRecords cfg a w) (hq : AppendRequest a k v q) (inst : ℕ) (x : Weather) :
    SegmentRecords cfg a (exec cfg inst x q w).2 := by
  cases hq with
  | put g' =>
    intro g
    rcases under_get x.whole (cfg.operate (a.segmentPk g') [.mapPut k v] none) w.store (a.segmentPk g) with hu | hu
    · exact hu.symm ▸ h g
    · show SegmentRecord cfg ((under x.whole (cfg.operate (a.segmentPk g') [.mapPut k v] none) w.store).2.get _)
      rw [hu, ServerConfig.operate_get]
      split_ifs with hg
      · exact (h g').mapPut k v
      · exact h g
  | size g' =>
    rw [exec_readOnly rfl rfl]
    exact h
  | bump n => exact h.exec_of_notMem (by simp [Req.keys]) inst x
  | batch g' d now =>
    intro g
    rcases under_get x.whole (fun σ => ((.ok (cfg.batchWrite x.record ((a.segmentPk g', [.mapPut k v]) ::
      stateWrites a d now) σ).1 : Except Err (List ℤ)), (cfg.batchWrite x.record ((a.segmentPk g', [.mapPut k v]) ::
        stateWrites a d now) σ).2)) w.store (a.segmentPk g) with hu | hu
    · exact hu.symm ▸ h g
    · refine hu.symm ▸ ServerConfig.batchWrite_preserves x.record (fun ops hops old hold => ?_) (h g)
      rcases List.mem_cons.mp hops with heq | hstate
      · obtain rfl : ops = [.mapPut k v] := congrArg Prod.snd heq
        exact hold.mapPut k v
      · exact absurd (List.mem_map_of_mem hstate) (segmentPk_notMem_stateWrites d now g)
  | selectCur => exact h.exec_of_notMem (fun g => List.not_mem_nil) inst x
  | cacheGet => exact h.exec_of_notMem (fun g => List.not_mem_nil) inst x
  | cacheSet n => exact h.exec_of_notMem (fun g => List.not_mem_nil) inst x

theorem SegmentRecords.create (h : SegmentRecords cfg a w) (hq : CreateRequest a q) (inst : ℕ) (x : Weather) :
    SegmentRecords cfg a (exec cfg inst x q w).2 := by
  refine h.exec_of_notMem (fun g hmem => ?_) inst x
  cases hq with
  | row d now => exact segmentPk_ne_sessionPk a g (List.mem_singleton.mp hmem)
  | cacheSet => cases hmem
  | follow hq =>
    cases hq with
    | app d => cases congrArg Key.set (List.mem_singleton.mp hmem)
    | user d => cases congrArg Key.set (List.mem_singleton.mp hmem)
    | manifest => exact manifestPk_ne_segmentPk a g (List.mem_singleton.mp hmem).symm
    | read keys => cases hmem

theorem SegmentRecords.get {env : Env V P} (h : SegmentRecords cfg a w) (hq : GetRequest env a q) (inst : ℕ) (x : Weather) :
    SegmentRecords cfg a (exec cfg inst x q w).2 := by
  cases hq with
  | records => exact h.exec_of_notMem (fun g => List.not_mem_nil) inst x
  | cacheSet n => exact h.exec_of_notMem (fun g => List.not_mem_nil) inst x
  | segment hq =>
    obtain ⟨g, N, T, rfl⟩ := hq
    rw [exec_readOnly (by simp) (by simp)]
    exact h

theorem SegmentRecords.delete (h : SegmentRecords cfg a w) (hq : DeleteRequest a q) (inst : ℕ) (x : Weather) :
    SegmentRecords cfg a (exec cfg inst x q w).2 := by
  cases hq with
  | get => exact h.exec_of_notMem (fun g => List.not_mem_nil) inst x
  | segment g' =>
    intro g
    rcases under_get x.whole (ServerConfig.remove (a.segmentPk g')) w.store (a.segmentPk g) with hu | hu
    · exact hu.symm ▸ h g
    · show SegmentRecord cfg ((under x.whole (ServerConfig.remove (a.segmentPk g')) w.store).2.get _)
      rw [hu, ServerConfig.remove_get]
      split_ifs
      · intro r hr
        cases hr
      · exact h g
  | row => exact h.exec_of_notMem (by simp [Req.keys]) inst x
  | cachePop => exact h.exec_of_notMem (fun g => List.not_mem_nil) inst x
  | manifest => exact h.exec_of_notMem (by simp [Req.keys, (manifestPk_ne_segmentPk a _).symm]) inst x

end Requests

/-! ### Runs -/

/-- Calls on the session are started on any instance, and calls on other sessions whose
identifiers tell their records from those of this one; requests are answered in any
order and in any weather. -/
def AnyCall (a : Addr) (_ : Calls V P) : Action (Issued V) Weather → Prop
  | .spawn l => ∀ b, l.call.on b ∨ l.call = .delete b → b = a ∨ a.Named ∧ b.Named
  | .step _ _ => True

section Runs
variable {env : Env V P} {b : Addr}

/-- The request may be one on the session, or one that writes none of its segments. -/
def Harmless (env : Env V P) (a : Addr) (q : Req V P) : Prop :=
  (∃ k v, AppendRequest a k v q) ∨ CreateRequest a q ∨ GetRequest env a q ∨ DeleteRequest a q ∨
    ∀ g, a.segmentPk g ∉ q.keys

theorem SegmentRecords.harmless {q : Req V P} (h : SegmentRecords cfg a w) (hq : Harmless env a q) (inst : ℕ)
    (x : Weather) : SegmentRecords cfg a (exec cfg inst x q w).2 := by
  rcases hq with ⟨k, v, hq⟩ | hq | hq | hq | hq
  · exact h.append hq inst x
  · exact h.create hq inst x
  · exact h.get hq inst x
  · exact h.delete hq inst x
  · exact h.exec_of_notMem hq inst x

theorem RecordOf.ne_segmentPk {key : Key} (h : RecordOf b key) (ha : a.Named) (hb : b.Named) (hne : b ≠ a) (g : ℕ) :
    key ≠ a.segmentPk g := by
  cases h with
  | row => exact sessionPk_ne_segmentPk hb ha g
  | segment g' => exact segmentPk_ne_segmentPk hb ha hne g' g
  | manifest => exact manifestPk_ne_segmentPk a g
  | app => exact ne_of_set nofun
  | user => exact ne_of_set nofun

theorem GetRequest.recordOf {q : Req V P} {key : Key} (h : GetRequest env a q) (hkey : key ∈ q.keys) :
    RecordOf a key := by
  cases h with
  | records => cases hkey
  | cacheSet n => cases hkey
  | segment h =>
    obtain ⟨g, N, T, rfl⟩ := h
    rw [List.mem_singleton.mp hkey]
    exact .segment g

/-- A call on a session is harmless for itself and for sessions told apart from it. -/
theorem uses_harmless {l : Issued V} (s : Calls V P) (hok : AnyCall a s (.spawn l)) :
    (l.call.body env).Uses (Harmless env a) := by
  have apart : ∀ {q : Req V P} {b : Addr}, a.Named → b.Named → b ≠ a → (∀ key ∈ q.keys, RecordOf b key) →
      Harmless env a q := fun ha hb hne hq =>
    .inr (.inr (.inr (.inr fun g hmem => (hq _ hmem).ne_segmentPk ha hb hne g rfl)))
  obtain ⟨inst, c⟩ := l
  cases c with
  | create app user state sessionId fresh now =>
    refine ((uses_createSession app user state sessionId fresh now).mono fun q hq => ?_).bind fun _ => trivial
    by_cases hb : (⟨app, user, chooseId sessionId fresh⟩ : Addr) = a
    · exact .inr (.inl (hb ▸ hq))
    · obtain ⟨hna, hnb⟩ := (hok _ (.inl rfl)).resolve_left hb
      exact apart hna hnb hb fun _ => hq.recordOf
  | append b e clock =>
    refine ((uses_persistEvent env b e clock).mono fun q hq => ?_).bind fun _ => trivial
    by_cases hb : b = a
    · exact .inl ⟨_, _, hb ▸ hq⟩
    · obtain ⟨hna, hnb⟩ := (hok _ (.inl rfl)).resolve_left hb
      exact apart hna hnb hb fun _ => hq.recordOf
  | get b config =>
    refine ((uses_getSession env b config).mono fun q hq => ?_).bind fun _ => trivial
    by_cases hb : b = a
    · exact .inr (.inr (.inl (hb ▸ hq)))
    · obtain ⟨hna, hnb⟩ := (hok _ (.inl rfl)).resolve_left hb
      exact apart hna hnb hb fun _ => hq.recordOf
  | delete b =>
    refine ((uses_deleteSession b).mono fun q hq => ?_).bind fun _ => trivial
    by_cases hb : b = a
    · exact .inr (.inr (.inr (.inl (hb ▸ hq))))
    · obtain ⟨hna, hnb⟩ := (hok _ (.inr rfl)).resolve_left hb
      exact apart hna hnb hb fun _ => hq.recordOf
  | listForUser app user =>
    refine ((uses_listSessionsForUser app user).mono fun q hq => ?_).bind fun _ => trivial
    refine .inr (.inr (.inr (.inr fun g hmem => ?_)))
    cases hq with
    | get => cases hmem
    | rows keys => cases hmem
    | manifest id => exact manifestPk_ne_segmentPk a g (List.mem_singleton.mp hmem).symm
  | listForApp app => exact ⟨.inr (.inr (.inr (.inr fun g => List.not_mem_nil))), fun y => by cases y <;> trivial⟩

/-- In every store reached, the segment records are sound and no record is too big. -/
theorem segmentRecords_of_reach {s : Calls V P} (hs : (service env cfg).Reach (AnyCall a) ⟨.empty, []⟩ s) :
    SegmentRecords cfg a s.world ∧ cfg.Fitting s.world.store := by
  refine (hs.uses (F := fun _ q => Harmless env a q) (I := fun w => SegmentRecords cfg a w ∧ cfg.Fitting w.store)
    (fun s _ hok => uses_harmless s hok) ?_ ⟨fun _ _ hr => (nomatch hr), fun _ _ hr => (nomatch hr)⟩ rfl).1
  rintro s i x l q - - hq ⟨h, hfit⟩
  exact ⟨h.harmless hq l.inst x, fitting_exec l.inst x q s.world hfit⟩

end Runs

end AdkAerospike.Sessions
