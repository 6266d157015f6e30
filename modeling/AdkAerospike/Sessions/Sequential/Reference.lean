import AdkAerospike.Sessions.Alone.Oversized
import AdkAerospike.Sessions.Manifest.Consistent
import AdkAerospike.Sessions.Sequential.Reappend

/-! What the session service is for. A session is one list of events and one map of
state; an app and a user of an app each have a map that their sessions share. There
are no records, segments, indices or caches here, only what calls may be told. The
service is compared with this model in `Sessions.Sequential.Refinement`. -/

namespace AdkAerospike.Sessions

open Program Data Codec Keys

variable {V P : Type}

/-- A map of state, as its lookups. -/
abbrev Bindings (V : Type) := Str → Option V

/-- A session: its events in the order of their appends, each beside its map key, and
its own state. -/
structure Conversation (V : Type) where
  events : List (Str × Event V)
  state : Bindings V

/-- The live sessions in the order of their creation, and the shared maps. -/
structure Reference (V : Type) where
  live : List Addr
  sessions : Addr → Option (Conversation V)
  apps : Str → Bindings V
  users : Str → Str → Bindings V

/-! ### State -/

/-- The keys of a delta without prefix, written over a session's own map. -/
def Bindings.writeOwn (delta : Dict V) (m : Bindings V) : Bindings V := fun k =>
  if scopeOf k = .session then (delta.get k).or (m k) else m k

/-- The keys of a delta with the given prefix, written over a shared map. -/
def Bindings.writeShared (scope : Str) (delta : Dict V) (m : Bindings V) : Bindings V := fun k =>
  (delta.get (scope ++ k)).or (m k)

namespace Reference

def empty : Reference V := ⟨[], fun _ => none, fun _ _ => none, fun _ _ _ => none⟩

/-- A delta written over the maps that the sessions of an app and of a user share. -/
def share (M : Reference V) (app user : Str) (delta : Dict V) : Reference V :=
  { M with
    apps := Function.update M.apps app (Bindings.writeShared StateScope.app delta (M.apps app))
    users := Function.update M.users app (Function.update (M.users app) user
      (Bindings.writeShared StateScope.user delta (M.users app user))) }

/-- The session as it is from now on, or none. -/
def put (M : Reference V) (a : Addr) (s : Option (Conversation V)) : Reference V :=
  { M with sessions := Function.update M.sessions a s }

/-- The state that a session shows: its own, and the shared maps under their prefixes. -/
def shown (M : Reference V) (a : Addr) (own : Bindings V) : Bindings V := fun k =>
  match scopeOf k with
  | .session => own k
  | .app => M.apps a.app (k.drop StateScope.app.length)
  | .user => M.users a.app a.user (k.drop StateScope.user.length)
  | .temp => none

/-- The live sessions of a user, oldest first. -/
def sessionsOf (M : Reference V) (app user : Str) : List Addr :=
  M.live.filter fun a => a.app = app ∧ a.user = user

end Reference

/-! ### Calls -/

/-- The key that all events of time `t` or later are at or above. -/
def since (env : Env V P) (t : ℚ) : Str := padInt 20 (env.micros t) ++ [':']

/-- What a read lists: the events past the cutoff, and of these the last ones. -/
def GetSessionConfig.cut (env : Env V P) (config : GetSessionConfig) (events : List (Str × Event V)) :
    List (Str × Event V) :=
  Log.recent config.numRecentEvents
    (events.filter fun x => config.afterTimestamp.all fun t => since env t ≤ x.1)

/-- What a call tells of a session. -/
structure Shown (V : Type) where
  addr : Addr
  events : List (Str × Event V)
  state : Bindings V

/-- What a call tells. -/
inductive Answer (V : Type) where
  | session (s : Shown V)
  | found (s : Option (Shown V))
  | sessions (l : List (Shown V))
  | done

/-- A session object but for its update time. -/
def Session.shown (s : Session V) : Shown V := ⟨s.addr, s.events, FMap.get s.state⟩

def Reply.answer : Reply V → Answer V
  | .session s => .session s.shown
  | .found s => .found (s.map Session.shown)
  | .sessions l => .sessions (l.map Session.shown)
  | .done => .done

/-- The reference model's answer to a call, and the model after it. -/
def Call.reference (env : Env V P) : Call V → Reference V → Except Err (Answer V) × Reference V
  | .create app user state sessionId fresh _, M =>
    let a : Addr := ⟨app, user, chooseId sessionId fresh⟩
    match M.sessions a with
    | some _ => (.error .recordExists, M)
    | none =>
      let own := Bindings.writeOwn state fun _ => none
      let M' := { (M.share app user state).put a (some ⟨[], own⟩) with live := M.live ++ [a] }
      (.ok (.session ⟨a, [], M'.shown a own⟩), M')
  | .append a e clock, M =>
    match M.sessions a with
    | none => (.error .recordNotFound, M)
    | some s => (.ok .done, (M.share a.app a.user e.stateDelta).put a
        (some ⟨s.events ++ [(eventKey env e clock, e)], Bindings.writeOwn e.stateDelta s.state⟩))
  | .get a config, M =>
    (.ok (.found ((M.sessions a).map fun s => ⟨a, config.cut env s.events, M.shown a s.state⟩)), M)
  | .listForUser app user, M =>
    (.ok (.sessions ((M.sessionsOf app user).map fun a => ⟨a, [], fun _ => none⟩)), M)
  | .listForApp _, M => (.ok .done, M)
  | .delete a, M => (.ok .done, { M.put a none with live := M.live.filter (· ≠ a) })

/-! ### The calls that are compared -/

/-- Identifiers without separators; appends of events that are not partial to sessions
that exist, under ascending keys, each small enough for a record of its own; and room
for what is written to the rows and to the shared state. -/
def Call.Allowed (env : Env V P) (cfg : ServerConfig V P) (w : World V P) : Call V → Prop
  | .create app user state sessionId fresh now =>
    let a : Addr := ⟨app, user, chooseId sessionId fresh⟩
    let d := partitionState state
    a.Named ∧ (row a w = none → cfg.Fits (newRow a d.session now : Record V P) ∧
      ∀ x ∈ sharedWrites a d, (cfg.onRecord x.2 none (w.store.get x.1)).1 ≠ .error .recordTooBig)
  | .append a e clock =>
    let k := eventKey env e clock
    let v := eventToInlineDict env.model e
    let d := partitionState e.stateDelta
    a.Named ∧ (row a w).isSome ∧ e.isPartial = false ∧ (∀ x ∈ (logOf a w).history, x.1 < k) ∧
      cfg.SegFits (OMap.empty.put k v) ∧ StateFits cfg a d (eventTime e clock) w ∧
      (¬ cfg.SegFits ((segment a w (logOf a w).cur).put k v) →
        ∀ r, row a (stated cfg a d (eventTime e clock) w) = some r → Grows cfg r ((logOf a w).cur + 1))
  | .get a _ => a.Named
  | .delete a => a.Named
  | .listForUser app user => Plain app ∧ Plain user
  | .listForApp _ => False

/-- A new session's id goes into its user's manifest. -/
def Call.Enlists (cfg : ServerConfig V P) (w : World V P) : Call V → Prop
  | .create app user _ sessionId fresh _ =>
    row ⟨app, user, chooseId sessionId fresh⟩ w = none →
      (cfg.onRecord [.listAppend (chooseId sessionId fresh)] none (w.store.get (manifestPk app user))).1 ≠
        .error .recordTooBig
  | _ => True

/-! ### Merged state -/

section State
variable {M : Reference V} {a : Addr}

/-- The keys without prefix are a session's own. -/
def Own (m : Bindings V) : Prop := ∀ k, scopeOf k ≠ .session → m k = none

theorem own_none : Own (fun _ => none : Bindings V) := fun _ _ => rfl

theorem Own.writeOwn {m : Bindings V} (h : Own m) (delta : Dict V) : Own (m.writeOwn delta) := fun k hk => by
  rw [Bindings.writeOwn, if_neg hk, h k hk]

theorem get_update_session (m : Dict V) (delta : Dict V) :
    FMap.get (FMap.update m (partitionState delta).session) = Bindings.writeOwn delta (FMap.get m) := by
  funext k
  rw [FMap.get_update, get_partition_session, Bindings.writeOwn]
  split_ifs <;> rfl

/-- The keys without prefix of a new session's state. -/
theorem get_session_new (state : Dict V) :
    FMap.get (partitionState state).session = Bindings.writeOwn state fun _ => none := by
  funext k
  rw [get_partition_session, Bindings.writeOwn, Option.or_none]

theorem get_update_app (m : Dict V) (delta : Dict V) :
    FMap.get (FMap.update m (partitionState delta).app) =
      Bindings.writeShared StateScope.app delta (FMap.get m) := by
  funext k
  rw [FMap.get_update, get_partition_app, Bindings.writeShared]

theorem get_update_user (m : Dict V) (delta : Dict V) :
    FMap.get (FMap.update m (partitionState delta).user) =
      Bindings.writeShared StateScope.user delta (FMap.get m) := by
  funext k
  rw [FMap.get_update, get_partition_user, Bindings.writeShared]

/-- What `_merge_state` makes of three maps is what the model shows of them. -/
theorem get_mergeState_shown {app user session : Dict V} {own : Bindings V} (happ : FMap.get app = M.apps a.app)
    (huser : FMap.get user = M.users a.app a.user) (hsession : FMap.get session = own) (hown : Own own) :
    FMap.get (mergeState app user session) = M.shown a own := by
  funext k
  rw [get_mergeState, happ, huser, hsession, Reference.shown]
  cases hs : scopeOf k with
  | session =>
    unfold scopeOf at hs
    split_ifs at hs with htemp happk huserk
    rw [if_neg huserk, if_neg happk, Option.or_none]
  | app =>
    obtain ⟨t, rfl⟩ := scopeOf_eq_app hs
    rw [hown _ (by simp [hs]), Option.none_or]
    rfl
  | user =>
    obtain ⟨t, rfl⟩ := scopeOf_eq_user hs
    rw [hown _ (by simp [hs]), Option.none_or]
    rfl
  | temp =>
    obtain ⟨t, rfl⟩ := scopeOf_eq_temp hs
    rw [hown _ (by simp [hs]), Option.none_or]
    rfl

end State

end AdkAerospike.Sessions
