import AdkAerospike.Uri.Parse

/-! What `parse` accepts. It looks at the scheme, asks for a network location and for a
path that is more than slashes, and leaves the ports to `int`; whatever passes is taken
apart as it is. So it returns something sound exactly if the string does not slip through
in one of four ways. -/

namespace AdkAerospike.Uri

open Data

def hostName (hp : Str) : Str := (partition ':' hp).1

/-- The text of the port, empty if it is omitted. -/
def portText (hp : Str) : Str := (partition ':' hp).2.2

/-- The string passes the checks of `parse`. -/
structure Accepted (U : Interpreter) (parts : SplitResult) : Prop where
  scheme : parts.scheme = "aerospike".toList
  netloc : parts.netloc ≠ []
  path : ∃ c ∈ parts.path, c ≠ '/'
  ports : ∀ hp ∈ pieces parts.netloc, portText hp ≠ [] → ∃ p, int U (portText hp) = some p

/-- The host list is not empty, every host has a name, every port is in range and was
written in plain decimal digits, or omitted, and the namespace is all of the path. -/
structure Sound (parts : SplitResult) (r : AerospikeUri) : Prop where
  hosts : r.hosts ≠ []
  names : ∀ h ∈ r.hosts, h.1 ≠ []
  ports : ∀ h ∈ r.hosts, 1 ≤ h.2 ∧ h.2 ≤ 65535
  written : ∀ hp ∈ pieces parts.netloc, Digits (portText hp)
  path : parts.path = '/' :: r.namespaceName

/-- The ways to slip through. -/
inductive Slips (parts : SplitResult) : Prop
  | emptyHost (hp : Str) (hmem : hp ∈ pieces parts.netloc) (h : hostName hp = [])
  | oddPort (hp : Str) (hmem : hp ∈ pieces parts.netloc) (h : ¬ Digits (portText hp))
  | portRange (hp : Str) (hmem : hp ∈ pieces parts.netloc) (hne : portText hp ≠ [])
      (h : digitValue (portText hp) = 0 ∨ 65535 < digitValue (portText hp))
  | secondSlash (h : '/' ∈ parts.path.tail)

/-! ### What is returned -/

/-- What is made of a piece whose port can be read. -/
def hostValue (U : Interpreter) (hp : Str) : Str × ℤ :=
  (hostName hp, if portText hp = [] then defaultDbPort else (int U (portText hp)).getD 0)

section Accepted
variable {U : Interpreter} {parts : SplitResult}

theorem hostPort_eq (hp : Str) :
    hostPort U hp = if portText hp = [] then .ok (hostName hp, defaultDbPort)
      else match int U (portText hp) with
        | some p => .ok (hostName hp, p)
        | none => .error (.invalidLiteral (portText hp)) := rfl

theorem hostPort_of_read {hp : Str} (h : portText hp ≠ [] → ∃ p, int U (portText hp) = some p) :
    hostPort U hp = .ok (hostValue U hp) := by
  by_cases hport : portText hp = []
  · simp [hostPort_eq, hostValue, hport]
  · obtain ⟨p, hp'⟩ := h hport
    simp [hostPort_eq, hostValue, hport, hp']

theorem read_of_hostPort {hp : Str} {h : Str × ℤ} (hok : hostPort U hp = .ok h) (hne : portText hp ≠ []) :
    ∃ p, int U (portText hp) = some p := by
  cases hint : int U (portText hp) with
  | none => simp [hostPort_eq, hne, hint] at hok
  | some p => exact ⟨p, rfl⟩

theorem namespaceOf_eq_nil_iff (path : Str) : namespaceOf path = [] ↔ ∀ c ∈ path, c = '/' := by
  induction path with
  | nil => simp [namespaceOf, partition]
  | cons a path ih =>
    by_cases ha : a = '/'
    · have hstrip : namespaceOf (a :: path) = namespaceOf path := by simp [namespaceOf, ha]
      rw [hstrip, ih]
      simp [ha]
    · simp [namespaceOf, partition, ha]

/-- `parse` returns what it has assembled, or refuses. -/
theorem parse_eq_ok_iff {uri : Str} {r : AerospikeUri} (hsplit : urlsplit U uri = .ok parts) :
    parse U uri = .ok r ↔
      Accepted U parts ∧ r = assemble parts ((pieces parts.netloc).map (hostValue U)) := by
  have hpath : namespaceOf parts.path ≠ [] ↔ ∃ c ∈ parts.path, c ≠ '/' := by
    simp [namespaceOf_eq_nil_iff]
  have hvalues : (∀ hp ∈ pieces parts.netloc, portText hp ≠ [] → ∃ p, int U (portText hp) = some p) →
      (pieces parts.netloc).mapM (hostPort U) = .ok ((pieces parts.netloc).map (hostValue U)) :=
    fun hread => mapM_of_forall fun hp hmem => hostPort_of_read (hread hp hmem)
  rw [parse_of_split hsplit]
  constructor
  · intro h
    split_ifs at h with hscheme hnetloc hns
    cases hhosts : (pieces parts.netloc).mapM (hostPort U) with
    | error e =>
      rw [hhosts] at h
      cases h
    | ok hosts =>
      have hread : ∀ hp ∈ pieces parts.netloc, portText hp ≠ [] → ∃ p, int U (portText hp) = some p :=
        fun hp hmem hne => by
          obtain ⟨b, hb⟩ := ok_of_mapM hhosts hp hmem
          exact read_of_hostPort hb hne
      rw [hvalues hread] at h
      cases h
      exact ⟨⟨not_not.mp hscheme, hnetloc, hpath.mp hns, hread⟩, rfl⟩
  · rintro ⟨h, rfl⟩
    rw [if_neg (not_not.mpr h.scheme), if_neg h.netloc, if_neg (hpath.mpr h.path), hvalues h.ports]
    rfl

/-! ### What is sound -/

/-- What follows a network location begins with a delimiter. -/
theorem netlocEnd_of_splitNetloc {url netloc t : Str} {c : Char} (h : splitNetloc url = (netloc, c :: t))
    (hne : netloc ≠ []) : netlocEnd c = true := by
  unfold splitNetloc at h
  split at h
  · next rest =>
    have hhead := List.head?_dropWhile_not (!netlocEnd ·) rest
    rw [(Prod.mk.inj h).2] at hhead
    simpa using hhead
  · exact absurd (Prod.mk.inj h).1.symm hne

/-- Behind a network location the path is empty or begins with a slash. -/
theorem path_of_netloc {url : Str} (h : (components url).netloc ≠ []) :
    (components url).path = [] ∨ ∃ t, (components url).path = '/' :: t := by
  have hpath : (components url).path = (partition '?' (partition '#' (splitNetloc (splitScheme url).2).2).1).1 := rfl
  rw [hpath]
  cases hrest : (splitNetloc (splitScheme url).2).2 with
  | nil => exact .inl rfl
  | cons c t =>
    have hc : c = '/' ∨ c = '?' ∨ c = '#' := by simpa [netlocEnd] using netlocEnd_of_splitNetloc (Prod.ext rfl hrest) h
    rcases hc with rfl | rfl | rfl
    · exact .inr ⟨_, rfl⟩
    · exact .inl rfl
    · exact .inl rfl

theorem path_eq_iff {t : Str} : '/' :: t = '/' :: namespaceOf ('/' :: t) ↔ '/' ∉ t := by
  constructor
  · intro h hmem
    rw [List.cons_inj_right] at h
    rw [h] at hmem
    exact notMem_partition_fst '/' _ hmem
  · intro h
    rw [namespaceOf_slash h]

theorem Accepted.hostValue_snd (h : Accepted U parts) {hp : Str} (hmem : hp ∈ pieces parts.netloc)
    (hne : portText hp ≠ []) (hdigits : Digits (portText hp)) :
    (hostValue U hp).2 = (digitValue (portText hp) : ℤ) := by
  obtain ⟨p, hint⟩ := h.ports hp hmem hne
  have hread := int_digits (U := U) hne hdigits
  rw [hint] at hread
  split_ifs at hread
  simp [hostValue, hne, hint, Option.some.inj hread]

/-- Of an accepted string something sound is made unless it slips through. -/
theorem Accepted.sound_iff (h : Accepted U parts) {t : Str} (ht : parts.path = '/' :: t) :
    Sound parts (assemble parts ((pieces parts.netloc).map (hostValue U))) ↔ ¬ Slips parts := by
  have hns : parts.path = '/' :: namespaceOf parts.path ↔ '/' ∉ parts.path.tail := by
    rw [ht]
    exact path_eq_iff
  set r := assemble parts ((pieces parts.netloc).map (hostValue U)) with hr
  have hhosts : r.hosts = (pieces parts.netloc).map (hostValue U) := assemble_hosts parts _
  have hname : r.namespaceName = namespaceOf parts.path := assemble_namespaceName parts _
  clear_value r
  constructor
  · rintro hs (⟨hp, hmem, hempty⟩ | ⟨hp, hmem, hodd⟩ | ⟨hp, hmem, hne, hrange⟩ | hslash)
    · exact hs.names _ (hhosts ▸ List.mem_map_of_mem hmem) hempty
    · exact hodd (hs.written hp hmem)
    · have hport := hs.ports _ (hhosts ▸ List.mem_map_of_mem hmem)
      rw [h.hostValue_snd hmem hne (hs.written hp hmem)] at hport
      omega
    · exact hns.mp (hname ▸ hs.path) hslash
  · intro hno
    have hdigits : ∀ hp ∈ pieces parts.netloc, Digits (portText hp) := fun hp hmem => by
      by_contra hodd
      exact hno (.oddPort hp hmem hodd)
    refine ⟨?_, ?_, ?_, hdigits, ?_⟩
    · rw [hhosts, ne_eq, List.map_eq_nil_iff]
      exact List.splitOn_ne_nil ',' _
    · rw [hhosts, List.forall_mem_map]
      exact fun hp hmem hempty => hno (.emptyHost hp hmem hempty)
    · rw [hhosts, List.forall_mem_map]
      intro hp hmem
      by_cases hne : portText hp = []
      · simp [hostValue, hne, defaultDbPort]
      · rw [h.hostValue_snd hmem hne (hdigits hp hmem)]
        by_contra hrange
        exact hno (.portRange hp hmem hne (by omega))
    · rw [hname]
      exact hns.mpr fun hslash => hno (.secondSlash hslash)

theorem path_of_accepted {uri : Str} (hsplit : urlsplit U uri = .ok parts) (h : Accepted U parts) :
    ∃ t, parts.path = '/' :: t := by
  obtain rfl := components_of_urlsplit hsplit
  refine (path_of_netloc h.netloc).resolve_left fun hnil => ?_
  obtain ⟨c, hc, -⟩ := h.path
  simp [hnil] at hc

end Accepted

/-- `parse` raises or returns something sound, unless the string passes its checks and has
an empty host, a port that is not written in digits or out of range, or a second slash in
the path. -/
theorem parse_sound_iff (U : Interpreter) (uri : Str) :
    (∀ r, parse U uri = .ok r → ∃ parts, urlsplit U uri = .ok parts ∧ Sound parts r) ↔
      ¬ ∃ parts, urlsplit U uri = .ok parts ∧ Accepted U parts ∧ Slips parts := by
  cases hsplit : urlsplit U uri with
  | error e =>
    have hparse : ∀ r, parse U uri ≠ .ok r := by simp [parse, hsplit, Bind.bind, Except.bind]
    simp [hparse]
  | ok parts =>
    have hsound : Accepted U parts →
        (Sound parts (assemble parts ((pieces parts.netloc).map (hostValue U))) ↔ ¬ Slips parts) := fun h => by
      obtain ⟨t, ht⟩ := path_of_accepted hsplit h
      exact h.sound_iff ht
    simp only [parse_eq_ok_iff hsplit, Except.ok.injEq, exists_eq_left', not_and]
    constructor
    · intro hall h
      exact (hsound h).mp (hall _ ⟨h, rfl⟩)
    · rintro hno r ⟨h, rfl⟩
      exact (hsound h).mpr (hno h)

open Uri.Small in
/-- Two hosts without a name. -/
theorem parse_accepts_comma :
    ¬ ∀ r, parse python "aerospike://,/ns".toList = .ok r →
      ∃ parts, urlsplit python "aerospike://,/ns".toList = .ok parts ∧ Sound parts r := by
  intro h
  obtain ⟨parts, -, hsound⟩ := h
    { scheme := "aerospike".toList, hosts := [([], 3000), ([], 3000)], namespaceName := "ns".toList } rfl
  exact hsound.names ([], 3000) (by simp) rfl

end AdkAerospike.Uri
