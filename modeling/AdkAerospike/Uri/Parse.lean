import AdkAerospike.Uri.Library

/-! `aerospike://` URIs (`_internal/uri.py`). The credentials are split off by the
library at the last `@`, and the hosts are split by hand behind the last `@` of the same
network location; a list of hosts that holds no `@` is therefore read back whatever the
password is. -/

namespace AdkAerospike.Uri

open Data

structure AerospikeUri where
  scheme : Str
  hosts : List (Str × ℤ)
  namespaceName : Str
  username : Option Str := none
  password : Option Str := none
  setPrefix : Str := "adk_".toList
  tls : Bool := false
  extras : Dict Str := ∅

def defaultDbPort : ℤ := 3000

def validSchemes : List Str := ["aerospike".toList]

/-- `path.lstrip("/").split("/", 1)[0]`. -/
def namespaceOf (path : Str) : Str := (partition '/' (path.dropWhile (· = '/'))).1

/-- `netloc.rsplit("@", 1)[-1].split(",")`. -/
def pieces (netloc : Str) : List Str := (rpartition '@' netloc).2.2.splitOn ','

/-- The body of the loop over the hosts. -/
def hostPort (U : Interpreter) (hp : Str) : Except ValueError (Str × ℤ) :=
  let (host, _, port) := partition ':' hp
  if port = [] then .ok (host, defaultDbPort)
  else match int U port with
    | some p => .ok (host, p)
    | none => .error (.invalidLiteral port)

/-- The URI that `parse` returns once it has the hosts. -/
def assemble (parts : SplitResult) (hosts : List (Str × ℤ)) : AerospikeUri :=
  let qs := firstValues parts.query
  let setPrefix := (FMap.get qs "set_prefix".toList).getD "adk_".toList
  let qs := qs.erase "set_prefix".toList
  let tls := (FMap.get qs "tls".toList).getD "false".toList
  let qs := qs.erase "tls".toList
  { scheme := parts.scheme
    hosts
    namespaceName := namespaceOf parts.path
    username := parts.username
    password := parts.password
    setPrefix
    -- no character outside ASCII has a letter of these words as its lower case
    tls := tls.map Char.toLower ∈ ["1".toList, "true".toList, "yes".toList]
    extras := qs }

@[simp] theorem assemble_hosts (parts : SplitResult) (hosts : List (Str × ℤ)) :
    (assemble parts hosts).hosts = hosts := rfl

@[simp] theorem assemble_namespaceName (parts : SplitResult) (hosts : List (Str × ℤ)) :
    (assemble parts hosts).namespaceName = namespaceOf parts.path := rfl

def parse (U : Interpreter) (uri : Str) : Except ValueError AerospikeUri := do
  let parts ← urlsplit U uri
  if parts.scheme ∉ validSchemes then .error (.unsupportedScheme parts.scheme)
  else if parts.netloc = [] then .error (.missingHost uri)
  else if namespaceOf parts.path = [] then .error (.missingNamespace uri)
  else
    let hosts ← (pieces parts.netloc).mapM (hostPort U)
    return assemble parts hosts

/-- The checks of `parse`, and what comes after them. -/
theorem parse_of_split {U : Interpreter} {uri : Str} {parts : SplitResult} (h : urlsplit U uri = .ok parts) :
    parse U uri =
      if parts.scheme ≠ "aerospike".toList then .error (.unsupportedScheme parts.scheme)
      else if parts.netloc = [] then .error (.missingHost uri)
      else if namespaceOf parts.path = [] then .error (.missingNamespace uri)
      else ((pieces parts.netloc).mapM (hostPort U)).map (assemble parts) := by
  have hvalid : parts.scheme ∉ validSchemes ↔ parts.scheme ≠ "aerospike".toList := not_congr List.mem_singleton
  simp only [parse, h, Bind.bind, Except.bind, hvalid]
  cases (pieces parts.netloc).mapM (hostPort U) <;> rfl

/-- What is parsed has the one scheme there is. -/
theorem scheme_of_parse {U : Interpreter} {uri : Str} {parsed : AerospikeUri} (h : parse U uri = .ok parsed) :
    parsed.scheme = "aerospike".toList := by
  cases hsplit : urlsplit U uri with
  | error e =>
    rw [parse, hsplit] at h
    cases h
  | ok parts =>
    rw [parse_of_split hsplit] at h
    split_ifs at h with hscheme hnetloc hname
    cases hhosts : (pieces parts.netloc).mapM (hostPort U) with
    | error e =>
      rw [hhosts] at h
      cases h
    | ok hosts =>
      rw [hhosts] at h
      cases h
      exact not_not.mp hscheme

/-! ### Where the library cuts -/

theorem splitScheme_aerospike (rest : Str) :
    splitScheme ("aerospike:".toList ++ rest) = ("aerospike".toList, rest) := by
  have hcut : partition ':' ("aerospike:".toList ++ rest) = ("aerospike".toList, true, rest) :=
    partition_append (show ':' ∉ "aerospike".toList by decide) rest
  simp only [splitScheme, hcut]
  rfl

theorem splitNetloc_slashes {netloc path : Str} (hnetloc : ∀ c ∈ netloc, netlocEnd c = false) :
    splitNetloc ('/' :: '/' :: (netloc ++ '/' :: path)) = (netloc, '/' :: path) := by
  have hgo : ∀ c ∈ netloc, (!netlocEnd c) = true := fun c hc => by simp [hnetloc c hc]
  simp only [splitNetloc, List.takeWhile_append_of_pos hgo, List.dropWhile_append_of_pos hgo]
  simp [netlocEnd]

/-- A string without a query and a fragment. -/
theorem components_aerospike {netloc ns : Str} (hnetloc : ∀ c ∈ netloc, netlocEnd c = false)
    (hns : ∀ c ∈ ns, netlocEnd c = false) :
    components ("aerospike://".toList ++ netloc ++ '/' :: ns) =
      { scheme := "aerospike".toList, netloc, path := '/' :: ns, query := [], fragment := [] } := by
  have hscheme : splitScheme ("aerospike://".toList ++ netloc ++ '/' :: ns) =
      ("aerospike".toList, '/' :: '/' :: (netloc ++ '/' :: ns)) := by
    rw [← splitScheme_aerospike]
    simp
  have hfree : ∀ c, netlocEnd c = true → c ≠ '/' → c ∉ '/' :: ns := fun c hc hslash hmem => by
    rcases List.mem_cons.mp hmem with h | h
    · exact hslash h
    · simp [hns c h] at hc
  simp only [components, hscheme, splitNetloc_slashes hnetloc,
    partition_of_notMem (hfree '#' (by decide) (by decide)), partition_of_notMem (hfree '?' (by decide) (by decide))]

theorem namespaceOf_slash {ns : Str} (h : '/' ∉ ns) : namespaceOf ('/' :: ns) = ns := by
  have hstrip : ns.dropWhile (fun c => decide (c = '/')) = ns := by
    cases ns with
    | nil => rfl
    | cons a ns =>
      have ha : a ≠ '/' := by rintro rfl; simp at h
      simp [ha]
  have hpath : ('/' :: ns).dropWhile (fun c => decide (c = '/')) = ns := by simpa using hstrip
  rw [namespaceOf, hpath, partition_of_notMem h]

/-! ### Printing -/

/-- A host, with the text of its port if there is one. -/
structure Host where
  name : Str
  port : Option Str

namespace Host

def text (h : Host) : Str := h.name ++ (h.port.elim [] fun port => ':' :: port)

/-- The name is ASCII without delimiters, and the port is a decimal number that is not too
long to be read. -/
structure WellFormed (U : Interpreter) (h : Host) : Prop where
  ne_nil : h.name ≠ []
  plain : ∀ c ∈ h.name, ascii c ∧ c ∉ ['/', '?', '#', '@', ',', ':', '[', ']']
  port : ∀ port, h.port = some port → port ≠ [] ∧ Digits port ∧ U.Admits port.length

/-- What is to be read: the port is its number, or the default. -/
def value (h : Host) : Str × ℤ := (h.name, h.port.elim 3000 fun port => (digitValue port : ℤ))

end Host

/-- `user:pass@`. -/
def userinfoText (credentials : Option (Str × Str)) : Str :=
  credentials.elim [] fun x => x.1 ++ ':' :: (x.2 ++ ['@'])

def netlocText (credentials : Option (Str × Str)) (hosts : List Host) : Str :=
  userinfoText credentials ++ [','].intercalate (hosts.map Host.text)

/-- `aerospike://[user:pass@]host[:port],.../namespace`. -/
def uriText (credentials : Option (Str × Str)) (hosts : List Host) (ns : Str) : Str :=
  "aerospike://".toList ++ netlocText credentials hosts ++ '/' :: ns

section Printing
variable {U : Interpreter} {h : Host} {hosts : List Host} {credentials : Option (Str × Str)}

/-- `int` reads a decimal number that is not too long. -/
theorem int_digits {port : Str} (hne : port ≠ []) (hdigits : Digits port) :
    int U port = if U.Admits port.length then some (digitValue port : ℤ) else none := by
  have hnot : ∀ c ∈ port, ascii c = true ∧ asciiSpace c = false := fun c hc => by
    have hrange := toNat_of_isDigit (hdigits c hc)
    refine ⟨by simp only [ascii, decide_eq_true_eq]; omega, ?_⟩
    simp only [asciiSpace, decide_eq_false_iff_not, List.mem_cons, List.not_mem_nil, or_false]
    rintro (rfl | rfl | rfl | rfl | rfl | rfl) <;> simp at hrange
  have hascii : port.mapM U.toAscii = some port := by
    simpa using mapM_of_forall (g := id) fun c hc => show U.toAscii c = some c by
      simp [Interpreter.toAscii, (hnot c hc).1]
  have hstrip : strip port = port := by
    have hfront : port.dropWhile asciiSpace = port :=
      List.dropWhile_eq_self_iff.mpr fun hl => by simp [(hnot _ (List.getElem_mem hl)).2]
    rw [strip, hfront, List.rdropWhile_eq_self_iff]
    intro hl
    simp [(hnot _ (List.getLast_mem hl)).2]
  have hgroups : port.splitOn '_' = [port] :=
    List.splitOn_eq_singleton fun hmem => by simpa using hdigits '_' hmem
  have hread : digitGroups U port = if U.Admits port.length then some (digitValue port) else none := by
    simp [digitGroups, hgroups, hne, hdigits]
  have hsign : ∀ c, c.isDigit = false → ∀ t, port ≠ c :: t := fun c hc t heq => by
    have hmem := hdigits c (by simp [heq])
    simp [hc] at hmem
  rw [int, hascii, Option.map_some, hstrip]
  split
  · contradiction
  · next t heq => exact absurd (Option.some.inj heq) (hsign '+' (by decide) t)
  · next t heq => exact absurd (Option.some.inj heq) (hsign '-' (by decide) t)
  · next t _ _ heq =>
    cases heq
    rw [hread]
    split_ifs <;> rfl

/-- The text of a host is read back. -/
theorem hostPort_text (hh : h.WellFormed U) : hostPort U h.text = .ok h.value := by
  have hname : ':' ∉ h.name := fun hmem => by simpa using (hh.plain ':' hmem).2
  obtain ⟨name, _ | port⟩ := h
  · have hcut : partition ':' (Host.text ⟨name, none⟩) = (name, false, []) := by
      simpa [Host.text] using partition_of_notMem hname
    simp [hostPort, hcut, Host.value, defaultDbPort]
  · obtain ⟨hne, hdigits, hlen⟩ := hh.port port rfl
    have hcut : partition ':' (Host.text ⟨name, some port⟩) = (name, true, port) := partition_append hname port
    simp [hostPort, hcut, hne, int_digits hne hdigits, hlen, Host.value]

/-- No character of a host's text is a delimiter. -/
theorem notMem_text (hh : h.WellFormed U) {c : Char} (hc : c ∈ h.text) : netlocEnd c = false ∧ c ≠ '@' ∧ c ≠ ',' := by
  have hplain : ∀ d ∈ h.name, netlocEnd d = false ∧ d ≠ '@' ∧ d ≠ ',' := fun d hd => by
    have hd := (hh.plain d hd).2
    simp only [List.mem_cons, List.not_mem_nil, or_false, not_or] at hd
    simp [netlocEnd, hd]
  obtain ⟨name, _ | port⟩ := h
  · exact hplain c (by simpa [Host.text] using hc)
  · have hcases : c ∈ name ∨ c = ':' ∨ c ∈ port := by simpa [Host.text] using hc
    rcases hcases with hc | rfl | hc
    · exact hplain c hc
    · simp [netlocEnd]
    · have hdigit := (hh.port port rfl).2.1 c hc
      refine ⟨?_, ?_, ?_⟩
      · simp only [netlocEnd, decide_eq_false_iff_not, List.mem_cons, List.not_mem_nil, or_false]
        rintro (rfl | rfl | rfl) <;> simp at hdigit
      · rintro rfl
        simp at hdigit
      · rintro rfl
        simp at hdigit

theorem notMem_hosts (hh : ∀ h ∈ hosts, h.WellFormed U) {c : Char}
    (hc : c ∈ [','].intercalate (hosts.map Host.text)) : netlocEnd c = false ∧ c ≠ '@' := by
  rcases mem_intercalate hc with hc | ⟨l, hl, hc⟩
  · rw [List.mem_singleton.mp hc]
    decide
  · obtain ⟨h, hmem, rfl⟩ := List.mem_map.mp hl
    exact ⟨(notMem_text (hh h hmem) hc).1, (notMem_text (hh h hmem) hc).2.1⟩

/-- Both cuts are made at the `@` behind the credentials. -/
theorem rpartition_netlocText (hh : ∀ h ∈ hosts, h.WellFormed U) (credentials : Option (Str × Str)) :
    rpartition '@' (netlocText credentials hosts) =
      (credentials.elim [] fun x => x.1 ++ ':' :: x.2, credentials.isSome, [','].intercalate (hosts.map Host.text)) := by
  have hat : '@' ∉ [','].intercalate (hosts.map Host.text) := fun hmem => (notMem_hosts hh hmem).2 rfl
  cases credentials with
  | none => simpa [netlocText, userinfoText] using rpartition_of_notMem hat
  | some x => simpa [netlocText, userinfoText] using rpartition_append (x.1 ++ ':' :: x.2) hat

theorem pieces_netlocText (hh : ∀ h ∈ hosts, h.WellFormed U) (hhosts : hosts ≠ []) (credentials : Option (Str × Str)) :
    pieces (netlocText credentials hosts) = hosts.map Host.text := by
  rw [pieces, rpartition_netlocText hh]
  refine List.splitOn_intercalate ',' (fun l hl hmem => ?_) (by simpa using hhosts)
  obtain ⟨h, hh', rfl⟩ := List.mem_map.mp hl
  exact (notMem_text (hh h hh') hmem).2.2 rfl

theorem userinfo_netlocText (hh : ∀ h ∈ hosts, h.WellFormed U) (huser : ∀ x, credentials = some x → ':' ∉ x.1)
    {parts : SplitResult} (hparts : parts.netloc = netlocText credentials hosts) :
    parts.userinfo = (credentials.map Prod.fst, credentials.map Prod.snd) := by
  rw [SplitResult.userinfo, hparts, rpartition_netlocText hh]
  cases credentials with
  | none => rfl
  | some x =>
    have hcut : partition ':' (x.1 ++ ':' :: x.2) = (x.1, true, x.2) := partition_append (huser x rfl) x.2
    simp [hcut]

end Printing

/-- Credentials: no colon in the user name, and no delimiter in either. -/
structure CredentialsWellFormed (user password : Str) : Prop where
  user_ne_nil : user ≠ []
  password_ne_nil : password ≠ []
  noColon : ':' ∉ user
  plain : ∀ c ∈ user ++ password, c ∉ ['/', '?', '#', '[', ']']

/-- Wherever the library cuts at the first delimiters, a URI is read back with its hosts in
order, its credentials and its namespace. -/
theorem parse_uriText (U : Interpreter) (hosts : List Host) (hne : hosts ≠ []) (hhosts : ∀ h ∈ hosts, h.WellFormed U)
    (credentials : Option (Str × Str)) (hcredentials : ∀ x, credentials = some x → CredentialsWellFormed x.1 x.2)
    (ns : Str) (hns : ns ≠ []) (hfree : ∀ c ∈ ns, c ∉ ['/', '?', '#'])
    (hsplit : urlsplit U (uriText credentials hosts ns) = .ok (components (uriText credentials hosts ns))) :
    parse U (uriText credentials hosts ns) = .ok
      { scheme := "aerospike".toList
        hosts := hosts.map Host.value
        namespaceName := ns
        username := credentials.map Prod.fst
        password := credentials.map Prod.snd } := by
  have hnetloc : ∀ c ∈ netlocText credentials hosts, netlocEnd c = false := fun c hc => by
    rcases List.mem_append.mp hc with hc | hc
    · cases credentials with
      | none => simp [userinfoText] at hc
      | some x =>
        have hplain := (hcredentials x rfl).plain c
        simp only [userinfoText, Option.elim_some, List.mem_append, List.mem_cons, List.not_mem_nil, or_false] at hc
        simp only [List.mem_append, List.mem_cons, List.not_mem_nil, or_false, not_or] at hplain
        rcases hc with hc | rfl | hc | rfl
        · simp [netlocEnd, hplain (.inl hc)]
        · decide
        · simp [netlocEnd, hplain (.inr hc)]
        · decide
    · exact (notMem_hosts hhosts hc).1
  have hpath : ∀ c ∈ ns, netlocEnd c = false := fun c hc => by simpa [netlocEnd] using hfree c hc
  have hslash : '/' ∉ ns := fun hmem => by simpa using hfree '/' hmem
  have hsome : netlocText credentials hosts ≠ [] := fun hnil => by
    obtain ⟨h, hmem⟩ := List.exists_mem_of_ne_nil hosts hne
    have htext : h.text ∈ pieces (netlocText credentials hosts) := by
      rw [pieces_netlocText hhosts hne]
      exact List.mem_map_of_mem hmem
    rw [hnil] at htext
    have hempty : h.text = [] := by simpa [pieces, rpartition] using htext
    exact (hhosts h hmem).ne_nil (List.append_eq_nil_iff.mp hempty).1
  have hread : (pieces (netlocText credentials hosts)).mapM (hostPort U) = .ok (hosts.map Host.value) := by
    rw [pieces_netlocText hhosts hne, List.mapM_map]
    exact mapM_of_forall fun h hh => hostPort_text (hhosts h hh)
  set parts : SplitResult := ⟨"aerospike".toList, netlocText credentials hosts, '/' :: ns, [], []⟩ with hparts
  have huser : parts.userinfo = (credentials.map Prod.fst, credentials.map Prod.snd) :=
    userinfo_netlocText hhosts (fun x hx => (hcredentials x hx).noColon) rfl
  have hcomponents : components (uriText credentials hosts ns) = parts := components_aerospike hnetloc hpath
  have hname : namespaceOf parts.path = ns := namespaceOf_slash hslash
  have hscheme : ¬ parts.scheme ≠ "aerospike".toList := not_not.mpr rfl
  have hnetloc' : parts.netloc = netlocText credentials hosts := rfl
  have hassemble : assemble parts (hosts.map Host.value) =
      { scheme := "aerospike".toList
        hosts := hosts.map Host.value
        namespaceName := ns
        username := credentials.map Prod.fst
        password := credentials.map Prod.snd } := by
    simp only [assemble, SplitResult.username, SplitResult.password, huser, hname]
    rfl
  rw [hcomponents] at hsplit
  rw [parse_of_split hsplit, if_neg hscheme, if_neg (by rwa [hnetloc']), if_neg (by rwa [hname]), hnetloc', hread]
  exact congrArg Except.ok hassemble

namespace Small

/-- An interpreter that knows ASCII only. -/
def python : Interpreter where
  decimal _ := none
  space _ := false
  nfkc := id
  bracketed _ := true
  maxStrDigits := 4300
  maxStrDigits_ge := by decide

def hosts : List Host := [⟨"a".toList, some "03001".toList⟩, ⟨"b".toList, none⟩]

def credentials : Str × Str := ("u".toList, "p:@w".toList)

theorem hosts_wellFormed : ∀ h ∈ hosts, h.WellFormed python := by
  simp only [hosts, List.forall_mem_cons, List.not_mem_nil, false_implies, implies_true, and_true]
  refine ⟨⟨by decide, by simp [ascii], fun port hport => ?_⟩, ⟨by decide, by simp [ascii], fun port hport => ?_⟩⟩
  · cases hport
    exact ⟨by decide, by decide, python.admits_of_le (by decide)⟩
  · cases hport

theorem credentials_wellFormed : CredentialsWellFormed credentials.1 credentials.2 :=
  ⟨by decide, by decide, by decide, by simp [credentials]⟩

end Small

open Uri.Small in
/-- A password with both separators in it. -/
theorem parse_uriText_small :
    parse python "aerospike://u:p:@w@a:03001,b/ns".toList = .ok
      { scheme := "aerospike".toList
        hosts := [("a".toList, 3001), ("b".toList, 3000)]
        namespaceName := "ns".toList
        username := some "u".toList
        password := some "p:@w".toList } :=
  parse_uriText python hosts (by decide) hosts_wellFormed (some credentials)
    (fun x hx => Option.some.inj hx ▸ credentials_wellFormed) "ns".toList (by decide) (by simp)
    (urlsplit_of_plain python (by decide) (by decide) (by decide) (by decide))

end AdkAerospike.Uri
