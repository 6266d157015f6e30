import AdkAerospike.Uri.Parse
import AdkAerospike.Uri.Quote

/-! The options of a URI. Behind a question mark stand names and values; they are read back
however they are written, and change nothing but what they are the options of. -/

namespace AdkAerospike.Uri

open Data

/-- A name with its value, and how they are written. -/
structure Setting where
  name : Str
  value : Str
  nameText : Str
  valueText : Str

namespace Setting

/-- A value is not empty. -/
structure WellFormed (x : Setting) : Prop where
  name : Spells x.name x.nameText
  noSign : '=' ∉ x.nameText
  value : Spells x.value x.valueText
  ne_nil : x.value ≠ []

def text (x : Setting) : Str := x.nameText ++ '=' :: x.valueText

end Setting

def queryText (settings : List Setting) : Str := ['&'].intercalate (settings.map Setting.text)

section Reading
variable {x : Setting} {settings : List Setting}

theorem Setting.WellFormed.notMem_text (h : x.WellFormed) : ∀ c ∈ x.text, c ∉ ['&', '#', '\t', '\r', '\n'] :=
  List.forall_mem_append.mpr ⟨h.name.notMem, List.forall_mem_cons.mpr ⟨by decide, h.value.notMem⟩⟩

theorem notMem_queryText (h : ∀ x ∈ settings, x.WellFormed) :
    ∀ c ∈ queryText settings, c ∉ ['#', '\t', '\r', '\n'] := by
  intro c hc
  rcases mem_intercalate hc with hc | ⟨t, ht, hc⟩
  · obtain rfl := List.mem_singleton.mp hc
    decide
  · obtain ⟨x, hx, rfl⟩ := List.mem_map.mp ht
    exact fun hmem => (h x hx).notMem_text c hc (List.mem_cons_of_mem _ hmem)

/-- The names and values of a query, in their order. -/
theorem parseQsl_queryText (h : ∀ x ∈ settings, x.WellFormed) :
    parseQsl (queryText settings) = settings.map fun x => (x.name, x.value) := by
  have hfields : ∀ x ∈ settings, (if (partition '=' x.text).2.1 ∧ (partition '=' x.text).2.2 ≠ [] then
      some (unquotePlus (partition '=' x.text).1, unquotePlus (partition '=' x.text).2.2) else none) =
        some (x.name, x.value) := fun x hx => by
    have hx := h x hx
    rw [Setting.text, partition_append hx.noSign, if_pos ⟨rfl, hx.value.ne_nil hx.ne_nil⟩, hx.name.unquotePlus,
      hx.value.unquotePlus]
  by_cases hsettings : settings = []
  · subst hsettings
    rfl
  have hamp : ∀ t ∈ settings.map Setting.text, '&' ∉ t := fun t ht hmem => by
    obtain ⟨x, hx, rfl⟩ := List.mem_map.mp ht
    exact (h x hx).notMem_text '&' hmem (by simp)
  rw [parseQsl, queryText, List.splitOn_intercalate '&' hamp (by simpa using hsettings), List.filterMap_map]
  exact (List.filterMap_congr hfields).trans (congrFun List.filterMap_eq_map' settings)

/-- Of a name that is given more than once, the first value counts. -/
theorem get_firstValues (query name : Str) : FMap.get (firstValues query) name = (parseQsl query).lookup name := by
  rw [firstValues]
  induction parseQsl query with
  | nil => rfl
  | cons x rest ih =>
    rw [List.foldr_cons, List.lookup_cons, FMap.get_insert, ih]
    by_cases hname : name = x.1
    · simp [hname]
    · simp [hname, beq_eq_false_iff_ne.mpr hname]

end Reading

/-! ### Where the library cuts -/

section Cutting
variable {url query : Str}

/-- Only what stands in front is dropped. -/
theorem clean_query (url : Str) (hquery : ∀ c ∈ query, c ∉ ['\t', '\r', '\n']) :
    clean (url ++ '?' :: query) = clean url ++ '?' :: query := by
  have hrest : ('?' :: query).filter (· ∉ ['\t', '\r', '\n']) = '?' :: query :=
    List.filter_eq_self.mpr (List.forall_mem_cons.mpr ⟨by decide, fun c hc => decide_eq_true (hquery c hc)⟩)
  have hmark : ('?' :: query).dropWhile (fun c => decide (c.toNat ≤ 0x20)) = '?' :: query := rfl
  rw [clean, clean, List.dropWhile_append, hmark]
  split_ifs with hnil
  · rw [List.isEmpty_iff.mp hnil, hrest]
    rfl
  · rw [List.filter_append, hrest]

/-- A question mark is not part of a scheme. -/
theorem splitScheme_query (hurl : '?' ∉ url) :
    splitScheme (url ++ '?' :: query) = ((splitScheme url).1, (splitScheme url).2 ++ '?' :: query) := by
  by_cases hcolon : ':' ∈ url
  · obtain ⟨x, y, rfl, hx⟩ := List.eq_append_cons_of_mem hcolon
    simp only [splitScheme, partition_append hx, List.append_assoc, List.cons_append]
    split_ifs <;> simp
  · -- then the first colon, if there is one, stands behind the question mark
    have hgo : ∀ c ∈ url, decide (c ≠ ':') = true := fun c hc => decide_eq_true fun heq => hcolon (heq ▸ hc)
    have hname : (partition ':' (url ++ '?' :: query)).1.all schemeChar = false := by
      rw [partition, List.takeWhile_append_of_pos hgo]
      simp [schemeChar]
    have hplain : splitScheme url = ([], url) := by simp [splitScheme, partition_of_notMem hcolon]
    rw [hplain, splitScheme]
    exact if_neg fun h => Bool.false_ne_true (hname.symm.trans h.2.2)

theorem splitNetloc_query (url : Str) :
    splitNetloc (url ++ '?' :: query) = ((splitNetloc url).1, (splitNetloc url).2 ++ '?' :: query) := by
  by_cases hslashes : ∃ rest, url = '/' :: '/' :: rest
  · obtain ⟨rest, rfl⟩ := hslashes
    simp only [splitNetloc, List.cons_append]
    induction rest with
    | nil => rfl
    | cons c rest ih =>
      cases hc : netlocEnd c
      · simpa [hc] using ih
      · simp [hc]
  · have hplain : ∀ {u : Str}, (∀ rest, u ≠ '/' :: '/' :: rest) → splitNetloc u = ([], u) := fun hu => by
      rw [splitNetloc]
      exact fun rest heq => hu rest heq
    rw [hplain fun rest heq => hslashes ⟨rest, heq⟩, hplain fun rest heq => ?_]
    cases url with
    | nil => cases heq
    | cons c url =>
      cases url with
      | nil => cases heq
      | cons d url =>
        cases heq
        exact hslashes ⟨url, rfl⟩

theorem suffix_splitScheme (url : Str) : (splitScheme url).2 <:+ url := by
  dsimp only [splitScheme]
  split_ifs
  · exact (List.tail_suffix _).trans (List.dropWhile_suffix _)
  · exact List.suffix_rfl

theorem suffix_splitNetloc (url : Str) : (splitNetloc url).2 <:+ url := by
  unfold splitNetloc
  split
  · exact (List.dropWhile_suffix _).trans ((List.suffix_cons ..).trans (List.suffix_cons ..))
  · exact List.suffix_rfl

/-- The path ends at the question mark. -/
theorem components_query (hurl : ∀ c ∈ url, c ≠ '?' ∧ c ≠ '#') (hquery : '#' ∉ query) :
    components (url ++ '?' :: query) = { components url with query := query } := by
  have hpath : ∀ c ∈ (splitNetloc (splitScheme url).2).2, c ≠ '?' ∧ c ≠ '#' := fun c hc =>
    hurl c ((suffix_splitScheme url).subset ((suffix_splitNetloc _).subset hc))
  have hmark : '?' ∉ (splitNetloc (splitScheme url).2).2 := fun hc => (hpath _ hc).1 rfl
  have hsharp : '#' ∉ (splitNetloc (splitScheme url).2).2 := fun hc => (hpath _ hc).2 rfl
  have hall : '#' ∉ (splitNetloc (splitScheme url).2).2 ++ '?' :: query := by simp [hsharp, hquery]
  simp only [components, splitScheme_query fun hc => (hurl _ hc).1 rfl, splitNetloc_query, partition_of_notMem hall,
    partition_append hmark, partition_of_notMem hsharp, partition_of_notMem hmark]

theorem urlsplit_query (U : Interpreter) (hurl : ∀ c ∈ url, c ≠ '?' ∧ c ≠ '#')
    (hquery : ∀ c ∈ query, c ∉ ['#', '\t', '\r', '\n']) :
    urlsplit U (url ++ '?' :: query) = (urlsplit U url).map fun parts => { parts with query := query } := by
  have hclean : clean (url ++ '?' :: query) = clean url ++ '?' :: query :=
    clean_query url fun c hc hmem => hquery c hc (List.mem_cons_of_mem _ hmem)
  have hkept : ∀ c ∈ clean url, c ≠ '?' ∧ c ≠ '#' := fun c hc =>
    hurl c ((List.dropWhile_suffix _).subset (List.mem_of_mem_filter hc))
  simp only [urlsplit, hclean, components_query hkept fun hmem => hquery _ hmem (by simp)]
  split_ifs <;> rfl

end Cutting

/-! ### Options -/

/-- The settings change what they are the settings of. -/
structure Configured (settings : List (Str × Str)) (uri uri' : AerospikeUri) : Prop where
  scheme : uri'.scheme = uri.scheme
  hosts : uri'.hosts = uri.hosts
  namespaceName : uri'.namespaceName = uri.namespaceName
  username : uri'.username = uri.username
  password : uri'.password = uri.password
  setPrefix : uri'.setPrefix = (settings.lookup "set_prefix".toList).getD "adk_".toList
  tls : uri'.tls = true ↔ ∃ value, settings.lookup "tls".toList = some value ∧
    value.map Char.toLower ∈ ["1".toList, "true".toList, "yes".toList]
  extras : ∀ name, FMap.get uri'.extras name =
    if name = "set_prefix".toList ∨ name = "tls".toList then none else settings.lookup name

theorem setPrefix_assemble (parts : SplitResult) (hosts : List (Str × ℤ)) :
    (assemble parts hosts).setPrefix = ((parseQsl parts.query).lookup "set_prefix".toList).getD "adk_".toList := by
  rw [← get_firstValues]
  rfl

theorem tls_assemble (parts : SplitResult) (hosts : List (Str × ℤ)) : (assemble parts hosts).tls = true ↔
    ∃ value, (parseQsl parts.query).lookup "tls".toList = some value ∧
      value.map Char.toLower ∈ ["1".toList, "true".toList, "yes".toList] := by
  have hne : "tls".toList ≠ "set_prefix".toList := by decide
  have hdefault : "false".toList.map Char.toLower ∉ ["1".toList, "true".toList, "yes".toList] := by decide
  rw [← get_firstValues, ← FMap.get_erase_of_ne (firstValues parts.query) hne]
  refine decide_eq_true_iff.trans ?_
  cases FMap.get ((firstValues parts.query).erase "set_prefix".toList) "tls".toList with
  | none => exact ⟨fun hmem => absurd hmem hdefault, fun ⟨_, hvalue, _⟩ => by cases hvalue⟩
  | some value => exact ⟨fun hmem => ⟨value, rfl, hmem⟩, fun ⟨_, hvalue, hmem⟩ => Option.some.inj hvalue ▸ hmem⟩

theorem extras_assemble (parts : SplitResult) (hosts : List (Str × ℤ)) (name : Str) :
    FMap.get (assemble parts hosts).extras name =
      if name = "set_prefix".toList ∨ name = "tls".toList then none else (parseQsl parts.query).lookup name := by
  change FMap.get (((firstValues parts.query).erase "set_prefix".toList).erase "tls".toList) name = _
  by_cases htls : name = "tls".toList
  · rw [if_pos (.inr htls), htls, FMap.get_erase_self]
  rw [FMap.get_erase_of_ne _ htls]
  by_cases hset : name = "set_prefix".toList
  · rw [if_pos (.inl hset), hset, FMap.get_erase_self]
  rw [FMap.get_erase_of_ne _ hset, get_firstValues, if_neg (not_or.mpr ⟨hset, htls⟩)]

theorem configured_assemble (parts : SplitResult) (query : Str) (hosts : List (Str × ℤ)) :
    Configured (parseQsl query) (assemble parts hosts) (assemble { parts with query := query } hosts) where
  scheme := rfl
  hosts := rfl
  namespaceName := rfl
  username := rfl
  password := rfl
  setPrefix := setPrefix_assemble ..
  tls := tls_assemble ..
  extras := extras_assemble _ _

/-- A query that is well written changes nothing but the options, and these are read back
however they are written: a URI with it is read exactly if it is read without it. -/
theorem options_read_back (U : Interpreter) (url : Str) (hurl : ∀ c ∈ url, c ≠ '?' ∧ c ≠ '#')
    (settings : List Setting) (hsettings : ∀ x ∈ settings, x.WellFormed) :
    match parse U url with
    | .ok uri => ∃ uri', parse U (url ++ '?' :: queryText settings) = .ok uri' ∧
        Configured (settings.map fun x => (x.name, x.value)) uri uri'
    | .error _ => ∃ e, parse U (url ++ '?' :: queryText settings) = .error e := by
  have hsplit := urlsplit_query U hurl (notMem_queryText hsettings)
  cases hparts : urlsplit U url with
  | error e =>
    have hraise : ∀ url, urlsplit U url = .error e → parse U url = .error e := fun url h => by rw [parse, h]; rfl
    rw [hparts] at hsplit
    rw [hraise url hparts]
    exact ⟨e, hraise _ hsplit⟩
  | ok parts =>
    rw [hparts] at hsplit
    rw [parse_of_split hparts, parse_of_split hsplit]
    dsimp only
    split_ifs
    · exact ⟨_, rfl⟩
    · exact ⟨_, rfl⟩
    · exact ⟨_, rfl⟩
    · cases (pieces parts.netloc).mapM (hostPort U) with
      | error e => exact ⟨e, rfl⟩
      | ok hosts => exact ⟨_, rfl, parseQsl_queryText hsettings ▸ configured_assemble parts _ hosts⟩

namespace Small

/-- `set_prefix=%c3%A9+_&tls=True&set_prefix=x`. -/
def settings : List Setting :=
  [⟨"set_prefix".toList, "é _".toList, "set_prefix".toList, "%c3%A9+_".toList⟩,
    ⟨"tls".toList, "True".toList, "tls".toList, "True".toList⟩,
    ⟨"set_prefix".toList, "x".toList, "set_prefix".toList, "x".toList⟩]

theorem spells_self {s : Str} (h : ∀ c ∈ s, c ∉ ['%', '+', '&', '#', '\t', '\r', '\n']) : Spells s s := by
  induction s with
  | nil => exact .nil
  | cons c s ih => exact .plain (h c (List.mem_cons_self ..)) (ih fun d hd => h d (List.mem_cons_of_mem _ hd))

theorem settings_wellFormed : ∀ x ∈ settings, x.WellFormed := by
  have hcoded : Coded (bytesOf 'é') "%c3%A9".toList :=
    .cons (a := 'c') (b := '3') (m := 12) (n := 3) rfl rfl (.cons (a := 'A') (b := '9') (m := 10) (n := 9) rfl rfl .nil)
  have hvalue : Spells "é _".toList "%c3%A9+_".toList := .coded hcoded (.plus (.plain (by decide) .nil))
  simp only [settings, List.forall_mem_cons, List.not_mem_nil, false_implies, implies_true, and_true]
  refine ⟨⟨?_, ?_, hvalue, ?_⟩, ⟨?_, ?_, ?_, ?_⟩, ⟨?_, ?_, ?_, ?_⟩⟩ <;> first | exact spells_self (by simp) | simp

def plainUri : AerospikeUri where
  scheme := "aerospike".toList
  hosts := [("h".toList, 3000)]
  namespaceName := "ns".toList

theorem parse_plainUri : parse python "aerospike://h/ns".toList = .ok plainUri := by rfl

end Small

open Uri.Small in
theorem options_read_back_small :
    ∃ uri', parse python ("aerospike://h/ns".toList ++ '?' :: queryText settings) = .ok uri' ∧
      Configured (settings.map fun x => (x.name, x.value)) plainUri uri' := by
  have h := options_read_back python "aerospike://h/ns".toList (by simp) settings settings_wellFormed
  rwa [parse_plainUri] at h

end AdkAerospike.Uri
