import AdkAerospike.Program.Contract
import AdkAerospike.Server.Legal
import AdkAerospike.Server.Parties
import AdkAerospike.Memory.Search
import AdkAerospike.Memory.Resume

/-! What a search finds in a store that others are writing. Every record is, apart from a
posting list, the row of an event that was handed to some call, or nothing but a posting
list; and a row is given out to the user it names only. No identifier has to be free of
separators, and any record of a batch may fail to be read. -/

namespace AdkAerospike.Memory

open Program Data Keys Codec

variable {V : Type}

/-! ### Batches that are read in part -/

/-- The weather of a request, and the records of a batch that fail: `_batch_read` takes
them for missing ones. -/
structure Faults where
  weather : Server.Weather
  lost : Str → Bool

def execLossy (cfg : ServerConfig V) (x : Faults) : (q : Req V) → Store V → Ans q × Store V
  | .batchRead keys, σ =>
    Server.under x.weather σ (.ok (keys.map fun key => if x.lost key then none else σ.get key), σ)
  | q, σ => exec cfg x.weather q σ

/-- Calls on any number of instances over one store, with batches that are read in part. -/
def lossyService (cfg : ServerConfig V) :
    System (Req V) Ans Err (Reply V) (Store V) (Instance V × Call V) Faults where
  body l := l.2.body l.1
  serve _ := execLossy cfg

/-! ### Rows -/

/-- The event is handed to the call, for this session. -/
def Call.adds (app user session : Str) (e : Event V) : Call V → Prop
  | .addSession app' user' session' events => app' = app ∧ user' = user ∧ session' = session ∧ e ∈ events
  | .addEvents app' user' events session' =>
    app' = app ∧ user' = user ∧ scopedSessionId session' = session ∧ e ∈ events
  | .search .. => False

/-- The row of an event of the user that was handed to one of the calls. -/
def RowOf (cs : List (Instance V × Call V)) (app user : Str) (row : Record V) : Prop :=
  ∃ inst c session e text, (inst, c) ∈ cs ∧ c.adds app user session e ∧ memoryText e = some text ∧
    row = inst.newRow app user session e text

/-- Such a row, perhaps with a posting list, or a posting list alone. -/
def Whole (cs : List (Instance V × Call V)) (r : Record V) : Prop :=
  r.bins = {} ∨ ∃ app user, RowOf cs app user r.bins

section Rows
variable {cs : List (Instance V × Call V)} {cfg : ServerConfig V} {inst : Instance V} {app user session : Str}

theorem closed_whole (cfg : ServerConfig V) (cs : List (Instance V × Call V)) : cfg.table.Closed (Whole cs) where
  blank := .inl rfl
  merge _ h := h
  apply ops r h := by
    have hact : ∀ (x : Record V × Option (List Ref)) op, some (Op.act x op).1.bins = some x.1.bins := fun x op => by
      cases op <;> rfl
    have hbins := Option.some.inj (Server.index_foldl (fun r : Record V => some r.bins) hact ops (r, none))
    unfold Whole
    change (ops.foldl Op.act (r, none)).1.bins = _ ∨ ∃ app user, RowOf cs app user (ops.foldl Op.act (r, none)).1.bins
    rw [hbins]
    exact h

abbrev Puts (cs : List (Instance V × Call V)) {α : Type} (p : Service V α) : Prop := p.Uses (Server.Req.Puts (Whole cs))

theorem puts_upsert {c : Call V} (hc : (inst, c) ∈ cs) {e : Event V} (he : c.adds app user session e) {text : Str}
    (htext : memoryText e = some text) : Puts cs (upsertMemory inst app user session e text) :=
  Uses.upsertMemory (.inr ⟨app, user, inst, c, session, e, text, hc, he, htext, rfl⟩) fun _ _ => trivial

theorem puts_addSession {events : List (Event V)} (hc : (inst, .addSession app user session events) ∈ cs) :
    Puts cs (addSessionToMemory inst app user session events) := by
  have hpurge : Puts cs (purgeSessionMemories app user session : Service V Unit) :=
    Uses.purgeSessionMemories trivial (fun _ _ => trivial) fun _ => trivial
  exact hpurge.bind fun _ => Uses.addAll fun _ he _ htext => puts_upsert hc ⟨rfl, rfl, rfl, he⟩ htext

theorem puts_addEvents {events : List (Event V)} {session : Option Str}
    (hc : (inst, .addEvents app user events session) ∈ cs) :
    Puts cs (addEventsToMemory inst app user events session) :=
  Uses.addAbsent (fun _ _ => trivial) fun _ he _ htext => puts_upsert hc ⟨rfl, rfl, rfl, he⟩ htext

/-! ### Searching -/

/-- The entries are those of events of the user that share a word with the text, as many
as `top_k` allows, those that share more words first. -/
def Finds (cs : List (Instance V × Call V)) (inst : Instance V) (app user text : Str) (l : List (MemoryEntry V)) : Prop :=
  ∃ rows : List (Record V), List.Forall₂ (fun row m => inst.memoryEntryFromBins row = .ok m) rows l ∧
    (∀ row ∈ rows, RowOf cs app user row ∧ ∃ t ∈ row.keywords.getD [], t ∈ tokenMatches text) ∧
    rows.Pairwise (fun row row' => overlap (inst.tokenize text) row' ≤ overlap (inst.tokenize text) row) ∧
    (0 ≤ inst.topK → (rows.length : ℤ) ≤ inst.topK)

/-- What is made of the candidates, whichever they are, and of the rows read for them. -/
theorem finds_ranked {text : Str} {found : List ((Str × Str × ℚ) × Option (Record V))}
    (hfound : ∀ c r, (c, some r) ∈ found → Whole cs r) {l : List (MemoryEntry V)}
    (hl : (sliceTo (ranked (scoredRows app user (inst.tokenize text) found)) inst.topK).mapM
      (fun x => inst.memoryEntryFromBins x.2) = .ok l) : Finds cs inst app user text l := by
  have hall := forall₂_of_mapM hl
  set scored := scoredRows app user (inst.tokenize text) found with hscored
  have hsub := sliceTo_sublist (ranked scored) inst.topK
  have hmem : ∀ x ∈ scored, x.1.1 = overlap (inst.tokenize text) x.2 ∧ overlap (inst.tokenize text) x.2 ≠ 0 ∧
      RowOf cs app user x.2.bins := fun x hx => by
    obtain ⟨⟨c, hr⟩, hscore, happ, huser, hne⟩ := found_of_scored hx
    refine ⟨hscore, hne, ?_⟩
    rcases hfound c x.2 hr with hblank | ⟨app', user', hrow⟩
    · -- a posting list names no user
      have hnone := congrArg Record.app hblank
      rw [Record.bins, happ] at hnone
      cases hnone
    · obtain ⟨inst', c', session, e, text', hc, he, htext, hbins⟩ := hrow
      have happ' := congrArg Record.app hbins
      have huser' := congrArg Record.uid hbins
      simp only [Record.bins, Instance.newRow, happ, huser, Option.some.injEq] at happ' huser'
      subst happ' huser'
      exact ⟨inst', c', session, e, text', hc, he, htext, hbins⟩
  have hranked : ∀ x ∈ sliceTo (ranked scored) inst.topK, x ∈ scored := fun x hx =>
    List.mem_mergeSort.mp (hsub.subset hx)
  refine ⟨(sliceTo (ranked scored) inst.topK).map fun x => x.2.bins, ?_, fun row hrow => ?_, ?_, fun hk => ?_⟩
  · exact List.forall₂_map_left_iff.mpr hall
  · obtain ⟨x, hx, rfl⟩ := List.mem_map.mp hrow
    obtain ⟨-, hne, hof⟩ := hmem x (hranked x hx)
    refine ⟨hof, ?_⟩
    obtain ⟨t, ht⟩ := List.exists_mem_of_ne_nil _ (List.length_pos_iff.mp (Nat.pos_of_ne_zero hne))
    obtain ⟨htk, htt⟩ := List.mem_filter.mp ht
    exact ⟨t, List.mem_dedup.mp htk, inst.mem_tokenize.mp (by simpa using htt)⟩
  · have hsorted : (ranked scored).Pairwise fun x y => rankLe x y := by
      have hle : (fun x y : (ℕ × ℚ) × Record V => decide (y.1.1 < x.1.1 ∨ y.1.1 = x.1.1 ∧ y.1.2 ≤ x.1.2)) = rankLe := by
        funext x y
        exact decide_eq_decide.mpr Prod.Lex.le_iff.symm
      rw [ranked, hle]
      exact List.pairwise_mergeSort rankLe_trans rankLe_total scored
    refine List.pairwise_map.mpr ((hsorted.sublist hsub).imp_of_mem fun {x y} hx hy hxy => ?_)
    have hlex : toLex y.1 ≤ toLex x.1 := of_decide_eq_true hxy
    change overlap (inst.tokenize text) y.2 ≤ overlap (inst.tokenize text) x.2
    rw [← (hmem x (hranked x hx)).1, ← (hmem y (hranked y hy)).1]
    rcases Prod.Lex.le_iff.mp hlex with hlt | ⟨heq, -⟩
    · exact Nat.le_of_lt hlt
    · exact Nat.le_of_eq heq
  · rw [List.length_map, sliceTo, if_pos hk, List.length_take]
    omega

/-- The answers to a search are trusted to hold whole records. -/
theorem meets_search (cfg : ServerConfig V) (text : Str) :
    (searchMemory inst app user text).Meets (Server.Req.Puts (Whole cs)) (Server.Legal cfg.table (Whole cs))
      fun r => ∀ l, r = .ok l → Finds cs inst app user text l := by
  have hnone : Finds cs inst app user text [] := ⟨[], .nil, by simp, .nil, fun hk => hk⟩
  have hread : ∀ keys : List Str, (batchRead keys : Service V _).Meets (Server.Req.Puts (Whole cs))
      (Server.Legal cfg.table (Whole cs)) fun r => ∀ rows, r = .ok rows → ∀ r, some r ∈ rows → Whole cs r :=
    fun keys => ⟨trivial, fun x hx => by
      cases x with
      | error e => exact fun rows h => by cases h
      | ok rows' => exact fun rows h r hr => hx rows r (congrArg Except.ok (Except.ok.inj h)) hr⟩
  unfold searchMemory
  dsimp only
  split_ifs with htokens
  · exact fun l hl => (Except.ok.inj hl) ▸ hnone
  refine (hread _).bind (fun rows _ => ?_) fun e _ l hl => by cases hl
  split_ifs with hcands
  · exact fun l hl => (Except.ok.inj hl) ▸ hnone
  refine (hread _).bind (fun found hfound => ?_) fun e _ l hl => by cases hl
  cases hentries : (sliceTo (ranked (scoredRows app user (inst.tokenize text) _)) inst.topK).mapM
      fun x => inst.memoryEntryFromBins x.2 with
  | error e => exact fun l hl => by cases hl
  | ok l =>
    intro l' hl
    obtain rfl : l = l' := Except.ok.inj hl
    exact finds_ranked (fun c r hr => hfound found rfl r (List.of_mem_zip hr).2) hentries

/-- What a call owes: a search finds what was handed to the calls. -/
def Answers (cs : List (Instance V × Call V)) (l : Instance V × Call V) (r : Except Err (Reply V)) : Prop :=
  ∀ app user text found, l.2 = .search app user text → r = .ok (.memories found) → Finds cs l.1 app user text found

theorem meets_body (cfg : ServerConfig V) {l : Instance V × Call V} (hl : l ∈ cs) :
    (l.2.body l.1).Meets (Server.Req.Puts (Whole cs)) (Server.Legal cfg.table (Whole cs)) (Answers cs l) := by
  obtain ⟨inst, c⟩ := l
  cases c with
  | addSession app user session events =>
    have hputs : Puts cs ((Call.addSession app user session events).body inst) := (puts_addSession hl).bind fun _ => trivial
    exact hputs.meets.mono fun r _ _ _ _ _ h => by cases h
  | addEvents app user events session =>
    have hputs : Puts cs ((Call.addEvents app user events session).body inst) := (puts_addEvents hl).bind fun _ => trivial
    exact hputs.meets.mono fun r _ _ _ _ _ h => by cases h
  | search app user text =>
    refine (meets_search cfg text).bind (fun found hfound => ?_) fun e _ _ _ _ _ _ h => by cases h
    intro app' user' text' found' hc hr
    cases hc
    cases hr
    exact hfound _ rfl

theorem execLossy_legal (x : Faults) {q : Req V} (hq : q.Puts (Whole cs)) {σ : Store V} (h : Server.All (Whole cs) σ) :
    Server.Legal cfg.table (Whole cs) q (execLossy cfg x q σ).1 ∧ Server.All (Whole cs) (execLossy cfg x q σ).2 := by
  cases q with
  | batchRead keys =>
    refine ⟨fun rs r hrs hr => ?_, ?_⟩
    · cases Server.of_under_ok hrs
      obtain ⟨key, -, hget⟩ := List.mem_map.mp hr
      split_ifs at hget
      exact h key r hget
    · exact (Server.under_same x.weather σ _).symm ▸ h
  | create key bins => exact ⟨trivial, h.exec (closed_whole cfg cs) hq x.weather⟩
  | put key bins => exact ⟨trivial, h.exec (closed_whole cfg cs) hq x.weather⟩
  | remove key => exact ⟨trivial, h.exec (closed_whole cfg cs) hq x.weather⟩
  | operate key ops => exact ⟨trivial, h.exec (closed_whole cfg cs) hq x.weather⟩
  | get key => exact ⟨h.legal (.get key) x.weather, h.exec (closed_whole cfg cs) hq x.weather⟩
  | query i => exact ⟨h.legal (.query i) x.weather, h.exec (closed_whole cfg cs) hq x.weather⟩

end Rows

/-- Whatever the identifiers are, and however calls and faults fall together, a search that
returns gives entries of events that were handed to a call for the same app and user, each
sharing a word with the query, the best matches first and no more than `top_k`. -/
theorem search_finds_only_added (cfg : ServerConfig V) (s : Pool (Req V) Ans Err (Reply V) (Store V) (Instance V × Call V))
    (hs : (lossyService cfg).Reach (fun _ _ => True) ⟨∅, []⟩ s) (i : ℕ) (inst : Instance V) (app user text : Str)
    (found : List (MemoryEntry V)) (hi : s.procs[i]? = some ⟨(inst, .search app user text), .ret (.memories found)⟩) :
    Finds s.calls inst app user text found := by
  have hall : Server.All (Whole s.calls) (∅ : Store V) := fun _ _ h => by cases h
  have hmeets := ((hs.calling (List.Subset.refl _)).meets (I := Server.All (Whole s.calls))
    (fun _ l hl => meets_body cfg (hl.2 l rfl)) (fun _ x _ _ hq h => execLossy_legal x hq h) hall rfl).2 i _ hi
  exact hmeets app user text found rfl rfl

namespace Small

/-- A search between the row of an event and the rest of its references, by a user under
whose keys the row lies as well. -/
def peeking : Pool (Req ℕ) Ans Err (Reply ℕ) (Store ℕ) (Instance ℕ × Call ℕ) :=
  (lossyService cfg).run [
    .spawn (inst, .addEvents ['a'] "u:v".toList [event ['x'] "red fox".toList 1] (some ['s'])),
    .step 0 ⟨.fair, fun _ => false⟩, .step 0 ⟨.fair, fun _ => false⟩, .step 0 ⟨.fair, fun _ => false⟩,
    .spawn (inst, .search ['a'] "u:v".toList "Fox, red".toList), .step 1 ⟨.fair, fun _ => false⟩,
    .step 0 ⟨.failed 9 false, fun _ => false⟩, .step 1 ⟨.fair, fun _ => false⟩] ⟨∅, []⟩

/-- The call has returned this many memories. -/
def returned (n : ℕ) : Option (Proc (Req ℕ) Ans Err (Reply ℕ) (Instance ℕ × Call ℕ)) → Bool
  | some ⟨_, .ret (.memories l)⟩ => l.length = n
  | _ => false

theorem memories_of_returned {n : ℕ} {p : Option (Proc (Req ℕ) Ans Err (Reply ℕ) (Instance ℕ × Call ℕ))}
    {l : Instance ℕ × Call ℕ} (hcall : p.map Proc.call = some l) (h : returned n p) :
    ∃ found, p = some ⟨l, .ret (.memories found)⟩ ∧ found.length = n := by
  obtain ⟨⟨l', prog⟩, rfl, rfl⟩ := Option.map_eq_some_iff.mp hcall
  cases prog with
  | ret reply =>
    cases reply with
    | done => cases h
    | memories found => exact ⟨found, rfl, of_decide_eq_true h⟩
  | raise e => cases h
  | ask q k => cases h

end Small

open Memory.Small in
theorem search_finds_only_added_small :
    ∃ found, peeking.procs[1]? = some ⟨(inst, .search ['a'] "u:v".toList "Fox, red".toList), .ret (.memories found)⟩ ∧
      found.length = 1 ∧ Finds peeking.calls inst ['a'] "u:v".toList "Fox, red".toList found := by
  have hreturned : returned 1 peeking.procs[1]? := by decide +kernel
  obtain ⟨found, hfound, hlen⟩ := memories_of_returned rfl hreturned
  exact ⟨found, hfound, hlen, search_finds_only_added cfg peeking
    (System.reach_run (System.permitted_of_forall fun _ _ _ => trivial)) 1 _ _ _ _ _ hfound⟩

end AdkAerospike.Memory
