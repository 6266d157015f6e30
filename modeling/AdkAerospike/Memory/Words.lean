import AdkAerospike.Memory.Service

/-! The words of a text. `_tokenize` scans a text from left to right; what it finds are
the maximal runs of letters, so texts that are joined by a blank have the words of both,
and nothing depends on the case of the letters. -/

namespace AdkAerospike.Memory

open Data Codec

variable {V : Type}

/-- A match of `[A-Za-z]+`. -/
def Word (w : Str) : Prop := w ≠ [] ∧ ∀ c ∈ w, c.isAlpha

theorem isUpper_toLower (c : Char) : c.toLower.isUpper = false := by
  delta Char.isUpper Char.toLower
  split <;> grind [UInt32.toNat_add, Char.toNat_val]

theorem isAlpha_toLower (c : Char) : c.toLower.isAlpha = c.isAlpha := by
  delta Char.isAlpha Char.isUpper Char.isLower Char.toLower
  split <;> grind [UInt32.toNat_add, Char.toNat_val]

theorem toLower_toLower (c : Char) : c.toLower.toLower = c.toLower :=
  dif_neg (of_decide_eq_false (isUpper_toLower c))

/-- A word that no letter stands next to. -/
def MaximalRun (w text : Str) : Prop :=
  ∃ front back, text = front ++ w ++ back ∧ Word w ∧ (∀ c ∈ front.getLast?, ¬ c.isAlpha) ∧ ∀ c ∈ back.head?, ¬ c.isAlpha

section Runs
variable {w x y acc s : Str} {c : Char}

theorem Word.notMem (hw : Word w) (hc : ¬ c.isAlpha) : c ∉ w := fun h => hc (hw.2 c h)

/-- No run goes across a character that is no letter. -/
theorem maximalRun_append (hc : ¬ c.isAlpha) : MaximalRun w (x ++ c :: y) ↔ MaximalRun w x ∨ MaximalRun w y := by
  constructor
  · rintro ⟨front, back, heq, hw, hfront, hback⟩
    rw [List.append_assoc, List.append_eq_append_iff] at heq
    rcases heq with ⟨z, rfl, hz⟩ | ⟨z, rfl, hz⟩
    · -- the run lies behind the character
      cases z with
      | nil =>
        obtain ⟨d, w, rfl⟩ := List.exists_cons_of_ne_nil hw.1
        obtain ⟨rfl, -⟩ := List.cons.inj hz
        exact absurd (List.mem_cons_self ..) (hw.notMem hc)
      | cons d z =>
        obtain ⟨rfl, rfl⟩ := List.cons.inj hz
        refine .inr ⟨z, back, by simp, hw, fun b hb => hfront b ?_, hback⟩
        rw [List.getLast?_append, List.getLast?_cons, Option.mem_def.mp hb]
        rfl
    · rw [List.append_eq_append_iff] at hz
      rcases hz with ⟨z', rfl, rfl⟩ | ⟨z', rfl, hz'⟩
      · -- the run lies in front of it
        refine .inl ⟨front, z', by simp, hw, hfront, fun b hb => hback b ?_⟩
        rw [List.head?_append, Option.mem_def.mp hb]
        rfl
      · cases z' with
        | nil => exact .inl ⟨front, [], by simp, by simpa using hw, hfront, nofun⟩
        | cons d z' =>
          obtain ⟨rfl, -⟩ := List.cons.inj hz'
          exact absurd (by simp) (hw.notMem hc)
  · rintro (⟨front, back, rfl, hw, hfront, hback⟩ | ⟨front, back, rfl, hw, hfront, hback⟩)
    · refine ⟨front, back ++ c :: y, by simp, hw, hfront, fun b hb => ?_⟩
      cases back with
      | nil =>
        obtain rfl : c = b := by simpa using hb
        exact hc
      | cons d back => exact hback b (by simpa using hb)
    · refine ⟨x ++ c :: front, back, by simp, hw, fun b hb => ?_, hback⟩
      rw [List.getLast?_append, List.getLast?_cons, Option.some_or] at hb
      cases hlast : front.getLast? with
      | none =>
        obtain rfl : c = b := by simpa [hlast] using hb
        exact hc
      | some d =>
        obtain rfl : d = b := by simpa [hlast] using hb
        exact hfront d hlast

/-- Letters only are one run. -/
theorem maximalRun_letters (hx : ∀ c ∈ x, c.isAlpha) : MaximalRun w x ↔ w = x ∧ x ≠ [] := by
  constructor
  · rintro ⟨front, back, rfl, hw, hfront, hback⟩
    obtain rfl : front = [] := by
      by_contra hne
      have hlast := List.getLast?_eq_some_getLast hne
      exact hfront _ hlast (hx _ (by simp))
    obtain rfl : back = [] := by
      by_contra hne
      have hhead := List.head?_eq_some_head hne
      exact hback _ hhead (hx _ (by simp))
    simpa using hw.1
  · rintro ⟨rfl, hne⟩
    exact ⟨[], [], by simp, ⟨hne, hx⟩, nofun, nofun⟩

/-- The scan finds the maximal runs. -/
theorem mem_wordsFrom (hacc : ∀ c ∈ acc, c.isAlpha) : w ∈ wordsFrom acc s ↔ MaximalRun w (acc.reverse ++ s) := by
  induction s generalizing acc with
  | nil =>
    have hrev : ∀ c ∈ acc.reverse, c.isAlpha := by simpa using hacc
    rw [wordsFrom, List.append_nil, maximalRun_letters hrev]
    split_ifs with h <;> simp [h]
  | cons c s ih =>
    have hrev : ∀ c ∈ acc.reverse, c.isAlpha := by simpa using hacc
    have hnil : w ∈ wordsFrom [] s ↔ MaximalRun w s := ih nofun
    rw [wordsFrom]
    split_ifs with hc h
    · have hmore : ∀ d ∈ c :: acc, d.isAlpha := by simpa [hc] using hacc
      rw [ih hmore]
      simp
    · rw [maximalRun_append hc, maximalRun_letters hrev, hnil]
      simp [h]
    · rw [maximalRun_append hc, maximalRun_letters hrev, List.mem_cons, hnil]
      simp [h]

theorem word_of_mem_wordsFrom (hacc : ∀ c ∈ acc, c.isAlpha) (hw : w ∈ wordsFrom acc s) : Word w := by
  obtain ⟨front, back, -, hword, -⟩ := (mem_wordsFrom hacc).mp hw
  exact hword

/-- A scan starts anew after a character that is no letter. -/
theorem wordsFrom_append (hc : ¬ c.isAlpha) (acc x y : Str) :
    wordsFrom acc (x ++ c :: y) = wordsFrom acc x ++ wordsFrom [] y := by
  induction x generalizing acc with
  | nil =>
    simp only [List.nil_append, wordsFrom, if_neg hc]
    split_ifs <;> simp
  | cons d x ih =>
    rw [List.cons_append, wordsFrom, wordsFrom]
    split_ifs <;> simp [ih]

end Runs

/-- A word is its only match. -/
theorem wordsFrom_word {w : Str} (hw : ∀ c ∈ w, c.isAlpha) (acc : Str) :
    wordsFrom acc w = if acc.reverse ++ w = [] then [] else [acc.reverse ++ w] := by
  induction w generalizing acc with
  | nil => simp [wordsFrom]
  | cons c w ih =>
    rw [wordsFrom, if_pos (hw c (by simp)), ih fun d hd => hw d (by simp [hd])]
    simp

/-- Case makes no difference to where words begin and end. -/
theorem wordsFrom_map_toLower (acc s : Str) :
    wordsFrom (acc.map Char.toLower) (s.map Char.toLower) = (wordsFrom acc s).map (List.map Char.toLower) := by
  induction s generalizing acc with
  | nil =>
    simp only [List.map_nil, wordsFrom, List.map_eq_nil_iff]
    split_ifs <;> simp
  | cons c s ih =>
    have hnil := ih []
    have hmore := ih (c :: acc)
    simp only [List.map_nil] at hnil
    simp only [List.map_cons] at hmore
    simp only [List.map_cons, wordsFrom, List.map_eq_nil_iff, isAlpha_toLower]
    split_ifs <;> simp [hnil, hmore]

theorem tokenMatches_eq (text : Str) :
    tokenMatches text = (wordsFrom [] (text.map Char.toLower)).filter fun w => w ∉ stopwords := by
  rw [tokenMatches, ← wordsFrom_map_toLower]
  rfl

/-- A query that is a token has this token only. -/
theorem tokenMatches_self {text t : Str} (ht : t ∈ tokenMatches text) : tokenMatches t = [t] := by
  simp only [tokenMatches, List.mem_filter, List.mem_map, decide_eq_true_eq] at ht
  obtain ⟨⟨w, hw, rfl⟩, hstop⟩ := ht
  have hnil : ∀ c ∈ ([] : Str), c.isAlpha := fun c hc => (nomatch hc)
  obtain ⟨hne, halpha⟩ := word_of_mem_wordsFrom hnil hw
  have hlower : ∀ c ∈ w.map Char.toLower, c.isAlpha := fun c hc => by
    obtain ⟨d, hd, rfl⟩ := List.mem_map.mp hc
    rw [isAlpha_toLower]
    exact halpha d hd
  have hsame : (w.map Char.toLower).map Char.toLower = w.map Char.toLower := by
    rw [List.map_map]
    exact List.map_congr_left fun c _ => toLower_toLower c
  have hmap : w.map Char.toLower ≠ [] := by simpa using hne
  rw [tokenMatches, wordsFrom_word hlower, List.reverse_nil, List.nil_append, if_neg hmap, List.map_singleton,
    hsame, List.filter_singleton]
  simp [hstop]

theorem Instance.tokenize_self (inst : Instance V) {text t : Str} (ht : t ∈ tokenMatches text) :
    inst.tokenize t = [t] := by
  have hperm := inst.order_perm [t]
  rw [tokenize, tokenMatches_self ht]
  exact List.perm_singleton.mp hperm

/-! ### Joined texts -/

theorem tokenMatches_append (x y : Str) : tokenMatches (x ++ ' ' :: y) = tokenMatches x ++ tokenMatches y := by
  have hblank : ¬ ' '.isAlpha := by decide
  simp [tokenMatches, wordsFrom_append hblank]

/-- The tokens of texts that are joined by blanks are those of the texts. -/
theorem tokenMatches_join (texts : List Str) :
    tokenMatches (List.intercalate [' '] texts) = texts.flatMap tokenMatches := by
  induction texts with
  | nil => rfl
  | cons x texts ih =>
    cases texts with
    | nil => simp
    | cons y texts =>
      rw [List.intercalate_cons_cons, List.append_assoc, List.singleton_append, tokenMatches_append, ih]
      rfl

/-- The parts of an event. -/
def partsOf (e : Event V) : List (Codec.Part V) := (e.content.getD none).getD []

theorem extractEventText_eq (e : Event V) :
    extractEventText e = List.intercalate [' '] (((partsOf e).filterMap Codec.Part.text).filter fun s => s ≠ []) := by
  unfold extractEventText partsOf
  rcases e.content with _ | _ | parts <;> rfl

/-- The tokens of an event are those of its parts with text. The tokens of a text are its
maximal runs of letters in lower case, less the stopwords and each of them once; so they
do not depend on the case of the letters, and a token that is searched for is found as
itself. -/
theorem tokens_of_parts (inst : Instance V) :
    (∀ (e : Event V) (t : Str), t ∈ inst.tokenize (extractEventText e) ↔
      ∃ p ∈ partsOf e, ∃ s, p.text = some s ∧ s ≠ [] ∧ t ∈ inst.tokenize s) ∧
    (∀ text, (inst.tokenize text).Nodup ∧ ∀ t, t ∈ inst.tokenize text ↔
      (∃ w, MaximalRun w text ∧ t = w.map Char.toLower) ∧ t ∉ stopwords) ∧
    (∀ text text' : Str, text.map Char.toLower = text'.map Char.toLower → inst.tokenize text = inst.tokenize text') ∧
    (∀ text, ∀ t ∈ inst.tokenize text, inst.tokenize t = [t]) := by
  refine ⟨fun e t => ?_, fun text => ⟨inst.nodup_tokenize text, fun t => ?_⟩, fun text text' h => ?_, fun text t ht => ?_⟩
  · simp only [inst.mem_tokenize, extractEventText_eq, tokenMatches_join, List.mem_flatMap, List.mem_filter,
      List.mem_filterMap, decide_eq_true_eq]
    constructor
    · rintro ⟨s, ⟨⟨p, hp, htext⟩, hne⟩, ht⟩
      exact ⟨p, hp, s, htext, hne, ht⟩
    · rintro ⟨p, hp, s, htext, hne, ht⟩
      exact ⟨s, ⟨⟨p, hp, htext⟩, hne⟩, ht⟩
  · have hrun : ∀ w, w ∈ wordsFrom [] text ↔ MaximalRun w text := fun w => mem_wordsFrom nofun
    rw [inst.mem_tokenize, tokenMatches, List.mem_filter, List.mem_map, decide_eq_true_eq]
    refine and_congr_left fun _ => exists_congr fun w => ?_
    rw [hrun, eq_comm]
  · rw [Instance.tokenize, Instance.tokenize, tokenMatches_eq, tokenMatches_eq, h]
  · exact inst.tokenize_self (inst.mem_tokenize.mp ht)

end AdkAerospike.Memory
