import Mathlib.Data.Set.Function
import AdkAerospike.Data.Text

/-! Primary keys of all records (`_internal/keys.py`). Session rows, segments and
the per-user manifest share one set and are told apart by their key strings alone,
and so are memory rows and posting rows. Within one session the kinds never meet,
whatever the identifiers are; across sessions this needs identifiers without the
separator, and none of the words the layout reserves. -/

namespace AdkAerospike.Keys

open Data

def sep : Char := ':'

def sessionManifestSuffix : Str := ['s', 'l']

def segmentKeyPrefix : Str := ['g', ':']

def sessionKey (app user session : Str) : Str := app ++ sep :: (user ++ sep :: session)

def segmentKey (app user session : Str) (segmentIdx : ℕ) : Str :=
  app ++ sep :: (user ++ sep :: (session ++ sep :: (segmentKeyPrefix ++ padNat 8 segmentIdx)))

def appStateKey (app : Str) : Str := app

def userStateKey (app user : Str) : Str := app ++ sep :: user

def sessionManifestKey (app user : Str) : Str :=
  app ++ sep :: (user ++ sep :: sessionManifestSuffix)

def userScopeSid : Str := ['u', 's', 'e', 'r']

def artifactHeadSuffix : Str := ['_', '_', 'h', 'e', 'a', 'd', '_', '_']

def memoryKwPrefix : Str := ['k', 'w']

def artifactKey (app user session filename : Str) (version : ℤ) : Str :=
  app ++ sep :: (user ++ sep :: (session ++ sep :: (filename ++ sep :: padInt 8 version)))

def artifactHeadKey (app user session filename : Str) : Str :=
  app ++ sep :: (user ++ sep :: (session ++ sep :: (filename ++ sep :: artifactHeadSuffix)))

/-- `none` stands for the `ValueError` about a missing session id. -/
def artifactScopeId (filename : Str) (sessionId : Option Str) : Option Str :=
  if ['u', 's', 'e', 'r', ':'] <+: filename then some userScopeSid else sessionId

def memoryKey (app user session eventId : Str) : Str :=
  app ++ sep :: (user ++ sep :: (session ++ sep :: eventId))

def memoryPostingKey (app user token : Str) : Str :=
  app ++ sep :: (user ++ sep :: (memoryKwPrefix ++ sep :: token))

def scopeTuple (app user scopeId : Str) : Str := app ++ sep :: (user ++ sep :: scopeId)

/-- Free of the separator. -/
def Plain (x : Str) : Prop := sep ∉ x

instance (x : Str) : Decidable (Plain x) := inferInstanceAs (Decidable (sep ∉ x))

/-! ### One user's keys -/

/-- A segment key is laid out like the key of a session whose id goes on after
the real one. -/
theorem segmentKey_eq_sessionKey (a u s : Str) (i : ℕ) :
    segmentKey a u s i = sessionKey a u (s ++ sep :: (segmentKeyPrefix ++ padNat 8 i)) := rfl

@[simp] theorem sessionKey_right_inj {a u s s' : Str} :
    sessionKey a u s = sessionKey a u s' ↔ s = s' := by
  simp [sessionKey]

@[simp] theorem segmentKey_right_inj {a u s : Str} {i j : ℕ} :
    segmentKey a u s i = segmentKey a u s j ↔ i = j := by
  rw [segmentKey_eq_sessionKey, segmentKey_eq_sessionKey, sessionKey_right_inj,
    List.append_cancel_left_eq, List.cons.injEq, List.append_cancel_left_eq,
    (padNat_injective 8).eq_iff]
  simp

@[simp] theorem segmentKey_ne_sessionKey {a u s : Str} {i : ℕ} :
    segmentKey a u s i ≠ sessionKey a u s := by
  rw [segmentKey_eq_sessionKey, ne_eq, sessionKey_right_inj]
  intro h
  simpa using congrArg List.length h

/-- Whatever the identifiers are, a segment key tells the key of its session and its index. -/
theorem segmentKey_inj {a a' u u' s s' : Str} {i j : ℕ} :
    segmentKey a u s i = segmentKey a' u' s' j ↔ sessionKey a u s = sessionKey a' u' s' ∧ i = j := by
  have hsplit : ∀ (a u s : Str) (i : ℕ),
      segmentKey a u s i = (sessionKey a u s ++ [sep, 'g']) ++ sep :: padNat 8 i := fun a u s i => by
    simp [segmentKey, sessionKey, segmentKeyPrefix, sep]
  have hdigits : ∀ n : ℕ, sep ∉ padNat 8 n := fun n => notMem_of_digits (padNat_digits 8 n) rfl
  rw [hsplit, hsplit, append_sep_inj_right (hdigits i) (hdigits j), List.append_left_inj,
    (padNat_injective 8).eq_iff]

/-! ### Keys of different users and sessions -/

section Plain
variable {a a' u u' s s' : Str}

/-- The user field of a key is unambiguous when neither user id holds a separator. -/
theorem sessionKey_user_inj (hu : Plain u) (hu' : Plain u')
    (h : sessionKey a u s = sessionKey a u' s') : u = u' := by
  have h' : u ++ sep :: s = u' ++ sep :: s' := by simpa [sessionKey] using h
  exact ((append_sep_inj hu hu').mp h').1

theorem sessionKey_inj (ha : Plain a) (ha' : Plain a') (hu : Plain u) (hu' : Plain u') :
    sessionKey a u s = sessionKey a' u' s' ↔ a = a' ∧ u = u' ∧ s = s' := by
  rw [sessionKey, sessionKey, append_sep_inj ha ha', append_sep_inj hu hu']

theorem userStateKey_inj (ha : Plain a) (ha' : Plain a') :
    userStateKey a u = userStateKey a' u' ↔ a = a' ∧ u = u' := append_sep_inj ha ha'

/-- An id without a separator is not one that goes on with a segment suffix. -/
theorem plain_ne_segment (hs : Plain s) (t : Str) : s ≠ s' ++ sep :: t := by
  rintro rfl
  exact hs (by simp)

theorem segmentSuffix_inj (hs : Plain s) (hs' : Plain s') {i j : ℕ}
    (h : s ++ sep :: (segmentKeyPrefix ++ padNat 8 i) =
      s' ++ sep :: (segmentKeyPrefix ++ padNat 8 j)) : s = s' ∧ i = j := by
  obtain ⟨hss, hij⟩ := (append_sep_inj hs hs').mp h
  exact ⟨hss, padNat_injective 8 (List.append_cancel_left hij)⟩

end Plain

/-! ### Keys of artifacts -/

/-- The layout that version and head keys share. -/
def fileKey (app user session filename suffix : Str) : Str :=
  app ++ sep :: (user ++ sep :: (session ++ sep :: (filename ++ sep :: suffix)))

theorem artifactKey_eq_fileKey (a u s f : Str) (v : ℤ) :
    artifactKey a u s f v = fileKey a u s f (padInt 8 v) := rfl

theorem artifactHeadKey_eq_fileKey (a u s f : Str) :
    artifactHeadKey a u s f = fileKey a u s f artifactHeadSuffix := rfl

theorem plain_artifactHeadSuffix : Plain artifactHeadSuffix := by decide

theorem plain_padInt (w : ℕ) (z : ℤ) : Plain (padInt w z) := notMem_padInt rfl (by decide)

theorem padInt_ne_artifactHeadSuffix (z : ℤ) : padInt 8 z ≠ artifactHeadSuffix := fun h => by
  have hmem : '_' ∈ padInt 8 z := by simp [h, artifactHeadSuffix]
  exact notMem_padInt rfl (by decide) hmem

section FileKey
variable {a a' u u' s s' f f' x x' : Str}

@[simp] theorem fileKey_right_inj : fileKey a u s f x = fileKey a u s f x' ↔ x = x' := by simp [fileKey]

/-- Whatever the identifiers are, the last field of a key tells the kinds apart. -/
theorem fileKey_suffix_inj (hx : Plain x) (hx' : Plain x') (h : fileKey a u s f x = fileKey a' u' s' f' x') :
    x = x' := by
  have hsplit : ∀ a u s f x : Str, fileKey a u s f x = (a ++ sep :: (u ++ sep :: (s ++ sep :: f))) ++ sep :: x := by
    simp [fileKey]
  rw [hsplit, hsplit] at h
  exact ((append_sep_inj_right hx hx').mp h).2

/-- The suffix holds no separator, so a file name may hold any. -/
theorem fileKey_inj (ha : Plain a) (ha' : Plain a') (hu : Plain u) (hu' : Plain u') (hs : Plain s)
    (hs' : Plain s') (hx : Plain x) (hx' : Plain x') :
    fileKey a u s f x = fileKey a' u' s' f' x' ↔ a = a' ∧ u = u' ∧ s = s' ∧ f = f' ∧ x = x' := by
  rw [fileKey, fileKey, append_sep_inj ha ha', append_sep_inj hu hu', append_sep_inj hs hs',
    append_sep_inj_right hx hx']

theorem scopeTuple_inj (ha : Plain a) (ha' : Plain a') (hu : Plain u) (hu' : Plain u') :
    scopeTuple a u s = scopeTuple a' u' s' ↔ a = a' ∧ u = u' ∧ s = s' := sessionKey_inj ha ha' hu hu'

/-- Keys of artifacts are read off from both ends: the ids from the left, the version from
the right, and what is in between is the file name. -/
theorem artifact_keys_unambiguous (v v' : ℕ) (ha : Plain a) (ha' : Plain a') (hu : Plain u) (hu' : Plain u')
    (hs : Plain s) (hs' : Plain s') :
    (artifactKey a u s f v = artifactKey a' u' s' f' v' ↔ a = a' ∧ u = u' ∧ s = s' ∧ f = f' ∧ v = v') ∧
      (artifactHeadKey a u s f = artifactHeadKey a' u' s' f' ↔ a = a' ∧ u = u' ∧ s = s' ∧ f = f') ∧
      artifactKey a u s f v ≠ artifactHeadKey a' u' s' f' := by
  refine ⟨?_, ?_, fun h => ?_⟩
  · rw [artifactKey_eq_fileKey, artifactKey_eq_fileKey,
      fileKey_inj ha ha' hu hu' hs hs' (plain_padInt 8 v) (plain_padInt 8 v'), (padInt_injective 8).eq_iff, Int.natCast_inj]
  · rw [artifactHeadKey_eq_fileKey, artifactHeadKey_eq_fileKey,
      fileKey_inj ha ha' hu hu' hs hs' plain_artifactHeadSuffix plain_artifactHeadSuffix]
    simp
  · rw [artifactKey_eq_fileKey, artifactHeadKey_eq_fileKey] at h
    have hsuffix := ((fileKey_inj ha ha' hu hu' hs hs' (plain_padInt 8 v) plain_artifactHeadSuffix).mp h).2.2.2.2
    exact padInt_ne_artifactHeadSuffix v hsuffix

/-- A name that ends like a head key, beside a version of more than eight digits. -/
theorem artifact_keys_unambiguous_imitation :
    (artifactKey ['a'] ['u'] ['s'] "f:__head__".toList 0 = artifactKey ['a'] ['u'] ['s'] "f:00000000".toList 123456789 ↔
        ['a'] = ['a'] ∧ ['u'] = ['u'] ∧ ['s'] = ['s'] ∧ "f:__head__".toList = "f:00000000".toList ∧ 0 = 123456789) ∧
      (artifactHeadKey ['a'] ['u'] ['s'] "f:__head__".toList = artifactHeadKey ['a'] ['u'] ['s'] "f:00000000".toList ↔
        ['a'] = ['a'] ∧ ['u'] = ['u'] ∧ ['s'] = ['s'] ∧ "f:__head__".toList = "f:00000000".toList) ∧
      artifactKey ['a'] ['u'] ['s'] "f:__head__".toList 0 ≠ artifactHeadKey ['a'] ['u'] ['s'] "f:00000000".toList :=
  artifact_keys_unambiguous 0 123456789 (by decide) (by decide) (by decide) (by decide) (by decide)
    (by decide)

end FileKey

/-! ### The record kinds of a set -/

/-- What a key of the sessions set is made of. -/
inductive SessionsKey where
  | session (app user session : Str)
  | segment (app user session : Str) (segmentIdx : ℕ)
  | manifest (app user : Str)

/-- What a key of the memory set is made of. -/
inductive MemorySetKey where
  | memory (app user session eventId : Str)
  | posting (app user token : Str)

def SessionsKey.text : SessionsKey → Str
  | session a u s => sessionKey a u s
  | segment a u s i => segmentKey a u s i
  | manifest a u => sessionManifestKey a u

def MemorySetKey.text : MemorySetKey → Str
  | memory a u s e => memoryKey a u s e
  | posting a u t => memoryPostingKey a u t

/-- The keys with plain fields and a session id from `S`. -/
def SessionsKey.over (S : Set Str) : Set SessionsKey
  | session a u s => Plain a ∧ Plain u ∧ Plain s ∧ s ∈ S
  | segment a u s _ => Plain a ∧ Plain u ∧ Plain s ∧ s ∈ S
  | manifest a u => Plain a ∧ Plain u

/-- The keys with plain fields and a session id from `S`. -/
def MemorySetKey.over (S : Set Str) : Set MemorySetKey
  | memory a u s e => Plain a ∧ Plain u ∧ Plain s ∧ Plain e ∧ s ∈ S
  | posting a u t => Plain a ∧ Plain u ∧ Plain t

theorem plain_sessionManifestSuffix : Plain sessionManifestSuffix := by decide

theorem plain_memoryKwPrefix : Plain memoryKwPrefix := by decide

/-- Keys of the sessions set are apart when no session id is the manifest's word. -/
theorem SessionsKey.injOn_text {S : Set Str} (hS : sessionManifestSuffix ∉ S) :
    (SessionsKey.over S).InjOn SessionsKey.text := by
  rintro x hx y hy (hxy : x.text = y.text)
  cases x with
  | session a u s =>
    obtain ⟨ha, hu, hs, hsS⟩ := hx
    cases y with
    | session a' u' s' =>
      obtain ⟨rfl, rfl, rfl⟩ := (sessionKey_inj ha hy.1 hu hy.2.1).mp hxy
      rfl
    | segment a' u' s' j => exact absurd ((sessionKey_inj ha hy.1 hu hy.2.1).mp hxy).2.2 (plain_ne_segment hs _)
    | manifest a' u' =>
      obtain ⟨-, -, rfl⟩ := (sessionKey_inj ha hy.1 hu hy.2).mp hxy
      exact absurd hsS hS
  | segment a u s i =>
    obtain ⟨ha, hu, hs, -⟩ := hx
    cases y with
    | session a' u' s' =>
      exact absurd ((sessionKey_inj ha hy.1 hu hy.2.1).mp hxy).2.2.symm (plain_ne_segment hy.2.2.1 _)
    | segment a' u' s' j =>
      obtain ⟨rfl, rfl, hrest⟩ := (sessionKey_inj ha hy.1 hu hy.2.1).mp hxy
      obtain ⟨rfl, rfl⟩ := segmentSuffix_inj hs hy.2.2.1 hrest
      rfl
    | manifest a' u' =>
      exact absurd ((sessionKey_inj ha hy.1 hu hy.2).mp hxy).2.2.symm
        (plain_ne_segment plain_sessionManifestSuffix _)
  | manifest a u =>
    obtain ⟨ha, hu⟩ := hx
    cases y with
    | session a' u' s' =>
      obtain ⟨-, -, rfl⟩ := (sessionKey_inj ha hy.1 hu hy.2.1).mp hxy
      exact absurd hy.2.2.2 hS
    | segment a' u' s' j =>
      exact absurd ((sessionKey_inj ha hy.1 hu hy.2.1).mp hxy).2.2
        (plain_ne_segment plain_sessionManifestSuffix _)
    | manifest a' u' =>
      obtain ⟨rfl, rfl, -⟩ := (sessionKey_inj ha hy.1 hu hy.2).mp hxy
      rfl

/-- A memory key is laid out like the key of a session whose id goes on with the
event id; the posting rows take the place of one session. -/
theorem memoryKey_inj {a a' u u' s s' e e' : Str} (ha : Plain a) (ha' : Plain a') (hu : Plain u)
    (hu' : Plain u') (hs : Plain s) (hs' : Plain s') :
    memoryKey a u s e = memoryKey a' u' s' e' ↔ a = a' ∧ u = u' ∧ s = s' ∧ e = e' := by
  rw [memoryKey, memoryKey, append_sep_inj ha ha', append_sep_inj hu hu', append_sep_inj hs hs']

theorem memoryPostingKey_eq_memoryKey (a u t : Str) :
    memoryPostingKey a u t = memoryKey a u memoryKwPrefix t := rfl

theorem MemorySetKey.injOn_text {S : Set Str} (hS : memoryKwPrefix ∉ S) :
    (MemorySetKey.over S).InjOn MemorySetKey.text := by
  rintro x hx y hy (hxy : x.text = y.text)
  cases x with
  | memory a u s e =>
    obtain ⟨ha, hu, hs, -, hsS⟩ := hx
    cases y with
    | memory a' u' s' e' =>
      obtain ⟨rfl, rfl, rfl, rfl⟩ := (memoryKey_inj ha hy.1 hu hy.2.1 hs hy.2.2.1).mp hxy
      rfl
    | posting a' u' t =>
      obtain ⟨-, -, rfl, -⟩ := (memoryKey_inj ha hy.1 hu hy.2.1 hs plain_memoryKwPrefix).mp hxy
      exact absurd hsS hS
  | posting a u t =>
    obtain ⟨ha, hu, -⟩ := hx
    cases y with
    | memory a' u' s' e' =>
      obtain ⟨-, -, rfl, -⟩ := (memoryKey_inj ha hy.1 hu hy.2.1 plain_memoryKwPrefix hy.2.2.1).mp hxy
      exact absurd hy.2.2.2.2 hS
    | posting a' u' t' =>
      obtain ⟨rfl, rfl, -, rfl⟩ :=
        (memoryKey_inj ha hy.1 hu hy.2.1 plain_memoryKwPrefix plain_memoryKwPrefix).mp hxy
      rfl

/-- Different records of a set have different keys exactly when no session is
named like the word that stands in its place in a manifest or posting key. -/
theorem keys_apart_iff (S : Set Str) :
    ((SessionsKey.over S).InjOn SessionsKey.text ∧ (MemorySetKey.over S).InjOn MemorySetKey.text) ↔
      sessionManifestSuffix ∉ S ∧ memoryKwPrefix ∉ S := by
  refine ⟨fun ⟨hs, hm⟩ => ⟨fun h => ?_, fun h => ?_⟩,
    fun ⟨hs, hm⟩ => ⟨SessionsKey.injOn_text hs, MemorySetKey.injOn_text hm⟩⟩
  · have hnil : Plain [] := List.not_mem_nil
    have hrow : SessionsKey.session [] [] sessionManifestSuffix ∈ SessionsKey.over S :=
      ⟨hnil, hnil, plain_sessionManifestSuffix, h⟩
    have hman : SessionsKey.manifest [] [] ∈ SessionsKey.over S := ⟨hnil, hnil⟩
    cases hs hrow hman rfl
  · have hnil : Plain [] := List.not_mem_nil
    have hrow : MemorySetKey.memory [] [] memoryKwPrefix [] ∈ MemorySetKey.over S :=
      ⟨hnil, hnil, plain_memoryKwPrefix, hnil, h⟩
    have hpost : MemorySetKey.posting [] [] [] ∈ MemorySetKey.over S := ⟨hnil, hnil, hnil⟩
    cases hm hrow hpost rfl

/-- The session `sl` of a user has the key of the user's manifest, and a memory
of the session `kw` may have that of a posting row. -/
theorem reserved_session_ids_collide :
    ¬ (SessionsKey.over Set.univ).InjOn SessionsKey.text ∧
    ¬ (MemorySetKey.over Set.univ).InjOn MemorySetKey.text ∧
    sessionKey ['a'] ['u'] ['s', 'l'] = sessionManifestKey ['a'] ['u'] ∧
    memoryKey ['a'] ['u'] ['k', 'w'] ['t'] = memoryPostingKey ['a'] ['u'] ['t'] := by
  have ha : Plain ['a'] := by decide
  have hu : Plain ['u'] := by decide
  have ht : Plain ['t'] := by decide
  refine ⟨fun h => ?_, fun h => ?_, rfl, rfl⟩
  · have hrow : SessionsKey.session ['a'] ['u'] ['s', 'l'] ∈ SessionsKey.over Set.univ :=
      ⟨ha, hu, plain_sessionManifestSuffix, trivial⟩
    have hman : SessionsKey.manifest ['a'] ['u'] ∈ SessionsKey.over Set.univ := ⟨ha, hu⟩
    cases h hrow hman rfl
  · have hrow : MemorySetKey.memory ['a'] ['u'] ['k', 'w'] ['t'] ∈ MemorySetKey.over Set.univ :=
      ⟨ha, hu, plain_memoryKwPrefix, ht, trivial⟩
    have hpost : MemorySetKey.posting ['a'] ['u'] ['t'] ∈ MemorySetKey.over Set.univ := ⟨ha, hu, ht⟩
    cases h hrow hpost rfl

end AdkAerospike.Keys
