import AdkAerospike.Artifacts.Service

/-! What becomes of a part that is saved and loaded. A part is stored as its MIME type and
its bytes, and the type alone decides what is read back: text if it is `text/plain`,
inline data otherwise. So a reference to a file does not come back as one, and bytes that
are called plain text have to be such. -/

namespace AdkAerospike.Artifacts

open Data

variable {V : Type}

/-! ### UTF-8 -/

theorem decode_encode (s : Str) : decode (encode s) = .ok s := by
  have hvalid : (encode s).IsValidUTF8 := (String.ofList s).isValidUTF8
  have hback : String.fromUTF8 (encode s) hvalid = String.ofList s := rfl
  simp [decode, String.fromUTF8?, hvalid, hback]

theorem encode_of_decode {b : ByteArray} {s : Str} (h : decode b = .ok s) : encode s = b := by
  unfold decode String.fromUTF8? at h
  split_ifs at h with hvalid
  cases h
  simp [encode, String.fromUTF8]

theorem decode_eq_ok_iff (b : ByteArray) : (∃ s, decode b = .ok s) ↔ b.IsValidUTF8 := by
  unfold decode String.fromUTF8?
  split_ifs with hvalid <;> simp [hvalid]

/-! ### Payloads -/

/-- The kinds of parts, with what each of them holds. -/
inductive Payload where
  | inline (mime : Option Str) (data : ByteArray)
  | text (s : Str)
  | file (mime : Option Str) (uri : Str)

/-- What the service takes a part for. -/
def Part.payload (part : Part) : Option Payload :=
  match part.inlineData, part.text, part.fileData with
  | some blob, _, _ => some (.inline blob.mimeType (blob.data.getD ByteArray.empty))
  | none, some s, _ => some (.text s)
  | none, none, some file => some (.file file.mimeType (file.fileUri.getD []))
  | none, none, none => none

/-- Plain text is the same inline and on its own. -/
def Payload.normal : Payload → Payload
  | text s => inline (some textPlain) (encode s)
  | p => p

/-- Two parts of one kind, type and content. -/
def Part.Alike (part part' : Part) : Prop := part.payload.map Payload.normal = part'.payload.map Payload.normal

/-- Text, or inline data that is UTF-8 if it is called plain text. -/
def Part.Restorable (part : Part) : Prop :=
  match part.payload with
  | some (.inline mime data) => mime = some textPlain → data.IsValidUTF8
  | some (.text _) => True
  | _ => False

theorem partFromBins_of_ne {r : Record V} (h : r.mime ≠ some textPlain) :
    partFromBins r = .ok { inlineData := some ⟨r.mime, some (r.data.getD ByteArray.empty)⟩ } := if_neg h

theorem partFromBins_of_plain {r : Record V} (h : r.mime = some textPlain) :
    partFromBins r = (decode (r.data.getD ByteArray.empty)).map fun s => { text := some s } := if_pos h

/-- A part that is read back is never a reference to a file. -/
theorem payload_of_partFromBins {r : Record V} {loaded : Part} (h : partFromBins r = .ok loaded) (mime : Option Str)
    (uri : Str) : loaded.payload.map Payload.normal ≠ some (.file mime uri) := by
  unfold partFromBins at h
  split_ifs at h
  · cases hd : decode (r.data.getD ByteArray.empty) with
    | error e =>
      rw [hd] at h
      cases h
    | ok s =>
      rw [hd] at h
      cases h
      simp [Part.payload, Payload.normal]
  · cases h
    simp [Part.payload, Payload.normal]

/-- Inline data comes back unless it is called plain text and is not. -/
theorem restorable_inline {r : Record V} {mime : Option Str} {data : ByteArray} (hmime : r.mime = mime)
    (hdata : r.data.getD ByteArray.empty = data) :
    (∃ loaded, partFromBins r = .ok loaded ∧
      loaded.payload.map Payload.normal = some (.inline mime data)) ↔
        (mime = some textPlain → data.IsValidUTF8) := by
  subst hmime hdata
  by_cases hplain : r.mime = some textPlain
  · rw [partFromBins_of_plain hplain, ← decode_eq_ok_iff]
    constructor
    · rintro ⟨loaded, hload, -⟩ -
      cases hd : decode (r.data.getD ByteArray.empty) with
      | error e => simp [hd, Except.map] at hload
      | ok s => exact ⟨s, rfl⟩
    · intro h
      obtain ⟨s, hs⟩ := h hplain
      refine ⟨{ text := some s }, by rw [hs]; rfl, ?_⟩
      simp [Part.payload, Payload.normal, encode_of_decode hs, hplain]
  · rw [partFromBins_of_ne hplain]
    constructor
    · intro _ h
      exact absurd h hplain
    · intro _
      exact ⟨_, rfl, by simp [Part.payload, Payload.normal]⟩

/-- What is stored for each kind of part. -/
theorem payload_of_stored {part : Part} {mime : Option Str} {data : ByteArray} (hmime : mimeForPart part = .ok mime)
    (hdata : bytesForPart part = .ok data) :
    part.payload = some (.inline mime data) ∨
      (∃ s, part.payload = some (.text s) ∧ mime = some textPlain ∧ data = encode s) ∨
      ∃ mime' uri, part.payload = some (.file mime' uri) := by
  obtain ⟨_ | blob, text, file⟩ := part
  · cases text with
    | some s =>
      cases hmime
      cases hdata
      exact .inr (.inl ⟨s, rfl, rfl, rfl⟩)
    | none =>
      cases file with
      | some file => exact .inr (.inr ⟨_, _, rfl⟩)
      | none => cases hmime
  · cases hmime
    cases hdata
    exact .inl rfl

/-- What is saved is loaded again exactly if it is text, or inline data other than bytes
that are called plain text and are not. -/
theorem loading_undoes_saving_iff (part : Part) (mime : Option Str) (data : ByteArray) (hmime : mimeForPart part = .ok mime)
    (hdata : bytesForPart part = .ok data) (app user scope filename : Str) (version : ℕ) (now : ℚ)
    (customMetadata : Option (Dict V)) :
    (∃ loaded, partFromBins (newRow app user scope filename version mime data now customMetadata) = .ok loaded ∧
      loaded.Alike part) ↔ part.Restorable := by
  set row := newRow app user scope filename version mime data now customMetadata
  have hinline := @restorable_inline V row mime data rfl rfl
  unfold Part.Alike Part.Restorable
  rcases payload_of_stored hmime hdata with hp | ⟨s, hp, rfl, rfl⟩ | ⟨mime', uri, hp⟩
  · rw [hp]
    exact hinline
  · have hvalid : (encode s).IsValidUTF8 := (decode_eq_ok_iff _).mp ⟨s, decode_encode s⟩
    simp only [hp, iff_true]
    exact hinline.mpr fun _ => hvalid
  · simp only [hp, iff_false]
    rintro ⟨loaded, hload, halike⟩
    exact payload_of_partFromBins hload mime' uri halike

/-- A text comes back as it was. -/
theorem loading_undoes_saving_hello :
    mimeForPart { text := some "hello".toList } = .ok (some textPlain) ∧
      ∃ loaded, partFromBins (newRow "a".toList "u".toList "s".toList "f".toList 0 (some textPlain)
          (encode "hello".toList) 0 (none : Option (Dict ℕ))) = .ok loaded ∧
        loaded.Alike { text := some "hello".toList } :=
  ⟨rfl, (loading_undoes_saving_iff { text := some "hello".toList } (some textPlain) (encode "hello".toList) rfl rfl
    "a".toList "u".toList "s".toList "f".toList 0 0 none).mpr trivial⟩

/-- A reference to a file comes back as inline data. -/
theorem file_not_restored :
    ¬ ∀ (part : Part) (mime : Option Str) (data : ByteArray), mimeForPart part = .ok mime → bytesForPart part = .ok data →
      ∃ loaded, partFromBins (newRow "a".toList "u".toList "s".toList "f".toList 0 mime data 0
        (none : Option (Dict ℕ))) = .ok loaded ∧ loaded.Alike part := by
  intro h
  obtain ⟨loaded, hload, halike⟩ := h { fileData := some ⟨some "image/png".toList, some "gs://b/o".toList⟩ } _ _ rfl rfl
  exact payload_of_partFromBins hload _ _ halike

end AdkAerospike.Artifacts
