import Zsqlite.Lib.Outcome
import Zsqlite.Objects

set_option autoImplicit false

/-! # Frames

Building and verifying a frame (`frame.rs`). A frame holds a few consecutive pages, raw or
compressed, with a version (page, transaction, checksum) for each. `verifyPayload` admits a
payload only after its hash, its decoded length and the checksum of every page agree with the
metadata. Two facts carry everything the views need:

* a verified payload's chunk has the checksum its version names (`verifyPayload_chunk`);
* a frame the encoder built verifies with any dictionaries that include the one it was
  compressed with (`FrameEncoder.build_spec`).
-/

namespace Zsqlite

open ByteVec

/-- Page versions with the bytes they were taken from. -/
abbrev FramePages := List (PageVersion × Bytes)

/-- Dictionaries by id. -/
abbrev Dictionaries := BTreeMap Digest Bytes

variable (E : Env)

def PageVersion.verified (page txid : Nat) (bytes : Bytes) : PageVersion :=
  ⟨page, txid, E.hash.checksum page txid bytes⟩

namespace FrameMetadata

variable (m : FrameMetadata)

def id : Digest := E.hash.frame m

/-- The shared dictionary the payload needs, if any. -/
def dictionary : Option Digest :=
  match m.encoding with
  | .zstandard (.shared id) => some id
  | _ => none

/-- The checks of `FrameMetadata::decode` on a record stored under the id `expected`. -/
def decode (expected : Digest) : Except StoreError FrameMetadata := do
  Except.ensure (m.id E = expected) (.corrupt 0)
  Except.ensure (m.payloadBytes ≠ 0 ∧ m.payloadBytes ≤ m.shape.decoded) (.corrupt 0)
  Except.ensure (m.encoding = .raw → m.payloadBytes = m.shape.decoded) (.corrupt 0)
  Except.ensure (m.pages.length = m.shape.pages) .range
  m.pages.forM fun version => do
    let _ ← PageNumber.new version.page
    Except.ensure (version.txid ≠ 0) .value
  Except.ensure (m.pages.map PageVersion.page).Nodup (.corrupt 0)
  return m

def authenticatePayload (payload : Bytes) : Except StoreError Unit :=
  Except.ensure (payload.length = m.payloadBytes ∧ E.hash.bytes payload = m.payloadHash)
    (.corrupt 0)

/-- The decoded bytes of a payload. -/
def decompress (payload : Bytes) (dictionaries : Dictionaries) : Except StoreError Bytes :=
  match m.encoding with
  | .raw => .ok payload
  | .zstandard .none => (E.zstd.decompress none payload m.shape.decoded).elim (.error .zstd) .ok
  | .zstandard (.shared id) =>
      match dictionaries[id]? with
      | none => .error (.corrupt 0)
      | some bytes =>
          (E.zstd.decompress (some bytes) payload m.shape.decoded).elim (.error .zstd) .ok

/-- Authenticate and decode a payload, and check every page of it. -/
def verifyPayload (payload : Bytes) (dictionaries : Dictionaries) : Except StoreError Bytes := do
  m.authenticatePayload E payload
  let raw ← m.decompress E payload dictionaries
  Except.ensure (raw.length = m.shape.decoded) (.corrupt 0)
  (m.pages.zip (chunks m.shape.pageSize.get raw)).forM fun (version, page) =>
    Except.ensure (E.hash.checksum version.page version.txid page = version.checksum)
      (.pageChecksum version.page)
  return raw

end FrameMetadata

/-- Metadata and the payload it describes. -/
structure EncodedFrame where
  metadata : FrameMetadata
  payload : Bytes

/-- The payload verifies whenever its dictionary is at hand. -/
def EncodedFrame.WellEncoded (f : EncodedFrame) : Prop :=
  f.metadata.payloadBytes = f.payload.length ∧
  ∀ dictionaries : Dictionaries,
    (∀ id, f.metadata.dictionary = some id →
      ∃ bytes, dictionaries[id]? = some bytes ∧ E.hash.bytes bytes = id) →
    ∃ raw, f.metadata.verifyPayload E f.payload dictionaries = .ok raw

/-- One compression context: a level and the active dictionary. -/
structure FrameEncoder where
  level : Nat
  dictionary : Option (Digest × Bytes)

namespace FrameEncoder

variable (e : FrameEncoder)

/-- The encoding a compressed payload of this context is recorded with. -/
def encoding : CompressionDictionary := e.dictionary.elim .none fun d => .shared d.1

/-- Metadata bytes a dictionary reference costs. -/
def overhead : Nat := e.dictionary.elim 0 fun _ => 32

/-- The stored payload: compressed when the probe and the final size both favour it. -/
def encodePayload (raw : Bytes) : PayloadEncoding × Bytes :=
  if E.zstd.worthCompressing e.level (e.dictionary.map Prod.snd) raw then
    let compressed := E.zstd.compress e.level (e.dictionary.map Prod.snd) raw
    if compressed.length + e.overhead < raw.length then (.zstandard e.encoding, compressed)
    else (.raw, raw)
  else (.raw, raw)

def build (size : PageSize) (pages : FramePages) : Except StoreError EncodedFrame := do
  let shape ← FrameShape.new size (← toU32 pages.length)
  pages.forM fun (version, bytes) =>
    Except.ensure (bytes.length = size.get ∧
        E.hash.checksum version.page version.txid bytes = version.checksum)
      (.pageChecksum version.page)
  let (encoding, payload) := e.encodePayload E (pages.map Prod.snd).flatten
  return {
    metadata := {
      shape, encoding
      payloadBytes := payload.length
      payloadHash := E.hash.bytes payload
      pages := pages.map Prod.fst }
    payload }

end FrameEncoder

/-! ## Verified payloads -/

theorem FrameShape.new_eq_ok {size : PageSize} {n : Nat} {s : FrameShape}
    (h : FrameShape.new size n = .ok s) : s.pageSize = size ∧ s.pages = n := by
  unfold FrameShape.new at h
  split at h
  · cases h
    exact ⟨rfl, rfl⟩
  · cases h

theorem getElem?_chunks {ps : Nat} (hps : 0 < ps) {raw : Bytes} {n i : Nat}
    (h : raw.length = n * ps) (hi : i < n) : (chunks ps raw)[i]? = some (slice ps raw i) := by
  simp [chunks, h, Nat.mul_div_cancel _ hps, hi]

theorem length_slice {ps : Nat} {raw : Bytes} {n i : Nat} (h : raw.length = n * ps)
    (hi : i < n) : (slice ps raw i).length = ps := by
  have : (i + 1) * ps ≤ n * ps := Nat.mul_le_mul_right ps hi
  have : (i + 1) * ps = i * ps + ps := Nat.succ_mul i ps
  simp [slice, h]
  omega

/-- What decoding checks about the fields of frame metadata. -/
structure FrameMetadata.WellFormed (m : FrameMetadata) : Prop where
  count : m.pages.length = m.shape.pages
  bounded : m.payloadBytes ≤ m.shape.decoded
  numbered : ∀ version ∈ m.pages, version.page ≠ 0
  distinct : (m.pages.map PageVersion.page).Nodup

namespace FrameMetadata

variable {E} {m : FrameMetadata} {payload raw : Bytes} {dictionaries : Dictionaries}

theorem decode_eq_ok {expected : Digest} {m' : FrameMetadata}
    (h : m.decode E expected = .ok m') : m' = m ∧ m.id E = expected ∧ m.WellFormed := by
  simp only [decode, Except.bind_eq_ok, Except.ensure_eq_ok, Except.forM_eq_ok,
    exists_const] at h
  obtain ⟨hid, ⟨_, hbytes⟩, _, hcount, hpages, hnodup, h⟩ := h
  cases h
  refine ⟨rfl, hid, hcount, hbytes, fun version hv => ?_, hnodup⟩
  obtain ⟨_, hnum, _⟩ := hpages version hv
  exact (PageNumber.new_eq_ok.mp hnum).2.1

theorem verifyPayload_eq_ok : m.verifyPayload E payload dictionaries = .ok raw ↔
    (payload.length = m.payloadBytes ∧ E.hash.bytes payload = m.payloadHash) ∧
    m.decompress E payload dictionaries = .ok raw ∧ raw.length = m.shape.decoded ∧
    ∀ v page, (v, page) ∈ m.pages.zip (chunks m.shape.pageSize.get raw) →
      E.hash.checksum v.page v.txid page = v.checksum := by
  simp only [verifyPayload, authenticatePayload, Except.bind_eq_ok, Except.forM_eq_ok,
    Except.ensure_eq_ok, Prod.forall, exists_const]
  constructor
  · rintro ⟨ha, r, hd, hl, hc, h⟩
    cases h
    exact ⟨ha, hd, hl, hc⟩
  · rintro ⟨ha, hd, hl, hc⟩
    exact ⟨ha, raw, hd, hl, hc, rfl⟩

/-- Every chunk of a verified payload has the checksum its version names. -/
theorem verifyPayload_chunk (h : m.verifyPayload E payload dictionaries = .ok raw) {i : Nat}
    {v : PageVersion} (hv : m.pages[i]? = some v) (hi : i < m.shape.pages) :
    (slice m.shape.pageSize.get raw i).length = m.shape.pageSize.get ∧
    E.hash.checksum v.page v.txid (slice m.shape.pageSize.get raw i) = v.checksum := by
  obtain ⟨_, _, hl, hc⟩ := verifyPayload_eq_ok.mp h
  refine ⟨length_slice hl hi, hc v _ ?_⟩
  apply List.mem_of_getElem? (i := i)
  rw [List.getElem?_zip_eq_some]
  exact ⟨hv, getElem?_chunks m.shape.pageSize.pos hl hi⟩

end FrameMetadata

/-! ## Built frames -/

namespace FrameEncoder

variable {E} {e : FrameEncoder}

/-- The encoder's dictionary is stored under its own hash. -/
def Authentic (E : Env) (e : FrameEncoder) : Prop :=
  ∀ id bytes, e.dictionary = some (id, bytes) → id = E.hash.bytes bytes

/-- Decoding undoes `encodePayload`. -/
theorem decompress_encodePayload (he : e.Authentic E) {raw payload : Bytes}
    {encoding : PayloadEncoding} (hp : e.encodePayload E raw = (encoding, payload))
    {m : FrameMetadata} (hm : m.encoding = encoding) (hl : m.shape.decoded = raw.length)
    {dictionaries : Dictionaries}
    (hd : ∀ id, m.dictionary = some id →
      ∃ bytes, dictionaries[id]? = some bytes ∧ E.hash.bytes bytes = id) :
    m.decompress E payload dictionaries = .ok raw := by
  have raw_case : (PayloadEncoding.raw, raw) = (encoding, payload) →
      m.decompress E payload dictionaries = .ok raw := by
    intro h
    cases h
    simp [FrameMetadata.decompress, hm]
  unfold encodePayload at hp
  split at hp
  · dsimp only at hp
    split at hp
    · cases hp
      cases hdict : e.dictionary with
      | none => simp [FrameMetadata.decompress, hm, encoding, hdict, hl, E.zstd.round_trip]
      | some d =>
          obtain ⟨id, bytes⟩ := d
          simp only [encoding, hdict, Option.elim_some] at hm
          obtain ⟨found, hf, hid⟩ := hd id (by simp [FrameMetadata.dictionary, hm])
          -- The dictionary found under the id is the one the encoder used.
          obtain rfl : found = bytes := by
            rw [he id bytes hdict] at hid
            exact E.hash.bytes_injective hid
          simp [FrameMetadata.decompress, hm, hf, hl, E.zstd.round_trip]
    · exact raw_case hp
  · exact raw_case hp

/-- What `build` checks: a nonempty group within the frame limit whose bytes have the checksums of
their versions. -/
structure Buildable (E : Env) (size : PageSize) (pages : FramePages) : Prop where
  nonempty : pages ≠ []
  bounded : pages.length * size.get ≤ 8 * 1024 * 1024
  verified : ∀ v b, (v, b) ∈ pages →
    b.length = size.get ∧ E.hash.checksum v.page v.txid b = v.checksum

section Built

variable {size : PageSize} {pages : FramePages} {f : EncodedFrame}

theorem build_total (h : Buildable E size pages) : ∃ f, e.build E size pages = .ok f := by
  have hpos : 0 < pages.length := List.length_pos_iff.mpr h.nonempty
  have hlen : pages.length ≤ u32Max := by
    have hb := h.bounded
    have hle : pages.length * 512 ≤ pages.length * size.get :=
      Nat.mul_le_mul_left _ size.bounds.1
    unfold u32Max
    omega
  have hshape : FrameShape.new size pages.length = .ok ⟨size, pages.length, hpos, h.bounded⟩ :=
    dif_pos ⟨hpos, h.bounded⟩
  have hpages : (pages.forM fun (version, bytes) =>
      Except.ensure (bytes.length = size.get ∧
        E.hash.checksum version.page version.txid bytes = version.checksum)
      (StoreError.pageChecksum version.page)) = .ok () :=
    Except.forM_eq_ok.mpr fun ⟨v, b⟩ hvb => Except.ensure_of (h.verified v b hvb) _
  unfold build
  rw [Except.bind_of_ok (toU32_eq_ok.mpr ⟨hlen, rfl⟩), Except.bind_of_ok hshape,
    Except.bind_of_ok hpages]
  exact ⟨_, rfl⟩

/-- The fields of a built frame. -/
theorem build_eq_ok (h : e.build E size pages = .ok f) :
    Buildable E size pages ∧
      e.encodePayload E (pages.map Prod.snd).flatten = (f.metadata.encoding, f.payload) ∧
      f.metadata.shape.pageSize = size ∧ f.metadata.shape.pages = pages.length ∧
      f.metadata.payloadBytes = f.payload.length ∧
      f.metadata.payloadHash = E.hash.bytes f.payload ∧ f.metadata.pages = pages.map Prod.fst := by
  simp only [build, Except.bind_eq_ok, Except.forM_eq_ok, Except.ensure_eq_ok,
    toU32_eq_ok, Prod.forall, exists_const] at h
  obtain ⟨n, ⟨_, rfl⟩, shape, hs, hpages, h⟩ := h
  obtain ⟨rfl, hn⟩ := FrameShape.new_eq_ok hs
  cases h
  refine ⟨⟨?_, ?_, hpages⟩, rfl, rfl, hn, rfl, rfl, rfl⟩
  · rintro rfl
    exact absurd shape.nonempty (by simp [hn])
  · rw [← hn]
    exact shape.bounded

theorem Buildable.length_of_mem (h : Buildable E size pages) :
    ∀ b ∈ pages.map Prod.snd, b.length = size.get := by
  intro b hb
  obtain ⟨⟨v, b⟩, hvb, rfl⟩ := List.mem_map.mp hb
  exact (h.verified v b hvb).1

theorem Buildable.length_flatten (h : Buildable E size pages) :
    (pages.map Prod.snd).flatten.length = pages.length * size.get := by
  rw [length_flatten_const h.length_of_mem, List.length_map]

/-- A built frame verifies to the pages it was built from. -/
theorem build_verifyPayload (he : e.Authentic E) (h : e.build E size pages = .ok f)
    {dictionaries : Dictionaries}
    (hd : ∀ id, f.metadata.dictionary = some id →
      ∃ bytes, dictionaries[id]? = some bytes ∧ E.hash.bytes bytes = id) :
    f.metadata.verifyPayload E f.payload dictionaries = .ok (pages.map Prod.snd).flatten := by
  obtain ⟨hb, hp, hsize, hn, hbytes, hhash, hpages⟩ := build_eq_ok h
  have hdec : f.metadata.shape.decoded = (pages.map Prod.snd).flatten.length := by
    rw [hb.length_flatten, FrameShape.decoded, hn, hsize]
  refine FrameMetadata.verifyPayload_eq_ok.mpr
    ⟨⟨hbytes.symm, hhash.symm⟩, decompress_encodePayload he hp rfl hdec hd, hdec.symm, ?_⟩
  intro v page hv
  obtain ⟨i, hi⟩ := List.mem_iff_getElem?.mp hv
  obtain ⟨hvi, hpi⟩ := List.getElem?_zip_eq_some.mp hi
  obtain ⟨⟨v', b⟩, hvb, rfl⟩ : ∃ q, pages[i]? = some q ∧ q.1 = v := by
    simpa [hpages] using hvi
  have hip : i < pages.length := (List.getElem?_eq_some_iff.mp hvb).1
  have hslice : slice size.get (pages.map Prod.snd).flatten i = b :=
    slice_flatten hb.length_of_mem (by simp [hvb])
  rw [hsize, getElem?_chunks size.pos hb.length_flatten hip, hslice] at hpi
  obtain rfl := Option.some.inj hpi
  exact (hb.verified v' b (List.mem_of_getElem? hvb)).2

/-- **Built frames verify.** A built frame records the versions it was given, of pages with
those checksums, and its payload verifies wherever its dictionary is at hand. -/
theorem build_spec (he : e.Authentic E) (h : e.build E size pages = .ok f) :
    f.metadata.pages = pages.map Prod.fst ∧ f.metadata.shape.pageSize = size ∧
    f.metadata.shape.pages = pages.length ∧ f.WellEncoded E := by
  obtain ⟨-, -, hsize, hn, hbytes, -, hpages⟩ := build_eq_ok h
  exact ⟨hpages, hsize, hn, hbytes, fun _ hd => ⟨_, build_verifyPayload he h hd⟩⟩

end Built

end FrameEncoder

end Zsqlite
