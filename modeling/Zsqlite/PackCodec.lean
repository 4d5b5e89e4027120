import Zsqlite.Lib.Cursor
import Zsqlite.FrameCodec
import Zsqlite.Seal

set_option autoImplicit false

/-! # Packs as bytes

A pack is a header of 128 bytes and one record per frame: the length and the id of the metadata,
the metadata, the frame header and the payload. The writer (`seal.rs`) emits the records and feeds
ids and positions into the identity of the pack; the copier (`pack.rs`) reads a pack from an
untrusted source, checks every record and derives the identity again.

The copier accepts exactly the bytes of packs of well-formed frames (`copy_eq_ok`), so what the
writer finished is copied unchanged under the id that the writer recorded, and a pack id fixes the
bytes.
-/

namespace Zsqlite

open ByteVec Wire

namespace PackCodec

variable (hash : Bytes → Digest) (crc : Bytes → UInt32)

def packMagic : Bytes := [0x5a, 0x50, 0x41, 0x43, 0x4b, 0x30, 0x30, 0x31]

/-- The fixed header. -/
def packHeader : Bytes := packMagic ++ zeros (segmentHeaderSize - 8)

/-! ## Identities -/

/-- The bytes fed to the hash so far, the next offset, and the number of frames. -/
structure Identity where
  input : Bytes
  offset : Nat
  frames : Nat
  deriving DecidableEq

namespace Identity

/-- The text `zsqlite/pack/v1` and a zero byte. -/
def domain : Bytes :=
  [0x7a, 0x73, 0x71, 0x6c, 0x69, 0x74, 0x65, 0x2f, 0x70, 0x61, 0x63, 0x6b, 0x2f, 0x76, 0x31, 0x00]

def new : Identity := ⟨domain ++ packHeader, segmentHeaderSize, 0⟩

def frame (identity : Identity) (m : FrameMetadata) : Except StoreError Identity := do
  let length ← checkedAdd 36 m.encodedLen
  let length ← checkedAdd length frameHeaderSize
  let length ← checkedAdd length m.payloadBytes
  return {
    input := identity.input ++ leBytes 32 (hash m.encode) ++ leBytes 8 identity.offset ++
      leBytes 8 length
    offset := ← checkedAdd identity.offset length
    frames := ← checkedAdd identity.frames 1 }

def finish (identity : Identity) (length : Nat) : Except StoreError Digest := do
  Except.ensure (length = identity.offset ∧ identity.frames ≠ 0) (.corrupt length)
  return hash (identity.input ++ leBytes 8 identity.frames ++ leBytes 8 length)

end Identity

/-! ## The writer -/

/-- The bytes written so far and what the writer keeps beside them. -/
structure PackWriter where
  bytes : Bytes
  identity : Identity
  offset : Nat
  metadataBytes : Nat
  frames : List (Nat × FrameMetadata)

namespace PackWriter

def new : PackWriter := ⟨packHeader, Identity.new, segmentHeaderSize, 0, []⟩

def append (w : PackWriter) (f : EncodedFrame) : Except StoreError PackWriter := do
  let metadataBytes := w.metadataBytes + (f.metadata.encodedLen + 64)
  Except.ensure (metadataBytes ≤ 16 * 1024 * 1024) .range
  let encoded := f.metadata.encode
  let length ← toU32 encoded.length
  let header ← f.metadata.recordHeader
  let bytes := w.bytes ++ leBytes 4 length ++ leBytes 32 (hash encoded) ++ encoded ++
    header.encode crc
  let offset := w.offset + (36 + encoded.length + frameHeaderSize)
  return {
    bytes := bytes ++ f.payload
    identity := ← w.identity.frame hash f.metadata
    offset := offset + f.payload.length
    metadataBytes
    frames := w.frames ++ [(offset, f.metadata)] }

/-- The id of the finished pack and the locations registered for its frames. -/
def finish (w : PackWriter) : Except StoreError (Digest × List FrameLocation) := do
  let pack ← w.identity.finish hash w.offset
  return (pack, w.frames.map fun (offset, m) => ⟨pack, offset, m.payloadBytes, m⟩)

end PackWriter

/-! ## The copier -/

/-- Read `n` bytes at an offset. -/
def readAt (source : Bytes) (offset n : Nat) : Except StoreError Bytes :=
  if offset + n ≤ source.length then .ok (window source offset n) else .error .io

/-- One part of a payload: at most the size of the buffer. -/
def copyPart (source : Bytes) (stop : Nat) (s : Nat × Bytes) : Except StoreError (Nat × Bytes) := do
  let amount := min (stop - s.1) (1024 * 1024)
  let part ← readAt source s.1 amount
  return (s.1 + amount, s.2 ++ part)

theorem copyPart_advances (source : Bytes) (stop : Nat) (s t : Nat × Bytes) (hs : s.1 < stop)
    (h : copyPart source stop s = .ok t) : s.1 < t.1 := by
  obtain ⟨_, -, h⟩ := Except.bind_eq_ok.mp h
  obtain rfl := Except.pure_eq_ok.mp h
  dsimp only
  omega

/-- The payload from `offset` to `stop`, hashed and written part by part. -/
def copyPayload (source : Bytes) (offset stop : Nat) : Except StoreError Bytes := do
  let s ← Cursor.whileBefore stop Prod.fst (copyPart source stop) (copyPart_advances source stop)
    (offset, [])
  return s.2

structure CopyState where
  offset : Nat
  output : Bytes
  identity : Identity

/-- A record up to its payload: the metadata, the length and the bytes. -/
def copyStart (source : Bytes) (length offset : Nat) :
    Except StoreError (FrameMetadata × Nat × Bytes) := do
  Except.ensure (36 ≤ length - offset) (.corrupt offset)
  let start ← readAt source offset 36
  let count := leNat (start.take 4)
  Except.ensure (count ≤ 1024 * 1024) .range
  let recordLength := 36 + count + frameHeaderSize
  Except.ensure (recordLength ≤ length - offset) (.corrupt offset)
  let id := leNat (start.drop 4)
  let encoded ← readAt source (offset + 36) count
  let metadata ← FrameMetadata.decodeBytes hash encoded id
  let header ← readAt source (offset + 36 + count) frameHeaderSize
  let expected ← metadata.recordHeader
  Except.ensure (header = expected.encode crc) (.corrupt offset)
  return (metadata, recordLength, start ++ (encoded ++ header))

/-- Copy and authenticate a payload, unless only the metadata is wanted. -/
def copyBody (payloads : Bool) (source : Bytes) (m : FrameMetadata) (offset stop : Nat)
    (output : Bytes) : Except StoreError Bytes :=
  if payloads then do
    let payload ← copyPayload source offset stop
    Except.ensure (hash payload = m.payloadHash) (.corrupt stop)
    return output ++ payload
  else return output

/-- One record. -/
def copyRecord (payloads : Bool) (source : Bytes) (length : Nat) (s : CopyState) :
    Except StoreError CopyState := do
  let (metadata, recordLength, start) ← copyStart hash crc source length s.offset
  let output := s.output ++ start
  let offset := s.offset + recordLength
  let payloadEnd ← checkedAdd offset metadata.payloadBytes
  Except.ensure (payloadEnd ≤ length) (.corrupt offset)
  let output ← copyBody hash payloads source metadata offset payloadEnd output
  return ⟨payloadEnd, output, ← s.identity.frame hash metadata⟩

theorem copyStart_pos {source : Bytes} {length offset n : Nat} {m : FrameMetadata} {start : Bytes}
    (h : copyStart hash crc source length offset = .ok (m, n, start)) : 0 < n := by
  simp only [copyStart, Except.bind_eq_ok, Except.ensure_eq_ok, exists_const,
    Except.pure_eq_ok, Prod.mk.injEq] at h
  obtain ⟨-, _, -, -, -, _, -, _, -, _, -, _, -, -, -, rfl, -⟩ := h
  omega

theorem copyRecord_advances (payloads : Bool) (source : Bytes) (length : Nat) (s t : CopyState)
    (_ : s.offset < length) (h : copyRecord hash crc payloads source length s = .ok t) :
    s.offset < t.offset := by
  obtain ⟨⟨m, n, start⟩, hstart, h⟩ := Except.bind_eq_ok.mp h
  have hpos := copyStart_pos hash crc hstart
  simp only [Except.bind_eq_ok, Except.ensure_eq_ok, exists_const, checkedAdd_eq_ok,
    Except.pure_eq_ok] at h
  obtain ⟨stop, ⟨-, hstop⟩, -, _, -, _, -, rfl⟩ := h
  dsimp only
  omega

/-- `copy`: the id of the pack in the first `length` bytes of a source, and the bytes written. -/
def copy (payloads : Bool) (source : Bytes) (length : Nat) : Except StoreError (Digest × Bytes) := do
  Except.ensure (segmentHeaderSize ≤ length) (.corrupt 0)
  let header ← readAt source 0 segmentHeaderSize
  Except.ensure (header = packHeader) (.corrupt 0)
  let s ← Cursor.whileBefore length CopyState.offset (copyRecord hash crc payloads source length)
    (copyRecord_advances hash crc payloads source length) ⟨segmentHeaderSize, header, Identity.new⟩
  return (← s.identity.finish hash length, s.output)

variable {hash crc} {source : Bytes} {length : Nat}

theorem readAt_eq_ok {offset n : Nat} {b : Bytes} :
    readAt source offset n = .ok b ↔ b.length = n ∧ At source offset b := by
  unfold readAt
  constructor
  · intro h
    split at h
    · rename_i hle
      obtain rfl := Except.ok.inj h
      exact ⟨length_window _ _ _, at_window hle⟩
    · cases h
  · rintro ⟨rfl, hb⟩
    rw [if_pos hb.1, (at_window hb.1).eq hb (length_window _ _ _)]

/-- What the copy of a payload has done so far. -/
structure Copied (source : Bytes) (offset stop : Nat) (s : Nat × Bytes) : Prop where
  position : s.1 = offset + s.2.length
  bound : s.1 ≤ stop
  bytes : At source offset s.2

theorem copied_part {offset stop : Nat} {s t : Nat × Bytes} (hs : Copied source offset stop s)
    (h : copyPart source stop s = .ok t) : Copied source offset stop t := by
  obtain ⟨part, hpart, h⟩ := Except.bind_eq_ok.mp h
  obtain rfl := Except.pure_eq_ok.mp h
  obtain ⟨hlen, hat⟩ := readAt_eq_ok.mp hpart
  have hposition := hs.position
  have hbound := hs.bound
  refine ⟨?_, ?_, at_append.mpr ⟨hs.bytes, hposition ▸ hat⟩⟩
  · rw [List.length_append, hlen, hposition]
    dsimp only
    omega
  · dsimp only
    omega

/-- The parts of a payload make up the payload. -/
theorem copyPayload_eq_ok {offset stop : Nat} (hoffset : offset ≤ source.length)
    (hstop : offset ≤ stop) {payload : Bytes} :
    copyPayload source offset stop = .ok payload ↔
      payload.length = stop - offset ∧ At source offset payload := by
  have hstart : Copied source offset stop (offset, []) := ⟨rfl, hstop, by simpa [At] using hoffset⟩
  unfold copyPayload
  constructor
  · intro h
    obtain ⟨s, hs, h⟩ := Except.bind_eq_ok.mp h
    obtain rfl := Except.pure_eq_ok.mp h
    obtain ⟨hcopied, hend⟩ := Cursor.whileBefore_invariant (fun _ _ => copied_part) hs hstart
    have hposition := hcopied.position
    have hbound := hcopied.bound
    exact ⟨by omega, hcopied.bytes⟩
  · rintro ⟨hlen, hat⟩
    have hle := hat.1
    have hbody : ∀ s, Copied source offset stop s → s.1 < stop →
        ∃ t, copyPart source stop s = .ok t ∧ Copied source offset stop t := by
      intro s hs hlt
      obtain ⟨t, ht⟩ : ∃ t, copyPart source stop s = .ok t := by
        unfold copyPart
        rw [Except.bind_of_ok (readAt_eq_ok.mpr ⟨length_window _ _ _, at_window (by omega)⟩)]
        exact ⟨_, rfl⟩
      exact ⟨t, ht, copied_part hs ht⟩
    obtain ⟨s, hs, hcopied, hend⟩ : ∃ s, Cursor.whileBefore stop Prod.fst (copyPart source stop)
        (copyPart_advances source stop) (offset, []) = .ok s ∧ Copied source offset stop s ∧
          stop ≤ s.1 := Cursor.whileBefore_total hbody hstart
    rw [Except.bind_of_ok hs]
    have hposition := hcopied.position
    have hbound := hcopied.bound
    rw [hcopied.bytes.eq hat (by omega)]
    rfl

/-! ## Records -/

/-- The frame header of a record, for metadata that has a page. -/
def frameHeader (m : FrameMetadata) : FrameHeader where
  pageNo := (m.pages.head?.map PageVersion.page).getD 0
  compressed := m.encoding ≠ .raw
  dictionaryIndex := if m.dictionary.isSome then 0 else 2 ^ 16 - 1
  storedLen := m.payloadBytes
  rawLen := m.shape.decoded

/-- What stands before the payload. -/
def recordStart (hash : Bytes → Digest) (crc : Bytes → UInt32) (m : FrameMetadata) : Bytes :=
  leBytes 4 m.encode.length ++ (leBytes 32 (hash m.encode) ++
    (m.encode ++ (frameHeader m).encode crc))

def record (hash : Bytes → Digest) (crc : Bytes → UInt32) (f : EncodedFrame) : Bytes :=
  recordStart hash crc f.metadata ++ f.payload

/-- A frame whose record the copier accepts. -/
structure Storable (hash : Bytes → Digest) (f : EncodedFrame) : Prop where
  admissible : f.metadata.Admissible
  id : hash f.metadata.encode < 2 ^ 256
  length : f.payload.length = f.metadata.payloadBytes
  payload : hash f.payload = f.metadata.payloadHash

section Records

variable {m : FrameMetadata} {f : EncodedFrame}

theorem recordHeader_eq {header : FrameHeader} (h : m.recordHeader = .ok header) :
    header = frameHeader m := by
  unfold FrameMetadata.recordHeader at h
  cases hp : m.pages.head? with
  | none => simp [hp] at h
  | some first =>
      simp only [hp, Except.bind_eq_ok, toU32_eq_ok, Except.pure_eq_ok] at h
      obtain ⟨_, ⟨-, rfl⟩, _, ⟨-, rfl⟩, rfl⟩ := h
      simp [frameHeader, hp]

theorem recordHeader_of_admissible (h : m.Admissible) : m.recordHeader = .ok (frameHeader m) := by
  have hfits := FrameMetadata.payloadFits_iff.mp h.payload
  have hwf : m.WellFormed :=
    ⟨h.count, hfits.1.2, fun v hv => (h.versions v hv).page.1, h.distinct⟩
  obtain ⟨header, hheader⟩ := PinnedView.recordHeader_eq_ok hwf
  rw [hheader, recordHeader_eq hheader]

/-- Metadata of any frame is shorter than the copier's limit. -/
theorem encodedLen_le (h : m.Formed) : m.encodedLen ≤ 1024 * 1024 := by
  have hcount := h.count
  have hbound := m.shape.bounded
  have hsize := m.shape.pageSize.bounds.1
  have hpages : m.shape.pages * 512 ≤ m.shape.pages * m.shape.pageSize.get :=
    Nat.mul_le_mul_left _ hsize
  unfold FrameMetadata.encodedLen
  split <;> omega

theorem length_recordStart : (recordStart hash crc m).length = m.payloadStart := by
  simp only [recordStart, List.length_append, length_leBytes, m.length_encode,
    FrameHeader.length_encode, FrameMetadata.payloadStart]
  omega

theorem length_record (h : f.payload.length = f.metadata.payloadBytes) :
    (record hash crc f).length = f.metadata.packedLen := by
  rw [record, List.length_append, length_recordStart, h, FrameMetadata.packedLen]

theorem eq_leBytes_of_length {start : Bytes} (h : start.length = 36) :
    start = leBytes 4 (leNat (start.take 4)) ++ leBytes 32 (leNat (start.drop 4)) := by
  rw [leBytes_leNat_of_length (by simp [h]), leBytes_leNat_of_length (by simp [h]),
    List.take_append_drop]

/-- The length and the id in front of the metadata. -/
def recordPrelude (hash : Bytes → Digest) (m : FrameMetadata) : Bytes :=
  leBytes 4 m.encode.length ++ leBytes 32 (hash m.encode)

theorem recordStart_eq : recordStart hash crc m =
    recordPrelude hash m ++ (m.encode ++ (frameHeader m).encode crc) := by
  simp [recordStart, recordPrelude]

theorem length_recordPrelude : (recordPrelude hash m).length = 36 := by
  simp [recordPrelude]

/-- The parts of the start of a record. -/
theorem at_recordStart {offset : Nat} : At source offset (recordStart hash crc m) ↔
    At source offset (recordPrelude hash m) ∧ At source (offset + 36) m.encode ∧
      At source (offset + 36 + m.encode.length) ((frameHeader m).encode crc) := by
  rw [recordStart_eq, at_append, at_append, length_recordPrelude]

/-- The start of a record is accepted when it is the one written for admissible metadata. -/
theorem copyStart_eq_ok {offset n : Nat} {start : Bytes} :
    copyStart hash crc source source.length offset = .ok (m, n, start) ↔
      m.Admissible ∧ hash m.encode < 2 ^ 256 ∧ At source offset (recordStart hash crc m) ∧
        n = m.payloadStart ∧ start = recordStart hash crc m := by
  unfold copyStart
  constructor
  · intro h
    obtain ⟨_, -, h⟩ := Except.bind_eq_ok.mp h
    obtain ⟨first, hfirst, h⟩ := Except.bind_eq_ok.mp h
    obtain ⟨_, -, h⟩ := Except.bind_eq_ok.mp h
    obtain ⟨_, -, h⟩ := Except.bind_eq_ok.mp h
    obtain ⟨encoded, hencoded, h⟩ := Except.bind_eq_ok.mp h
    obtain ⟨m', hm, h⟩ := Except.bind_eq_ok.mp h
    obtain ⟨header, hrecord, h⟩ := Except.bind_eq_ok.mp h
    obtain ⟨expected, hexpected, h⟩ := Except.bind_eq_ok.mp h
    obtain ⟨_, heq, h⟩ := Except.bind_eq_ok.mp h
    obtain ⟨hm', hrest⟩ := Prod.mk.inj (Except.pure_eq_ok.mp h)
    obtain ⟨hn, hstart⟩ := Prod.mk.inj hrest
    subst hm'
    obtain ⟨hfirstLen, hfirstAt⟩ := readAt_eq_ok.mp hfirst
    obtain ⟨hencodedLen, hencodedAt⟩ := readAt_eq_ok.mp hencoded
    obtain ⟨hadmissible, rfl, hid⟩ := FrameMetadata.decodeBytes_eq_ok.mp hm
    have heq : header = expected.encode crc := Except.ensure_eq_ok.mp heq
    rw [recordHeader_eq hexpected] at heq
    rw [heq] at hrecord hstart
    have hprelude : first = recordPrelude hash m := by
      rw [eq_leBytes_of_length hfirstLen, ← hencodedLen, ← hid, recordPrelude]
    have hlt : leNat (first.drop 4) < 256 ^ 32 := leNat_lt_of_length (by simp [hfirstLen])
    refine ⟨hadmissible, ?_, at_recordStart.mpr ⟨hprelude ▸ hfirstAt, hencodedAt, ?_⟩, ?_, ?_⟩
    · rw [hid]
      exact hlt
    · rw [hencodedLen]
      exact (readAt_eq_ok.mp hrecord).2
    · rw [hn, FrameMetadata.payloadStart, ← hencodedLen, m.length_encode]
    · rw [hstart, hprelude, recordStart_eq]
  · rintro ⟨hm, hid, hat, rfl, rfl⟩
    have hle := hat.1
    rw [length_recordStart, FrameMetadata.payloadStart] at hle
    obtain ⟨hprelude, hencoded, hheader⟩ := at_recordStart.mp hat
    have hcount : leNat ((recordPrelude hash m).take 4) = m.encode.length := by
      rw [recordPrelude, List.take_left' (length_leBytes _ _), leNat_leBytes]
      have := encodedLen_le hm.formed
      rw [m.length_encode]
      omega
    have hdigest : leNat ((recordPrelude hash m).drop 4) = hash m.encode := by
      rw [recordPrelude, List.drop_left' (length_leBytes _ _), leNat_leBytes hid]
    have hlen := m.length_encode
    have hmax := encodedLen_le hm.formed
    rw [Except.bind_of_ok (Except.ensure_of (by omega) _),
      Except.bind_of_ok (readAt_eq_ok.mpr ⟨length_recordPrelude, hprelude⟩), hcount, hdigest,
      Except.bind_of_ok (Except.ensure_of (by omega) _),
      Except.bind_of_ok (Except.ensure_of (by omega) _),
      Except.bind_of_ok (readAt_eq_ok.mpr ⟨rfl, hencoded⟩),
      Except.bind_of_ok (FrameMetadata.decodeBytes_eq_ok.mpr ⟨hm, rfl, rfl⟩),
      Except.bind_of_ok (readAt_eq_ok.mpr ⟨FrameHeader.length_encode crc _, hheader⟩),
      Except.bind_of_ok (recordHeader_of_admissible hm),
      Except.bind_of_ok (Except.ensure_of rfl _), Except.pure_eq_ok, recordStart_eq, hlen]
    rfl

/-- **Records.** The copier accepts the record of a storable frame, and nothing else. -/
theorem copyRecord_eq_ok (hlen : source.length ≤ u64Max) {s t : CopyState} :
    copyRecord hash crc true source source.length s = .ok t ↔
      ∃ f, Storable hash f ∧ At source s.offset (record hash crc f) ∧
        t.offset = s.offset + (record hash crc f).length ∧
        t.output = s.output ++ record hash crc f ∧
        s.identity.frame hash f.metadata = .ok t.identity := by
  unfold copyRecord
  constructor
  · intro h
    obtain ⟨⟨m, n, start⟩, hstart, h⟩ := Except.bind_eq_ok.mp h
    obtain ⟨hm, hid, hat, rfl, rfl⟩ := copyStart_eq_ok.mp hstart
    simp only [copyBody, Except.bind_eq_ok, Except.ensure_eq_ok, exists_const, checkedAdd_eq_ok,
      Except.pure_eq_ok, if_true] at h
    obtain ⟨stop, ⟨-, hstop⟩, hle, output, ⟨payload, hpayload, hhash, houtput⟩, identity, hidentity,
      rfl⟩ := h
    have hend := hat.1
    rw [length_recordStart] at hend
    rw [copyPayload_eq_ok hend (by omega)] at hpayload
    obtain ⟨hlength, hatPayload⟩ := hpayload
    have hlength : payload.length = m.payloadBytes := by omega
    refine ⟨⟨m, payload⟩, ⟨hm, hid, hlength, hhash⟩, at_append.mpr ⟨hat, ?_⟩, ?_, ?_, hidentity⟩
    · rw [length_recordStart]
      exact hatPayload
    · rw [length_record hlength, hstop, FrameMetadata.packedLen, Nat.add_assoc]
    · rw [houtput, record, List.append_assoc]
  · rintro ⟨f, hf, hat, hoffset, houtput, hidentity⟩
    have hlength := hf.length
    have hle := hat.1
    rw [length_record hlength] at hle hoffset
    unfold FrameMetadata.packedLen at hle hoffset
    obtain ⟨hatStart, hatPayload⟩ := at_append.mp hat
    rw [length_recordStart] at hatPayload
    have hbody : copyBody hash true source f.metadata (s.offset + f.metadata.payloadStart)
        (s.offset + f.metadata.payloadStart + f.metadata.payloadBytes)
        (s.output ++ recordStart hash crc f.metadata) = .ok t.output := by
      unfold copyBody
      rw [if_pos rfl, Except.bind_of_ok ((copyPayload_eq_ok (by omega) (by omega)).mpr
        ⟨by omega, hatPayload⟩), Except.bind_of_ok (Except.ensure_of hf.payload _),
        Except.pure_eq_ok, houtput, record, List.append_assoc]
    rw [Except.bind_of_ok (copyStart_eq_ok.mpr ⟨hf.admissible, hf.id, hatStart, rfl, rfl⟩)]
    dsimp only
    rw [Except.bind_of_ok (checkedAdd_eq_ok.mpr ⟨by omega, rfl⟩),
      Except.bind_of_ok (Except.ensure_of (by omega) _), Except.bind_of_ok hbody,
      Except.bind_of_ok hidentity, Nat.add_assoc, ← hoffset]
    rfl

end Records

/-! ## Whole packs -/

/-- The bytes of a pack. -/
def packBytes (hash : Bytes → Digest) (crc : Bytes → UInt32) (p : Pack) : Bytes :=
  packHeader ++ p.flatMap (record hash crc)

/-- Feed the frames of a pack to an identity. -/
def identify (hash : Bytes → Digest) (p : Pack) (identity : Identity) : Except StoreError Identity :=
  p.foldlM (fun identity f => identity.frame hash f.metadata) identity

/-- The entries of a pack in its identity, the first record at `start`. -/
def entryBytes (hash : Bytes → Digest) (start : Nat) : Pack → Bytes
  | [] => []
  | f :: p => leBytes 32 (hash f.metadata.encode) ++ leBytes 8 start ++
      leBytes 8 f.metadata.packedLen ++ entryBytes hash (start + f.metadata.packedLen) p

section Packs

variable {p q : Pack} {f : EncodedFrame} {i j : Identity}

theorem frame_eq_ok {m : FrameMetadata} : i.frame hash m = .ok j ↔
    i.offset + m.packedLen ≤ u64Max ∧ i.frames + 1 ≤ u64Max ∧
      j = ⟨i.input ++ leBytes 32 (hash m.encode) ++ leBytes 8 i.offset ++ leBytes 8 m.packedLen,
        i.offset + m.packedLen, i.frames + 1⟩ := by
  simp only [Identity.frame, Except.bind_eq_ok, checkedAdd_eq_ok, Except.pure_eq_ok]
  unfold FrameMetadata.packedLen FrameMetadata.payloadStart
  constructor
  · rintro ⟨_, ⟨-, rfl⟩, _, ⟨-, rfl⟩, _, ⟨-, rfl⟩, _, ⟨hoffset, rfl⟩, _, ⟨hframes, rfl⟩, rfl⟩
    exact ⟨hoffset, hframes, rfl⟩
  · rintro ⟨hoffset, hframes, rfl⟩
    exact ⟨_, ⟨by omega, rfl⟩, _, ⟨by omega, rfl⟩, _, ⟨by omega, rfl⟩, _, ⟨hoffset, rfl⟩, _,
      ⟨hframes, rfl⟩, rfl⟩

theorem identify_cons : identify hash (f :: p) i = .ok j ↔
    ∃ k, i.frame hash f.metadata = .ok k ∧ identify hash p k = .ok j := by
  rw [identify, List.foldlM_cons, Except.bind_eq_ok]
  rfl

/-- What an identity has seen. -/
theorem identify_eq_ok (h : identify hash p i = .ok j) :
    j.input = i.input ++ entryBytes hash i.offset p ∧
      j.offset = i.offset + (p.map fun f => f.metadata.packedLen).sum ∧
      j.frames = i.frames + List.length p ∧ (i.offset ≤ u64Max → j.offset ≤ u64Max) := by
  induction p generalizing i with
  | nil =>
      obtain rfl := Except.pure_eq_ok.mp h
      simp [entryBytes]
  | cons f p ih =>
      obtain ⟨k, hk, h⟩ := identify_cons.mp h
      obtain ⟨hoffset, -, rfl⟩ := frame_eq_ok.mp hk
      obtain ⟨hinput, hoff, hframes, hle⟩ := ih h
      refine ⟨?_, ?_, ?_, fun _ => hle hoffset⟩
      · rw [hinput, entryBytes]
        simp only [List.append_assoc]
      · rw [hoff, List.map_cons, List.sum_cons, Nat.add_assoc]
      · rw [hframes, List.length_cons]
        dsimp only
        omega

/-- The steps of the copier are the records of storable frames. -/
theorem steps_iff (hlen : source.length ≤ u64Max) {s t : CopyState} :
    Relation.ReflTransGen (Cursor.Step source.length CopyState.offset
        (copyRecord hash crc true source source.length)) s t ∧ s.offset ≤ source.length ↔
      ∃ p : Pack, (∀ f ∈ p, Storable hash f) ∧ At source s.offset (p.flatMap (record hash crc)) ∧
        t.offset = s.offset + (p.flatMap (record hash crc)).length ∧
        t.output = s.output ++ p.flatMap (record hash crc) ∧
        identify hash p s.identity = .ok t.identity := by
  constructor
  · rintro ⟨hrun, hs⟩
    induction hrun using Relation.ReflTransGen.head_induction_on with
    | refl => exact ⟨[], by simp, by simpa [At] using hs, by simp, by simp, rfl⟩
    | head hstep _ ih =>
        obtain ⟨f, hf, hat, hoffset, houtput, hidentity⟩ := (copyRecord_eq_ok hlen).mp hstep.2
        obtain ⟨p, hp, hatp, hoffsetp, houtputp, hidentityp⟩ := ih (hoffset ▸ hat.1)
        refine ⟨f :: p, by simpa using ⟨hf, hp⟩, ?_, ?_, ?_, identify_cons.mpr ⟨_, hidentity,
          hidentityp⟩⟩
        · rw [List.flatMap_cons, at_append, ← hoffset]
          exact ⟨hat, hatp⟩
        · rw [hoffsetp, hoffset, List.flatMap_cons, List.length_append, Nat.add_assoc]
        · rw [houtputp, houtput, List.flatMap_cons, List.append_assoc]
  · rintro ⟨p, hp, hat, hoffset, houtput, hidentity⟩
    refine ⟨?_, by have := hat.1; omega⟩
    induction p generalizing s with
    | nil =>
        obtain rfl : t = s := by
          cases s
          cases t
          simp_all [identify, pure, Except.pure]
        exact .refl
    | cons f p ih =>
        rw [List.flatMap_cons] at hat hoffset houtput
        obtain ⟨k, hk, hidentity⟩ := identify_cons.mp hidentity
        obtain ⟨hatf, hatp⟩ := at_append.mp hat
        have hf : Storable hash f := hp f (by simp)
        have hpos : 0 < (record hash crc f).length := by
          rw [length_record hf.length, FrameMetadata.packedLen, FrameMetadata.payloadStart]
          omega
        have hlt : s.offset < source.length := by
          have := hatf.1
          omega
        refine .head (b := ⟨s.offset + (record hash crc f).length, s.output ++ record hash crc f, k⟩)
          ⟨hlt, (copyRecord_eq_ok hlen).mpr ⟨f, hf, hatf, rfl, rfl, hk⟩⟩
          (ih (fun g hg => hp g (by simp [hg])) hatp ?_ ?_ hidentity)
        · rw [hoffset, List.length_append, Nat.add_assoc]
        · rw [houtput, List.append_assoc]

theorem length_packHeader : packHeader.length = segmentHeaderSize := by
  simp [packHeader, packMagic, segmentHeaderSize]

theorem length_flatMap_record (hp : ∀ f ∈ p, f.payload.length = f.metadata.payloadBytes) :
    (p.flatMap (record hash crc)).length = (p.map fun f => f.metadata.packedLen).sum := by
  rw [List.length_flatMap, List.map_congr_left fun f hf => length_record (hp f hf)]

theorem length_packBytes (hp : ∀ f ∈ p, f.payload.length = f.metadata.payloadBytes) :
    (packBytes hash crc p).length = Pack.length p := by
  rw [packBytes, List.length_append, length_flatMap_record hp, length_packHeader, Pack.length]

/-- The identity of a pack. -/
def packId (hash : Bytes → Digest) (p : Pack) : Except StoreError Digest := do
  let identity ← identify hash p Identity.new
  identity.finish hash (Pack.length p)

theorem at_records {bytes : Bytes} (h : bytes = packBytes hash crc p) :
    At bytes 0 packHeader ∧ At bytes segmentHeaderSize (p.flatMap (record hash crc)) := by
  have hself := at_self (packBytes hash crc p)
  rw [h]
  nth_rewrite 2 [packBytes] at hself
  rw [at_append, length_packHeader, Nat.zero_add] at hself
  exact hself

/-- **Copies.** The copier accepts the bytes of packs of storable frames, and nothing else; it
emits them unchanged. -/
theorem copy_eq_ok (hlen : source.length ≤ u64Max) {id : Digest} {output : Bytes} :
    copy hash crc true source source.length = .ok (id, output) ↔ output = source ∧
      ∃ p : Pack, (∀ f ∈ p, Storable hash f) ∧ source = packBytes hash crc p ∧
        packId hash p = .ok id := by
  unfold copy
  constructor
  · intro h
    obtain ⟨_, hmin, h⟩ := Except.bind_eq_ok.mp h
    obtain ⟨header, hheader, h⟩ := Except.bind_eq_ok.mp h
    obtain ⟨_, heq, h⟩ := Except.bind_eq_ok.mp h
    obtain ⟨t, ht, h⟩ := Except.bind_eq_ok.mp h
    obtain ⟨id', hid, h⟩ := Except.bind_eq_ok.mp h
    obtain ⟨rfl, houtput⟩ := Prod.mk.inj (Except.pure_eq_ok.mp h)
    have hmin := Except.ensure_eq_ok.mp hmin
    have heq : header = packHeader := Except.ensure_eq_ok.mp heq
    have hatHeader := (readAt_eq_ok.mp hheader).2
    obtain ⟨hrun, hend⟩ := Cursor.whileBefore_eq_ok.mp ht
    obtain ⟨p, hp, hat, hoffset, hout, hidentity⟩ := (steps_iff hlen).mp ⟨hrun, hmin⟩
    dsimp only at hat hoffset hout hidentity
    rw [heq] at hatHeader hout
    -- The records end where the source ends.
    have hsource : source = packBytes hash crc p := by
      have hatp : At source 0 (packBytes hash crc p) := by
        rw [packBytes, at_append, length_packHeader, Nat.zero_add]
        exact ⟨hatHeader, hat⟩
      refine (at_self source).eq hatp ?_
      have := hat.1
      rw [packBytes, List.length_append, length_packHeader]
      omega
    refine ⟨by rw [houtput, hout, hsource, packBytes], p, hp, hsource, ?_⟩
    rw [packId, Except.bind_of_ok hidentity, ← length_packBytes fun f hf => (hp f hf).length,
      ← hsource, hid]
  · rintro ⟨rfl, p, hp, hsource, hid⟩
    have hlength : output.length = Pack.length p := by
      rw [hsource, length_packBytes fun f hf => (hp f hf).length]
    obtain ⟨identity, hidentity, hfinish⟩ := Except.bind_eq_ok.mp hid
    have hat := at_records hsource
    have hmin : segmentHeaderSize ≤ output.length := by
      have := hat.2.1
      omega
    have hend : output.length ≤ segmentHeaderSize + (p.flatMap (record hash crc)).length := by
      rw [hsource, packBytes, List.length_append, length_packHeader]
    have hrun := ((steps_iff hlen (s := ⟨segmentHeaderSize, packHeader, Identity.new⟩)
      (t := ⟨segmentHeaderSize + (p.flatMap (record hash crc)).length,
        packHeader ++ p.flatMap (record hash crc), identity⟩)).mpr
      ⟨p, hp, hat.2, rfl, rfl, hidentity⟩).1
    rw [Except.bind_of_ok (Except.ensure_of hmin _),
      Except.bind_of_ok (readAt_eq_ok.mpr ⟨length_packHeader, hat.1⟩),
      Except.bind_of_ok (Except.ensure_of rfl _),
      Except.bind_of_ok (Cursor.whileBefore_eq_ok.mpr ⟨hrun, hend⟩)]
    dsimp only
    rw [hlength, Except.bind_of_ok hfinish, Except.pure_eq_ok, ← packBytes, ← hsource]

/-! ## One id, one pack -/

theorem length_entryBytes (start : Nat) : (entryBytes hash start p).length = 48 * List.length p := by
  induction p generalizing start with
  | nil => rfl
  | cons f p ih =>
      simp only [entryBytes, List.length_append, length_leBytes, ih, List.length_cons]
      omega

theorem EncodedFrame.eq_of_parts {f g : EncodedFrame} (hm : f.metadata = g.metadata)
    (hpayload : f.payload = g.payload) : f = g := by
  cases f
  cases g
  exact congrArg₂ EncodedFrame.mk hm hpayload

theorem eq_of_entryBytes (hinj : Function.Injective hash) (hp : ∀ f ∈ p, Storable hash f)
    (hq : ∀ f ∈ q, Storable hash f) (hlen : List.length p = List.length q) {start : Nat}
    (h : entryBytes hash start p = entryBytes hash start q) : p = q := by
  induction p generalizing q start with
  | nil => exact (List.length_eq_zero_iff.mp hlen.symm).symm
  | cons f p ih =>
      obtain ⟨g, q, rfl⟩ := List.exists_cons_of_length_eq_add_one hlen.symm
      have hf := hp f (by simp)
      have hg := hq g (by simp)
      simp only [entryBytes, List.append_assoc] at h
      obtain ⟨hid, h⟩ := List.append_inj h (by simp)
      obtain ⟨-, h⟩ := List.append_inj h (by simp)
      obtain ⟨-, h⟩ := List.append_inj h (by simp)
      have hm : f.metadata = g.metadata :=
        FrameMetadata.eq_of_encode hf.admissible.formed hg.admissible.formed
          (hinj (leBytes_injective hf.id hg.id hid))
      have hpayload : f.payload = g.payload := by
        apply hinj
        rw [hf.payload, hg.payload, hm]
      rw [ih (fun f' hf' => hp f' (by simp [hf'])) (fun f' hf' => hq f' (by simp [hf']))
        (by simpa using hlen) (hm ▸ h), EncodedFrame.eq_of_parts hm hpayload]

/-- The input of the identity hash. -/
theorem packId_eq_ok {id : Digest} (h : packId hash p = .ok id) :
    id = hash (Identity.new.input ++ (entryBytes hash segmentHeaderSize p ++
      (leBytes 8 (List.length p) ++ leBytes 8 (Pack.length p)))) := by
  obtain ⟨identity, hidentity, hfinish⟩ := Except.bind_eq_ok.mp h
  obtain ⟨hinput, -, hframes, -⟩ := identify_eq_ok hidentity
  obtain ⟨_, -, hfinish⟩ := Except.bind_eq_ok.mp hfinish
  rw [Except.pure_eq_ok.mp hfinish, hinput, hframes]
  simp only [Identity.new, Nat.zero_add, List.append_assoc]

/-- **One id, one pack.** -/
theorem eq_of_packId (hinj : Function.Injective hash) (hp : ∀ f ∈ p, Storable hash f)
    (hq : ∀ f ∈ q, Storable hash f) {id : Digest} (hpid : packId hash p = .ok id)
    (hqid : packId hash q = .ok id) : p = q := by
  have h := hinj ((packId_eq_ok hpid).symm.trans (packId_eq_ok hqid))
  have h := List.append_cancel_left h
  have hlen : List.length p = List.length q := by
    have := congrArg List.length h
    simp only [List.length_append, length_entryBytes, length_leBytes] at this
    omega
  exact eq_of_entryBytes hinj hp hq hlen
    (List.append_inj h (by rw [length_entryBytes, length_entryBytes, hlen])).1

/-! ## Finished packs -/

/-- What every encoded frame has: metadata with fields of their types, and the payload that the
metadata describes. -/
structure Encoded (hash : Bytes → Digest) (f : EncodedFrame) : Prop where
  formed : f.metadata.Formed
  id : hash f.metadata.encode < 2 ^ 256
  length : f.payload.length = f.metadata.payloadBytes
  payload : hash f.payload = f.metadata.payloadHash

theorem storable_iff : Storable hash f ↔
    Encoded hash f ∧ (f.metadata.pages.map PageVersion.page).Nodup := by
  constructor
  · rintro ⟨hm, hid, hlength, hpayload⟩
    exact ⟨⟨hm.formed, hid, hlength, hpayload⟩, hm.distinct⟩
  · rintro ⟨⟨hm, hid, hlength, hpayload⟩, hdistinct⟩
    exact ⟨⟨hm.toTyped, hm.payload, hm.count, hdistinct⟩, hid, hlength, hpayload⟩

/-- The bytes of a pack determine its frames. -/
theorem eq_of_records (hp : ∀ f ∈ p, Encoded hash f) (hq : ∀ f ∈ q, Encoded hash f)
    (h : p.flatMap (record hash crc) = q.flatMap (record hash crc)) : p = q := by
  have hpos : ∀ f : EncodedFrame, record hash crc f ≠ [] := by
    intro f hnil
    have := congrArg List.length hnil
    rw [record, List.length_append, length_recordStart, FrameMetadata.payloadStart] at this
    simp at this
  induction p generalizing q with
  | nil =>
      cases q with
      | nil => rfl
      | cons g q => exact absurd (List.append_eq_nil_iff.mp h.symm).1 (hpos g)
  | cons f p ih =>
      cases q with
      | nil => exact absurd (List.append_eq_nil_iff.mp h).1 (hpos f)
      | cons g q =>
          have hf := hp f (by simp)
          have hg := hq g (by simp)
          have hflen := encodedLen_le hf.formed
          have hglen := encodedLen_le hg.formed
          simp only [List.flatMap_cons, record, recordStart, List.append_assoc] at h
          obtain ⟨hlen, h⟩ := List.append_inj h (by simp)
          obtain ⟨-, h⟩ := List.append_inj h (by simp)
          have hlen : f.metadata.encode.length = g.metadata.encode.length := by
            refine leBytes_injective ?_ ?_ hlen
            · rw [f.metadata.length_encode]
              omega
            · rw [g.metadata.length_encode]
              omega
          obtain ⟨hencode, h⟩ := List.append_inj h hlen
          have hm := FrameMetadata.eq_of_encode hf.formed hg.formed hencode
          obtain ⟨-, h⟩ := List.append_inj h (by simp [FrameHeader.length_encode])
          obtain ⟨hpayload, hrest⟩ := List.append_inj h (by rw [hf.length, hg.length, hm])
          rw [ih (fun f' hf' => hp f' (by simp [hf'])) (fun f' hf' => hq f' (by simp [hf'])) hrest,
            EncodedFrame.eq_of_parts hm hpayload]

/-- The offsets and metadata that the writer keeps, the first record at `start`. -/
def placed (start : Nat) : Pack → List (Nat × FrameMetadata)
  | [] => []
  | f :: p => (start + f.metadata.payloadStart, f.metadata) ::
      placed (start + f.metadata.packedLen) p

theorem placed_concat (start : Nat) : placed start (p ++ [f]) = placed start p ++
    [(start + (p.map fun f => f.metadata.packedLen).sum + f.metadata.payloadStart, f.metadata)] := by
  induction p generalizing start with
  | nil => simp [placed]
  | cons g p ih => simp [placed, ih, Nat.add_assoc]

/-- The state of the writer after some frames. -/
structure Written (hash : Bytes → Digest) (crc : Bytes → UInt32) (p : Pack) (w : PackWriter) :
    Prop where
  bytes : w.bytes = packBytes hash crc p
  identity : identify hash p Identity.new = .ok w.identity
  offset : w.offset = Pack.length p
  frames : w.frames = placed segmentHeaderSize p

theorem Written.append {w w' : PackWriter} (hw : Written hash crc p w)
    (hf : f.payload.length = f.metadata.payloadBytes) (h : w.append hash crc f = .ok w') :
    Written hash crc (p ++ [f]) w' := by
  simp only [PackWriter.append, Except.bind_eq_ok, Except.ensure_eq_ok, exists_const, toU32_eq_ok,
    Except.pure_eq_ok] at h
  obtain ⟨-, length, ⟨-, hlength⟩, header, hheader, identity, hidentity, rfl⟩ := h
  refine ⟨?_, ?_, ?_, ?_⟩
  · dsimp only
    rw [hw.bytes, hlength, recordHeader_eq hheader, packBytes, packBytes, List.flatMap_append,
      List.flatMap_singleton, record, recordStart]
    simp only [List.append_assoc]
  · rw [identify, List.foldlM_append, ← identify, Except.bind_of_ok hw.identity, List.foldlM_cons,
      Except.bind_of_ok hidentity]
    rfl
  · dsimp only
    rw [hw.offset, hf, f.metadata.length_encode, Pack.length, Pack.length, List.map_append,
      List.sum_append, List.map_singleton, List.sum_singleton, FrameMetadata.packedLen,
      FrameMetadata.payloadStart]
    omega
  · dsimp only
    rw [hw.frames, placed_concat, hw.offset, f.metadata.length_encode, Pack.length,
      FrameMetadata.payloadStart]

/-- Append frames to a new pack. -/
def writeAll (hash : Bytes → Digest) (crc : Bytes → UInt32) (p : Pack) :
    Except StoreError PackWriter :=
  p.foldlM (PackWriter.append hash crc) PackWriter.new

theorem writeAll_written {w : PackWriter} (hp : ∀ f ∈ p, f.payload.length = f.metadata.payloadBytes)
    (h : writeAll hash crc p = .ok w) : Written hash crc p w :=
  Except.foldlM_prefix (I := Written hash crc)
    (fun _ f _ _ hf hw happ => hw.append (hp f hf) happ)
    ⟨by simp [PackWriter.new, packBytes], rfl, by simp [PackWriter.new, Pack.length], rfl⟩ h

/-- The locations are those of the record-level model. -/
theorem map_placed (id : Digest) (start : Nat) :
    ((placed start p).map fun (offset, m) => (⟨id, offset, m.payloadBytes, m⟩ : FrameLocation)) =
      Pack.locations id start p := by
  induction p generalizing start with
  | nil => rfl
  | cons f p ih => simp [placed, Pack.locations, ih]

theorem Written.finish {w : PackWriter} {id : Digest} {locations : List FrameLocation}
    (hw : Written hash crc p w) (h : w.finish hash = .ok (id, locations)) :
    packId hash p = .ok id ∧ locations = Pack.locations id segmentHeaderSize p := by
  obtain ⟨id', hid, h⟩ := Except.bind_eq_ok.mp h
  obtain ⟨rfl, rfl⟩ := Prod.mk.inj (Except.pure_eq_ok.mp h)
  refine ⟨?_, ?_⟩
  · rw [packId, Except.bind_of_ok hw.identity, ← hw.offset, hid]
  · rw [hw.frames, map_placed]

/-- Locations point at the payloads. -/
theorem locations_at {bytes : Bytes} {id : Digest} {start : Nat}
    (hp : ∀ f ∈ p, f.payload.length = f.metadata.payloadBytes)
    (h : At bytes start (p.flatMap (record hash crc))) :
    List.Forall₂ (fun f l => l.pack = id ∧ l.metadata = f.metadata ∧
      l.length = f.payload.length ∧ At bytes l.offset f.payload) p (Pack.locations id start p) := by
  induction p generalizing start with
  | nil => exact .nil
  | cons f p ih =>
      have hf := hp f (by simp)
      rw [List.flatMap_cons, at_append, length_record hf] at h
      obtain ⟨hrecord, hrest⟩ := h
      rw [record, at_append, length_recordStart] at hrecord
      exact .cons ⟨rfl, rfl, hf.symm, hrecord.2⟩ (ih (fun g hg => hp g (by simp [hg])) hrest)

/-- A written pack fits a file. -/
theorem Written.length_le {w : PackWriter} (hw : Written hash crc p w) : Pack.length p ≤ u64Max := by
  obtain ⟨-, hoffset, -, hle⟩ := identify_eq_ok hw.identity
  have hnew : Identity.new.offset ≤ u64Max := by decide
  have := hle hnew
  rw [hoffset] at this
  exact this

/-- A finished pack is copied unchanged exactly when no frame of it holds a page twice. -/
theorem copy_finished {w : PackWriter} {id : Digest} {locations : List FrameLocation}
    (hp : ∀ f ∈ p, Encoded hash f) (hw : Written hash crc p w)
    (hfinish : w.finish hash = .ok (id, locations)) :
    copy hash crc true w.bytes w.bytes.length = .ok (id, w.bytes) ↔
      ∀ f ∈ p, (f.metadata.pages.map PageVersion.page).Nodup := by
  have hlength : w.bytes.length = Pack.length p := by
    rw [hw.bytes, length_packBytes fun f hf => (hp f hf).length]
  rw [copy_eq_ok (hlength ▸ hw.length_le)]
  constructor
  · rintro ⟨-, q, hq, hbytes, -⟩ f hf
    rw [hw.bytes] at hbytes
    obtain rfl := eq_of_records hp (fun f hf => (storable_iff.mp (hq f hf)).1)
      (List.append_cancel_left hbytes)
    exact (storable_iff.mp (hq f hf)).2
  · intro hdistinct
    exact ⟨rfl, p, fun f hf => storable_iff.mpr ⟨hp f hf, hdistinct f hf⟩, hw.bytes,
      (hw.finish hfinish).1⟩

/-- **Pack identity.** A pack that the writer finished is copied unchanged under the id that the
writer recorded exactly when no frame of it holds a page twice; the registered locations point at
the payloads of the frames; and all bytes that the copier accepts under one id are the same. -/
theorem pack_identity (hinj : Function.Injective hash) :
    (∀ p w id locations, writeAll hash crc p = .ok w → w.finish hash = .ok (id, locations) →
      (∀ f ∈ p, Encoded hash f) →
      w.offset = w.bytes.length ∧
      (copy hash crc true w.bytes w.offset = .ok (id, w.bytes) ↔
        ∀ f ∈ p, (f.metadata.pages.map PageVersion.page).Nodup) ∧
      List.Forall₂ (fun f l => l.pack = id ∧ l.metadata = f.metadata ∧
        l.length = f.payload.length ∧ At w.bytes l.offset f.payload) p locations) ∧
    ∀ source source' id output output', source.length ≤ u64Max → source'.length ≤ u64Max →
      copy hash crc true source source.length = .ok (id, output) →
      copy hash crc true source' source'.length = .ok (id, output') → source = source' := by
  constructor
  · intro p w id locations hw hfinish hp
    have hpayload : ∀ f ∈ p, f.payload.length = f.metadata.payloadBytes := fun f hf => (hp f hf).length
    have hwritten := writeAll_written hpayload hw
    have hlength : w.bytes.length = Pack.length p := by
      rw [hwritten.bytes, length_packBytes hpayload]
    have hoffset : w.offset = w.bytes.length := hwritten.offset.trans hlength.symm
    refine ⟨hoffset, hoffset ▸ copy_finished hp hwritten hfinish, ?_⟩
    rw [(hwritten.finish hfinish).2]
    refine locations_at (p := p) hpayload (at_records hwritten.bytes).2
  · intro source source' id output output' hlen hlen' h h'
    obtain ⟨-, p, hp, rfl, hid⟩ := (copy_eq_ok hlen).mp h
    obtain ⟨-, q, hq, rfl, hid'⟩ := (copy_eq_ok hlen').mp h'
    rw [eq_of_packId hinj hp hq hid hid']

/-! ## Packs of one frame -/

theorem recordHeader_of_formed {m : FrameMetadata} (h : m.Formed) :
    m.recordHeader = .ok (frameHeader m) := by
  have hle := (FrameMetadata.payloadFits_iff.mp h.payload).1.2
  have hmax : m.shape.decoded ≤ 8 * 1024 * 1024 := m.shape.bounded
  have hlimit : 8 * 1024 * 1024 ≤ u32Max := by decide
  have hne : m.pages ≠ [] := by
    intro hnil
    have := h.count
    rw [hnil] at this
    exact absurd m.shape.nonempty (by simp [← this])
  obtain ⟨first, rest, hpages⟩ := List.exists_cons_of_ne_nil hne
  unfold FrameMetadata.recordHeader
  simp only [hpages, List.head?_cons]
  rw [Except.bind_of_ok (toU32_eq_ok.mpr ⟨by omega, rfl⟩),
    Except.bind_of_ok (toU32_eq_ok.mpr ⟨by omega, rfl⟩)]
  simp [frameHeader, hpages, pure, Except.pure]

/-- One frame makes a pack. -/
theorem single_finished (h : Encoded hash f) :
    ∃ w id locations, writeAll hash crc [f] = .ok w ∧ w.finish hash = .ok (id, locations) := by
  have hlen := encodedLen_le h.formed
  have hle := (FrameMetadata.payloadFits_iff.mp h.formed.payload).1.2
  have hmax : f.metadata.shape.decoded ≤ 8 * 1024 * 1024 := f.metadata.shape.bounded
  have hu64 : 128 + (64 + 1024 * 1024 + 24 + 8 * 1024 * 1024) ≤ u64Max := by decide
  have hu32 : 1024 * 1024 ≤ u32Max := by decide
  have hsize : f.metadata.packedLen ≤ 36 + 1024 * 1024 + 24 + 8 * 1024 * 1024 := by
    unfold FrameMetadata.packedLen FrameMetadata.payloadStart frameHeaderSize
    omega
  obtain ⟨j, hidentity⟩ : ∃ j, PackWriter.new.identity.frame hash f.metadata = .ok j :=
    ⟨_, frame_eq_ok.mpr
      ⟨by simp only [PackWriter.new, Identity.new, segmentHeaderSize]; omega, by decide, rfl⟩⟩
  have happend : ∃ w, PackWriter.new.append hash crc f = .ok w := by
    unfold PackWriter.append
    rw [Except.bind_of_ok (Except.ensure_of (by simp only [PackWriter.new]; omega) _),
      Except.bind_of_ok (toU32_eq_ok.mpr ⟨by rw [f.metadata.length_encode]; omega, rfl⟩),
      Except.bind_of_ok (recordHeader_of_formed h.formed)]
    dsimp only
    rw [Except.bind_of_ok hidentity]
    exact ⟨_, rfl⟩
  obtain ⟨w, happend⟩ := happend
  have hw : writeAll hash crc [f] = .ok w := by
    rw [writeAll, List.foldlM_cons, Except.bind_of_ok happend]
    rfl
  have hwritten := writeAll_written (by simpa using h.length) hw
  obtain ⟨-, hoffset, hframes, -⟩ := identify_eq_ok hwritten.identity
  have hlength : w.offset = w.identity.offset := by
    rw [hwritten.offset, hoffset, Pack.length, Identity.new]
  have hnonzero : w.identity.frames ≠ 0 := by
    rw [hframes]
    simp
  have hfinish : ∃ id, w.identity.finish hash w.offset = .ok id := by
    unfold Identity.finish
    rw [Except.bind_of_ok (Except.ensure_of ⟨hlength, hnonzero⟩ _)]
    exact ⟨_, rfl⟩
  obtain ⟨id, hid⟩ := hfinish
  refine ⟨w, id, w.frames.map fun (offset, m) => ⟨id, offset, m.payloadBytes, m⟩, hw, ?_⟩
  rw [PackWriter.finish, Except.bind_of_ok hid]
  rfl

/-- A frame of `n` pages filled with ones, all of them page 1. -/
def onesFrame (n : Nat) (h : 0 < n ∧ n ≤ 16384) : EncodedFrame where
  metadata :=
    { shape := ⟨FrameEncoder.size512, n, h.1, by simp only [FrameEncoder.size512, PageSize.smallest]; omega⟩
      encoding := .raw
      payloadBytes := n * 512
      payloadHash := 1
      pages := List.replicate n ⟨1, 1, 3⟩ }
  payload := List.replicate (n * 512) 1

/-- A hash with small values at the metadata and the payload of such a frame. -/
def onesHash (n : Nat) (h : 0 < n ∧ n ≤ 16384) (bytes : Bytes) : Digest :=
  Equiv.swap (pageCode (onesFrame n h).payload) 1
    (Equiv.swap (pageCode (onesFrame n h).metadata.encode) 0 (pageCode bytes))

variable {n : Nat} {hn : 0 < n ∧ n ≤ 16384}

theorem onesFrame_pages : (onesFrame n hn).metadata.pages.map PageVersion.page = List.replicate n 1 :=
  List.map_replicate

theorem onesHash_injective : Function.Injective (onesHash n hn) :=
  (Equiv.swap _ _).injective.comp ((Equiv.swap _ _).injective.comp pageCode_injective)

theorem onesFrame_encoded : Encoded (onesHash n hn) (onesFrame n hn) := by
  have hpayload : pageCode (onesFrame n hn).payload ≠ 0 := by
    intro hzero
    have hnil : (onesFrame n hn).payload = [] := pageCode_injective hzero
    have := congrArg List.length hnil
    simp only [onesFrame, List.length_replicate, List.length_nil] at this
    omega
  have hne : pageCode (onesFrame n hn).payload ≠ pageCode (onesFrame n hn).metadata.encode := by
    intro heq
    have := congrArg List.length (pageCode_injective heq)
    rw [FrameMetadata.length_encode, FrameMetadata.encodedLen] at this
    simp only [onesFrame, List.length_replicate] at this
    omega
  refine ⟨⟨⟨?_, ?_, ?_⟩, ?_, ?_⟩, ?_, ?_, ?_⟩
  · simp [PayloadEncoding.Typed, onesFrame]
  · exact (show 1 < 2 ^ 256 by decide)
  · intro v hv
    rw [List.eq_of_mem_replicate hv]
    exact FrameEncoder.typed_one
  · refine FrameMetadata.payloadFits_iff.mpr ⟨⟨?_, le_rfl⟩, fun _ => rfl⟩
    simp only [onesFrame]
    omega
  · simp [onesFrame]
  · rw [onesHash, Equiv.swap_apply_left, Equiv.swap_apply_of_ne_of_ne hpayload.symm (by decide)]
    exact Nat.two_pow_pos 256
  · simp [onesFrame]
  · rw [onesHash, Equiv.swap_apply_of_ne_of_ne hne hpayload, Equiv.swap_apply_left]
    rfl

theorem pack_identity_onePage :
    ∃ w id, writeAll (onesHash 1 (by decide)) crc32 [onesFrame 1 (by decide)] = .ok w ∧
      copy (onesHash 1 (by decide)) crc32 true w.bytes w.offset = .ok (id, w.bytes) := by
  have hf : Encoded (onesHash 1 (by decide)) (onesFrame 1 (by decide)) := onesFrame_encoded
  obtain ⟨w, id, locations, hw, hfinish⟩ := @single_finished _ crc32 _ hf
  have h := (pack_identity onesHash_injective).1 _ w id locations hw hfinish (by simpa using hf)
  exact ⟨w, id, hw, h.2.1.mpr (by simp [onesFrame_pages])⟩

/-- The pack of a frame that holds page 1 twice is finished, and it is not copied. -/
theorem pack_duplicate :
    ∃ hash f w id locations, Function.Injective hash ∧ Encoded hash f ∧
      writeAll hash crc32 [f] = .ok w ∧ w.finish hash = .ok (id, locations) ∧
      copy hash crc32 true w.bytes w.bytes.length ≠ .ok (id, w.bytes) := by
  have hf : Encoded (onesHash 2 (by decide)) (onesFrame 2 (by decide)) := onesFrame_encoded
  obtain ⟨w, id, locations, hw, hfinish⟩ := @single_finished _ crc32 _ hf
  refine ⟨_, _, w, id, locations, onesHash_injective, hf, hw, hfinish, fun hcopy => ?_⟩
  have hwritten := writeAll_written (by simpa using hf.length) hw
  have hdistinct := (copy_finished (by simpa using hf) hwritten hfinish).mp hcopy
  simp [onesFrame_pages] at hdistinct

end Packs

end PackCodec

end Zsqlite
