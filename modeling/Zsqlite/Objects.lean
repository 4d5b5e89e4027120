import Zsqlite.Format
import Zsqlite.Lib.Code

set_option autoImplicit false

/-! # Immutable objects and their identities

The data of frames, views, metadata runs and manifests (`frame.rs`, `view.rs`, `segment.rs`,
`pack.rs`) and the functions the sealed side of the store takes as given:

* `Hashing`: one hash per kind of identity, each injective on what the source feeds it.
  Two kinds are never compared with each other, so nothing is assumed across kinds.
* `Zstd`: compression that its decompression undoes.
* `Env`: those two together with the choices that carry no obligation (dictionary selection,
  cache capacity, encoded record lengths).

Manifests are modelled at the level of their wire records (`ViewRecord`, `RunRecord`): the
lists the encoder writes and the decoder checks.
-/

namespace Zsqlite

/-! ## Frames -/

structure PageVersion where
  page : Nat
  txid : Nat
  checksum : Digest
  deriving DecidableEq, Repr

inductive CompressionDictionary where
  | none
  | shared (id : Digest)
  deriving DecidableEq, Repr

inductive PayloadEncoding where
  | raw
  | zstandard (dictionary : CompressionDictionary)
  deriving DecidableEq, Repr

/-- A nonempty frame of at most 8 MiB. -/
structure FrameShape where
  pageSize : PageSize
  pages : Nat
  nonempty : 0 < pages
  bounded : pages * pageSize.get ≤ 8 * 1024 * 1024
  deriving DecidableEq

def FrameShape.new (size : PageSize) (pages : Nat) : Except StoreError FrameShape :=
  if h : 0 < pages ∧ pages * size.get ≤ 8 * 1024 * 1024 then .ok ⟨size, pages, h.1, h.2⟩
  else .error .value

/-- One page of the smallest size. -/
def FrameShape.single : FrameShape := ⟨.smallest, 1, by decide, by decide⟩

def FrameShape.decoded (s : FrameShape) : Nat := s.pages * s.pageSize.get

/-- Frame metadata. Its id is the hash of the other fields (`Hashing.frame`), so it is not a
field of its own. -/
structure FrameMetadata where
  shape : FrameShape
  encoding : PayloadEncoding
  payloadBytes : Nat
  payloadHash : Digest
  pages : List PageVersion
  deriving DecidableEq

/-- The length of the encoded metadata. -/
def FrameMetadata.encodedLen (m : FrameMetadata) : Nat :=
  57 + m.pages.length * 44 +
    match m.encoding with
    | .zstandard (.shared _) => 32
    | _ => 0

/-- Where a frame is stored: its pack, the range of its payload there, its metadata. -/
structure FrameLocation where
  pack : Digest
  offset : Nat
  length : Nat
  metadata : FrameMetadata
  deriving DecidableEq

structure StoredPage where
  frame : Digest
  slot : Nat
  deriving DecidableEq, Repr

/-! ## Manifests -/

structure ParentRef where
  hash : Digest
  txid : Nat
  deriving DecidableEq, Repr

inductive Parent where
  | checkpoint
  | previous (parent : ParentRef)
  deriving DecidableEq, Repr

/-- The header of a manifest segment: its transaction span, the first transaction it
represents, the logical hash of its view and its parent. -/
structure SegmentHeader where
  spanBegin : Nat
  spanEnd : Nat
  representedBegin : Nat
  logicalHash : Digest
  parent : Parent
  deriving DecidableEq, Repr

/-- A frame entry of an encoded view: id, pack, payload offset, metadata. -/
structure FrameEntry where
  id : Digest
  pack : Digest
  offset : Nat
  metadata : FrameMetadata
  deriving DecidableEq

/-- The record `ViewMetadata::encode_raw` writes. -/
structure ViewRecord where
  database : Digest
  lineage : Digest
  pageSize : Nat
  size : Nat
  txid : Nat
  history : Digest
  parentSeal : Option Digest
  root : Digest
  preferred : List Digest
  frames : List FrameEntry
  pages : List (Nat × StoredPage)
  deriving DecidableEq

/-- The record `MetadataRun::encode` writes. -/
structure RunRecord where
  parent : ParentRef
  root : Digest
  spanBegin : Nat
  spanEnd : Nat
  removed : List Nat
  patch : ViewRecord
  deriving DecidableEq

inductive ManifestBody where
  | checkpoint (view : ViewRecord)
  | run (run : RunRecord)
  deriving DecidableEq

def ManifestBody.anyRun (p : RunRecord → Bool) : ManifestBody → Bool
  | .checkpoint _ => false
  | .run r => p r

/-- A manifest object: its segment header, the content root its footer repeats, its body. -/
structure ManifestObject where
  header : SegmentHeader
  root : Digest
  body : ManifestBody
  deriving DecidableEq

/-! ## Identities -/

/-- What `sealed_lineage` hashes. -/
structure LineageInput where
  database : Digest
  lineage : Digest
  txid : Nat
  pageSize : Nat
  size : Nat
  parentSeal : Option Digest
  root : Digest
  deriving DecidableEq

/-- What `logical_hash_for` hashes. -/
structure ViewInput where
  database : Digest
  lineage : Digest
  pageSize : Nat
  size : Nat
  txid : Nat
  history : Digest
  parentSeal : Option Digest
  root : Digest
  deriving DecidableEq

/-- One frame of a pack as the pack identity sees it: its id, its offset and its length. -/
structure PackEntry where
  frame : Digest
  offset : Nat
  length : Nat
  deriving DecidableEq

/-- The hashes of the store. -/
structure Hashing where
  bytes : Bytes → Digest
  /-- The checksum of a page version binds the page number, the transaction and the bytes. -/
  checksum : Nat → Nat → Bytes → Digest
  frame : FrameMetadata → Digest
  content : List PageVersion → Digest
  lineage : LineageInput → Digest
  view : ViewInput → Digest
  pack : List PackEntry → Digest
  manifest : ManifestObject → Digest
  bytes_injective : Function.Injective bytes
  checksum_injective : ∀ page txid, Function.Injective (checksum page txid)
  frame_injective : Function.Injective frame
  content_injective : Function.Injective content
  view_injective : Function.Injective view
  pack_injective : Function.Injective pack
  manifest_injective : Function.Injective manifest

/-- Compression at a level, optionally with a dictionary. `worthCompressing` is the probe
that decides whether a frame is compressed at all. -/
structure Zstd where
  compress : Nat → Option Bytes → Bytes → Bytes
  decompress : Option Bytes → Bytes → Nat → Option Bytes
  worthCompressing : Nat → Option Bytes → Bytes → Bool
  round_trip : ∀ level dictionary raw,
    decompress dictionary (compress level dictionary raw) raw.length = some raw

/-- Everything the store takes from outside. -/
structure Env where
  hash : Hashing
  zstd : Zstd
  /-- The dictionary that training selects for a seal up to a transaction from its pages. -/
  selectDictionary : Nat → List Bytes → Option Bytes
  /-- A related database's dictionary, offered to the first seal. -/
  seedDictionary : Option Bytes
  /-- Slots of the page cache for a view of this size, or a failure to create its file. -/
  cacheSlots : Nat → CacheCapacity → Option Nat
  /-- Length of a manifest's footer: its root and its compressed record. -/
  footerLength : ManifestBody → Nat
  /-- Length of a manifest as it is stored. -/
  storedLength : ManifestObject → Nat
  /-- Threads a compression batch of this many frames is spread over. -/
  workers : Nat → Nat

/-! ## The assumptions are satisfiable -/

section Coded

instance : Code UInt8 := .through UInt8.toNat fun _ _ h => UInt8.toNat_inj.mp h

instance : Code PageSize := .through PageSize.get fun a b h => by cases a; cases b; simpa using h

instance : Code PageVersion :=
  .through (fun v => (v.page, v.txid, v.checksum)) fun a b h => by cases a; cases b; simpa using h

instance : Code CompressionDictionary :=
  .through
    (fun
      | .none => Option.none
      | .shared id => some id)
    fun a b h => by cases a <;> cases b <;> simp_all

instance : Code PayloadEncoding :=
  .through
    (fun
      | .raw => none
      | .zstandard d => some d)
    fun a b h => by cases a <;> cases b <;> simp_all

instance : Code FrameShape :=
  .through (fun s => (s.pageSize, s.pages)) fun a b h => by cases a; cases b; simpa using h

instance : Code FrameMetadata :=
  .through (fun m => (m.shape, m.encoding, m.payloadBytes, m.payloadHash, m.pages))
    fun a b h => by cases a; cases b; simpa using h

instance : Code StoredPage :=
  .through (fun s => (s.frame, s.slot)) fun a b h => by cases a; cases b; simpa using h

instance : Code ParentRef :=
  .through (fun p => (p.hash, p.txid)) fun a b h => by cases a; cases b; simpa using h

instance : Code Parent :=
  .through
    (fun
      | .checkpoint => none
      | .previous p => some p)
    fun a b h => by cases a <;> cases b <;> simp_all

instance : Code SegmentHeader :=
  .through (fun h => (h.spanBegin, h.spanEnd, h.representedBegin, h.logicalHash, h.parent))
    fun a b h => by cases a; cases b; simpa using h

instance : Code FrameEntry :=
  .through (fun e => (e.id, e.pack, e.offset, e.metadata))
    fun a b h => by cases a; cases b; simpa using h

instance : Code ViewRecord :=
  .through
    (fun v => ((v.database, v.lineage, v.pageSize, v.size, v.txid),
      (v.history, v.parentSeal, v.root), (v.preferred, v.frames, v.pages)))
    fun a b h => by cases a; cases b; simp_all

instance : Code RunRecord :=
  .through (fun r => (r.parent, r.root, r.spanBegin, r.spanEnd, r.removed, r.patch))
    fun a b h => by cases a; cases b; simpa using h

instance : Code ManifestBody :=
  .through
    (fun
      | .checkpoint v => Sum.inl v
      | .run r => Sum.inr r)
    fun a b h => by cases a <;> cases b <;> simp_all

instance : Code ManifestObject :=
  .through (fun m => (m.header, m.root, m.body)) fun a b h => by cases a; cases b; simpa using h

instance : Code LineageInput :=
  .through
    (fun v => ((v.database, v.lineage, v.txid), (v.pageSize, v.size, v.parentSeal, v.root)))
    fun a b h => by cases a; cases b; simp_all

instance : Code ViewInput :=
  .through
    (fun v => ((v.database, v.lineage, v.pageSize, v.size),
      (v.txid, v.history, v.parentSeal, v.root)))
    fun a b h => by cases a; cases b; simp_all

instance : Code PackEntry :=
  .through (fun e => (e.frame, e.offset, e.length)) fun a b h => by cases a; cases b; simpa using h

/-- A code of byte strings that is short for pages filled with one byte. -/
def pageCode : Bytes → Nat
  | [] => 0
  | b :: bytes =>
      if b :: bytes = List.replicate 512 b then 2 * b.toNat + 1 else 2 * Code.code (b :: bytes)

theorem pageCode_injective : Function.Injective pageCode := by
  have hcode : ∀ l : Bytes, Code.code l = 0 ↔ l = [] := fun l =>
    (Code.code_inj (a := l) (b := [])).trans Iff.rfl
  intro l l' h
  cases l with
  | nil =>
      cases l' with
      | nil => rfl
      | cons b' l' =>
          have := (hcode (b' :: l')).not.mpr (by simp)
          simp only [pageCode] at h
          split at h <;> omega
  | cons b l =>
      cases l' with
      | nil =>
          have := (hcode (b :: l)).not.mpr (by simp)
          simp only [pageCode] at h
          split at h <;> omega
      | cons b' l' =>
          simp only [pageCode] at h
          split at h <;> split at h
          · rename_i h₁ h₂
            rw [h₁, h₂, UInt8.toNat_inj.mp (by omega : b.toNat = b'.toNat)]
          · omega
          · omega
          · exact Code.injective (by omega)

/-- Codes as hashes. -/
def Hashing.coded : Hashing where
  bytes := pageCode
  checksum := fun _ _ => pageCode
  frame := Code.code
  content := Code.code
  lineage := Code.code
  view := Code.code
  pack := Code.code
  manifest := Code.code
  bytes_injective := pageCode_injective
  checksum_injective := fun _ _ => pageCode_injective
  frame_injective := Code.injective
  content_injective := Code.injective
  view_injective := Code.injective
  pack_injective := Code.injective
  manifest_injective := Code.injective

/-- Storing bytes uncompressed is a compression. -/
def Zstd.stored : Zstd where
  compress := fun _ _ raw => raw
  decompress := fun _ raw _ => some raw
  worthCompressing := fun _ _ _ => false
  round_trip := fun _ _ _ => rfl

/-- An environment to compute in. -/
def Env.coded : Env where
  hash := Hashing.coded
  zstd := Zstd.stored
  selectDictionary := fun _ _ => none
  seedDictionary := none
  cacheSlots := fun _ _ => none
  footerLength := fun _ => 84
  storedLength := fun _ => 144
  workers := fun _ => 1

instance : Nonempty Env := ⟨Env.coded⟩

end Coded

/-- Some environment. -/
noncomputable def Env.any : Env := Classical.choice inferInstance

end Zsqlite
