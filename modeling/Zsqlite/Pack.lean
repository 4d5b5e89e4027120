import Zsqlite.Frame

set_option autoImplicit false

/-! # Packs and the object catalog

A pack is a sequence of frame records after a 128-byte header (`pack.rs`); its identity is the
hash of the frame ids with their offsets and lengths, so it fixes the metadata found at every
offset though not the payload bytes, which are authenticated by the metadata. `Catalog` is
what a catalog guard gives access to: installed objects, the endpoint index, and the head
descriptor of the database it serves (`objects.rs`).
-/

namespace Zsqlite

/-! ## Packs -/

def segmentHeaderSize : Nat := 128

/-- Bytes before the payload in a frame record: length and id, metadata, frame header. -/
def FrameMetadata.payloadStart (m : FrameMetadata) : Nat := 36 + m.encodedLen + frameHeaderSize

def FrameMetadata.packedLen (m : FrameMetadata) : Nat := m.payloadStart + m.payloadBytes

abbrev Pack := List EncodedFrame

namespace Pack

/-- The frames of a pack with their offsets, the first record at `start`. -/
def entries (E : Env) (start : Nat) : Pack → List PackEntry
  | [] => []
  | f :: fs =>
      ⟨f.metadata.id E, start, f.metadata.packedLen⟩ :: entries E (start + f.metadata.packedLen) fs

def id (E : Env) (p : Pack) : Digest := E.hash.pack (entries E segmentHeaderSize p)

/-- Where the next record goes. -/
def length (p : Pack) : Nat := segmentHeaderSize + (p.map fun f => f.metadata.packedLen).sum

/-- The frame whose payload starts at `offset`, the first record being at `start`. -/
def findFrom (start : Nat) : Pack → Nat → Option EncodedFrame
  | [], _ => none
  | f :: fs, offset =>
      if start + f.metadata.payloadStart = offset then some f
      else findFrom (start + f.metadata.packedLen) fs offset

def find (p : Pack) (offset : Nat) : Option EncodedFrame := findFrom segmentHeaderSize p offset

theorem mem_of_findFrom {start offset : Nat} {p : Pack} {f : EncodedFrame}
    (h : findFrom start p offset = some f) : f ∈ p := by
  induction p generalizing start with
  | nil => cases h
  | cons g p ih =>
      unfold findFrom at h
      split at h
      · cases h
        exact List.mem_cons_self
      · exact List.mem_cons_of_mem _ (ih h)

theorem findFrom_congr {E : Env} {start offset : Nat} {p q : Pack} {f : EncodedFrame}
    (h : entries E start p = entries E start q) (hf : findFrom start p offset = some f) :
    ∃ g, findFrom start q offset = some g ∧ g.metadata = f.metadata := by
  induction p generalizing start q with
  | nil => cases hf
  | cons a p ih =>
      cases q with
      | nil => cases h
      | cons b q =>
          simp only [entries, List.cons.injEq, PackEntry.mk.injEq] at h
          obtain ⟨⟨hid, -, hlen⟩, ht⟩ := h
          have hm : a.metadata = b.metadata := E.hash.frame_injective hid
          unfold findFrom at hf ⊢
          rw [← hm]
          split at hf
          · rename_i hs
            cases hf
            exact ⟨b, by rw [if_pos hs], hm.symm⟩
          · rename_i hs
            rw [if_neg hs]
            exact ih (by rwa [← hlen] at ht) hf

/-- Packs of one identity have the same metadata at every offset. -/
theorem find_congr {E : Env} {offset : Nat} {p q : Pack} {f : EncodedFrame}
    (h : p.id E = q.id E) (hf : p.find offset = some f) :
    ∃ g, q.find offset = some g ∧ g.metadata = f.metadata :=
  findFrom_congr (E.hash.pack_injective h) hf

end Pack

/-- Any pack of this identity has the metadata `m` at this payload offset. -/
def Located (E : Env) (pack offset : Nat) (m : FrameMetadata) : Prop :=
  ∀ p : Pack, p.id E = pack → ∃ f, p.find offset = some f ∧ f.metadata = m

theorem Pack.located {E : Env} {p : Pack} {offset : Nat} {f : EncodedFrame}
    (h : p.find offset = some f) : Located E (p.id E) offset f.metadata :=
  fun _ hq => Pack.find_congr hq.symm h

/-! ## The catalog -/

/-- A retained root: it names a logical endpoint, not a manifest. -/
structure DurablePin where
  hash : Digest
  txid : Nat
  database : Digest
  deriving DecidableEq, Repr

structure Catalog where
  manifests : BTreeMap Digest ManifestObject
  /-- The endpoint index: the headers of the manifests a lookup may select. -/
  endpoints : BTreeMap Digest SegmentHeader
  packs : BTreeMap Digest Pack
  dictionaries : Dictionaries
  database : Option Digest
  attachment : Option Digest
  /-- The finalized descriptor of this head. -/
  finalized : Option ActiveHeader
  /-- The descriptor a seal has announced and not finalized. -/
  pending : Option ActiveHeader
  /-- The retained root that records the progress of a source conversion. -/
  conversion : Option DurablePin

/-- The view record a manifest carries: the whole view, or the patch of a run. -/
def ManifestBody.view : ManifestBody → ViewRecord
  | .checkpoint v => v
  | .run r => r.patch

namespace Catalog

variable (E : Env) (C : Catalog)

def empty : Catalog := ⟨∅, ∅, ∅, ∅, none, none, none, none, none⟩

def installPack (p : Pack) : Catalog := { C with packs := C.packs.insert (p.id E) p }

def installDictionary (bytes : Bytes) : Except StoreError Catalog := do
  Except.ensure (bytes ≠ [] ∧ bytes.length ≤ 768 * 1024) .range
  return { C with dictionaries := C.dictionaries.insert (E.hash.bytes bytes) bytes }

def installManifest (m : ManifestObject) : Catalog :=
  { C with
    manifests := C.manifests.insert (E.hash.manifest m) m
    endpoints := C.endpoints.insert (E.hash.manifest m) m.header }

/-- Installed objects are what they claim to be: packs and manifests carry well-formed
content. Nothing is said about objects that are missing. -/
structure Sound : Prop where
  pack : ∀ (id : Digest) p, C.packs[id]? = some p → p.id E = id ∧ ∀ f ∈ p, f.WellEncoded E
  manifest : ∀ (id : Digest) m, C.manifests[id]? = some m →
    ∀ e ∈ m.body.view.frames, Located E e.pack e.offset e.metadata

variable {E C}

theorem Sound.installPack (h : C.Sound E) {p : Pack} (hp : ∀ f ∈ p, f.WellEncoded E) :
    (C.installPack E p).Sound E where
  pack id q hq := by
    simp only [Catalog.installPack, Std.ExtTreeMap.getElem?_insert] at hq
    split at hq
    · rename_i hid
      cases hq
      exact ⟨by simpa using hid, hp⟩
    · exact h.pack id q hq
  manifest := h.manifest

theorem Sound.installDictionary (h : C.Sound E) {bytes : Bytes} {C' : Catalog}
    (hC : C.installDictionary E bytes = .ok C') : C'.Sound E := by
  simp only [Catalog.installDictionary, Except.bind_eq_ok, Except.ensure_eq_ok,
    exists_const] at hC
  obtain ⟨_, hC⟩ := hC
  cases hC
  exact ⟨h.pack, h.manifest⟩

theorem Sound.installManifest (h : C.Sound E) {m : ManifestObject}
    (hm : ∀ e ∈ m.body.view.frames, Located E e.pack e.offset e.metadata) :
    (C.installManifest E m).Sound E where
  pack := h.pack
  manifest id n hn := by
    simp only [Catalog.installManifest, Std.ExtTreeMap.getElem?_insert] at hn
    split at hn
    · cases hn
      exact hm
    · exact h.manifest id n hn

end Catalog

end Zsqlite
