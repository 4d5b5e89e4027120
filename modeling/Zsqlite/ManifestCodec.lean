import Zsqlite.BlobCodec
import Zsqlite.Envelope
import Zsqlite.Limits

set_option autoImplicit false

/-! # View and run records as bytes

The encodings of `view.rs`: a view is written as its fixed fields, its dictionaries, its frames in
the order of their ids and its pages in the order of their numbers; a run is written as its parent,
root, span and removed pages, followed by its patch. Both stand in an envelope. The decoder of a view
reads the entries in any order, refuses repeated keys, and validates the maps it has built.

`Draft` is a view as its bytes have it, with its entries as lists. The parser of drafts is exact
(`exact_draft`), so what is left for a round trip is that the maps are those of the lists, in both
directions (`ofView_view`, `decodeRaw_eq_ok`).
-/

namespace Zsqlite

open ByteVec Wire

namespace ManifestCodec

variable (E : Env) (hash : Bytes → Digest) (zstd : Zstd)

/-- `ZVIEW001` -/
def viewMagic : Bytes := [0x5a, 0x56, 0x49, 0x45, 0x57, 0x30, 0x30, 0x31]

/-- `ZRUN0001` -/
def runMagic : Bytes := [0x5a, 0x52, 0x55, 0x4e, 0x30, 0x30, 0x30, 0x31]

/-! ## Writing -/

def encodeFrame (e : Digest × FrameLocation) : Except StoreError Bytes := do
  let length ← toU32 e.2.metadata.encode.length
  return leBytes 32 e.1 ++ (leBytes 32 e.2.pack ++ (leBytes 8 e.2.offset ++
    (leBytes 4 length ++ e.2.metadata.encode)))

def encodePage (e : Nat × StoredPage) : Except StoreError Bytes := do
  let slot ← toU32 e.2.slot
  return leBytes 4 e.1 ++ (leBytes 32 e.2.frame ++ leBytes 4 slot)

/-- The fields of a view before its dictionaries. -/
def encodeFields (v : ViewMetadata) : Bytes :=
  leBytes 32 v.database ++ (leBytes 32 v.lineage ++ (leBytes 4 v.size.pageSize.get ++
    (leBytes 8 v.size.get ++ (leBytes 8 v.txid ++ (leBytes 32 v.history ++
      (leBytes 32 (v.parentSeal.getD 0) ++ leBytes 32 (v.contentRoot E)))))))

def encodeRaw (v : ViewMetadata) : Except StoreError Bytes := do
  let preferred ← toU32 v.preferred.length
  let frames ← toU32 v.frames.size
  let frameBytes ← (BlobCodec.byId v.frames.toList).mapM encodeFrame
  let pages ← toU32 v.pages.size
  let pageBytes ← v.pages.toList.mapM encodePage
  let raw := encodeFields E v ++ (leBytes 4 preferred ++ (v.preferred.flatMap (leBytes 32) ++
    (leBytes 4 frames ++ (frameBytes.flatten ++ (leBytes 4 pages ++ pageBytes.flatten)))))
  Except.ensure (raw.length ≤ viewLimit) .range
  return raw

def encode (v : ViewMetadata) : Except StoreError Bytes := do
  return Envelope.envelope hash zstd viewMagic (← encodeRaw E v)

def encodeRun (run : MetadataRun) : Except StoreError Bytes := do
  let removed ← toU32 run.removed.length
  let patch ← encodeRaw E run.patch.view
  let raw := leBytes 32 run.parent.hash ++ (leBytes 8 run.parent.txid ++ (leBytes 32 run.root ++
    (leBytes 8 run.spanBegin ++ (leBytes 8 run.spanEnd ++ (leBytes 4 removed ++
      (run.removed.flatMap (leBytes 4) ++ patch))))))
  Except.ensure (raw.length ≤ viewLimit) .range
  return Envelope.envelope hash zstd runMagic raw

/-! ## Reading -/

/-- A view as its bytes have it. -/
structure Draft where
  database : Digest
  lineage : Digest
  size : LogicalBytes
  txid : Nat
  history : Digest
  parent : Digest
  root : Digest
  preferred : List Digest
  frames : List (Digest × FrameLocation)
  pages : List (Nat × StoredPage)

/-- Entries in a map. -/
def collect {α : Type} (l : List (Nat × α)) : BTreeMap Nat α :=
  l.foldl (fun m e => m.insert e.1 e.2) ∅

/-- Insert under a key that was not there. -/
def insertNew {α : Type} (m : BTreeMap Nat α) (e : Nat × α) : Except StoreError (BTreeMap Nat α) := do
  Except.ensure (¬ m.contains e.1) (.corrupt 0)
  return m.insert e.1 e.2

def readSize : Parser StoreError LogicalBytes := do
  let pageSize ← readPageSize
  let bytes ← u64
  check (LogicalBytes.new bytes pageSize)

/-- A dictionary that was not there. -/
def pushNew (seen : List Digest) (id : Digest) : Except StoreError (List Digest) := do
  Except.ensure (id ∉ seen) (.corrupt 0)
  return id :: seen

def readPreferred : Parser StoreError (List Digest) := do
  let count ← u32
  check (Except.ensure (count ≤ 4) (.corrupt 0))
  many array pushNew count []

def readMetadata (id : Digest) (length : Nat) : Parser StoreError FrameMetadata := do
  check (FrameMetadata.decodeBytes hash (← Wire.take .corrupt length) id)

def readFrame (pageSize : PageSize) : Parser StoreError (Digest × FrameLocation) := do
  let id ← array
  let pack ← array
  let offset ← u64
  let length ← u32
  check (Except.ensure (length ≤ 89 + (8 * 1024 * 1024 / pageSize.get) * 44) .range)
  let metadata ← readMetadata hash id length
  check (Except.ensure (metadata.payloadBytes ≠ 0 ∧ offset + metadata.payloadBytes ≤ u64Max) .value)
  return (id, ⟨pack, offset, metadata.payloadBytes, metadata⟩)

/-- At most one frame for each 64 bytes of the record. -/
def readFrames (length : Nat) (pageSize : PageSize) :
    Parser StoreError (List (Digest × FrameLocation)) := do
  let count ← u32
  check (Except.ensure (count ≤ length / 64) .range)
  many (readFrame hash pageSize) insertNew count ∅

def readSlot (frames : BTreeMap Digest FrameLocation) : Parser StoreError StoredPage := do
  let frame ← array
  match frames[frame]? with
  | none => check (.error (.corrupt 0))
  | some location => do
      let slot ← u32
      check (Except.ensure (slot < location.metadata.shape.pages) .value)
      return ⟨frame, slot⟩

def readPage (frames : BTreeMap Digest FrameLocation) : Parser StoreError (Nat × StoredPage) := do
  let page ← readPageNumber
  let stored ← readSlot frames
  return (page, stored)

def readPages (length : Nat) (size : LogicalBytes) (frames : BTreeMap Digest FrameLocation) :
    Parser StoreError (List (Nat × StoredPage)) := do
  let count ← u32
  check (Except.ensure (count ≤ size.pages ∧ count ≤ length / 40) .range)
  many (readPage frames) insertNew count ∅

/-- What `decode_reader` reads of a record of this length. -/
def readDraft (length : Nat) : Parser StoreError Draft := do
  let database ← array
  let lineage ← array
  let size ← readSize
  let txid ← readTransactionId
  let history ← array
  let parent ← array
  let root ← array
  let preferred ← readPreferred
  let frames ← readFrames hash length size.pageSize
  let pages ← readPages length size (collect frames)
  return ⟨database, lineage, size, txid, history, parent, root, preferred, frames, pages⟩

/-- A parent of zeros is none. -/
def Draft.view (d : Draft) : ViewMetadata where
  database := d.database
  lineage := d.lineage
  size := d.size
  txid := d.txid
  history := d.history
  parentSeal := if d.parent = 0 then none else some d.parent
  frames := collect d.frames
  pages := collect d.pages
  preferred := d.preferred

/-- What `decode_reader` does when all has been read. -/
def Draft.finish (length : Nat) (d : Draft) : Except StoreError ValidatedMetadata := do
  let validated ← d.view.validate E
  Except.ensure (validated.decodedBytes = length ∧ d.root = validated.view.contentRoot E) (.corrupt 0)
  return validated

def decodeRaw (raw : Bytes) : Except StoreError ValidatedMetadata := do
  let draft ← decodeAll (readDraft hash raw.length) .corrupt raw
  draft.finish E raw.length

/-- The record is read while it is decompressed: the decoder asks for what the parser takes, of the
first `length` bytes of the stream. -/
def decode (stream : Bytes → Envelope.Stream) (encoded : Bytes) :
    Except StoreError ValidatedMetadata := do
  let ((length, expected), compressed) ← Envelope.openHeader viewMagic encoded viewLimit
  let (draft, position, _) ← readDraft hash length (0, (stream compressed).rest.take length)
  (Envelope.ReadDecoder.upTo (stream compressed) length expected position).finish hash
  draft.finish E length

/-- A run as its bytes have it. -/
structure RunDraft where
  parent : ParentRef
  root : Digest
  spanBegin : Nat
  spanEnd : Nat
  removed : List Nat
  patch : Bytes

def readParent : Parser StoreError ParentRef := do
  let hash ← array
  let txid ← readTransactionId
  return ⟨hash, txid⟩

/-- A page after the one before it. -/
def ascend (previous : Option Nat) (page : Nat) : Except StoreError (Option Nat) := do
  Except.ensure (∀ last ∈ previous, last < page) (.corrupt 0)
  return some page

/-- At most one removed page for each 4 bytes of the record. -/
def readRemoved (length : Nat) : Parser StoreError (List Nat) := do
  let count ← u32
  check (Except.ensure (count ≤ (length - runPrefix) / 4) .range)
  many readPageNumber ascend count none

def readRun (length : Nat) : Parser StoreError RunDraft := do
  let parent ← readParent
  let root ← array
  let spanBegin ← readTransactionId
  let spanEnd ← readTransactionId
  check (Except.ensure (spanBegin ≤ spanEnd) .value)
  let removed ← readRemoved length
  let patch ← Wire.take .corrupt (length - runPrefix - removed.length * 4)
  return ⟨parent, root, spanBegin, spanEnd, removed, patch⟩

/-- The patch takes all that is left, so nothing can be left behind it. -/
def decodeRun (encoded : Bytes) : Except StoreError MetadataRun := do
  let raw ← Envelope.openEnvelope hash zstd runMagic encoded viewLimit
  let draft ← decodeAll (readRun raw.length) .corrupt raw
  let patch ← decodeRaw E hash draft.patch
  Except.ensure (draft.spanEnd = patch.view.txid ∧
    ∀ page ∈ draft.removed, page ≤ patch.view.size.pages ∧ ¬ patch.view.pages.contains page)
    (.corrupt 0)
  return ⟨draft.parent, draft.root, draft.spanBegin, draft.spanEnd, patch, draft.removed⟩

variable {E hash zstd}

/-! ## Loops over entries -/

section Entries

variable {α : Type} {l : List (Nat × α)}

theorem insertNew_eq_ok {m m' : BTreeMap Nat α} {e : Nat × α} :
    insertNew m e = .ok m' ↔ m[e.1]? = none ∧ m' = m.insert e.1 e.2 := by
  simp only [insertNew, Except.bind_eq_ok, Except.ensure_eq_ok, exists_const, Except.pure_eq_ok,
    Std.ExtTreeMap.contains_iff_mem, Std.ExtTreeMap.mem_iff_isSome_getElem?,
    Option.not_isSome_iff_eq_none]

theorem foldlM_insertNew {m : BTreeMap Nat α} : (∃ final, l.foldlM insertNew m = .ok final) ↔
    (l.map Prod.fst).Nodup ∧ ∀ e ∈ l, m[e.1]? = none := by
  induction l generalizing m with
  | nil => simp [pure, Except.pure]
  | cons e l ih =>
      simp only [List.foldlM_cons, Except.bind_eq_ok, insertNew_eq_ok, List.map_cons, List.nodup_cons,
        List.mem_cons, forall_eq_or_imp]
      constructor
      · rintro ⟨final, _, ⟨he, rfl⟩, hfold⟩
        obtain ⟨hl, hnone⟩ := ih.mp ⟨final, hfold⟩
        simp only [getElem?_insert_eq] at hnone
        refine ⟨⟨fun hmem => ?_, hl⟩, he, fun a ha => ?_⟩
        · obtain ⟨a, ha, heq⟩ := List.mem_map.mp hmem
          have := hnone a ha
          rw [if_pos heq] at this
          cases this
        · have := hnone a ha
          split at this
          · cases this
          · exact this
      · rintro ⟨⟨hnot, hl⟩, he, hnone⟩
        obtain ⟨final, hfinal⟩ := (ih (m := m.insert e.1 e.2)).mpr ⟨hl, fun a ha => by
          rw [getElem?_insert_eq, if_neg fun h => hnot (List.mem_map.mpr ⟨a, ha, h⟩)]
          exact hnone a ha⟩
        exact ⟨final, _, ⟨he, rfl⟩, hfinal⟩

theorem getElem?_collect (hl : (l.map Prod.fst).Nodup) {k : Nat} {x : α} :
    (collect l)[k]? = some x ↔ (k, x) ∈ l :=
  BlobCodec.getElem?_inserts hl

/-- A map is collected from its entries, in any order. -/
theorem collect_of_perm {m : BTreeMap Nat α} (h : l.Perm m.toList) : collect l = m := by
  have hl : (l.map Prod.fst).Nodup := by
    rw [(h.map Prod.fst).nodup_iff, Std.ExtTreeMap.map_fst_toList_eq_keys]
    exact Std.ExtTreeMap.nodup_keys
  refine Std.ExtTreeMap.ext_getElem? fun k => Option.ext fun x => ?_
  rw [getElem?_collect hl, h.mem_iff, Std.ExtTreeMap.mem_toList_iff_getElem?_eq_some]

end Entries

theorem foldlM_pushNew {l seen : List Digest} : (∃ final, l.foldlM pushNew seen = .ok final) ↔
    l.Nodup ∧ ∀ id ∈ l, id ∉ seen := by
  induction l generalizing seen with
  | nil => simp [pure, Except.pure]
  | cons id l ih =>
      simp only [List.foldlM_cons, Except.bind_eq_ok, pushNew, Except.ensure_eq_ok, exists_const,
        Except.pure_eq_ok, List.nodup_cons, List.mem_cons, forall_eq_or_imp]
      constructor
      · rintro ⟨final, _, ⟨hid, rfl⟩, hfold⟩
        obtain ⟨hl, hseen⟩ := ih.mp ⟨final, hfold⟩
        exact ⟨⟨fun h => hseen id h List.mem_cons_self, hl⟩, hid,
          fun a ha h => hseen a ha (List.mem_cons_of_mem _ h)⟩
      · rintro ⟨⟨hnot, hl⟩, hid, hseen⟩
        obtain ⟨final, hfinal⟩ := (@ih (id :: seen)).mpr ⟨hl, fun a ha h => by
          rcases List.mem_cons.mp h with rfl | h
          · exact hnot ha
          · exact hseen a ha h⟩
        exact ⟨final, _, ⟨hid, rfl⟩, hfinal⟩

theorem foldlM_ascend {l : List Nat} {previous : Option Nat} :
    (∃ final, l.foldlM ascend previous = .ok final) ↔
      l.Pairwise (· < ·) ∧ ∀ last ∈ previous, ∀ page ∈ l, last < page := by
  induction l generalizing previous with
  | nil => simp [pure, Except.pure]
  | cons page l ih =>
      simp only [List.foldlM_cons, Except.bind_eq_ok, ascend, Except.ensure_eq_ok, exists_const,
        Except.pure_eq_ok, List.pairwise_cons, List.mem_cons, forall_eq_or_imp]
      constructor
      · rintro ⟨final, _, ⟨hpage, rfl⟩, hfold⟩
        obtain ⟨hl, hlast⟩ := ih.mp ⟨final, hfold⟩
        have hlast := hlast page rfl
        exact ⟨⟨hlast, hl⟩, fun last h => ⟨hpage last h, fun a ha => (hpage last h).trans (hlast a ha)⟩⟩
      · rintro ⟨⟨hpage, hl⟩, hlast⟩
        obtain ⟨final, hfinal⟩ := (@ih (some page)).mpr
          ⟨hl, fun last h a ha => Option.some.inj h ▸ hpage a ha⟩
        exact ⟨final, _, ⟨fun last h => (hlast last h).1, rfl⟩, hfinal⟩

/-! ## The parsers are exact -/

theorem size_lt (size : LogicalBytes) : size.get < 2 ^ 64 := by
  have hpages : size.pages < u32Max := size.bounded
  have hle := size.pageSize.bounds.2
  have hmul : size.pages * size.pageSize.get ≤ u32Max * 65536 := Nat.mul_le_mul hpages.le hle
  rw [size.pages_mul, u32Max] at hmul
  omega

theorem new_eq_ok_iff {bytes : Nat} {pageSize : PageSize} {size : LogicalBytes} :
    LogicalBytes.new bytes pageSize = .ok size ↔ size.pageSize = pageSize ∧ bytes = size.get := by
  constructor
  · intro h
    obtain ⟨hget, hpage⟩ := LogicalBytes.new_eq_ok h
    exact ⟨hpage, hget.symm⟩
  · rintro ⟨rfl, rfl⟩
    exact size.new_get

theorem exact_readSize : Exact readSize
    (fun size => leBytes 4 size.pageSize.get ++ leBytes 8 size.get) (fun _ => True) := by
  have hbytes := fun pageSize : PageSize => exact_u64.convert LogicalBytes.get
    (P := fun size => size.pageSize = pageSize) (c := fun bytes => LogicalBytes.new bytes pageSize)
    fun _ _ => new_eq_ok_iff
  have h := exact_readPageSize.bind LogicalBytes.pageSize (fun pageSize _ => hbytes pageSize)
    fun _ _ h => h.2
  refine h.congr (fun size => ?_) fun _ _ => rfl
  simp only [true_and, and_true, iff_true]
  exact size_lt size

theorem exact_readPreferred : Exact readPreferred
    (fun l => leBytes 4 l.length ++ l.flatMap (leBytes 32))
    (fun l => (l.length ≤ 4 ∧ l.Nodup) ∧ ∀ id ∈ l, id < 2 ^ 256) := by
  have hmany := fun count : Nat => Exact.ensure (P := count ≤ 4) (e := StoreError.corrupt 0) fun _ =>
    exact_array.many pushNew count []
  have h := exact_u32.bind List.length (fun count _ => hmany count) fun _ _ h => h.2.1
  refine h.congr (fun l => ?_) fun _ _ => rfl
  simp only [foldlM_pushNew, List.not_mem_nil, not_false_eq_true, implies_true, and_true, true_and]
  constructor
  · rintro ⟨-, hcount, hids, hnodup⟩
    exact ⟨⟨hcount, hnodup⟩, hids⟩
  · rintro ⟨⟨hcount, hnodup⟩, hids⟩
    exact ⟨by omega, hcount, hids, hnodup⟩

theorem exact_readMetadata (hash : Bytes → Digest) (id : Digest) (length : Nat) :
    Exact (readMetadata hash id length) FrameMetadata.encode
      (fun m => m.encode.length = length ∧ m.Admissible ∧ hash m.encode = id) := by
  refine (Exact.take StoreError.corrupt length).convert FrameMetadata.encode
    (P := fun m => m.Admissible ∧ hash m.encode = id) fun bytes m => ?_
  rw [FrameMetadata.decodeBytes_eq_ok]
  constructor
  · rintro ⟨hm, rfl, hid⟩
    exact ⟨⟨hm, hid⟩, rfl⟩
  · rintro ⟨⟨hm, hid⟩, rfl⟩
    exact ⟨hm, rfl, hid⟩

/-- The longest metadata of a frame with pages of this size. -/
def maxEncoded (pageSize : PageSize) : Nat := 89 + (8 * 1024 * 1024 / pageSize.get) * 44

/-- The bytes of a frame entry. -/
def frameBytes (e : Digest × FrameLocation) : Bytes :=
  leBytes 32 e.1 ++ (leBytes 32 e.2.pack ++ (leBytes 8 e.2.offset ++
    (leBytes 4 e.2.metadata.encode.length ++ e.2.metadata.encode)))

/-- What is read as a frame entry. -/
structure FrameOk (hash : Bytes → Digest) (pageSize : PageSize) (e : Digest × FrameLocation) :
    Prop where
  id : e.1 < 2 ^ 256
  pack : e.2.pack < 2 ^ 256
  short : e.2.metadata.encode.length ≤ maxEncoded pageSize
  metadata : e.2.metadata.Admissible
  authentic : hash e.2.metadata.encode = e.1
  length : e.2.length = e.2.metadata.payloadBytes
  range : e.2.offset + e.2.length ≤ u64Max

theorem maxEncoded_lt (pageSize : PageSize) : maxEncoded pageSize < 2 ^ 32 := by
  have : 8 * 1024 * 1024 / pageSize.get ≤ 8 * 1024 * 1024 := Nat.div_le_self _ _
  unfold maxEncoded
  omega

theorem exact_readFrame (hash : Bytes → Digest) (pageSize : PageSize) :
    Exact (readFrame hash pageSize) frameBytes (FrameOk hash pageSize) := by
  -- From the last field to the first.
  have hpure := fun id pack offset (m : FrameMetadata) => Exact.ensure
    (P := m.payloadBytes ≠ 0 ∧ offset + m.payloadBytes ≤ u64Max) (e := StoreError.value) fun _ =>
      Exact.pure (ε := StoreError) ((id, ⟨pack, offset, m.payloadBytes, m⟩) : Digest × FrameLocation)
  have hmetadata := fun id pack offset length => (exact_readMetadata hash id length).bind
    (fun e : Digest × FrameLocation => e.2.metadata) (fun m _ => hpure id pack offset m)
    fun _ _ h => by rw [h.2]
  have hlength := fun id pack offset => exact_u32.bind
    (fun e : Digest × FrameLocation => e.2.metadata.encode.length)
    (fun length _ => Exact.ensure (P := length ≤ maxEncoded pageSize) (e := StoreError.range) fun _ =>
      hmetadata id pack offset length) fun _ _ h => h.2.1.1
  have hoffset := fun id pack => exact_u64.bind (fun e : Digest × FrameLocation => e.2.offset)
    (fun offset _ => hlength id pack offset) fun _ _ h => by rw [h.2.2.2.2]
  have hpack := fun id => exact_array.bind (fun e : Digest × FrameLocation => e.2.pack)
    (fun pack _ => hoffset id pack) fun _ _ h => by rw [h.2.2.2.2.2]
  have hid := exact_array.bind (fun e : Digest × FrameLocation => e.1) (fun id _ => hpack id)
    fun _ _ h => by rw [h.2.2.2.2.2.2]
  refine hid.congr (fun e => ?_) fun e _ => by simp [frameBytes]
  obtain ⟨id, pack, offset, length, m⟩ := e
  simp only [Prod.mk.injEq, FrameLocation.mk.injEq, true_and, and_true]
  constructor
  · rintro ⟨hid, hpack, hoffset, hlen, hshort, ⟨hm, hauth⟩, ⟨-, hrange⟩, rfl⟩
    exact ⟨hid, hpack, hshort, hm, hauth, rfl, hrange⟩
  · rintro ⟨hid, hpack, hshort, hm, hauth, hlength, hrange⟩
    dsimp only at hid hpack hshort hm hauth hlength hrange
    have hne := (FrameMetadata.payloadFits_iff.mp hm.payload).1.1
    have hmax := maxEncoded_lt pageSize
    rw [hlength] at hrange
    have hoffset : offset < 2 ^ 64 := by unfold u64Max at hrange; omega
    exact ⟨hid, hpack, hoffset, by omega, hshort, ⟨hm, hauth⟩, ⟨hne, hrange⟩, hlength⟩

theorem exact_readFrames (hash : Bytes → Digest) (length : Nat) (pageSize : PageSize) :
    Exact (readFrames hash length pageSize) (fun l => leBytes 4 l.length ++ l.flatMap frameBytes)
      (fun l => (l.length < 2 ^ 32 ∧ l.length ≤ length / 64) ∧ (l.map Prod.fst).Nodup ∧
        ∀ e ∈ l, FrameOk hash pageSize e) := by
  have hmany := fun count : Nat => Exact.ensure (P := count ≤ length / 64) (e := StoreError.range)
    fun _ => (exact_readFrame hash pageSize).many insertNew count ∅
  have h := exact_u32.bind List.length (fun count _ => hmany count) fun _ _ h => h.2.1
  refine h.congr (fun l => ?_) fun _ _ => rfl
  simp only [foldlM_insertNew, Std.ExtTreeMap.getElem?_empty, implies_true, and_true, true_and]
  constructor
  · rintro ⟨hlt, hcount, hok, hnodup⟩
    exact ⟨⟨hlt, hcount⟩, hnodup, hok⟩
  · rintro ⟨⟨hlt, hcount⟩, hnodup, hok⟩
    exact ⟨hlt, hcount, hok, hnodup⟩

theorem exact_readSlot (frames : BTreeMap Digest FrameLocation) : Exact (readSlot frames)
    (fun s => leBytes 32 s.frame ++ leBytes 4 s.slot)
    (fun s => s.frame < 2 ^ 256 ∧
      ∃ l, frames[s.frame]? = some l ∧ s.slot < l.metadata.shape.pages) := by
  have hslot : ∀ frame : Digest, Exact (match frames[frame]? with
      | none => check (.error (.corrupt 0))
      | some location => do
          let slot ← u32
          check (Except.ensure (slot < location.metadata.shape.pages) .value)
          return (⟨frame, slot⟩ : StoredPage) : Parser StoreError StoredPage)
      (fun s => leBytes 4 s.slot) (fun s => s.frame = frame ∧ ∃ l, frames[frame]? = some l ∧
        s.slot < l.metadata.shape.pages) := by
    intro frame
    split
    · rename_i hnone
      exact (Exact.fail _ _).congr (by simp [hnone]) fun _ _ => rfl
    · rename_i location hsome
      have hpure := fun slot => Exact.ensure (P := slot < location.metadata.shape.pages)
        (e := StoreError.value) fun _ => Exact.pure (ε := StoreError) (⟨frame, slot⟩ : StoredPage)
      have h := exact_u32.bind StoredPage.slot (fun slot _ => hpure slot) fun _ _ h => by rw [h.2]
      refine h.congr (fun s => ?_) fun s _ => by simp
      have hlt := location.metadata.shape.pages_lt
      obtain ⟨frame', slot⟩ := s
      simp only [StoredPage.mk.injEq, and_true]
      constructor
      · rintro ⟨-, hslot, rfl⟩
        exact ⟨rfl, location, hsome, hslot⟩
      · rintro ⟨rfl, found, hfound, hslot⟩
        obtain rfl := Option.some.inj (hsome.symm.trans hfound)
        exact ⟨by omega, hslot, rfl⟩
  have h := exact_array.bind StoredPage.frame (fun frame _ => hslot frame) fun _ _ h => h.1
  exact h.congr (by simp) fun _ _ => rfl

/-- The bytes of a page entry. -/
def pageBytes (e : Nat × StoredPage) : Bytes :=
  leBytes 4 e.1 ++ (leBytes 32 e.2.frame ++ leBytes 4 e.2.slot)

/-- What is read as a page entry. -/
def PageOk (frames : BTreeMap Digest FrameLocation) (e : Nat × StoredPage) : Prop :=
  (e.1 ≠ 0 ∧ e.1 < u32Max) ∧ e.2.frame < 2 ^ 256 ∧
    ∃ l, frames[e.2.frame]? = some l ∧ e.2.slot < l.metadata.shape.pages

theorem exact_readPage (frames : BTreeMap Digest FrameLocation) :
    Exact (readPage frames) pageBytes (PageOk frames) := by
  have hstored := fun page : Nat => (exact_readSlot frames).bind Prod.snd
    (fun stored _ => Exact.pure (page, stored)) fun _ _ h => by rw [h]
  have h := exact_readPageNumber.bind Prod.fst (fun page _ => hstored page) fun _ _ h => by rw [h.2]
  refine h.congr (fun e => ?_) fun e _ => by simp [pageBytes]
  simp [PageOk]

theorem exact_readPages (length : Nat) (size : LogicalBytes) (frames : BTreeMap Digest FrameLocation) :
    Exact (readPages length size frames) (fun l => leBytes 4 l.length ++ l.flatMap pageBytes)
      (fun l => (l.length ≤ size.pages ∧ l.length ≤ length / 40) ∧ (l.map Prod.fst).Nodup ∧
        ∀ e ∈ l, PageOk frames e) := by
  have hmany := fun count : Nat => Exact.ensure (P := count ≤ size.pages ∧ count ≤ length / 40)
    (e := StoreError.range) fun _ => (exact_readPage frames).many insertNew count ∅
  have h := exact_u32.bind List.length (fun count _ => hmany count) fun _ _ h => h.2.1
  refine h.congr (fun l => ?_) fun _ _ => rfl
  simp only [foldlM_insertNew, Std.ExtTreeMap.getElem?_empty, implies_true, and_true, true_and]
  have hpages : size.pages < u32Max := size.bounded
  constructor
  · rintro ⟨-, hcount, hok, hnodup⟩
    exact ⟨hcount, hnodup, hok⟩
  · rintro ⟨hcount, hnodup, hok⟩
    exact ⟨by unfold u32Max at hpages; omega, hcount, hok, hnodup⟩

namespace Draft

/-- The bytes of a draft. -/
def bytes (d : Draft) : Bytes :=
  leBytes 32 d.database ++ (leBytes 32 d.lineage ++ ((leBytes 4 d.size.pageSize.get ++
    leBytes 8 d.size.get) ++ (leBytes 8 d.txid ++ (leBytes 32 d.history ++ (leBytes 32 d.parent ++
    (leBytes 32 d.root ++ ((leBytes 4 d.preferred.length ++ d.preferred.flatMap (leBytes 32)) ++
    ((leBytes 4 d.frames.length ++ d.frames.flatMap frameBytes) ++
      (leBytes 4 d.pages.length ++ d.pages.flatMap pageBytes)))))))))

/-- What is read as a draft. -/
structure Readable (hash : Bytes → Digest) (length : Nat) (d : Draft) : Prop where
  database : d.database < 2 ^ 256
  lineage : d.lineage < 2 ^ 256
  txid : d.txid ≠ 0 ∧ d.txid < 2 ^ 64
  history : d.history < 2 ^ 256
  parent : d.parent < 2 ^ 256
  root : d.root < 2 ^ 256
  preferred : (d.preferred.length ≤ 4 ∧ d.preferred.Nodup) ∧ ∀ id ∈ d.preferred, id < 2 ^ 256
  frames : (d.frames.length < 2 ^ 32 ∧ d.frames.length ≤ length / 64) ∧
    (d.frames.map Prod.fst).Nodup ∧ ∀ e ∈ d.frames, FrameOk hash d.size.pageSize e
  pages : (d.pages.length ≤ d.size.pages ∧ d.pages.length ≤ length / 40) ∧
    (d.pages.map Prod.fst).Nodup ∧ ∀ e ∈ d.pages, PageOk (collect d.frames) e

end Draft

theorem exact_readDraft (hash : Bytes → Digest) (length : Nat) :
    Exact (readDraft hash length) Draft.bytes (Draft.Readable hash length) := by
  have hpages := fun database lineage size txid history parent root preferred frames =>
    (exact_readPages length size (collect frames)).bind Draft.pages (fun pages _ =>
      Exact.pure (Draft.mk database lineage size txid history parent root preferred frames pages))
      fun _ _ h => by rw [h]
  have hframes := fun database lineage size txid history parent root preferred =>
    (exact_readFrames hash length (LogicalBytes.pageSize size)).bind Draft.frames (fun frames _ =>
      hpages database lineage size txid history parent root preferred frames) fun _ _ h => by rw [h.2]
  have hpreferred := fun database lineage size txid history parent root =>
    exact_readPreferred.bind Draft.preferred (fun preferred _ =>
      hframes database lineage size txid history parent root preferred) fun _ _ h => by rw [h.2.2]
  have hroot := fun database lineage size txid history parent =>
    exact_array.bind Draft.root (fun root _ =>
      hpreferred database lineage size txid history parent root) fun _ _ h => by rw [h.2.2.2]
  have hparent := fun database lineage size txid history =>
    exact_array.bind Draft.parent (fun parent _ =>
      hroot database lineage size txid history parent) fun _ _ h => by rw [h.2.2.2.2]
  have hhistory := fun database lineage size txid =>
    exact_array.bind Draft.history (fun history _ =>
      hparent database lineage size txid history) fun _ _ h => by rw [h.2.2.2.2.2]
  have htxid := fun database lineage size =>
    exact_readTransactionId.bind Draft.txid (fun txid _ =>
      hhistory database lineage size txid) fun _ _ h => by rw [h.2.2.2.2.2.2]
  have hsize := fun database lineage =>
    exact_readSize.bind Draft.size (fun size _ =>
      htxid database lineage size) fun _ _ h => by rw [h.2.2.2.2.2.2.2]
  have hlineage := fun database => exact_array.bind Draft.lineage (fun lineage _ =>
    hsize database lineage) fun _ _ h => by rw [h.2.2.2.2.2.2.2.2]
  have hdatabase := exact_array.bind Draft.database (fun database _ => hlineage database)
    fun _ _ h => by rw [h.2.2.2.2.2.2.2.2.2]
  refine hdatabase.congr (fun d => ?_) fun d _ => by simp [Draft.bytes]
  simp only [true_and, and_true]
  constructor
  · rintro ⟨hdatabase, hlineage, htxid, hhistory, hparent, hroot, hpreferred, hframes, hpages⟩
    exact ⟨hdatabase, hlineage, htxid, hhistory, hparent, hroot, hpreferred, hframes, hpages⟩
  · rintro ⟨hdatabase, hlineage, htxid, hhistory, hparent, hroot, hpreferred, hframes, hpages⟩
    exact ⟨hdatabase, hlineage, htxid, hhistory, hparent, hroot, hpreferred, hframes, hpages⟩

/-! ## Views as drafts -/

variable (E) in
/-- A view as it is written. -/
def Draft.ofView (v : ViewMetadata) : Draft where
  database := v.database
  lineage := v.lineage
  size := v.size
  txid := v.txid
  history := v.history
  parent := v.parentSeal.getD 0
  root := v.contentRoot E
  preferred := v.preferred
  frames := BlobCodec.byId v.frames.toList
  pages := v.pages.toList

variable {v : ViewMetadata}

theorem view_ofView (hparent : v.parentSeal ≠ some 0) : (Draft.ofView E v).view = v := by
  have hseal : (if v.parentSeal.getD 0 = 0 then none else some (v.parentSeal.getD 0)) =
      v.parentSeal := by
    cases h : v.parentSeal with
    | none => rfl
    | some id =>
        have hid : id ≠ 0 := fun h0 => hparent (by rw [h, h0])
        simp [hid]
  unfold Draft.view Draft.ofView
  simp only [hseal, collect_of_perm (BlobCodec.perm_byId _), collect_of_perm (List.Perm.refl _)]

theorem length_frameBytes (e : Digest × FrameLocation) :
    (frameBytes e).length = 76 + e.2.metadata.encodedLen := by
  simp only [frameBytes, List.length_append, length_leBytes, FrameMetadata.length_encode]
  omega

theorem length_pageBytes (e : Nat × StoredPage) : (pageBytes e).length = 40 := by
  simp [pageBytes]

/-- **Length.** The length that validation computes is that of the encoding. -/
theorem length_bytes_ofView : (Draft.ofView E v).bytes.length = v.encodedLength := by
  have hframes : ((BlobCodec.byId v.frames.toList).flatMap frameBytes).length =
      (v.frames.toList.map fun e => 76 + e.2.metadata.encodedLen).sum := by
    rw [List.length_flatMap, List.map_congr_left fun e _ => length_frameBytes e]
    exact ((BlobCodec.perm_byId _).map _).sum_eq
  have hpages : (v.pages.toList.flatMap pageBytes).length = v.pages.size * 40 := by
    rw [List.length_flatMap, List.map_congr_left fun e _ => length_pageBytes e]
    simp
  have hpreferred : (v.preferred.flatMap (leBytes 32)).length = v.preferred.length * 32 := by
    rw [List.length_flatMap, List.map_congr_left fun id _ => length_leBytes 32 id]
    simp
  simp only [Draft.bytes, Draft.ofView, List.length_append, length_leBytes, hframes, hpages,
    hpreferred, ViewMetadata.encodedLength]
  omega

theorem encodeFrame_eq_ok {e : Digest × FrameLocation} {b : Bytes} :
    encodeFrame e = .ok b ↔ e.2.metadata.encode.length ≤ u32Max ∧ b = frameBytes e := by
  simp only [encodeFrame, Except.bind_eq_ok, toU32_eq_ok, Except.pure_eq_ok]
  constructor
  · rintro ⟨_, ⟨hle, rfl⟩, rfl⟩
    exact ⟨hle, rfl⟩
  · rintro ⟨hle, rfl⟩
    exact ⟨_, ⟨hle, rfl⟩, rfl⟩

theorem encodePage_eq_ok {e : Nat × StoredPage} {b : Bytes} :
    encodePage e = .ok b ↔ e.2.slot ≤ u32Max ∧ b = pageBytes e := by
  simp only [encodePage, Except.bind_eq_ok, toU32_eq_ok, Except.pure_eq_ok]
  constructor
  · rintro ⟨_, ⟨hle, rfl⟩, rfl⟩
    exact ⟨hle, rfl⟩
  · rintro ⟨hle, rfl⟩
    exact ⟨_, ⟨hle, rfl⟩, rfl⟩

/-- The numbers of a view that are written with 32 bits. -/
structure Countable (v : ViewMetadata) : Prop where
  preferred : v.preferred.length ≤ u32Max
  frames : v.frames.size ≤ u32Max
  pages : v.pages.size ≤ u32Max
  metadata : ∀ e ∈ v.frames.toList, e.2.metadata.encode.length ≤ u32Max
  slots : ∀ e ∈ v.pages.toList, e.2.slot ≤ u32Max

theorem encodeRaw_eq_ok {raw : Bytes} : encodeRaw E v = .ok raw ↔
    Countable v ∧ v.encodedLength ≤ viewLimit ∧ raw = (Draft.ofView E v).bytes := by
  have hraw : encodeFields E v ++ (leBytes 4 v.preferred.length ++ (v.preferred.flatMap (leBytes 32) ++
      (leBytes 4 v.frames.size ++ (((BlobCodec.byId v.frames.toList).map frameBytes).flatten ++
        (leBytes 4 v.pages.size ++ (v.pages.toList.map pageBytes).flatten))))) =
      (Draft.ofView E v).bytes := by
    simp only [encodeFields, Draft.bytes, Draft.ofView, List.append_assoc, List.flatMap_def,
      (BlobCodec.perm_byId _).length_eq, Std.ExtTreeMap.length_toList]
  simp only [encodeRaw, Except.bind_eq_ok, Except.ensure_eq_ok, exists_const, toU32_eq_ok,
    Except.pure_eq_ok, Except.mapM_eq_map fun _ _ => encodeFrame_eq_ok,
    Except.mapM_eq_map fun _ _ => encodePage_eq_ok]
  constructor
  · rintro ⟨_, ⟨hpreferred, rfl⟩, _, ⟨hframes, rfl⟩, _, ⟨hmetadata, rfl⟩, _, ⟨hpages, rfl⟩, _,
      ⟨hslots, rfl⟩, hle, rfl⟩
    rw [hraw] at hle ⊢
    rw [length_bytes_ofView] at hle
    exact ⟨⟨hpreferred, hframes, hpages,
      fun e he => hmetadata e ((BlobCodec.perm_byId _).mem_iff.mpr he), hslots⟩, hle, rfl⟩
  · rintro ⟨⟨hpreferred, hframes, hpages, hmetadata, hslots⟩, hle, rfl⟩
    refine ⟨_, ⟨hpreferred, rfl⟩, _, ⟨hframes, rfl⟩, _,
      ⟨fun e he => hmetadata e ((BlobCodec.perm_byId _).mem_iff.mp he), rfl⟩, _, ⟨hpages, rfl⟩, _,
      ⟨hslots, rfl⟩, ?_, hraw.symm⟩
    rw [hraw, length_bytes_ofView]
    exact hle

/-! ## Round trips -/

/-- What the types of the fields allow: ids of 32 bytes, numbers of their width, metadata as frames
are built with, and ids of frames that are the hashes of their encodings. -/
structure Typed (E : Env) (hash : Bytes → Digest) (v : ViewMetadata) : Prop where
  database : v.database < 2 ^ 256
  lineage : v.lineage < 2 ^ 256
  txid : v.txid ≠ 0 ∧ v.txid < 2 ^ 64
  history : v.history < 2 ^ 256
  parent : v.parentSeal.getD 0 < 2 ^ 256
  root : v.contentRoot E < 2 ^ 256
  preferred : ∀ id ∈ v.preferred, id < 2 ^ 256
  frame : ∀ (id : Digest) l, v.frames[id]? = some l → id < 2 ^ 256 ∧ l.pack < 2 ^ 256 ∧
    l.metadata.Formed ∧ l.metadata.id E = hash l.metadata.encode ∧ l.offset + l.length ≤ u64Max
  page : ∀ (p : Nat) s, v.pages[p]? = some s → p ≠ 0

/-- No frame holds a page twice, and no seal has an id of zeros. -/
structure Regular (v : ViewMetadata) : Prop where
  distinct : ∀ (id : Digest) l, v.frames[id]? = some l →
    (l.metadata.pages.map PageVersion.page).Nodup
  parent : v.parentSeal ≠ some 0

theorem size_le_frames (v : ViewMetadata) : v.frames.size * 64 ≤ v.encodedLength := by
  have hsum := List.card_nsmul_le_sum
    (v.frames.toList.map fun entry => 76 + entry.2.metadata.encodedLen) 64 (fun n hn => by
      obtain ⟨_, _, rfl⟩ := List.mem_map.mp hn
      omega)
  rw [List.length_map, Std.ExtTreeMap.length_toList, smul_eq_mul] at hsum
  unfold ViewMetadata.encodedLength
  omega

section RoundTrip

variable (hv : v.Valid E) (ht : Typed E hash v)
include hv ht

theorem encodedLen_le {id : Digest} {l : FrameLocation} (hl : v.frames[id]? = some l) :
    l.metadata.encode.length ≤ maxEncoded v.size.pageSize := by
  have hcount := (ht.frame id l hl).2.2.1.count
  have hps := (hv.frame id l hl).2.1
  have hpages : l.metadata.shape.pages ≤ 8 * 1024 * 1024 / v.size.pageSize.get := by
    rw [Nat.le_div_iff_mul_le v.size.pageSize.pos, ← hps]
    exact l.metadata.shape.bounded
  have hmul := Nat.mul_le_mul_right 44 hpages
  rw [FrameMetadata.length_encode, FrameMetadata.encodedLen, hcount, maxEncoded]
  split <;> omega

theorem countable_of_valid : Countable v := by
  have hlimit := hv.length
  have hframes := size_le_frames v
  have hpages : v.pages.size * 40 ≤ v.encodedLength := by
    unfold ViewMetadata.encodedLength
    omega
  have hpreferred := hv.preferred.1
  unfold viewLimit at hlimit
  refine ⟨?_, ?_, ?_, fun e he => ?_, fun e he => ?_⟩
  · unfold u32Max; omega
  · unfold u32Max; omega
  · unfold u32Max; omega
  · have hl := Std.ExtTreeMap.mem_toList_iff_getElem?_eq_some.mp he
    have := encodedLen_le hv ht hl
    have := maxEncoded_lt v.size.pageSize
    unfold u32Max
    omega
  · have hp := Std.ExtTreeMap.mem_toList_iff_getElem?_eq_some.mp he
    obtain ⟨l, version, hl, hversion, -⟩ := hv.slot hp
    have hslot := (List.getElem?_eq_some_iff.mp hversion).1
    rw [(ht.frame _ l hl).2.2.1.count] at hslot
    have := l.metadata.shape.pages_lt
    unfold u32Max
    omega

/-- A view that passes its validation is encoded. -/
theorem encodeRaw_of_valid : encodeRaw E v = .ok (Draft.ofView E v).bytes :=
  encodeRaw_eq_ok.mpr ⟨countable_of_valid hv ht, hv.length, rfl⟩

theorem pageOk_of_valid {e : Nat × StoredPage} (he : e ∈ v.pages.toList) : PageOk v.frames e := by
  have hp := Std.ExtTreeMap.mem_toList_iff_getElem?_eq_some.mp he
  obtain ⟨l, version, hl, hversion, hle⟩ := hv.slot hp
  have hslot := (List.getElem?_eq_some_iff.mp hversion).1
  rw [(ht.frame _ l hl).2.2.1.count] at hslot
  have hpages : v.size.pages < u32Max := v.size.bounded
  exact ⟨⟨ht.page _ _ hp, by omega⟩, (ht.frame _ l hl).1, l, hl, hslot⟩

variable (hr : Regular v)
include hr

theorem frameOk_of_valid {e : Digest × FrameLocation} (he : e ∈ v.frames.toList) :
    FrameOk hash v.size.pageSize e := by
  have hl := Std.ExtTreeMap.mem_toList_iff_getElem?_eq_some.mp he
  obtain ⟨hid, hpack, hformed, hauth, hrange⟩ := ht.frame _ _ hl
  obtain ⟨hname, -, hlength⟩ := hv.frame _ _ hl
  refine ⟨hid, hpack, encodedLen_le hv ht hl, ?_, ?_, hlength, hrange⟩
  · exact ⟨hformed.toTyped, hformed.payload, hformed.count, hr.distinct _ _ hl⟩
  · rw [← hauth, hname]

theorem wellTyped_of_typed : v.WellTyped E := by
  refine ⟨fun id l hl => ?_, ht.page, ht.txid.1⟩
  have hok := frameOk_of_valid hv ht hr (Std.ExtTreeMap.mem_toList_iff_getElem?_eq_some.mpr hl)
  obtain ⟨-, -, hformed, hauth, -⟩ := ht.frame id l hl
  refine ⟨(FrameMetadata.decodeBytes_encode hformed.toTyped hauth).mp ?_, ?_⟩
  · exact FrameMetadata.decodeBytes_eq_ok.mpr ⟨hok.metadata, rfl, hok.authentic⟩
  · rw [← hok.length]
    exact hok.range

/-- **What is written can be read.** -/
theorem readable_ofView : (Draft.ofView E v).Readable hash v.encodedLength := by
  have hperm := BlobCodec.perm_byId v.frames.toList
  have hframes := size_le_frames v
  have hcount := countable_of_valid hv ht
  refine ⟨ht.database, ht.lineage, ht.txid, ht.history, ht.parent, ht.root,
    ⟨hv.preferred, ht.preferred⟩, ⟨⟨?_, ?_⟩, ?_, fun e he => ?_⟩, ⟨⟨?_, ?_⟩, ?_, fun e he => ?_⟩⟩
  · show (BlobCodec.byId v.frames.toList).length < 2 ^ 32
    have := hcount.frames
    rw [hperm.length_eq, Std.ExtTreeMap.length_toList]
    unfold u32Max at this
    omega
  · show (BlobCodec.byId v.frames.toList).length ≤ _
    rw [hperm.length_eq, Std.ExtTreeMap.length_toList, Nat.le_div_iff_mul_le (by decide)]
    exact hframes
  · show ((BlobCodec.byId v.frames.toList).map Prod.fst).Nodup
    rw [(hperm.map Prod.fst).nodup_iff, Std.ExtTreeMap.map_fst_toList_eq_keys]
    exact Std.ExtTreeMap.nodup_keys
  · exact frameOk_of_valid hv ht hr (hperm.mem_iff.mp he)
  · show v.pages.toList.length ≤ v.size.pages
    rw [Std.ExtTreeMap.length_toList]
    exact hv.pages_size_le (wellTyped_of_typed hv ht hr)
  · show v.pages.toList.length ≤ _
    rw [Std.ExtTreeMap.length_toList, Nat.le_div_iff_mul_le (by decide)]
    unfold ViewMetadata.encodedLength
    omega
  · show (v.pages.toList.map Prod.fst).Nodup
    rw [Std.ExtTreeMap.map_fst_toList_eq_keys]
    exact Std.ExtTreeMap.nodup_keys
  · have hcollect : collect (Draft.ofView E v).frames = v.frames := collect_of_perm hperm
    rw [hcollect]
    exact pageOk_of_valid hv ht he

omit ht in
theorem finish_ofView : (Draft.ofView E v).finish E v.encodedLength = .ok v.validated := by
  unfold Draft.finish
  rw [view_ofView hr.parent, Except.bind_of_ok (ViewMetadata.validate_eq_ok.mpr ⟨hv, rfl⟩),
    Except.bind_of_ok (Except.ensure_of ⟨rfl, rfl⟩ _)]
  rfl

theorem decodeRaw_ofView : decodeRaw E hash (Draft.ofView E v).bytes = .ok v.validated := by
  unfold decodeRaw
  rw [length_bytes_ofView, Except.bind_of_ok ((exact_readDraft hash _).decodeAll_eq_ok.mpr
    ⟨readable_ofView hv ht hr, rfl⟩)]
  exact finish_ofView hv hr

end RoundTrip

theorem finish_eq_ok {length : Nat} {d : Draft} {val : ValidatedMetadata} :
    d.finish E length = .ok val ↔ (d.view.Valid E ∧ val = d.view.validated) ∧
      d.view.encodedLength = length ∧ d.root = d.view.contentRoot E := by
  simp only [Draft.finish, Except.bind_eq_ok, ViewMetadata.validate_eq_ok, Except.ensure_eq_ok,
    exists_const, Except.pure_eq_ok]
  constructor
  · rintro ⟨_, ⟨hv, rfl⟩, ⟨hlength, hroot⟩, rfl⟩
    exact ⟨⟨hv, rfl⟩, hlength, hroot⟩
  · rintro ⟨⟨hv, rfl⟩, hlength, hroot⟩
    exact ⟨_, ⟨hv, rfl⟩, ⟨hlength, hroot⟩, rfl⟩

/-- What is accepted is a draft whose maps are valid. -/
theorem decodeRaw_eq_ok {raw : Bytes} {val : ValidatedMetadata} :
    decodeRaw E hash raw = .ok val ↔ ∃ d : Draft, (d.Readable hash raw.length ∧ raw = d.bytes) ∧
      (d.view.Valid E ∧ val = d.view.validated) ∧ d.view.encodedLength = raw.length ∧
        d.root = d.view.contentRoot E := by
  simp only [decodeRaw, Except.bind_eq_ok, (exact_readDraft hash raw.length).decodeAll_eq_ok,
    finish_eq_ok]

theorem openEnvelope_envelope {text raw : Bytes} (htext : text.length = 8)
    (hdigest : hash raw < 2 ^ 256) (hraw : raw.length ≤ viewLimit) :
    Envelope.openEnvelope hash zstd text (Envelope.envelope hash zstd text raw) viewLimit =
      .ok raw := by
  refine (Envelope.openEnvelope_eq_ok htext).mpr ⟨zstd.compress 3 none raw, ⟨?_, hraw⟩, hdigest, rfl,
    zstd.round_trip 3 none raw⟩
  unfold viewLimit at hraw
  omega

/-- **Reading while decompressing** accepts what reading the opened envelope does. -/
theorem decode_eq_ok {stream : Bytes → Envelope.Stream} (hagree : Envelope.Agree zstd stream)
    {encoded : Bytes} {val : ValidatedMetadata} :
    decode E hash stream encoded = .ok val ↔ ∃ raw,
      Envelope.openEnvelope hash zstd viewMagic encoded viewLimit = .ok raw ∧
        decodeRaw E hash raw = .ok val := by
  have htext : viewMagic.length = 8 := rfl
  constructor
  · intro h
    obtain ⟨⟨⟨length, expected⟩, compressed⟩, hheader, h⟩ := Except.bind_eq_ok.mp h
    obtain ⟨⟨draft, position, left⟩, hread, h⟩ := Except.bind_eq_ok.mp h
    obtain ⟨_, hdone, hfinish⟩ := Except.bind_eq_ok.mp h
    obtain ⟨hok, hencoded⟩ := (Envelope.openHeader_eq_ok htext).mp hheader
    obtain ⟨hreadable, hbytes, hposition⟩ := (exact_readDraft hash length _ _ _).mp hread
    obtain ⟨hlength, ⟨hrest, hclean⟩, hhash⟩ := Except.ensure_eq_ok.mp hdone
    dsimp only [Envelope.ReadDecoder.upTo] at hok hencoded hbytes hposition hlength hrest hclean hhash
    -- All of the stream has been read, and it is the draft.
    have hle := List.drop_eq_nil_iff.mp hrest
    rw [Nat.zero_add] at hposition
    have hall : (stream compressed).rest.take length = (stream compressed).rest :=
      List.take_of_length_le (by omega)
    rw [hall] at hbytes
    have hleft : left = [] := by
      have := congrArg List.length hbytes
      rw [List.length_append] at this
      exact List.eq_nil_of_length_eq_zero (by omega)
    rw [hleft, List.append_nil] at hbytes
    have hraw : draft.bytes.length = length := hposition.symm.trans hlength
    rw [hlength, hall, hbytes] at hhash
    have hhash : hash draft.bytes = expected := by simpa using hhash
    refine ⟨draft.bytes, (Envelope.openEnvelope_eq_ok htext).mpr ⟨compressed, ?_, ?_, ?_, ?_⟩, ?_⟩
    · rw [hraw]
      exact hok.1
    · rw [hhash]
      exact hok.2
    · rw [hraw, hhash]
      exact hencoded
    · refine (hagree.same _ _).mpr ?_
      rw [← hbytes, ← hclean]
    · unfold decodeRaw
      rw [hraw, Except.bind_of_ok ((exact_readDraft hash _).decodeAll_eq_ok.mpr ⟨hreadable, rfl⟩)]
      exact hfinish
  · rintro ⟨raw, hopen, hdecode⟩
    obtain ⟨compressed, hlen, hdigest, hencoded, hcontent⟩ :=
      (Envelope.openEnvelope_eq_ok htext).mp hopen
    have hstream := (hagree.same _ _).mp hcontent
    have hheader : Envelope.openHeader viewMagic encoded viewLimit =
        .ok ((raw.length, hash raw), compressed) :=
      (Envelope.openHeader_eq_ok htext).mpr ⟨⟨hlen, hdigest⟩, hencoded⟩
    obtain ⟨draft, hdraft, hfinish⟩ := Except.bind_eq_ok.mp hdecode
    obtain ⟨hreadable, hbytes⟩ := (exact_readDraft hash _).decodeAll_eq_ok.mp hdraft
    have hread := (exact_readDraft hash raw.length (0, raw) (raw.length, []) draft).mpr
      ⟨hreadable, by simpa using hbytes, by rw [← hbytes, Nat.zero_add]⟩
    rw [decode, Except.bind_of_ok hheader]
    dsimp only
    rw [hstream, List.take_length, Except.bind_of_ok hread]
    dsimp only
    rw [Envelope.ReadDecoder.finish, Except.bind_of_ok (Except.ensure_of _ _)]
    · exact hfinish
    · simp [Envelope.ReadDecoder.upTo]

/-! ## Runs -/

/-- The bytes of a run draft. -/
def RunDraft.bytes (d : RunDraft) : Bytes :=
  (leBytes 32 d.parent.hash ++ leBytes 8 d.parent.txid) ++ (leBytes 32 d.root ++
    (leBytes 8 d.spanBegin ++ (leBytes 8 d.spanEnd ++
      ((leBytes 4 d.removed.length ++ d.removed.flatMap (leBytes 4)) ++ d.patch))))

/-- What is read as a run. -/
structure RunDraft.Readable (length : Nat) (d : RunDraft) : Prop where
  parent : d.parent.hash < 2 ^ 256 ∧ d.parent.txid ≠ 0 ∧ d.parent.txid < 2 ^ 64
  root : d.root < 2 ^ 256
  span : (d.spanBegin ≠ 0 ∧ d.spanBegin < 2 ^ 64) ∧ (d.spanEnd ≠ 0 ∧ d.spanEnd < 2 ^ 64) ∧
    d.spanBegin ≤ d.spanEnd
  count : d.removed.length < 2 ^ 32 ∧ d.removed.length ≤ (length - runPrefix) / 4
  removed : d.removed.Pairwise (· < ·) ∧ ∀ page ∈ d.removed, page ≠ 0 ∧ page < u32Max
  patch : d.patch.length = length - runPrefix - d.removed.length * 4

theorem exact_readParent : Exact readParent (fun p => leBytes 32 p.hash ++ leBytes 8 p.txid)
    (fun p => p.hash < 2 ^ 256 ∧ p.txid ≠ 0 ∧ p.txid < 2 ^ 64) := by
  have htxid := fun id : Digest => exact_readTransactionId.bind ParentRef.txid
    (fun txid _ => Exact.pure (⟨id, txid⟩ : ParentRef)) fun _ _ h => by rw [h]
  have h := exact_array.bind ParentRef.hash (fun id _ => htxid id) fun _ _ h => by rw [h.2]
  exact h.congr (by simp) fun _ _ => by simp

theorem exact_readRemoved (length : Nat) : Exact (readRemoved length)
    (fun l => leBytes 4 l.length ++ l.flatMap (leBytes 4))
    (fun l => (l.length < 2 ^ 32 ∧ l.length ≤ (length - runPrefix) / 4) ∧ l.Pairwise (· < ·) ∧
      ∀ page ∈ l, page ≠ 0 ∧ page < u32Max) := by
  have hmany := fun count : Nat => Exact.ensure (P := count ≤ (length - runPrefix) / 4)
    (e := StoreError.range) fun _ => exact_readPageNumber.many ascend count none
  have h := exact_u32.bind List.length (fun count _ => hmany count) fun _ _ h => h.2.1
  refine h.congr (fun l => ?_) fun _ _ => rfl
  simp only [foldlM_ascend, Option.not_mem_none, false_implies, implies_true, and_true, true_and]
  constructor
  · rintro ⟨hlt, hcount, hpages, hpairs⟩
    exact ⟨⟨hlt, hcount⟩, hpairs, hpages⟩
  · rintro ⟨⟨hlt, hcount⟩, hpairs, hpages⟩
    exact ⟨hlt, hcount, hpages, hpairs⟩

theorem exact_readRun (length : Nat) :
    Exact (readRun length) RunDraft.bytes (RunDraft.Readable length) := by
  have hpatch := fun parent root spanBegin spanEnd removed =>
    (Exact.take StoreError.corrupt (length - runPrefix - List.length removed * 4)).bind RunDraft.patch
      (fun patch _ => Exact.pure (RunDraft.mk parent root spanBegin spanEnd removed patch))
      fun _ _ h => by rw [h]
  have hremoved := fun parent root spanBegin spanEnd => (exact_readRemoved length).bind RunDraft.removed
    (fun removed _ => hpatch parent root spanBegin spanEnd removed) fun _ _ h => by rw [h.2]
  have hend := fun parent root spanBegin => exact_readTransactionId.bind RunDraft.spanEnd
    (fun spanEnd _ => Exact.ensure (P := spanBegin ≤ spanEnd) (e := StoreError.value) fun _ =>
      hremoved parent root spanBegin spanEnd) fun _ _ h => by rw [h.2.2.2]
  have hbegin := fun parent root => exact_readTransactionId.bind RunDraft.spanBegin
    (fun spanBegin _ => hend parent root spanBegin) fun _ _ h => by rw [h.2.2.2.2]
  have hroot := fun parent => exact_array.bind RunDraft.root
    (fun root _ => hbegin parent root) fun _ _ h => by rw [h.2.2.2.2.2]
  have h := exact_readParent.bind RunDraft.parent (fun parent _ => hroot parent)
    fun _ _ h => by rw [h.2.2.2.2.2.2]
  refine h.congr (fun d => ?_) fun d _ => by simp [RunDraft.bytes]
  simp only [and_true]
  constructor
  · rintro ⟨hparent, hroot, hbegin, hend, hle, ⟨hcount, hremoved⟩, hpatch⟩
    exact ⟨hparent, hroot, ⟨hbegin, hend, hle⟩, hcount, hremoved, hpatch⟩
  · rintro ⟨hparent, hroot, ⟨hbegin, hend, hle⟩, hcount, hremoved, hpatch⟩
    exact ⟨hparent, hroot, hbegin, hend, hle, ⟨hcount, hremoved⟩, hpatch⟩

variable (E) in
/-- A run as it is written. -/
def RunDraft.ofRun (run : MetadataRun) : RunDraft where
  parent := run.parent
  root := run.root
  spanBegin := run.spanBegin
  spanEnd := run.spanEnd
  removed := run.removed
  patch := (Draft.ofView E run.patch.view).bytes

theorem length_bytes_ofRun (run : MetadataRun) : (RunDraft.ofRun E run).bytes.length =
    runPrefix + run.removed.length * 4 + run.patch.view.encodedLength := by
  have hremoved : (run.removed.flatMap (leBytes 4)).length = run.removed.length * 4 := by
    rw [List.length_flatMap, List.map_congr_left fun page _ => length_leBytes 4 page]
    simp
  simp only [RunDraft.bytes, RunDraft.ofRun, List.length_append, length_leBytes, hremoved,
    length_bytes_ofView, runPrefix]
  omega

theorem encodeRun_eq_ok {run : MetadataRun} {encoded : Bytes} :
    encodeRun E hash zstd run = .ok encoded ↔
      (run.removed.length ≤ u32Max ∧ Countable run.patch.view) ∧
      runPrefix + run.removed.length * 4 + run.patch.view.encodedLength ≤ viewLimit ∧
      encoded = Envelope.envelope hash zstd runMagic (RunDraft.ofRun E run).bytes := by
  have hraw : leBytes 32 run.parent.hash ++ (leBytes 8 run.parent.txid ++ (leBytes 32 run.root ++
      (leBytes 8 run.spanBegin ++ (leBytes 8 run.spanEnd ++ (leBytes 4 run.removed.length ++
        (run.removed.flatMap (leBytes 4) ++ (Draft.ofView E run.patch.view).bytes)))))) =
      (RunDraft.ofRun E run).bytes := by
    simp only [RunDraft.bytes, RunDraft.ofRun, List.append_assoc]
  simp only [encodeRun, Except.bind_eq_ok, Except.ensure_eq_ok, exists_const, toU32_eq_ok,
    encodeRaw_eq_ok, Except.pure_eq_ok]
  constructor
  · rintro ⟨_, ⟨hremoved, rfl⟩, _, ⟨hpatch, -, rfl⟩, hle, rfl⟩
    rw [hraw] at hle ⊢
    rw [length_bytes_ofRun] at hle
    exact ⟨⟨hremoved, hpatch⟩, hle, rfl⟩
  · rintro ⟨⟨hremoved, hpatch⟩, hle, rfl⟩
    refine ⟨_, ⟨hremoved, rfl⟩, _, ⟨hpatch, by omega, rfl⟩, ?_, ?_⟩
    · rw [hraw, length_bytes_ofRun]
      exact hle
    · rw [hraw]

/-- What the types of the fields of a run allow. -/
structure RunTyped (E : Env) (hash : Bytes → Digest) (run : MetadataRun) : Prop where
  parent : run.parent.hash < 2 ^ 256 ∧ run.parent.txid ≠ 0 ∧ run.parent.txid < 2 ^ 64
  root : run.root < 2 ^ 256
  begin : run.spanBegin ≠ 0
  removed : ∀ page ∈ run.removed, page ≠ 0
  patch : Typed E hash run.patch.view

/-- What the difference of two views says about itself. -/
structure Consistent (E : Env) (run : MetadataRun) : Prop where
  patch : run.patch.view.Valid E ∧ run.patch = run.patch.view.validated
  span : run.spanBegin ≤ run.spanEnd ∧ run.spanEnd = run.patch.view.txid
  ascending : run.removed.Pairwise (· < ·)
  removed : ∀ page ∈ run.removed, page ≤ run.patch.view.size.pages ∧
    run.patch.view.pages[page]? = none

theorem consistent_of_between {source : ValidatedMetadata} {target : ViewMetadata} {run : MetadataRun}
    (h : MetadataRun.between E source target = .ok run) : Consistent E run := by
  obtain ⟨hspan, hvalid, rfl⟩ := MetadataRun.between_eq_ok.mp h
  refine ⟨⟨hvalid, rfl⟩, ⟨hspan, rfl⟩, ?_, fun page hpage => ?_⟩
  · exact List.Pairwise.filter _ (Std.ExtTreeMap.ordered_keys.imp fun h => Nat.compare_eq_lt.mp h)
  · obtain ⟨-, hle, hnone⟩ := MetadataRun.mem_removed.mp hpage
    refine ⟨hle, Option.eq_none_iff_forall_ne_some.mpr fun s hs => ?_⟩
    have := (ViewMetadata.pages_restrict.mp hs).1
    rw [hnone] at this
    cases this

/-- **A run is decoded as it was encoded.** -/
theorem decodeRun_encodeRun {run : MetadataRun} (hrun : Consistent E run) (ht : RunTyped E hash run)
    (hr : Regular run.patch.view) (hdigest : ∀ raw, hash raw < 2 ^ 256) {encoded : Bytes}
    (h : encodeRun E hash zstd run = .ok encoded) : decodeRun E hash zstd encoded = .ok run := by
  obtain ⟨⟨hcount, -⟩, hle, rfl⟩ := encodeRun_eq_ok.mp h
  have hlen : (RunDraft.ofRun E run).bytes.length = _ := length_bytes_ofRun run
  have hopen : Envelope.openEnvelope hash zstd runMagic _ viewLimit = .ok _ :=
    openEnvelope_envelope rfl (hdigest (RunDraft.ofRun E run).bytes) (by rw [hlen]; exact hle)
  have hreadable : (RunDraft.ofRun E run).Readable (RunDraft.ofRun E run).bytes.length := by
    have hpages : run.patch.view.size.pages < u32Max := run.patch.view.size.bounded
    have htxid := ht.patch.txid
    have hspan := hrun.span
    refine ⟨ht.parent, ht.root, ⟨⟨ht.begin, ?_⟩, ⟨?_, ?_⟩, hspan.1⟩, ⟨?_, ?_⟩,
      ⟨hrun.ascending, fun page hpage => ⟨ht.removed page hpage, ?_⟩⟩, ?_⟩
    · show run.spanBegin < 2 ^ 64
      omega
    · show run.spanEnd ≠ 0
      omega
    · show run.spanEnd < 2 ^ 64
      omega
    · show run.removed.length < 2 ^ 32
      unfold u32Max at hcount
      omega
    · show run.removed.length ≤ _
      rw [hlen]
      omega
    · exact lt_of_le_of_lt (hrun.removed page hpage).1 hpages
    · show (Draft.ofView E run.patch.view).bytes.length = _ - run.removed.length * 4
      rw [hlen, length_bytes_ofView]
      omega
  have hdraft : decodeAll (readRun (RunDraft.ofRun E run).bytes.length) StoreError.corrupt
      (RunDraft.ofRun E run).bytes = .ok _ :=
    (exact_readRun _).decodeAll_eq_ok.mpr ⟨hreadable, rfl⟩
  have hpatch := decodeRaw_ofView hrun.patch.1 ht.patch hr
  refine Except.bind_eq_ok.mpr ⟨_, hopen, Except.bind_eq_ok.mpr ⟨_, hdraft,
    Except.bind_eq_ok.mpr ⟨_, hpatch, Except.bind_eq_ok.mpr ⟨(), ?_, ?_⟩⟩⟩⟩
  · refine Except.ensure_eq_ok.mpr ⟨hrun.span.2, fun page hpage => ?_⟩
    obtain ⟨hle, hnone⟩ := hrun.removed page hpage
    refine ⟨hle, ?_⟩
    rw [Std.ExtTreeMap.contains_eq_isSome_getElem?]
    show ¬ run.patch.view.pages[page]?.isSome = true
    rw [hnone]
    simp
  · rw [← hrun.patch.2]
    rfl

theorem decodeRun_eq_ok {run : MetadataRun} {encoded : Bytes}
    (h : decodeRun E hash zstd encoded = .ok run) : Consistent E run := by
  obtain ⟨raw, -, h⟩ := Except.bind_eq_ok.mp h
  obtain ⟨draft, hdraft, h⟩ := Except.bind_eq_ok.mp h
  obtain ⟨patch, hpatch, h⟩ := Except.bind_eq_ok.mp h
  obtain ⟨_, hcheck, h⟩ := Except.bind_eq_ok.mp h
  obtain rfl := Except.pure_eq_ok.mp h
  obtain ⟨hspan, hremoved⟩ := Except.ensure_eq_ok.mp hcheck
  obtain ⟨hreadable, -⟩ := (exact_readRun raw.length).decodeAll_eq_ok.mp hdraft
  obtain ⟨d, -, ⟨hvalid, rfl⟩, -⟩ := decodeRaw_eq_ok.mp hpatch
  refine ⟨⟨hvalid, rfl⟩, ⟨hreadable.span.2.2, hspan⟩, hreadable.removed.1, fun page hpage => ?_⟩
  obtain ⟨hle, hnot⟩ := hremoved page hpage
  refine ⟨hle, ?_⟩
  rw [Std.ExtTreeMap.contains_iff_mem, Std.ExtTreeMap.mem_iff_isSome_getElem?] at hnot
  simpa using hnot

/-! ## What is accepted -/

/-- Pages are mapped to slots that hold them, every frame is used, and no ranges overlap inside a
pack. -/
structure Sound (v : ViewMetadata) : Prop where
  page : ∀ (p : Nat) s, v.pages[p]? = some s → ∃ l version, v.frames[s.frame]? = some l ∧
    l.metadata.pages[s.slot]? = some version ∧ version.page = p
  used : ∀ (id : Digest) l, v.frames[id]? = some l → ∃ (p : Nat) (s : StoredPage),
    v.pages[p]? = some s ∧ s.frame = id
  disjoint : ∀ (id id' : Digest) l l', v.frames[id]? = some l → v.frames[id']? = some l' → id ≠ id' →
    l.pack = l'.pack → l.offset + l.length ≤ l'.offset ∨ l'.offset + l'.length ≤ l.offset

theorem disjoint_of_ranges (h : v.validateFrameRanges = .ok ()) {id id' : Digest}
    {l l' : FrameLocation} (hl : v.frames[id]? = some l) (hl' : v.frames[id']? = some l')
    (hne : id ≠ id') (hpack : l.pack = l'.pack) :
    l.offset + l.length ≤ l'.offset ∨ l'.offset + l'.length ≤ l.offset := by
  have hmem := Std.ExtTreeMap.mem_toList_iff_getElem?_eq_some.mpr hl
  have hmem' := Std.ExtTreeMap.mem_toList_iff_getElem?_eq_some.mpr hl'
  have hpacks : l.pack ∈ v.packs := List.mem_map.mpr ⟨_, hmem, rfl⟩
  have hsorted := ViewMetadata.disjointRanges_iff.mp
    (ViewMetadata.validateFrameRanges_eq_ok.mp h l.pack hpacks)
  -- Disjointness is symmetric, so it holds in the order of the map as well.
  have hranges : (v.ranges l.pack).Pairwise fun a b => a.1 + a.2 ≤ b.1 ∨ b.1 + b.2 ≤ a.1 :=
    ((List.perm_insertionSort _ _).pairwise_iff fun h => h.symm).mp (hsorted.imp fun h => Or.inl h)
  let apart := fun a b : Digest × FrameLocation => a.2.pack = l.pack → b.2.pack = l.pack →
    a.2.offset + a.2.length ≤ b.2.offset ∨ b.2.offset + b.2.length ≤ a.2.offset
  have : Std.Symm apart := ⟨fun a b h hb ha => (h ha hb).symm⟩
  have hentries : v.frames.toList.Pairwise apart :=
    (List.pairwise_filterMap.mp hranges).imp fun h ha hb =>
      h _ (by rw [if_pos ha]) _ (by rw [if_pos hb])
  exact hentries.forall hmem hmem' (fun heq => hne (congrArg Prod.fst heq)) rfl hpack.symm

theorem sound_of_valid (hv : v.Valid E) : Sound v := by
  refine ⟨fun p s hp => ?_, fun id l hl => hv.used id (by simp [hl]),
    fun id id' l l' hl hl' hne hpack => disjoint_of_ranges hv.ranges hl hl' hne hpack⟩
  have hpage := hv.page p s hp
  unfold ViewMetadata.validatePage at hpage
  split at hpage
  · cases hpage
  · rename_i l hl
    split at hpage
    · cases hpage
    · rename_i version hversion
      exact ⟨l, version, hl, hversion, (Except.ensure_eq_ok.mp hpage).1⟩

/-- A view that is decoded has no frame with a page twice and no parent of zeros. -/
theorem regular_of_decodeRaw {raw : Bytes} (h : decodeRaw E hash raw = .ok v.validated) :
    Regular v := by
  obtain ⟨d, ⟨hreadable, -⟩, ⟨-, hval⟩, -⟩ := decodeRaw_eq_ok.mp h
  obtain rfl : v = d.view := congrArg ValidatedMetadata.view hval
  refine ⟨fun id l hl => ?_, fun hparent => ?_⟩
  · exact (hreadable.frames.2.2 _ ((getElem?_collect hreadable.frames.2.1).mp hl)).metadata.distinct
  · have hparent : (if d.parent = 0 then none else some d.parent) = some 0 := hparent
    split at hparent
    · cases hparent
    · rename_i hne
      exact hne (Option.some.inj hparent)

/-- **Manifest records.** The length that validation computes is that of the encoding, which decodes
to the view exactly when no frame holds a page twice (and no seal has an id of zeros); a run between
two views decodes to itself; and what either decoder accepts is valid. -/
theorem manifest_codec {stream : Bytes → Envelope.Stream} (hagree : Envelope.Agree zstd stream)
    (hdigest : ∀ raw, hash raw < 2 ^ 256) :
    (∀ v val, Typed E hash v → v.validate E = .ok val → ∃ raw encoded, encodeRaw E v = .ok raw ∧
      raw.length = val.decodedBytes ∧ (decodeRaw E hash raw = .ok val ↔ Regular v) ∧
      encode E hash zstd v = .ok encoded ∧ (decode E hash stream encoded = .ok val ↔ Regular v)) ∧
    (∀ source target run encoded, MetadataRun.between E source target = .ok run →
      RunTyped E hash run → Regular run.patch.view → encodeRun E hash zstd run = .ok encoded →
      decodeRun E hash zstd encoded = .ok run) ∧
    (∀ encoded val, decode E hash stream encoded = .ok val →
      val.view.validate E = .ok val ∧ Sound val.view) ∧
    ∀ encoded run, decodeRun E hash zstd encoded = .ok run →
      run.patch.view.validate E = .ok run.patch ∧ Sound run.patch.view ∧
        ∀ page ∈ run.removed, run.patch.view.pages[page]? = none := by
  refine ⟨?_, ?_, ?_, ?_⟩
  · intro v val ht hval
    obtain ⟨hv, rfl⟩ := ViewMetadata.validate_eq_ok.mp hval
    have hraw := encodeRaw_of_valid hv ht
    have hround : decodeRaw E hash (Draft.ofView E v).bytes = .ok v.validated ↔ Regular v :=
      ⟨regular_of_decodeRaw, decodeRaw_ofView hv ht⟩
    have hopen : Envelope.openEnvelope hash zstd viewMagic _ viewLimit = .ok _ :=
      openEnvelope_envelope rfl (hdigest (Draft.ofView E v).bytes)
        (by rw [length_bytes_ofView]; exact hv.length)
    refine ⟨_, _, hraw, length_bytes_ofView, hround, by rw [encode, Except.bind_of_ok hraw]; rfl, ?_⟩
    rw [decode_eq_ok hagree, ← hround]
    constructor
    · rintro ⟨raw, hraw', hdecode⟩
      cases hopen.symm.trans hraw'
      exact hdecode
    · exact fun hdecode => ⟨_, hopen, hdecode⟩
  · intro source target run encoded hrun ht hr hencoded
    exact decodeRun_encodeRun (consistent_of_between hrun) ht hr hdigest hencoded
  · intro encoded val h
    obtain ⟨raw, -, hdecode⟩ := (decode_eq_ok hagree).mp h
    obtain ⟨d, -, ⟨hv, rfl⟩, -⟩ := decodeRaw_eq_ok.mp hdecode
    exact ⟨ViewMetadata.validate_eq_ok.mpr ⟨hv, rfl⟩, sound_of_valid hv⟩
  · intro encoded run h
    have hrun := decodeRun_eq_ok h
    exact ⟨ViewMetadata.validate_eq_ok.mpr hrun.patch, sound_of_valid hrun.patch.1,
      fun page hpage => (hrun.removed page hpage).2⟩

section Examples

/-- Codes as hashes, with a short id for one frame. -/
def Env.naming (m : FrameMetadata) : Env :=
  { Env.coded with
    hash := { Hashing.coded with
      frame := fun f => Equiv.swap (Code.code m) 1 (Code.code f)
      frame_injective := (Equiv.injective _).comp Code.injective } }

theorem id_naming (m : FrameMetadata) : m.id (Env.naming m) = 1 := Equiv.swap_apply_left _ _

theorem aligned_onePage : PageSize.smallest.get ∣ 512 := Nat.dvd_refl _

theorem bounded_onePage : 512 / PageSize.smallest.get < u32Max := by decide

/-- A view of one page, in the first slot of a frame. -/
def onePage (m : FrameMetadata) : ViewMetadata where
  database := 0
  lineage := 0
  size := ⟨512, .smallest, aligned_onePage, bounded_onePage⟩
  txid := 1
  history := 0
  parentSeal := none
  frames := (∅ : BTreeMap Digest FrameLocation).insert 1 ⟨0, 0, m.payloadBytes, m⟩
  pages := (∅ : BTreeMap Nat StoredPage).insert 1 ⟨1, 0⟩
  preferred := []

theorem frames_onePage {m : FrameMetadata} {id : Digest} {l : FrameLocation}
    (h : (onePage m).frames[id]? = some l) : id = 1 ∧ l = ⟨0, 0, m.payloadBytes, m⟩ := by
  simp only [onePage, getElem?_insert_eq, Std.ExtTreeMap.getElem?_empty] at h
  split at h
  · rename_i hid
    exact ⟨hid, (Option.some.inj h).symm⟩
  · cases h

theorem typed_onePage {m : FrameMetadata} (hm : m.Formed)
    (hroot : (onePage m).contentRoot (Env.naming m) < 2 ^ 256) :
    Typed (Env.naming m) (fun _ => 1) (onePage m) := by
  have hpos : 0 < 2 ^ 256 := Nat.two_pow_pos 256
  refine ⟨hpos, hpos, ⟨one_ne_zero, show 1 < 2 ^ 64 by decide⟩, hpos, hpos, hroot, by simp [onePage],
    fun id l hl => ?_, fun p s hp => ?_⟩
  · obtain ⟨rfl, rfl⟩ := frames_onePage hl
    refine ⟨show 1 < 2 ^ 256 by decide, hpos, hm, id_naming m, ?_⟩
    have hle := (FrameMetadata.payloadFits_iff.mp hm.payload).1.2
    have hmax : m.shape.decoded ≤ 8 * 1024 * 1024 := m.shape.bounded
    unfold u64Max
    dsimp only
    omega
  · simp only [onePage, getElem?_insert_eq, Std.ExtTreeMap.getElem?_empty] at hp
    split at hp
    · omega
    · cases hp

theorem manifest_codec_onePage : ∃ E v val raw, v.validate E = .ok val ∧ encodeRaw E v = .ok raw ∧
    raw.length = val.decodedBytes ∧ decodeRaw E (fun _ => 1) raw = .ok val := by
  let m := (PackCodec.onesFrame 1 (by decide)).metadata
  have hvalid : ((onePage m).validate (Env.naming m)).toOption.any (fun _ => true) = true := by
    decide +kernel
  obtain ⟨val, hval, -⟩ := Except.exists_of_any hvalid
  have hroot : (onePage m).contentRoot (Env.naming m) < 2 ^ 256 := by decide +kernel
  have ht := typed_onePage (@PackCodec.onesFrame_encoded 1 (by decide)).formed hroot
  have hagree : Envelope.Agree Zstd.stored fun compressed => ⟨compressed, true⟩ :=
    ⟨fun compressed raw => by simp [Zstd.stored]⟩
  have hr : Regular (onePage m) := by
    refine ⟨fun id l hl => ?_, by simp [onePage]⟩
    obtain ⟨-, rfl⟩ := frames_onePage hl
    rw [PackCodec.onesFrame_pages]
    decide
  obtain ⟨raw, _, hraw, hlength, hround, -⟩ :=
    (manifest_codec hagree fun _ => show 1 < 2 ^ 256 by decide).1 _ _ ht hval
  exact ⟨_, _, _, raw, hval, hraw, hlength, hround.mpr hr⟩

/-- A view whose frame holds page 1 twice passes its validation, and its encoding is refused. -/
theorem manifest_codec_duplicate : ∃ E v val raw, Typed E (fun _ => 1) v ∧ v.validate E = .ok val ∧
    encodeRaw E v = .ok raw ∧ decodeRaw E (fun _ => 1) raw ≠ .ok val := by
  let m := (PackCodec.onesFrame 2 (by decide)).metadata
  have hvalid : ((onePage m).validate (Env.naming m)).toOption.any (fun _ => true) = true := by
    decide +kernel
  obtain ⟨val, hval, -⟩ := Except.exists_of_any hvalid
  have hroot : (onePage m).contentRoot (Env.naming m) < 2 ^ 256 := by decide +kernel
  have ht := typed_onePage (@PackCodec.onesFrame_encoded 2 (by decide)).formed hroot
  obtain ⟨hv, rfl⟩ := ViewMetadata.validate_eq_ok.mp hval
  refine ⟨_, _, _, _, ht, hval, encodeRaw_of_valid hv ht, fun h => ?_⟩
  have hdistinct := (regular_of_decodeRaw h).distinct 1 ⟨0, 0, m.payloadBytes, m⟩ (by
    simp [onePage])
  rw [PackCodec.onesFrame_pages] at hdistinct
  exact absurd hdistinct (by decide)

end Examples

end ManifestCodec

end Zsqlite
