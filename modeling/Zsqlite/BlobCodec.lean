import Zsqlite.PackCodec
import Zsqlite.Placement

set_option autoImplicit false

/-! # Blobs as bytes

A blob (`placement.rs`) holds complete packs one after another, between a header of 32 bytes and a
footer: an index of the packs in the order of their ids, the hash of the index, the offset of the
footer and a closing text. The id of a blob covers the index and the length only; what it says about
the content follows from the ids of the packs.

`contents` is the layout of a list of packs. The writer, whose object may take any part of what it is
given, writes that layout (`writeBlob_eq_ok`); `authenticate` accepts the layouts of authentic packs,
and nothing else (`authenticate_eq_ok`).
-/

namespace Zsqlite

open ByteVec Wire

/-- Lengths are 64 bits wide. -/
def BlobExtent.new (blob : Digest) (offset length blobLength packLength : Nat) :
    Except StoreError BlobExtent :=
  if h : length ≠ 0 ∧ length = packLength ∧ offset + length ≤ blobLength ∧ blobLength ≤ u64Max then
    .ok ⟨blob, offset, length, blobLength, h.1, h.2.2.1, h.2.2.2⟩
  else .error .value

theorem BlobExtent.new_eq_ok {blob : Digest} {offset length blobLength packLength : Nat}
    {e : BlobExtent} : BlobExtent.new blob offset length blobLength packLength = .ok e ↔
      length = packLength ∧ e.blob = blob ∧ e.offset = offset ∧ e.length = length ∧
        e.blobLength = blobLength := by
  unfold BlobExtent.new
  split
  · rename_i h
    rw [Except.ok.injEq]
    constructor
    · rintro rfl
      exact ⟨h.2.1, rfl, rfl, rfl, rfl⟩
    · rintro ⟨-, rfl, rfl, rfl, rfl⟩
      rfl
  · rename_i h
    simp only [reduceCtorEq, false_iff]
    rintro ⟨hpack, rfl, rfl, rfl, rfl⟩
    exact h ⟨e.nonempty, hpack, e.within, e.bounded⟩

namespace BlobCodec

variable (hash : Bytes → Digest) (crc : Bytes → UInt32)

/-- `ZBLOB001` -/
def blobMagic : Bytes := [0x5a, 0x42, 0x4c, 0x4f, 0x42, 0x30, 0x30, 0x31]

/-- `ZBINDEX1` -/
def indexMagic : Bytes := [0x5a, 0x42, 0x49, 0x4e, 0x44, 0x45, 0x58, 0x31]

/-- `ZBEND001` -/
def endMagic : Bytes := [0x5a, 0x42, 0x45, 0x4e, 0x44, 0x30, 0x30, 0x31]

/-- The text `zsqlite/blob/v1` and a zero byte. -/
def blobDomain : Bytes :=
  [0x7a, 0x73, 0x71, 0x6c, 0x69, 0x74, 0x65, 0x2f, 0x62, 0x6c, 0x6f, 0x62, 0x2f, 0x76, 0x31, 0x00]

def blobHeaderSize : Nat := 32

def blobHeader : Bytes := blobMagic ++ zeros 24

def blobIdentity (footer : Bytes) (length : Nat) : Digest :=
  hash (blobDomain ++ footer ++ leBytes 8 length)

/-- Ids are compared as arrays of bytes, that is as numbers with the first byte in front. -/
def rank (id : Digest) : Nat := leNat (leBytes 32 id).reverse

/-! ## The index -/

/-- A pack with its offset and its length. -/
abbrev Place := Digest × Nat × Nat

def placeBytes (place : Place) : Bytes :=
  leBytes 32 place.1 ++ leBytes 8 place.2.1 ++ leBytes 8 place.2.2

def indexBytes (places : List Place) : Bytes :=
  indexMagic ++ leBytes 4 places.length ++ places.flatMap placeBytes

/-- The order in which a map from pack ids is walked through. -/
def byId {α : Type} (entries : List (Digest × α)) : List (Digest × α) :=
  entries.insertionSort fun a b => rank a.1 ≤ rank b.1

/-- The extent of a place in a blob. -/
def extentOf (blob : Digest) (total : Nat) (place : Place) :
    Except StoreError (Digest × BlobExtent) := do
  return (place.1, ← BlobExtent.new blob place.2.1 place.2.2 total place.2.2)

/-! ## The writer -/

/-- What the adapter does with an object: `accept n k` is the number of bytes that it takes of the `k`
bytes of call `n`. -/
structure Sink where
  accept : Nat → Nat → Option Nat
  finish : Digest → Nat → Except StoreError Unit

structure Staging where
  bytes : Bytes
  calls : Nat

def Staging.write (sink : Sink) (s : Staging) (bytes : Bytes) : Except StoreError (Nat × Staging) :=
  match sink.accept s.calls bytes.length with
  | none => .error .io
  | some n =>
      let n := min n bytes.length
      .ok (n, ⟨s.bytes ++ bytes.take n, s.calls + 1⟩)

/-- `write_all`: write again what was not taken. -/
def writeAll {σ : Type} (write : σ → Bytes → Except StoreError (Nat × σ)) (s : σ) (bytes : Bytes) :
    Except StoreError σ :=
  if bytes = [] then .ok s
  else
    match write s bytes with
    | .error e => .error e
    | .ok (n, t) => if n = 0 then .error .io else writeAll write t (bytes.drop n)
termination_by bytes.length
decreasing_by
  have := List.length_pos_iff.mpr ‹bytes ≠ []›
  rw [List.length_drop]
  omega

structure BlobWriter where
  staging : Staging
  offset : Nat
  ranges : BTreeMap Digest (Nat × Nat)

namespace BlobWriter

variable (sink : Sink)

def new : Except StoreError BlobWriter := do
  let staging ← writeAll (Staging.write sink) ⟨[], 0⟩ blobHeader
  return ⟨staging, blobHeaderSize, ∅⟩

def write (w : BlobWriter) (bytes : Bytes) : Except StoreError (Nat × BlobWriter) := do
  Except.ensure (w.offset + bytes.length ≤ u64Max) .io
  let (written, staging) ← w.staging.write sink bytes
  return (written, { w with staging, offset := w.offset + written })

def completePack (w : BlobWriter) (pack : Digest) (start : Nat) : Except StoreError BlobWriter := do
  Except.ensure (w.ranges.size < 4096 ∧ ¬ w.ranges.contains pack ∧ start < w.offset) .range
  return { w with ranges := w.ranges.insert pack (start, w.offset - start) }

/-- The id, the extents, and the bytes of the object. -/
def finish (w : BlobWriter) : Except StoreError (Digest × BTreeMap Digest BlobExtent × Bytes) := do
  Except.ensure (w.ranges.size ≠ 0) .range
  let count ← toU32 w.ranges.size
  let ranges := byId w.ranges.toList
  let footer := indexMagic ++ leBytes 4 count ++ ranges.flatMap placeBytes
  let length ← checkedAdd w.offset (footer.length + 48)
  let blob := blobIdentity hash footer length
  let done ← writeAll (write sink) w (footer ++ leBytes 32 (hash footer))
  let done ← writeAll (write sink) done (leBytes 8 w.offset)
  let done ← writeAll (write sink) done endMagic
  sink.finish blob length
  let extents ← ranges.mapM (extentOf blob length)
  return (blob, extents.foldl (fun found e => found.insert e.1 e.2) ∅, done.staging.bytes)

end BlobWriter

/-- A pack that arrives in pieces. -/
def addPack (sink : Sink) (w : BlobWriter) (pack : Digest × List Bytes) :
    Except StoreError BlobWriter := do
  let start := w.offset
  let w ← pack.2.foldlM (writeAll (BlobWriter.write sink)) w
  w.completePack pack.1 start

def writeBlob (sink : Sink) (packs : List (Digest × List Bytes)) :
    Except StoreError (Digest × BTreeMap Digest BlobExtent × Bytes) := do
  let w ← BlobWriter.new sink
  let w ← packs.foldlM (addPack sink) w
  w.finish hash sink

/-! ## The reader -/

def readPlace : Parser StoreError Place := do
  let pack ← array
  let offset ← u64
  let length ← u64
  return (pack, offset, length)

def entry (blob : Digest) (total : Nat) : Parser StoreError (Digest × BlobExtent) := do
  check (extentOf blob total (← readPlace))

/-- The checks of an entry, with the id before it. -/
def admitEntry (bytes : Bytes) (footerOffset : Nat) (previous : Option Digest)
    (e : Digest × BlobExtent) : Except StoreError (Option Digest) := do
  Except.ensure (blobHeaderSize ≤ e.2.offset ∧ e.2.offset + e.2.length ≤ footerOffset ∧
    ∀ id ∈ previous, rank id < rank e.1) (.corrupt 0)
  let (derived, _) ← PackCodec.copy hash crc true (window bytes e.2.offset e.2.length) e.2.length
  Except.ensure (derived = e.1) (.corrupt 0)
  return some e.1

def index (blob : Digest) (bytes : Bytes) (footerOffset : Nat) :
    Parser StoreError (List (Digest × BlobExtent)) := do
  magic indexMagic
  let count ← u32
  check (Except.ensure (count ≠ 0 ∧ count ≤ 4096) .range)
  many (entry blob bytes.length) (admitEntry hash crc bytes footerOffset) count none

/-- One extent after another. -/
def tile (stop : Nat) (e : BlobExtent) : Except StoreError Nat := do
  Except.ensure (e.offset = stop) (.corrupt 0)
  return stop + e.length

/-- The offset of the footer, and the index it starts with. -/
def openFooter (bytes : Bytes) : Except StoreError (Nat × Bytes) := do
  Except.ensure (92 ≤ bytes.length ∧ window bytes 0 8 = blobMagic ∧ window bytes 8 24 = zeros 24)
    (.corrupt 0)
  let footerOffset := leNat (window bytes (bytes.length - 16) 8)
  Except.ensure (window bytes (bytes.length - 8) 8 = endMagic ∧ blobHeaderSize ≤ footerOffset)
    (.corrupt 0)
  Except.ensure (footerOffset ≤ bytes.length - 16) .range
  let footer := window bytes footerOffset (bytes.length - 16 - footerOffset)
  let listed := footer.take (footer.length - 32)
  Except.ensure (44 ≤ footer.length ∧ leBytes 32 (hash listed) = footer.drop (footer.length - 32))
    (.corrupt 0)
  return (footerOffset, listed)

def authenticate (blob : Digest) (bytes : Bytes) : Except StoreError (BTreeMap Digest BlobExtent) := do
  let (footerOffset, listed) ← openFooter hash bytes
  Except.ensure (blobIdentity hash listed bytes.length = blob) (.corrupt 0)
  let entries ← decodeAll (index hash crc blob bytes footerOffset) .corrupt listed
  let extents : BTreeMap Digest BlobExtent := entries.foldl (fun found e => found.insert e.1 e.2) ∅
  let ordered := (extents.toList.map Prod.snd).insertionSort fun a b => a.offset ≤ b.offset
  let stop ← ordered.foldlM tile blobHeaderSize
  Except.ensure (stop = footerOffset) (.corrupt 0)
  return extents

/-! ## The layout -/

/-- A pack: its id and its bytes. -/
abbrev Item := Digest × Bytes

/-- Where packs lie that follow each other from `start` on. -/
def places : Nat → List Item → List Place
  | _, [] => []
  | start, item :: items => (item.1, start, item.2.length) :: places (start + item.2.length) items

/-- Packs between the header and the footer of an index. -/
def frame (packs listed : Bytes) : Bytes :=
  blobHeader ++ (packs ++ (listed ++ (leBytes 32 (hash listed) ++
    (leBytes 8 (blobHeaderSize + packs.length) ++ endMagic))))

/-- The index of packs. -/
def listing (items : List Item) : Bytes := indexBytes (byId (places blobHeaderSize items))

def contents (items : List Item) : Bytes := frame hash (items.flatMap Prod.snd) (listing items)

def blobId (items : List Item) : Digest :=
  blobIdentity hash (listing items) (contents hash items).length

/-- Distinct complete packs, up to the limit, in a blob of a possible length. -/
structure Admissible (items : List Item) : Prop where
  nonempty : items ≠ []
  count : items.length ≤ 4096
  distinct : (items.map Prod.fst).Nodup
  authentic : ∀ item ∈ items, PackCodec.copy hash crc true item.2 item.2.length = .ok item
  bounded : (contents hash items).length ≤ u64Max

/-- The extents of the places in a blob. -/
def Extents (blob : Digest) (total : Nat) (places : List Place)
    (extents : BTreeMap Digest BlobExtent) : Prop :=
  ∀ (pack : Digest) (e : BlobExtent), extents[pack]? = some e ↔
    (pack, e.offset, e.length) ∈ places ∧ e.blob = blob ∧ e.blobLength = total

variable {hash crc}

/-! ### Order -/

theorem rank_injective {a b : Digest} (ha : a < 2 ^ 256) (hb : b < 2 ^ 256) (h : rank a = rank b) :
    a = b := by
  have hlen : (leBytes 32 a).reverse.length = (leBytes 32 b).reverse.length := by simp
  have hreverse : (leBytes 32 a).reverse = (leBytes 32 b).reverse := by
    rw [← leBytes_leNat (leBytes 32 a).reverse, ← leBytes_leNat (leBytes 32 b).reverse, hlen]
    exact congrArg _ h
  exact leBytes_injective ha hb (List.reverse_injective hreverse)

section Order

variable {α : Type} {l l' : List (Digest × α)}

theorem perm_byId (l : List (Digest × α)) : (byId l).Perm l := List.perm_insertionSort _ l

theorem pairwise_byId (l : List (Digest × α)) :
    (byId l).Pairwise fun a b => rank a.1 ≤ rank b.1 := by
  have : Std.Total fun a b : Digest × α => rank a.1 ≤ rank b.1 := ⟨fun a b => Nat.le_total _ _⟩
  have : IsTrans (Digest × α) fun a b => rank a.1 ≤ rank b.1 := ⟨fun _ _ _ => Nat.le_trans⟩
  exact List.pairwise_insertionSort _ l

/-- Entries of distinct packs have one order. -/
theorem eq_byId (hperm : l.Perm l') (hl : l.Pairwise fun a b => rank a.1 < rank b.1) :
    l = byId l' := by
  refine List.Perm.eq_of_pairwise (fun a b ha hb hab hba => ?_) (hl.imp fun h => Nat.le_of_lt h)
    (pairwise_byId l') (hperm.trans (perm_byId l').symm)
  have hb : b ∈ l := hperm.mem_iff.mpr ((perm_byId l').mem_iff.mp hb)
  have hnodup : (l.map fun e => rank e.1).Nodup :=
    List.pairwise_map.mpr (hl.imp fun h => Nat.ne_of_lt h)
  exact List.inj_on_of_nodup_map hnodup ha hb (Nat.le_antisymm hab hba)

/-- Distinct ids stand in strictly ascending order. -/
theorem strict_byId (hids : ∀ e ∈ l, e.1 < 2 ^ 256) (hl : (l.map Prod.fst).Nodup) :
    (byId l).Pairwise fun a b => rank a.1 < rank b.1 := by
  have hnodup : ((byId l).map Prod.fst).Nodup := ((perm_byId l).map _).nodup_iff.mpr hl
  have hne : (byId l).Pairwise fun a b => a.1 ≠ b.1 := List.pairwise_map.mp hnodup
  refine ((pairwise_byId l).and hne).imp_of_mem fun {a b} ha hb h => ?_
  have hmem := fun e (he : e ∈ byId l) => hids e ((perm_byId l).mem_iff.mp he)
  exact Nat.lt_of_le_of_ne h.1 fun heq => h.2 (rank_injective (hmem a ha) (hmem b hb) heq)

/-- A map filled with entries of distinct ids. -/
theorem getElem?_inserts (hl : (l.map Prod.fst).Nodup) {pack : Digest} {x : α} :
    (l.foldl (fun found e => found.insert e.1 e.2) (∅ : BTreeMap Digest α))[pack]? = some x ↔
      (pack, x) ∈ l := by
  have key : ∀ (l : List (Digest × α)) (found : BTreeMap Digest α), (l.map Prod.fst).Nodup →
      ((l.foldl (fun found e => found.insert e.1 e.2) found)[pack]? = some x ↔
        (pack, x) ∈ l ∨ pack ∉ l.map Prod.fst ∧ found[pack]? = some x) := by
    intro l
    induction l with
    | nil => simp
    | cons e l ih =>
        intro found hl
        obtain ⟨hnot, hl⟩ := List.nodup_cons.mp hl
        rw [List.foldl_cons, ih _ hl, getElem?_insert_eq]
        by_cases he : e.1 = pack
        · subst he
          have hnone : (e.1, x) ∉ l := fun h => hnot (List.mem_map.mpr ⟨_, h, rfl⟩)
          simp only [hnone, false_or, hnot, not_false_eq_true, true_and, if_true, List.mem_cons,
            List.map_cons, not_true_eq_false, false_and, or_false, Option.some.injEq]
          exact ⟨fun h => by rw [← h], fun h => (congrArg Prod.snd h).symm⟩
        · have hne : (pack, x) ≠ e := fun h => he (congrArg Prod.fst h).symm
          have hne' : pack ≠ e.1 := fun h => he h.symm
          simp [hne, hne']
  rw [key l ∅ hl]
  simp

/-- The entries of a map, up to their order. -/
theorem perm_toList {m : BTreeMap Digest α} (hl : (l.map Prod.fst).Nodup)
    (h : ∀ (pack : Digest) (x : α), m[pack]? = some x ↔ (pack, x) ∈ l) : m.toList.Perm l := by
  refine (List.perm_ext_iff_of_nodup ?_ (List.Nodup.of_map _ hl)).mpr fun ⟨pack, x⟩ => ?_
  · exact Std.ExtTreeMap.distinct_keys_toList.imp fun hne heq => hne (by rw [heq]; simp)
  · rw [Std.ExtTreeMap.mem_toList_iff_getElem?_eq_some, h]

end Order

/-! ### Entries -/

/-- The place of an extent. -/
def place (e : Digest × BlobExtent) : Place := (e.1, e.2.offset, e.2.length)

theorem extentOf_eq_ok {blob : Digest} {total : Nat} {p : Place} {e : Digest × BlobExtent} :
    extentOf blob total p = .ok e ↔ (e.2.blob = blob ∧ e.2.blobLength = total) ∧ p = place e := by
  obtain ⟨pack, offset, length⟩ := p
  obtain ⟨pack', extent⟩ := e
  simp only [extentOf, Except.bind_eq_ok, BlobExtent.new_eq_ok, Except.pure_eq_ok, Prod.mk.injEq,
    place]
  constructor
  · rintro ⟨extent, ⟨-, hblob, rfl, rfl, htotal⟩, rfl, rfl⟩
    exact ⟨⟨hblob, htotal⟩, rfl, rfl, rfl⟩
  · rintro ⟨⟨hblob, htotal⟩, rfl, rfl, rfl⟩
    exact ⟨extent, ⟨trivial, hblob, rfl, rfl, htotal⟩, rfl, rfl⟩

theorem exact_readPlace : Exact readPlace placeBytes
    (fun p => p.1 < 2 ^ 256 ∧ p.2.1 < 2 ^ 64 ∧ p.2.2 < 2 ^ 64) := by
  -- From the last field to the first.
  have hlength := fun (pack : Digest) (offset : Nat) => exact_u64.bind (fun p : Place => p.2.2)
    (fun length _ => Exact.pure (pack, offset, length)) fun _ _ h => by rw [h]
  have hoffset := fun (pack : Digest) => exact_u64.bind (fun p : Place => p.2.1)
    (fun offset _ => hlength pack offset) fun _ _ h => by rw [h.2]
  have hpack := exact_array.bind (fun p : Place => p.1) (fun pack _ => hoffset pack)
    fun _ _ h => by rw [h.2.2]
  refine hpack.congr (fun p => ?_) fun p _ => by simp [placeBytes]
  constructor
  · rintro ⟨hpack, hoffset, hlength, -⟩
    exact ⟨hpack, hoffset, hlength⟩
  · rintro ⟨hpack, hoffset, hlength⟩
    exact ⟨hpack, hoffset, hlength, rfl⟩

theorem exact_entry (blob : Digest) (total : Nat) :
    Exact (entry blob total) (fun e => placeBytes (place e))
      (fun e => e.1 < 2 ^ 256 ∧ e.2.blob = blob ∧ e.2.blobLength = total) := by
  refine (exact_readPlace.convert place fun _ _ => extentOf_eq_ok).congr (fun e => ?_) fun _ _ => rfl
  have hwithin := e.2.within
  have hbounded := e.2.bounded
  have hoffset : e.2.offset < 2 ^ 64 ∧ e.2.length < 2 ^ 64 := by
    unfold u64Max at hbounded
    omega
  exact ⟨fun h => ⟨h.1.1, h.2⟩, fun h => ⟨⟨h.1, hoffset⟩, h.2⟩⟩

/-- An entry that passes its checks: its extent lies before the footer and holds its pack. -/
structure Good (hash : Bytes → Digest) (crc : Bytes → UInt32) (bytes : Bytes) (footerOffset : Nat)
    (e : Digest × BlobExtent) : Prop where
  start : blobHeaderSize ≤ e.2.offset
  stop : e.2.offset + e.2.length ≤ footerOffset
  pack : ∃ output, PackCodec.copy hash crc true (window bytes e.2.offset e.2.length) e.2.length =
    .ok (e.1, output)

variable {bytes : Bytes} {footerOffset : Nat}

theorem admitEntry_eq_ok {previous next : Option Digest} {e : Digest × BlobExtent} :
    admitEntry hash crc bytes footerOffset previous e = .ok next ↔
      Good hash crc bytes footerOffset e ∧ (∀ id ∈ previous, rank id < rank e.1) ∧
        next = some e.1 := by
  simp only [admitEntry, Except.bind_eq_ok, Except.ensure_eq_ok, exists_const, Except.pure_eq_ok]
  constructor
  · rintro ⟨⟨hstart, hstop, hprevious⟩, ⟨derived, output⟩, hcopy, rfl, rfl⟩
    exact ⟨⟨hstart, hstop, output, hcopy⟩, hprevious, rfl⟩
  · rintro ⟨⟨hstart, hstop, output, hcopy⟩, hprevious, rfl⟩
    exact ⟨⟨hstart, hstop, hprevious⟩, (e.1, output), hcopy, rfl, rfl⟩

/-- The entries pass one by one, in strictly ascending order. -/
theorem admits {l : List (Digest × BlobExtent)} {previous : Option Digest} :
    (∃ final, l.foldlM (admitEntry hash crc bytes footerOffset) previous = .ok final) ↔
      (∀ e ∈ l, Good hash crc bytes footerOffset e) ∧
        l.Pairwise (fun a b => rank a.1 < rank b.1) ∧
          ∀ id ∈ previous, ∀ e ∈ l, rank id < rank e.1 := by
  induction l generalizing previous with
  | nil => simpa using ⟨previous, rfl⟩
  | cons e l ih =>
      simp only [List.foldlM_cons, Except.bind_eq_ok, admitEntry_eq_ok]
      constructor
      · rintro ⟨final, _, ⟨hgood, hprevious, rfl⟩, hrest⟩
        obtain ⟨hall, hpairs, hfirst⟩ := ih.mp ⟨final, hrest⟩
        have hfirst := hfirst e.1 rfl
        refine ⟨?_, List.pairwise_cons.mpr ⟨hfirst, hpairs⟩, fun id hid => ?_⟩
        · rintro a (_ | ⟨_, ha⟩)
          · exact hgood
          · exact hall a ha
        · rintro a (_ | ⟨_, ha⟩)
          · exact hprevious id hid
          · exact (hprevious id hid).trans (hfirst a ha)
      · rintro ⟨hall, hpairs, hprevious⟩
        obtain ⟨hfirst, hpairs⟩ := List.pairwise_cons.mp hpairs
        obtain ⟨final, hfinal⟩ := ih.mpr ⟨fun a ha => hall a (List.mem_cons_of_mem _ ha), hpairs,
          fun id hid a ha => Option.some.inj hid ▸ hfirst a ha⟩
        exact ⟨final, some e.1, ⟨hall e List.mem_cons_self,
          fun id hid => hprevious id hid e List.mem_cons_self, rfl⟩, hfinal⟩

theorem exact_index (blob : Digest) : Exact (index hash crc blob bytes footerOffset)
    (fun l => indexBytes (l.map place))
    (fun l => (l.length ≠ 0 ∧ l.length ≤ 4096) ∧
      (∀ e ∈ l, e.1 < 2 ^ 256 ∧ e.2.blob = blob ∧ e.2.blobLength = bytes.length) ∧
      (∀ e ∈ l, Good hash crc bytes footerOffset e) ∧
      l.Pairwise fun a b => rank a.1 < rank b.1) := by
  have hmany := fun count : Nat => Exact.ensure (P := count ≠ 0 ∧ count ≤ 4096)
    (e := StoreError.range) fun _ => (exact_entry blob bytes.length).many
      (admitEntry hash crc bytes footerOffset) count none
  have hcount := exact_u32.bind (fun l : List (Digest × BlobExtent) => l.length)
    (fun count _ => hmany count) fun _ _ h => h.2.1
  have h := (exact_magic indexMagic).bind (fun _ => ()) (fun _ _ => hcount) fun _ _ _ => rfl
  refine h.congr (fun l => ?_) fun l _ => ?_
  · simp only [true_and, admits]
    constructor
    · rintro ⟨-, hlen, hall, hgood, hpairs, -⟩
      exact ⟨hlen, hall, hgood, hpairs⟩
    · rintro ⟨hlen, hall, hgood, hpairs⟩
      exact ⟨by omega, hlen, hall, hgood, hpairs, by simp⟩
  · simp [indexBytes, List.flatMap_map]

/-! ### Places -/

theorem map_fst_places (start : Nat) (items : List Item) :
    (places start items).map Prod.fst = items.map Prod.fst := by
  induction items generalizing start with
  | nil => rfl
  | cons item items ih => simp [places, ih]

theorem length_places (start : Nat) (items : List Item) :
    (places start items).length = items.length := by
  simpa using congrArg List.length (map_fst_places start items)

theorem places_append (start : Nat) (items items' : List Item) :
    places start (items ++ items') =
      places start items ++ places (start + (items.flatMap Prod.snd).length) items' := by
  induction items generalizing start with
  | nil => rfl
  | cons item items ih =>
      rw [List.cons_append, places, ih, places, List.cons_append, List.flatMap_cons,
        List.length_append, Nat.add_assoc]

/-- A place is that of a pack, within the bytes from `start` on. -/
theorem at_of_mem_places {start : Nat} {items : List Item} {p : Place} (hp : p ∈ places start items)
    (hat : At bytes start (items.flatMap Prod.snd)) :
    start ≤ p.2.1 ∧ p.2.1 + p.2.2 ≤ start + (items.flatMap Prod.snd).length ∧
      ∃ b, (p.1, b) ∈ items ∧ b.length = p.2.2 ∧ At bytes p.2.1 b := by
  induction items generalizing start with
  | nil => cases hp
  | cons item items ih =>
      rw [List.flatMap_cons] at hat ⊢
      rw [List.length_append]
      obtain ⟨hfirst, hrest⟩ := at_append.mp hat
      rcases List.mem_cons.mp hp with rfl | hp
      · exact ⟨le_rfl, by simp, item.2, List.mem_cons_self, rfl, hfirst⟩
      · obtain ⟨hstart, hstop, b, hb, hlen, hatb⟩ := ih hp hrest
        exact ⟨by omega, by omega, b, List.mem_cons_of_mem _ hb, hlen, hatb⟩

theorem le_of_mem_places {start : Nat} {items : List Item} {p : Place}
    (hp : p ∈ places start items) : start ≤ p.2.1 := by
  induction items generalizing start with
  | nil => cases hp
  | cons item items ih =>
      rcases List.mem_cons.mp hp with rfl | hp
      · exact le_rfl
      · exact (Nat.le_add_right _ _).trans (ih hp)

/-- Packs are not empty, so their offsets ascend. -/
theorem pairwise_places {start : Nat} {items : List Item} (hitems : ∀ item ∈ items, item.2 ≠ []) :
    (places start items).Pairwise fun a b => a.2.1 < b.2.1 := by
  induction items generalizing start with
  | nil => exact .nil
  | cons item items ih =>
      have hpos := List.length_pos_iff.mpr (hitems item List.mem_cons_self)
      refine List.pairwise_cons.mpr ⟨fun p hp => ?_,
        ih fun i hi => hitems i (List.mem_cons_of_mem _ hi)⟩
      have hle := le_of_mem_places hp
      dsimp only
      omega

/-- Places with distinct offsets have one order. -/
theorem eq_of_offsets {p q : List Place} (hperm : p.Perm q)
    (hp : p.Pairwise fun a b => a.2.1 ≤ b.2.1) (hq : q.Pairwise fun a b => a.2.1 < b.2.1) :
    p = q := by
  have hnodup : (q.map fun e => e.2.1).Nodup :=
    List.pairwise_map.mpr (hq.imp fun h => Nat.ne_of_lt h)
  refine List.Perm.eq_of_pairwise (fun a b ha hb hab hba => ?_) hp
    (hq.imp fun h => Nat.le_of_lt h) hperm
  exact List.inj_on_of_nodup_map hnodup (hperm.mem_iff.mp ha) hb (Nat.le_antisymm hab hba)

/-! ### Tiles -/

theorem At.window_eq {v b : Bytes} {offset : Nat} (h : At v offset b) :
    window v offset b.length = b :=
  (at_window h.1).eq h (length_window _ _ _)

theorem at_of_window {v b : Bytes} {offset n : Nat} (h : window v offset n = b)
    (hn : offset + n ≤ v.length) : At v offset b := h ▸ at_window hn

/-- The pack that an extent of `bytes` holds. -/
def itemOf (bytes : Bytes) (e : Digest × BlobExtent) : Item :=
  (e.1, window bytes e.2.offset e.2.length)

/-- Extents tile the space when they lie where packs lie that follow each other. -/
theorem tile_eq_ok (bytes : Bytes) {l : List (Digest × BlobExtent)} {start stop : Nat} :
    (l.map Prod.snd).foldlM tile start = .ok stop ↔
      l.map place = places start (l.map (itemOf bytes)) ∧
        stop = start + ((l.map (itemOf bytes)).flatMap Prod.snd).length := by
  induction l generalizing start with
  | nil =>
      simp only [List.map_nil, List.foldlM_nil, Except.pure_eq_ok, places, List.flatMap_nil,
        List.length_nil, Nat.add_zero, true_and]
  | cons e l ih =>
      simp only [List.map_cons, List.foldlM_cons, tile, Except.bind_eq_ok, Except.ensure_eq_ok,
        exists_const, Except.pure_eq_ok, ih, places, List.flatMap_cons,
        List.length_append, List.cons.injEq, place, itemOf, Prod.mk.injEq, length_window]
      constructor
      · rintro ⟨_, ⟨rfl, rfl⟩, hplaces, rfl⟩
        exact ⟨⟨⟨trivial, rfl, trivial⟩, hplaces⟩, by omega⟩
      · rintro ⟨⟨⟨-, rfl, -⟩, hplaces⟩, rfl⟩
        exact ⟨_, ⟨rfl, rfl⟩, hplaces, by omega⟩

/-- What the extents of packs hold. -/
theorem items_of_places {l : List (Digest × BlobExtent)} {items : List Item} {start : Nat}
    (h : l.map place = places start items) (hat : At bytes start (items.flatMap Prod.snd)) :
    l.map (itemOf bytes) = items := by
  induction items generalizing l start with
  | nil => simpa [places] using h
  | cons item items ih =>
      obtain ⟨e, l, rfl, he, hl⟩ := List.map_eq_cons_iff.mp h
      rw [List.flatMap_cons] at hat
      obtain ⟨hfirst, hrest⟩ := at_append.mp hat
      simp only [place, Prod.mk.injEq] at he
      obtain ⟨hid, hoffset, hlength⟩ := he
      have hitem : itemOf bytes e = item := by
        rw [itemOf, hid, hoffset, hlength, At.window_eq hfirst]
      rw [List.map_cons, ih hl hrest, hitem]

/-- The packs of a tiling stand one after another. -/
theorem at_items {l : List (Digest × BlobExtent)} {start : Nat}
    (h : l.map place = places start (l.map (itemOf bytes)))
    (hwithin : ∀ e ∈ l, e.2.offset + e.2.length ≤ bytes.length) (hstart : start ≤ bytes.length) :
    At bytes start ((l.map (itemOf bytes)).flatMap Prod.snd) := by
  induction l generalizing start with
  | nil => simpa [At] using hstart
  | cons e l ih =>
      simp only [List.map_cons, places, List.cons.injEq, place, itemOf, Prod.mk.injEq,
        length_window] at h
      obtain ⟨⟨-, rfl, -⟩, h⟩ := h
      have hle := hwithin e List.mem_cons_self
      rw [List.map_cons, List.flatMap_cons]
      refine at_append.mpr ⟨at_window hle, ?_⟩
      rw [itemOf, length_window]
      exact ih h (fun e he => hwithin e (List.mem_cons_of_mem _ he)) hle

/-! ### The frame -/

theorem length_blobHeader : blobHeader.length = blobHeaderSize := by
  simp [blobHeader, blobMagic, blobHeaderSize]

theorem length_frame (packs listed : Bytes) :
    (frame hash packs listed).length = packs.length + listed.length + 80 := by
  simp only [frame, List.length_append, length_blobHeader, length_leBytes, blobHeaderSize, endMagic,
    List.length_cons, List.length_nil]
  omega

/-- The parts of a framed blob. -/
theorem at_frame {packs listed : Bytes} (hlen : bytes.length = packs.length + listed.length + 80) :
    bytes = frame hash packs listed ↔ At bytes 0 blobHeader ∧ At bytes 32 packs ∧
      At bytes (32 + packs.length) listed ∧
      At bytes (32 + packs.length + listed.length) (leBytes 32 (hash listed)) ∧
      At bytes (bytes.length - 16) (leBytes 8 (32 + packs.length)) ∧
      At bytes (bytes.length - 8) endMagic := by
  have hwhole : bytes = frame hash packs listed ↔ At bytes 0 (frame hash packs listed) := by
    constructor
    · intro h
      exact h ▸ at_self _
    · intro h
      exact (at_self bytes).eq h (hlen.trans (length_frame packs listed).symm)
  have htail : bytes.length - 16 = 32 + packs.length + listed.length + 32 := by omega
  have hend : bytes.length - 8 = 32 + packs.length + listed.length + 32 + 8 := by omega
  rw [hwhole, frame, at_append, at_append, at_append, at_append, at_append, length_blobHeader,
    length_leBytes, length_leBytes, htail, hend, blobHeaderSize, Nat.zero_add]

theorem openFooter_eq_ok {listed : Bytes} (hbytes : bytes.length ≤ u64Max) :
    openFooter hash bytes = .ok (footerOffset, listed) ↔ 12 ≤ listed.length ∧
      ∃ packs, footerOffset = 32 + packs.length ∧ bytes = frame hash packs listed := by
  simp only [openFooter, Except.bind_eq_ok, Except.ensure_eq_ok, exists_const, Except.pure_eq_ok,
    Prod.mk.injEq, length_window]
  constructor
  · rintro ⟨⟨hmin, hmagic, hzeros⟩, ⟨hend, hstart⟩, hoffset, ⟨hfooter, hhash⟩, hoff, hlisted⟩
    rw [← hoff] at hstart hoffset hfooter hhash hlisted
    rw [← hlisted] at hhash
    have hat : At bytes footerOffset (window bytes footerOffset (bytes.length - 16 - footerOffset)) :=
      at_window (by omega)
    rw [← List.take_append_drop (bytes.length - 16 - footerOffset - 32) (window bytes footerOffset _),
      ← hlisted, ← hhash] at hat
    have htake : listed.length = bytes.length - 16 - footerOffset - 32 := by
      rw [hlisted, List.length_take, length_window]
      omega
    obtain ⟨hlisted, hdigest⟩ := at_append.mp hat
    rw [htake] at hdigest
    unfold blobHeaderSize at hstart
    refine ⟨by omega, window bytes 32 (footerOffset - 32), by rw [length_window]; omega, ?_⟩
    refine (at_frame (by rw [length_window, htake]; omega)).mpr
      ⟨?_, at_window (by omega), ?_, ?_, ?_, ?_⟩
    · refine at_append.mpr ⟨at_of_window hmagic (by omega), ?_⟩
      rw [show 0 + blobMagic.length = 8 from rfl]
      exact at_of_window hzeros (by omega)
    · rw [length_window]
      convert hlisted using 1
      omega
    · rw [length_window, htake]
      convert hdigest using 1
      omega
    · refine at_of_window (n := 8) ?_ (by omega)
      rw [length_window, show 32 + (footerOffset - 32) = footerOffset by omega, hoff]
      exact (leBytes_leNat_of_length (length_window _ _ _)).symm
    · exact at_of_window hend (by omega)
  · rintro ⟨hlisted, packs, rfl, hframe⟩
    have hlen : bytes.length = packs.length + listed.length + 80 := by rw [hframe, length_frame]
    obtain ⟨hheader, hpacks, hindex, hdigest, hoffset, hend⟩ := (at_frame hlen).mp hframe
    obtain ⟨hmagic, hzeros⟩ := at_append.mp hheader
    have hread : leNat (window bytes (bytes.length - 16) 8) = 32 + packs.length := by
      have := At.window_eq hoffset
      rw [length_leBytes] at this
      rw [this]
      exact leNat_leBytes (by unfold u64Max at hbytes; omega)
    have hfooter : window bytes (32 + packs.length) (bytes.length - 16 - (32 + packs.length)) =
        listed ++ leBytes 32 (hash listed) := by
      have := At.window_eq (at_append.mpr ⟨hindex, hdigest⟩)
      rw [← this, List.length_append, length_leBytes]
      congr 1
      omega
    have hcut : bytes.length - 16 - (32 + packs.length) - 32 = listed.length := by omega
    rw [hread, hfooter, hcut, List.take_left, List.drop_left]
    unfold blobHeaderSize
    exact ⟨⟨by omega, At.window_eq hmagic, At.window_eq hzeros⟩, ⟨At.window_eq hend, by omega⟩,
      by omega, ⟨by omega, rfl⟩, rfl, rfl⟩

/-! ## What is authentic -/

/-- Extents in the order of their offsets. -/
def byOffset (entries : List (Digest × BlobExtent)) : List (Digest × BlobExtent) :=
  entries.insertionSort fun a b => a.2.offset ≤ b.2.offset

theorem perm_byOffset (l : List (Digest × BlobExtent)) : (byOffset l).Perm l :=
  List.perm_insertionSort _ l

theorem pairwise_byOffset (l : List (Digest × BlobExtent)) :
    (byOffset l).Pairwise fun a b => a.2.offset ≤ b.2.offset := by
  have : Std.Total fun a b : Digest × BlobExtent => a.2.offset ≤ b.2.offset :=
    ⟨fun a b => Nat.le_total _ _⟩
  have : IsTrans (Digest × BlobExtent) fun a b => a.2.offset ≤ b.2.offset :=
    ⟨fun _ _ _ => Nat.le_trans⟩
  exact List.pairwise_insertionSort _ l

theorem map_snd_byOffset (l : List (Digest × BlobExtent)) :
    (l.map Prod.snd).insertionSort (fun a b => a.offset ≤ b.offset) = (byOffset l).map Prod.snd :=
  (List.map_insertionSort (fun a b : Digest × BlobExtent => a.2.offset ≤ b.2.offset) _ Prod.snd l
    fun _ _ _ _ => Iff.rfl).symm

/-- The extents of a list of entries, with their offsets and lengths. -/
theorem Extents.of_entries {blob : Digest} {total : Nat} {l : List (Digest × BlobExtent)}
    (hl : (l.map Prod.fst).Nodup) (hblob : ∀ e ∈ l, e.2.blob = blob ∧ e.2.blobLength = total)
    {p : List Place} (hp : (l.map place).Perm p) :
    Extents blob total p (l.foldl (fun found e => found.insert e.1 e.2) ∅) := by
  intro pack e
  rw [getElem?_inserts hl, ← hp.mem_iff, List.mem_map]
  constructor
  · exact fun h => ⟨⟨_, h, rfl⟩, hblob _ h⟩
  · rintro ⟨⟨⟨pack', e'⟩, he, hplace⟩, hb, ht⟩
    obtain ⟨hb', ht'⟩ := hblob _ he
    simp only [place, Prod.mk.injEq] at hplace
    obtain ⟨rfl, hoffset, hlength⟩ := hplace
    have heq : e' = e := by
      cases e
      cases e'
      simp_all
    exact heq ▸ he

theorem Extents.unique {blob : Digest} {total : Nat} {p : List Place}
    {a b : BTreeMap Digest BlobExtent} (ha : Extents blob total p a) (hb : Extents blob total p b) :
    a = b := by
  refine Std.ExtTreeMap.ext_getElem? fun pack => ?_
  refine Option.ext fun e => ?_
  rw [ha pack e, hb pack e]

theorem length_pos_of_copy {b : Bytes} {r : Digest × Bytes}
    (h : PackCodec.copy hash crc true b b.length = .ok r) : b ≠ [] := by
  rintro rfl
  obtain ⟨_, hmin, -⟩ := Except.bind_eq_ok.mp h
  exact absurd (Except.ensure_eq_ok.mp hmin) (by decide)

/-- What a good entry holds is its pack. -/
theorem Good.copy {e : Digest × BlobExtent} (h : Good hash crc bytes footerOffset e)
    (hlen : e.2.length ≤ u64Max) :
    PackCodec.copy hash crc true (itemOf bytes e).2 (itemOf bytes e).2.length =
      .ok (itemOf bytes e) := by
  obtain ⟨output, hcopy⟩ := h.pack
  have hwindow : (itemOf bytes e).2.length = e.2.length := length_window _ _ _
  have hcopy : PackCodec.copy hash crc true (itemOf bytes e).2 (itemOf bytes e).2.length =
      .ok (e.1, output) := by rwa [hwindow]
  rw [hcopy, ((PackCodec.copy_eq_ok (hwindow.le.trans hlen)).mp hcopy).1]
  rfl

theorem id_lt_of_copy (hdigest : ∀ b, hash b < 2 ^ 256) {b : Bytes} {r : Digest × Bytes}
    (hb : b.length ≤ u64Max) (h : PackCodec.copy hash crc true b b.length = .ok r) :
    r.1 < 2 ^ 256 := by
  obtain ⟨-, p, -, -, hid⟩ := (PackCodec.copy_eq_ok hb).mp h
  rw [PackCodec.packId_eq_ok hid]
  exact hdigest _

theorem length_le_flatMap {items : List Item} {item : Item} (h : item ∈ items) :
    item.2.length ≤ (items.flatMap Prod.snd).length := by
  obtain ⟨before, after, rfl⟩ := List.append_of_mem h
  simp only [List.flatMap_append, List.flatMap_cons, List.length_append]
  omega

/-- Extents of places inside the blob can be made. -/
theorem mapM_extentOf {blob : Digest} {total : Nat} (htotal : total ≤ u64Max) {l : List Place} :
    (∀ p ∈ l, p.2.2 ≠ 0 ∧ p.2.1 + p.2.2 ≤ total) → ∃ entries,
      l.mapM (extentOf blob total) = .ok entries := by
  induction l with
  | nil => exact fun _ => ⟨[], rfl⟩
  | cons p l ih =>
      intro h
      obtain ⟨hne, hle⟩ := h p List.mem_cons_self
      obtain ⟨entries, hentries⟩ := ih fun q hq => h q (List.mem_cons_of_mem _ hq)
      have hp : extentOf blob total p =
          .ok (p.1, ⟨blob, p.2.1, p.2.2, total, hne, hle, htotal⟩) :=
        extentOf_eq_ok.mpr ⟨⟨rfl, rfl⟩, rfl⟩
      exact ⟨_, by rw [List.mapM_cons, Except.bind_of_ok hp, Except.bind_of_ok hentries]; rfl⟩

theorem mapM_extentOf_eq_ok {blob : Digest} {total : Nat} {l : List Place}
    {entries : List (Digest × BlobExtent)} (h : l.mapM (extentOf blob total) = .ok entries) :
    entries.map place = l ∧ ∀ e ∈ entries, e.2.blob = blob ∧ e.2.blobLength = total := by
  rw [Except.mapM_eq_ok] at h
  induction h with
  | nil => simp
  | cons he _ ih =>
      obtain ⟨hblob, rfl⟩ := extentOf_eq_ok.mp he
      simp only [List.map_cons, ih.1, List.mem_cons, forall_eq_or_imp, true_and]
      exact ⟨hblob, ih.2⟩

theorem fst_perm {start : Nat} {items : List Item} {entries : List (Digest × BlobExtent)}
    (hperm : (entries.map place).Perm (places start items)) :
    (entries.map Prod.fst).Perm (items.map Prod.fst) := by
  have hfst := hperm.map Prod.fst
  rwa [List.map_map, map_fst_places] at hfst

section Admissible

variable {items : List Item} (hadm : Admissible hash crc items)
include hadm

theorem Admissible.nonempty_item {item : Item} (h : item ∈ items) : item.2 ≠ [] :=
  length_pos_of_copy (hadm.authentic item h)

theorem Admissible.id_lt (hdigest : ∀ b, hash b < 2 ^ 256) {item : Item} (h : item ∈ items) :
    item.1 < 2 ^ 256 := by
  have hle := length_le_flatMap h
  have hbounded := hadm.bounded
  rw [contents, length_frame] at hbounded
  exact id_lt_of_copy hdigest (by omega) (hadm.authentic item h)

omit hadm in
theorem at_contents : At (contents hash items) 32 (items.flatMap Prod.snd) :=
  ((at_frame (length_frame _ _)).mp rfl).2.1

/-- The packs of a blob stand where their places are. -/
theorem Admissible.at_place {p : Place} (hp : p ∈ places blobHeaderSize items) :
    (p.2.2 ≠ 0 ∧ blobHeaderSize ≤ p.2.1 ∧ p.2.1 + p.2.2 ≤ 32 + (items.flatMap Prod.snd).length) ∧
      ∃ b, (p.1, b) ∈ items ∧ b.length = p.2.2 ∧ At (contents hash items) p.2.1 b := by
  obtain ⟨hstart, hstop, b, hb, hlen, hat⟩ := at_of_mem_places hp (@at_contents hash items)
  have hpos : 0 < b.length := List.length_pos_iff.mpr (hadm.nonempty_item hb)
  exact ⟨⟨by omega, hstart, hstop⟩, b, hb, hlen, hat⟩

theorem Admissible.entries (blob : Digest) : ∃ entries,
    (byId (places blobHeaderSize items)).mapM (extentOf blob (contents hash items).length) =
      .ok entries := by
  refine mapM_extentOf hadm.bounded fun p hp => ?_
  obtain ⟨⟨hne, -, hstop⟩, -⟩ := hadm.at_place ((perm_byId _).mem_iff.mp hp)
  have hlen : (contents hash items).length = _ := length_frame _ _
  exact ⟨hne, by omega⟩

theorem Admissible.strict (hdigest : ∀ b, hash b < 2 ^ 256) :
    (byId (places blobHeaderSize items)).Pairwise fun a b => rank a.1 < rank b.1 := by
  refine strict_byId (fun p hp => ?_) (map_fst_places _ _ ▸ hadm.distinct)
  obtain ⟨-, b, hb, -⟩ := hadm.at_place hp
  exact hadm.id_lt hdigest hb

variable {entries : List (Digest × BlobExtent)}
  (hperm : (entries.map place).Perm (places blobHeaderSize items))
include hperm

theorem Admissible.nodup : (entries.map Prod.fst).Nodup :=
  (fst_perm hperm).nodup_iff.mpr hadm.distinct

theorem Admissible.good {e : Digest × BlobExtent} (he : e ∈ entries) :
    Good hash crc (contents hash items) (32 + (items.flatMap Prod.snd).length) e := by
  obtain ⟨⟨-, hstart, hstop⟩, b, hb, hlen, hat⟩ :=
    hadm.at_place (hperm.mem_iff.mp (List.mem_map_of_mem he))
  refine ⟨hstart, hstop, b, ?_⟩
  have hlen : b.length = e.2.length := hlen
  have hwindow := At.window_eq hat
  have hcopy := hadm.authentic _ hb
  rw [hlen] at hwindow hcopy
  rw [show window (contents hash items) e.2.offset e.2.length = b from hwindow]
  exact hcopy

/-- In the order of their offsets, the entries are the packs in the order in which they lie. -/
theorem Admissible.places_eq {m : List (Digest × BlobExtent)} (hm : m.Perm entries)
    (hsorted : m.Pairwise fun a b => a.2.offset ≤ b.2.offset) :
    m.map place = places blobHeaderSize items :=
  eq_of_offsets ((hm.map place).trans hperm) (List.pairwise_map.mpr hsorted)
    (pairwise_places fun _ h => hadm.nonempty_item h)

end Admissible

theorem authenticate_unfold {blob : Digest} {extents : BTreeMap Digest BlobExtent}
    (hbytes : bytes.length ≤ u64Max) :
    authenticate hash crc blob bytes = .ok extents ↔
      ∃ (packs : Bytes) (entries : List (Digest × BlobExtent)),
      bytes = frame hash packs (indexBytes (entries.map place)) ∧
      blobIdentity hash (indexBytes (entries.map place)) bytes.length = blob ∧
      (entries.length ≠ 0 ∧ entries.length ≤ 4096) ∧
      (∀ e ∈ entries, e.1 < 2 ^ 256 ∧ e.2.blob = blob ∧ e.2.blobLength = bytes.length) ∧
      (∀ e ∈ entries, Good hash crc bytes (32 + packs.length) e) ∧
      entries.Pairwise (fun a b => rank a.1 < rank b.1) ∧
      extents = entries.foldl (fun found e => found.insert e.1 e.2) (∅ : BTreeMap Digest BlobExtent) ∧
      ((byOffset extents.toList).map Prod.snd).foldlM tile blobHeaderSize =
        .ok (32 + packs.length) := by
  simp only [authenticate, Except.bind_eq_ok, Except.ensure_eq_ok, exists_const, Except.pure_eq_ok,
    (exact_index blob).decodeAll_eq_ok, Prod.exists, openFooter_eq_ok hbytes, map_snd_byOffset]
  constructor
  · rintro ⟨footerOffset, listed, ⟨-, packs, rfl, hframe⟩, hid, entries, ⟨⟨hlen, hall, hgood, hpairs⟩,
      rfl⟩, stop, htile, rfl, rfl⟩
    exact ⟨packs, entries, hframe, hid, hlen, hall, hgood, hpairs, rfl, htile⟩
  · rintro ⟨packs, entries, hframe, hid, hlen, hall, hgood, hpairs, rfl, htile⟩
    refine ⟨_, _, ⟨?_, packs, rfl, hframe⟩, hid, entries, ⟨⟨hlen, hall, hgood, hpairs⟩, rfl⟩, _, htile,
      rfl, rfl⟩
    simp only [indexBytes, indexMagic, List.length_append, List.length_cons, List.length_nil,
      length_leBytes]
    omega

theorem layout_of_authenticate {blob : Digest} {extents : BTreeMap Digest BlobExtent}
    (hbytes : bytes.length ≤ u64Max) (h : authenticate hash crc blob bytes = .ok extents) :
    ∃ items, Admissible hash crc items ∧ bytes = contents hash items ∧ blob = blobId hash items ∧
      Extents blob bytes.length (places blobHeaderSize items) extents := by
  obtain ⟨packs, entries, hframe, hid, hlen, hall, hgood, hpairs, rfl, htile⟩ :=
    (authenticate_unfold hbytes).mp h
  have hids : (entries.map Prod.fst).Nodup :=
    List.pairwise_map.mpr (hpairs.imp fun h heq => absurd (heq ▸ h) (Nat.lt_irrefl _))
  generalize hm : byOffset (entries.foldl (fun found e => found.insert e.1 e.2)
    (∅ : BTreeMap Digest BlobExtent)).toList = m at htile
  have hperm : m.Perm entries :=
    hm ▸ (perm_byOffset _).trans (perm_toList hids fun _ _ => getElem?_inserts hids)
  have hwithin : ∀ e ∈ m, e.2.offset + e.2.length ≤ bytes.length := fun e he => by
    rw [← (hall e (hperm.mem_iff.mp he)).2.2]
    exact e.2.within
  -- The extents tile the space, so what they hold, in their order, is all the packs.
  obtain ⟨hplaces, hstop⟩ := (tile_eq_ok bytes).mp htile
  have hat := at_items hplaces hwithin (by rw [hframe, length_frame, blobHeaderSize]; omega)
  obtain ⟨-, hpacks, -⟩ := (at_frame (by rw [hframe, length_frame])).mp hframe
  have hflat : packs = (m.map (itemOf bytes)).flatMap Prod.snd :=
    hpacks.eq hat (by unfold blobHeaderSize at hstop; omega)
  have hlisting : listing (m.map (itemOf bytes)) = indexBytes (entries.map place) := by
    rw [listing, ← hplaces]
    refine congrArg indexBytes (eq_byId (hperm.symm.map place) ?_).symm
    exact List.pairwise_map.mpr hpairs
  have hcontents : contents hash (m.map (itemOf bytes)) = bytes := by
    rw [contents, hlisting, ← hflat, ← hframe]
  have hbounded : (contents hash (m.map (itemOf bytes))).length ≤ u64Max := by rwa [hcontents]
  refine ⟨m.map (itemOf bytes), ⟨?_, ?_, ?_, ?_, hbounded⟩, hcontents.symm, ?_, ?_⟩
  · intro hnil
    have := hperm.length_eq
    rw [List.map_eq_nil_iff.mp hnil] at this
    exact hlen.1 this.symm
  · rw [List.length_map, hperm.length_eq]
    exact hlen.2
  · rw [List.map_map]
    exact (hperm.map Prod.fst).nodup_iff.mpr hids
  · rintro item hitem
    obtain ⟨e, he, rfl⟩ := List.mem_map.mp hitem
    have hle := hwithin e he
    exact (hgood e (hperm.mem_iff.mp he)).copy (by omega)
  · rw [blobId, hlisting, hcontents, hid]
  · rw [← hplaces]
    exact .of_entries hids (fun e he => (hall e he).2) (hperm.symm.map place)

theorem Admissible.authenticate {items : List Item} (hadm : Admissible hash crc items)
    (hdigest : ∀ b, hash b < 2 ^ 256) {extents : BTreeMap Digest BlobExtent}
    (hext : Extents (blobId hash items) (contents hash items).length (places blobHeaderSize items)
      extents) :
    authenticate hash crc (blobId hash items) (contents hash items) = .ok extents := by
  obtain ⟨entries, hentries⟩ := hadm.entries (blobId hash items)
  obtain ⟨hmap, hblobs⟩ := mapM_extentOf_eq_ok hentries
  have hperm : (entries.map place).Perm (places blobHeaderSize items) := hmap ▸ perm_byId _
  have hids := hadm.nodup hperm
  have hfst := fst_perm hperm
  have hlisting : indexBytes (entries.map place) = listing items := congrArg indexBytes hmap
  have hcount : entries.length = items.length := by simpa using hfst.length_eq
  have hextents := hext.unique (.of_entries hids hblobs hperm)
  refine (authenticate_unfold hadm.bounded).mpr ⟨items.flatMap Prod.snd, entries, ?_, ?_, ?_, ?_,
    fun e he => hadm.good hperm he, ?_, hextents, ?_⟩
  · rw [hlisting, contents]
  · rw [hlisting, blobId]
  · rw [hcount]
    exact ⟨fun h => hadm.nonempty (List.length_eq_zero_iff.mp h), hadm.count⟩
  · intro e he
    obtain ⟨item, hitem, heq⟩ :=
      List.mem_map.mp (hfst.mem_iff.mp (List.mem_map_of_mem (f := Prod.fst) he))
    exact ⟨heq ▸ hadm.id_lt hdigest hitem, hblobs e he⟩
  · have hstrict := hadm.strict hdigest
    rw [← hmap] at hstrict
    have := List.pairwise_map.mp hstrict
    exact this
  · have hm : (byOffset extents.toList).Perm entries :=
      (perm_byOffset _).trans (hextents ▸ (perm_toList hids fun _ _ => getElem?_inserts hids))
    have hplaces := hadm.places_eq hperm hm (pairwise_byOffset _)
    have hitems := items_of_places hplaces (@at_contents hash items)
    refine (tile_eq_ok (contents hash items)).mpr ⟨?_, ?_⟩
    · rw [hitems, hplaces]
    · rw [hitems, blobHeaderSize]

/-- **Authentication** accepts the layouts of distinct complete packs, under their id and with their
extents, and nothing else. -/
theorem authenticate_eq_ok (hdigest : ∀ b, hash b < 2 ^ 256) (hbytes : bytes.length ≤ u64Max)
    {blob : Digest} {extents : BTreeMap Digest BlobExtent} :
    authenticate hash crc blob bytes = .ok extents ↔ ∃ items, Admissible hash crc items ∧
      bytes = contents hash items ∧ blob = blobId hash items ∧
      Extents blob bytes.length (places blobHeaderSize items) extents := by
  constructor
  · exact layout_of_authenticate hbytes
  · rintro ⟨items, hadm, rfl, rfl, hext⟩
    exact hadm.authenticate hdigest hext

/-! ## What is written -/

section WriteAll

variable {σ : Type} {write : σ → Bytes → Except StoreError (Nat × σ)} {s t : σ}

/-- **Rule for `writeAll`.** A relation that every call extends by what it took holds of all bytes. -/
theorem writeAll_rule {R : σ → Bytes → σ → Prop} (hnil : ∀ s, R s [] s)
    (hstep : ∀ s b n t u, write s b = .ok (n, t) → R t (b.drop n) u → R s b u) {b : Bytes}
    (h : writeAll write s b = .ok t) : R s b t := by
  fun_induction writeAll write s b with
  | case1 s => exact Except.ok.inj h ▸ hnil s
  | case2 => cases h
  | case3 => cases h
  | case4 s b _ n u hwrite _ ih => exact hstep s b n u t hwrite (ih h)

/-- **Rule for `writeAll`, with termination in a result.** -/
theorem writeAll_total {I : σ → Bytes → Prop} (hstep : ∀ s b, I s b → b ≠ [] →
      ∃ n t, write s b = .ok (n, t) ∧ n ≠ 0 ∧ I t (b.drop n)) {b : Bytes} (hs : I s b) :
    ∃ t, writeAll write s b = .ok t := by
  fun_induction writeAll write s b with
  | case1 s => exact ⟨s, rfl⟩
  | case2 s b hb e hwrite =>
      obtain ⟨n, t, hok, -⟩ := hstep s b hs hb
      cases hwrite.symm.trans hok
  | case3 s b hb t hwrite =>
      obtain ⟨n, t', hok, hn, -⟩ := hstep s b hs hb
      cases hwrite.symm.trans hok
      exact absurd rfl hn
  | case4 s b hb n t hwrite hn ih =>
      obtain ⟨n', t', hok, -, ht⟩ := hstep s b hs hb
      cases hwrite.symm.trans hok
      exact ih ht

end WriteAll

/-- A sink that takes a part of whatever it is given, and installs the object. -/
structure Sink.Willing (sink : Sink) : Prop where
  accept : ∀ n k, 0 < k → ∃ m, sink.accept n k = some m ∧ m ≠ 0
  finish : ∀ blob length, sink.finish blob length = .ok ()

variable {sink : Sink}

theorem Staging.write_eq_ok {s t : Staging} {b : Bytes} {n : Nat}
    (h : s.write sink b = .ok (n, t)) : n ≤ b.length ∧ t.bytes = s.bytes ++ b.take n := by
  unfold Staging.write at h
  split at h
  · cases h
  · obtain ⟨rfl, rfl⟩ := Prod.mk.inj (Except.ok.inj h)
    exact ⟨Nat.min_le_right _ _, rfl⟩

theorem Staging.write_total (hsink : sink.Willing) (s : Staging) {b : Bytes} (hb : b ≠ []) :
    ∃ n t, s.write sink b = .ok (n, t) ∧ n ≠ 0 := by
  have hpos := List.length_pos_iff.mpr hb
  obtain ⟨m, hm, hne⟩ := hsink.accept s.calls b.length hpos
  unfold Staging.write
  rw [hm]
  exact ⟨_, _, rfl, by omega⟩

theorem Staging.writeAll_eq_ok {s t : Staging} {b : Bytes}
    (h : writeAll (Staging.write sink) s b = .ok t) : t.bytes = s.bytes ++ b := by
  refine writeAll_rule (R := fun s b t => t.bytes = s.bytes ++ b) (by simp) ?_ h
  intro s b n t u hwrite hrest
  rw [hrest, (Staging.write_eq_ok hwrite).2, List.append_assoc, List.take_append_drop]

namespace BlobWriter

/-- Bytes were added to the object. -/
structure Appended (w : BlobWriter) (b : Bytes) (w' : BlobWriter) : Prop where
  bytes : w'.staging.bytes = w.staging.bytes ++ b
  offset : w'.offset = w.offset + b.length
  ranges : w'.ranges = w.ranges

theorem Appended.nil (w : BlobWriter) : w.Appended [] w := ⟨by simp, by simp, rfl⟩

theorem Appended.trans {u v w : BlobWriter} {b c : Bytes} (h : u.Appended b v) (h' : v.Appended c w) :
    u.Appended (b ++ c) w where
  bytes := by rw [h'.bytes, h.bytes, List.append_assoc]
  offset := by rw [h'.offset, h.offset, List.length_append, Nat.add_assoc]
  ranges := h'.ranges.trans h.ranges

/-- The offset counts the bytes that were taken. -/
theorem write_eq_ok {w w' : BlobWriter} {b : Bytes} {n : Nat} (h : w.write sink b = .ok (n, w')) :
    w.Appended (b.take n) w' := by
  simp only [write, Except.bind_eq_ok, Except.ensure_eq_ok, exists_const, Except.pure_eq_ok] at h
  obtain ⟨-, ⟨n', staging⟩, hwrite, heq⟩ := h
  obtain ⟨rfl, rfl⟩ := Prod.mk.inj heq
  obtain ⟨hle, hbytes⟩ := Staging.write_eq_ok hwrite
  exact ⟨hbytes, by rw [List.length_take, Nat.min_eq_left hle], rfl⟩

theorem writeAll_eq_ok {w w' : BlobWriter} {b : Bytes} (h : writeAll (write sink) w b = .ok w') :
    w.Appended b w' := by
  refine writeAll_rule (R := Appended) Appended.nil ?_ h
  intro s b n t u hwrite hrest
  have := (write_eq_ok hwrite).trans hrest
  rwa [List.take_append_drop] at this

theorem writePieces_eq_ok {w w' : BlobWriter} {pieces : List Bytes}
    (h : pieces.foldlM (writeAll (write sink)) w = .ok w') : w.Appended pieces.flatten w' := by
  refine Except.foldlM_prefix (I := fun done w' => w.Appended done.flatten w') ?_ (Appended.nil w) h
  intro done b s t _ hs hwrite
  have := hs.trans (writeAll_eq_ok hwrite)
  rwa [List.flatten_append, List.flatten_singleton]

theorem writeAll_total (hsink : sink.Willing) {w : BlobWriter} {b : Bytes}
    (hb : w.offset + b.length ≤ u64Max) : ∃ w', writeAll (write sink) w b = .ok w' := by
  refine BlobCodec.writeAll_total (I := fun w b => w.offset + b.length ≤ u64Max) ?_ hb
  intro s b hb hne
  obtain ⟨n, t, hwrite, hn⟩ := s.staging.write_total hsink hne
  refine ⟨n, { s with staging := t, offset := s.offset + n }, ?_, hn, ?_⟩
  · rw [write, Except.bind_of_ok (Except.ensure_of hb _), Except.bind_of_ok hwrite]
    rfl
  · have hle := (Staging.write_eq_ok hwrite).1
    rw [List.length_drop]
    dsimp only
    omega

theorem writePieces_total (hsink : sink.Willing) {w : BlobWriter} {pieces : List Bytes}
    (hb : w.offset + pieces.flatten.length ≤ u64Max) :
    ∃ w', pieces.foldlM (writeAll (write sink)) w = .ok w' := by
  have hstep : ∀ done b rest s, pieces = done ++ b :: rest → w.Appended done.flatten s →
      ∃ t, writeAll (write sink) s b = .ok t ∧ w.Appended (done ++ [b]).flatten t := by
    rintro done b rest s rfl hs
    rw [List.flatten_append, List.flatten_cons, List.length_append, List.length_append] at hb
    have hoffset := hs.offset
    obtain ⟨t, ht⟩ := writeAll_total hsink (w := s) (b := b) (by omega)
    refine ⟨t, ht, ?_⟩
    rw [List.flatten_append, List.flatten_singleton]
    exact hs.trans (writeAll_eq_ok ht)
  obtain ⟨w', h, -⟩ := Except.foldlM_total (I := fun done w' => w.Appended done.flatten w') hstep
    (Appended.nil w)
  exact ⟨w', h⟩

/-- The writer after some packs. -/
structure Written (items : List Item) (w : BlobWriter) : Prop where
  bytes : w.staging.bytes = blobHeader ++ items.flatMap Prod.snd
  offset : w.offset = blobHeaderSize + (items.flatMap Prod.snd).length
  distinct : (items.map Prod.fst).Nodup
  count : items.length ≤ 4096
  ranges : ∀ (pack : Digest) (r : Nat × Nat),
    w.ranges[pack]? = some r ↔ (pack, r) ∈ places blobHeaderSize items

theorem new_eq_ok {w : BlobWriter} (h : new sink = .ok w) : Written [] w := by
  obtain ⟨staging, hstaging, h⟩ := Except.bind_eq_ok.mp h
  obtain rfl := Except.pure_eq_ok.mp h
  exact ⟨by simpa using Staging.writeAll_eq_ok hstaging, rfl, .nil, by simp, by simp [places]⟩

theorem new_total (hsink : sink.Willing) : ∃ w, new sink = .ok w := by
  have hstep : ∀ (s : Staging) (b : Bytes), True → b ≠ [] →
      ∃ n t, s.write sink b = .ok (n, t) ∧ n ≠ 0 ∧ True := by
    intro s b _ hb
    obtain ⟨n, t, hwrite, hn⟩ := s.write_total hsink hb
    exact ⟨n, t, hwrite, hn, trivial⟩
  obtain ⟨staging, hstaging⟩ :=
    BlobCodec.writeAll_total (I := fun _ _ => True) (s := ⟨[], 0⟩) (b := blobHeader) hstep trivial
  exact ⟨_, by rw [new, Except.bind_of_ok hstaging]; rfl⟩

section Written

variable {items : List Item} {w w' : BlobWriter} (hw : Written items w)
include hw

theorem Written.perm : w.ranges.toList.Perm (places blobHeaderSize items) :=
  perm_toList (map_fst_places _ _ ▸ hw.distinct) hw.ranges

theorem Written.size : w.ranges.size = items.length := by
  rw [← Std.ExtTreeMap.length_toList, hw.perm.length_eq, length_places]

theorem Written.contains {pack : Digest} :
    w.ranges.contains pack = true ↔ pack ∈ items.map Prod.fst := by
  rw [Std.ExtTreeMap.contains_iff_mem, Std.ExtTreeMap.mem_iff_isSome_getElem?, Option.isSome_iff_exists,
    ← map_fst_places blobHeaderSize items, List.mem_map]
  constructor
  · rintro ⟨r, hr⟩
    exact ⟨_, (hw.ranges pack r).mp hr, rfl⟩
  · rintro ⟨⟨_, r⟩, hr, rfl⟩
    exact ⟨r, (hw.ranges _ r).mpr hr⟩

theorem Written.append {b : Bytes} {pack : Digest} (h : w.Appended b w')
    (hpack : pack ∉ items.map Prod.fst) (hcount : items.length < 4096) :
    Written (items ++ [(pack, b)])
      { w' with ranges := w'.ranges.insert pack (w.offset, w'.offset - w.offset) } := by
  have hlength : w'.offset - w.offset = b.length := by rw [h.offset, Nat.add_sub_cancel_left]
  refine ⟨?_, ?_, ?_, ?_, fun pack' r => ?_⟩
  · simp [h.bytes, hw.bytes]
  · simp [h.offset, hw.offset, Nat.add_assoc]
  · rw [List.map_append]
    refine List.nodup_append.mpr ⟨hw.distinct, by simp, ?_⟩
    rintro a ha _ hb rfl
    have hb : a = pack := List.mem_singleton.mp hb
    exact hpack (hb ▸ ha)
  · simpa using hcount
  · rw [places_append, List.mem_append, ← hw.ranges, hlength, ← hw.offset, h.ranges,
      getElem?_insert_eq]
    have hnone : w.ranges[pack]? = none := by
      refine Option.eq_none_iff_forall_ne_some.mpr fun r hr => hpack ?_
      rw [← map_fst_places blobHeaderSize items]
      exact List.mem_map.mpr ⟨_, (hw.ranges pack r).mp hr, rfl⟩
    by_cases heq : pack' = pack
    · subst heq
      simp [hnone, places, eq_comm]
    · simp [places, heq]

/-- The index that the writer lists, in the order of the map. -/
theorem Written.byId_eq (hids : ∀ item ∈ items, item.1 < 2 ^ 256) :
    byId w.ranges.toList = byId (places blobHeaderSize items) := by
  refine eq_byId ((perm_byId _).trans hw.perm) (strict_byId (fun e he => ?_) ?_)
  · have hfst := List.mem_map_of_mem (f := Prod.fst) (hw.perm.mem_iff.mp he)
    rw [map_fst_places] at hfst
    obtain ⟨item, hitem, heq⟩ := List.mem_map.mp hfst
    exact heq ▸ hids item hitem
  · rw [(hw.perm.map Prod.fst).nodup_iff, map_fst_places]
    exact hw.distinct

theorem Written.listing_eq (hids : ∀ item ∈ items, item.1 < 2 ^ 256) :
    indexMagic ++ leBytes 4 w.ranges.size ++ (byId w.ranges.toList).flatMap placeBytes =
      listing items := by
  rw [hw.byId_eq hids, hw.size, listing, indexBytes, (perm_byId _).length_eq, length_places]

theorem Written.length_contents (hash : Bytes → Digest) :
    w.offset + ((listing items).length + 48) = (contents hash items).length := by
  rw [hw.offset, contents, length_frame, blobHeaderSize]
  omega

omit hw in
theorem offset_le {r : Digest × BTreeMap Digest BlobExtent × Bytes}
    (h : w.finish hash sink = .ok r) : w.offset ≤ u64Max := by
  obtain ⟨_, -, h⟩ := Except.bind_eq_ok.mp h
  obtain ⟨_, -, h⟩ := Except.bind_eq_ok.mp h
  obtain ⟨_, hlength, -⟩ := Except.bind_eq_ok.mp h
  have := (checkedAdd_eq_ok.mp hlength).1
  omega

theorem Written.finish_eq_ok (hids : ∀ item ∈ items, item.1 < 2 ^ 256) {blob : Digest}
    {extents : BTreeMap Digest BlobExtent} {bytes : Bytes}
    (h : w.finish hash sink = .ok (blob, extents, bytes)) :
    items ≠ [] ∧ bytes = contents hash items ∧ bytes.length ≤ u64Max ∧ blob = blobId hash items ∧
      Extents blob bytes.length (places blobHeaderSize items) extents := by
  simp only [finish, Except.bind_eq_ok, Except.ensure_eq_ok, exists_const, Except.pure_eq_ok,
    toU32_eq_ok, checkedAdd_eq_ok, Prod.mk.injEq] at h
  obtain ⟨hne, _, ⟨-, rfl⟩, _, ⟨hle, rfl⟩, w₁, h₁, w₂, h₂, w₃, h₃, -, -, entries, hentries, rfl, rfl,
    rfl⟩ := h
  rw [hw.listing_eq hids] at hle h₁ hentries
  rw [hw.length_contents hash] at hle hentries
  have hbytes : w₃.staging.bytes = contents hash items := by
    have happended := ((writeAll_eq_ok h₁).trans (writeAll_eq_ok h₂)).trans (writeAll_eq_ok h₃)
    rw [happended.bytes, hw.bytes, hw.offset, contents, frame]
    simp only [List.append_assoc]
  obtain ⟨hmap, hblobs⟩ := mapM_extentOf_eq_ok hentries
  have hperm : (entries.map place).Perm (places blobHeaderSize items) := by
    rw [hmap, hw.byId_eq hids]
    exact perm_byId _
  rw [hbytes, hw.listing_eq hids, hw.length_contents hash]
  refine ⟨?_, rfl, hle, rfl, .of_entries ((fst_perm hperm).nodup_iff.mpr hw.distinct) hblobs hperm⟩
  rintro rfl
  exact hne hw.size

end Written

theorem completePack_eq_ok {w w' : BlobWriter} {pack : Digest} {start : Nat} :
    w.completePack pack start = .ok w' ↔
      (w.ranges.size < 4096 ∧ ¬ w.ranges.contains pack = true ∧ start < w.offset) ∧
        w' = { w with ranges := w.ranges.insert pack (start, w.offset - start) } := by
  simp only [completePack, Except.bind_eq_ok, Except.ensure_eq_ok, exists_const, Except.pure_eq_ok]

theorem addPack_eq_ok {items : List Item} {w w' : BlobWriter} {pack : Digest × List Bytes}
    (hw : Written items w) (h : addPack sink w pack = .ok w') :
    Written (items ++ [(pack.1, pack.2.flatten)]) w' := by
  obtain ⟨t, hpieces, hcomplete⟩ := Except.bind_eq_ok.mp h
  have happended := writePieces_eq_ok hpieces
  obtain ⟨⟨hsize, hcontains, -⟩, rfl⟩ := completePack_eq_ok.mp hcomplete
  rw [happended.ranges] at hsize hcontains
  rw [hw.contains] at hcontains
  rw [hw.size] at hsize
  exact hw.append happended hcontains hsize

theorem addPack_total (hsink : sink.Willing) {items : List Item} {w : BlobWriter}
    {pack : Digest × List Bytes} (hw : Written items w) (hpack : pack.1 ∉ items.map Prod.fst)
    (hcount : items.length < 4096) (hne : pack.2.flatten ≠ [])
    (hlen : w.offset + pack.2.flatten.length ≤ u64Max) : ∃ w', addPack sink w pack = .ok w' := by
  obtain ⟨t, hpieces⟩ := writePieces_total hsink hlen
  have happended := writePieces_eq_ok hpieces
  have hpos := List.length_pos_iff.mpr hne
  refine ⟨{ t with ranges := t.ranges.insert pack.1 (w.offset, t.offset - w.offset) }, ?_⟩
  rw [addPack, Except.bind_of_ok hpieces]
  refine completePack_eq_ok.mpr ⟨⟨?_, ?_, ?_⟩, rfl⟩
  · rwa [happended.ranges, hw.size]
  · rwa [happended.ranges, hw.contains]
  · have := happended.offset
    omega

theorem finish_total (hsink : sink.Willing) {items : List Item} {w : BlobWriter}
    (hw : Written items w) (hdigest : ∀ b, hash b < 2 ^ 256) (hadm : Admissible hash crc items) :
    ∃ r, w.finish hash sink = .ok r := by
  have hids := fun item (h : item ∈ items) => hadm.id_lt hdigest h
  have hsize : w.ranges.size ≠ 0 := by
    rw [hw.size]
    exact fun h => hadm.nonempty (List.length_eq_zero_iff.mp h)
  have hcount : w.ranges.size ≤ u32Max := by
    have := hadm.count
    rw [hw.size, u32Max]
    omega
  have hlength := hw.length_contents hash
  have hbounded := hadm.bounded
  obtain ⟨w₁, h₁⟩ := writeAll_total hsink (w := w)
    (b := listing items ++ leBytes 32 (hash (listing items))) (by rw [List.length_append, length_leBytes]; omega)
  have ho₁ := (writeAll_eq_ok h₁).offset
  rw [List.length_append, length_leBytes] at ho₁
  obtain ⟨w₂, h₂⟩ := writeAll_total hsink (w := w₁) (b := leBytes 8 w.offset)
    (by rw [length_leBytes]; omega)
  have ho₂ := (writeAll_eq_ok h₂).offset
  rw [length_leBytes] at ho₂
  obtain ⟨w₃, h₃⟩ := writeAll_total hsink (w := w₂) (b := endMagic)
    (by rw [show endMagic.length = 8 from rfl]; omega)
  obtain ⟨entries, hentries⟩ :=
    hadm.entries (blobIdentity hash (listing items) (contents hash items).length)
  unfold finish
  rw [Except.bind_of_ok (Except.ensure_of hsize _),
    Except.bind_of_ok (toU32_eq_ok.mpr ⟨hcount, rfl⟩)]
  dsimp only
  rw [hw.listing_eq hids, hw.byId_eq hids,
    Except.bind_of_ok (checkedAdd_eq_ok.mpr ⟨hlength ▸ hbounded, rfl⟩), hlength,
    Except.bind_of_ok h₁, Except.bind_of_ok h₂, Except.bind_of_ok h₃,
    Except.bind_of_ok (hsink.finish _ _), Except.bind_of_ok hentries]
  exact ⟨_, rfl⟩

end BlobWriter

/-- The packs that arrive in pieces. -/
def itemsOf (packs : List (Digest × List Bytes)) : List Item :=
  packs.map fun pack => (pack.1, pack.2.flatten)

/-- The packs are what the copier finds under their ids. -/
def Complete (hash : Bytes → Digest) (crc : Bytes → UInt32)
    (packs : List (Digest × List Bytes)) : Prop :=
  ∀ item ∈ itemsOf packs, PackCodec.copy hash crc true item.2 item.2.length = .ok item

theorem addPacks_eq_ok {packs : List (Digest × List Bytes)} {w w' : BlobWriter}
    (hw : w.Written []) (h : packs.foldlM (addPack sink) w = .ok w') :
    w'.Written (itemsOf packs) := by
  refine Except.foldlM_prefix (I := fun done (w : BlobWriter) => w.Written (itemsOf done)) ?_ hw h
  intro done pack s t _ hs hadd
  have := BlobWriter.addPack_eq_ok hs hadd
  rwa [itemsOf, List.map_append]

/-- **Writing.** What is written is the layout of the packs, in the order in which they came. -/
theorem writeBlob_eq_ok (hdigest : ∀ b, hash b < 2 ^ 256) {packs : List (Digest × List Bytes)}
    (hpacks : Complete hash crc packs) {blob : Digest} {extents : BTreeMap Digest BlobExtent}
    (h : writeBlob hash sink packs = .ok (blob, extents, bytes)) :
    Admissible hash crc (itemsOf packs) ∧ bytes = contents hash (itemsOf packs) ∧
      blob = blobId hash (itemsOf packs) ∧
      Extents blob bytes.length (places blobHeaderSize (itemsOf packs)) extents := by
  obtain ⟨w, hnew, h⟩ := Except.bind_eq_ok.mp h
  obtain ⟨w', hadd, hfinish⟩ := Except.bind_eq_ok.mp h
  have hw := addPacks_eq_ok (BlobWriter.new_eq_ok hnew) hadd
  have hids : ∀ item ∈ itemsOf packs, item.1 < 2 ^ 256 := by
    intro item hitem
    have hle := length_le_flatMap hitem
    have hoffset := hw.offset
    have := BlobWriter.offset_le hfinish
    exact id_lt_of_copy hdigest (by omega) (hpacks item hitem)
  obtain ⟨hne, hbytes, hbounded, hblob, hextents⟩ := hw.finish_eq_ok hids hfinish
  exact ⟨⟨hne, hw.count, hw.distinct, hpacks, hbytes ▸ hbounded⟩, hbytes, hblob, hextents⟩

/-- A sink that takes the bytes gets a blob of any admissible packs. -/
theorem writeBlob_total (hdigest : ∀ b, hash b < 2 ^ 256) (hsink : sink.Willing)
    {packs : List (Digest × List Bytes)} (hadm : Admissible hash crc (itemsOf packs)) :
    ∃ r, writeBlob hash sink packs = .ok r := by
  obtain ⟨w, hnew⟩ := BlobWriter.new_total hsink
  have hstep : ∀ done pack rest (s : BlobWriter), packs = done ++ pack :: rest →
      s.Written (itemsOf done) → ∃ t, addPack sink s pack = .ok t ∧ t.Written (itemsOf (done ++ [pack])) := by
    rintro done pack rest s rfl hs
    have hsplit : itemsOf (done ++ pack :: rest) =
        itemsOf done ++ (pack.1, pack.2.flatten) :: itemsOf rest := List.map_append
    have hcount := hadm.count
    have hdistinct := hadm.distinct
    have hbounded := hadm.bounded
    have hoffset := hs.offset
    rw [contents, length_frame] at hbounded
    rw [hsplit] at hcount hdistinct hbounded hadm
    simp only [List.length_append, List.length_cons, List.flatMap_append, List.flatMap_cons]
      at hcount hbounded
    rw [List.map_append, List.map_cons, List.nodup_middle, List.nodup_cons] at hdistinct
    have hne := @Admissible.nonempty_item _ _ _ hadm (pack.1, pack.2.flatten) (by simp)
    obtain ⟨t, ht⟩ := BlobWriter.addPack_total hsink hs
      (fun h => hdistinct.1 (List.mem_append_left _ h)) (by omega) hne
      (by rw [hoffset, blobHeaderSize]; omega)
    have := BlobWriter.addPack_eq_ok hs ht
    exact ⟨t, ht, by rwa [itemsOf, List.map_append]⟩
  obtain ⟨w', hadd, hw'⟩ := Except.foldlM_total
    (I := fun done (w : BlobWriter) => w.Written (itemsOf done)) hstep (BlobWriter.new_eq_ok hnew)
  obtain ⟨r, hr⟩ := BlobWriter.finish_total hsink hw' hdigest hadm
  exact ⟨r, by rw [writeBlob, Except.bind_of_ok hnew, Except.bind_of_ok hadd, hr]⟩

/-- **Blob format.** What the writer installs is authentic under the id and with the extents that it
returns, however the object takes the bytes; distinct complete packs, up to the limit, are written
in any order; and authentic bytes are a header, complete packs one after another, and the footer
that lists them, where every extent holds its pack. -/
theorem blob_format (hdigest : ∀ b, hash b < 2 ^ 256) :
    (∀ sink packs blob extents bytes, Complete hash crc packs →
      writeBlob hash sink packs = .ok (blob, extents, bytes) →
      authenticate hash crc blob bytes = .ok extents) ∧
    (∀ sink packs, sink.Willing → Complete hash crc packs → packs ≠ [] → packs.length ≤ 4096 →
      (packs.map Prod.fst).Nodup → (contents hash (itemsOf packs)).length ≤ u64Max →
      ∃ r, writeBlob hash sink packs = .ok r) ∧
    ∀ blob bytes extents, bytes.length ≤ u64Max → authenticate hash crc blob bytes = .ok extents →
      ∃ items, bytes = frame hash (items.flatMap Prod.snd) (listing items) ∧
        blob = blobIdentity hash (listing items) bytes.length ∧
        (∀ item ∈ items, PackCodec.copy hash crc true item.2 item.2.length = .ok item) ∧
        Extents blob bytes.length (places blobHeaderSize items) extents ∧
        ∀ (pack : Digest) (e : BlobExtent), extents[pack]? = some e →
          (pack, window bytes e.offset e.length) ∈ items := by
  refine ⟨?_, ?_, ?_⟩
  · intro sink packs blob extents bytes hpacks h
    obtain ⟨hadm, hbytes, hblob, hextents⟩ := writeBlob_eq_ok hdigest hpacks h
    exact (authenticate_eq_ok hdigest (hbytes ▸ hadm.bounded)).mpr ⟨_, hadm, hbytes, hblob, hextents⟩
  · intro sink packs hsink hpacks hne hcount hdistinct hbounded
    refine writeBlob_total hdigest hsink ⟨?_, ?_, ?_, hpacks, hbounded⟩
    · simpa [itemsOf] using hne
    · simpa [itemsOf] using hcount
    · simpa [itemsOf, Function.comp_def] using hdistinct
  · intro blob bytes extents hlen h
    obtain ⟨items, hadm, rfl, hblob, hextents⟩ := (authenticate_eq_ok hdigest hlen).mp h
    refine ⟨items, rfl, hblob, hadm.authentic, hextents, fun pack e he => ?_⟩
    obtain ⟨-, b, hb, hlength, hat⟩ := hadm.at_place ((hextents pack e).mp he).1
    have hwindow := At.window_eq hat
    rw [hlength] at hwindow
    exact hwindow.symm ▸ hb

/-- A sink that takes seven bytes at a time. -/
def Sink.short : Sink where
  accept _ k := some (min k 7)
  finish _ _ := .ok ()

theorem Sink.willing_short : Sink.short.Willing :=
  ⟨fun _ k hk => ⟨min k 7, rfl, by omega⟩, fun _ _ => rfl⟩

/-- A hash of 32 bytes. -/
def digest (bytes : Bytes) : Digest := PackCodec.onesHash 1 (by decide) bytes % 2 ^ 256

theorem digest_encoded : PackCodec.Encoded digest (PackCodec.onesFrame 1 (by decide)) := by
  obtain ⟨hformed, -, hlength, hpayload⟩ := @PackCodec.onesFrame_encoded 1 (by decide)
  exact ⟨hformed, Nat.mod_lt _ (Nat.two_pow_pos 256), hlength, by rw [digest, hpayload]; rfl⟩

theorem blob_format_onePack : ∃ packs blob extents bytes,
    writeBlob digest Sink.short packs = .ok (blob, extents, bytes) ∧
      authenticate digest crc32 blob bytes = .ok extents := by
  obtain ⟨w, id, locations, hw, hfinish⟩ := @PackCodec.single_finished _ crc32 _ digest_encoded
  have hwritten := PackCodec.writeAll_written (by simpa using digest_encoded.length) hw
  have hcopy := (PackCodec.copy_finished (by simpa using digest_encoded) hwritten hfinish).mpr
    (by simp [PackCodec.onesFrame_pages])
  have hlength : w.bytes.length ≤ 1024 := by
    rw [hwritten.bytes, PackCodec.length_packBytes (by simpa using digest_encoded.length)]
    decide
  have hformat := @blob_format digest crc32 fun _ => Nat.mod_lt _ (Nat.two_pow_pos 256)
  have hcomplete : Complete digest crc32 [(id, [w.bytes])] := by simpa [Complete, itemsOf] using hcopy
  obtain ⟨⟨blob, extents, bytes⟩, hwrite⟩ := hformat.2.1 Sink.short [(id, [w.bytes])]
    Sink.willing_short hcomplete (by simp) (by simp) (by simp) (by
      rw [contents, length_frame, listing, indexBytes]
      simp [itemsOf, places, byId, placeBytes, indexMagic, u64Max]
      omega)
  exact ⟨_, _, _, _, hwrite, hformat.1 _ _ _ _ _ hcomplete hwrite⟩

end BlobCodec

end Zsqlite
