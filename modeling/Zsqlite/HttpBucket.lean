import Zsqlite.DiskCache
import Zsqlite.Lib.Keeps
import Mathlib.Data.List.Sort
import Mathlib.Data.Rat.Defs

set_option autoImplicit false

/-! # The browser's bucket over HTTP

`http.mts`: ranges of objects, and whole objects where a server does not answer ranges, with a
cache in memory that is bounded by the bytes it holds, and a disk cache. A buffer in memory has one
key in the order of use, whether it is an object (`o:`) or a range (`r:`).

A value that the code asserts to be there and is not, and a disk cache that does not return, are
the error `stuck`.
-/

namespace Zsqlite

open ByteVec Wire Assoc DiskCache

abbrev Path := Bytes

/-- `catalog-head` -/
def catalogHead : Path := [99, 97, 116, 97, 108, 111, 103, 45, 104, 101, 97, 100]

structure StorageRead where
  path : Path
  offset : Nat
  length : Nat
  deriving DecidableEq, Repr

inductive HttpMode where
  | auto
  | range
  | get
  deriving DecidableEq, Repr

/-- The settings, as the constructor accepts them. -/
structure HttpOptions where
  httpMode : HttpMode
  objectCacheBytes : Nat
  maxObjectBytes : Nat
  mergeGapBytes : Nat
  maxMergedRangeBytes : Nat
  readAheadBytes : Nat
  readConcurrency : Nat
  maxObjectBytes_pos : maxObjectBytes ≠ 0
  limits : mergeGapBytes ≤ 64 * 1024 ^ 2 ∧ maxMergedRangeBytes ≤ 64 * 1024 ^ 2 ∧
    readAheadBytes ≤ 64 * 1024 ^ 2
  maxMergedRangeBytes_pos : 1 ≤ maxMergedRangeBytes
  concurrency : 1 ≤ readConcurrency ∧ readConcurrency ≤ 32

inductive HttpError where
  /-- Invalid storage batch -/
  | invalidBatch
  /-- Invalid storage path -/
  | invalidPath
  /-- Invalid storage read -/
  | invalidRead
  /-- Storage batch exceeds 64 MiB -/
  | excessiveBatch
  /-- Invalid or excessive HTTP range -/
  | excessiveRange
  /-- catalog-head requires a complete response -/
  | incompleteHead
  /-- Excessive catalog-head length -/
  | excessiveHead
  /-- Invalid catalog-head read -/
  | invalidHead
  /-- HTTP range exceeds object length -/
  | exceedsObject
  /-- Object is too large for whole-object GET; use HTTP ranges -/
  | tooLarge
  /-- Missing bucket object -/
  | missing (path : Path)
  /-- Bucket GET: HTTP status -/
  | status (path : Path) (status : Nat)
  /-- Bucket objects must use identity Content-Encoding -/
  | encoding
  /-- Expected a complete HTTP GET response -/
  | expectedComplete
  /-- Whole object exceeds maxObjectBytes or is empty; use HTTP ranges -/
  | excessiveObject
  /-- Invalid or truncated whole-object response -/
  | invalidWhole
  /-- Bucket must support HTTP Range requests (206) -/
  | rangesRequired
  /-- Range responses must expose Content-Range -/
  | noContentRange
  /-- Invalid or truncated bucket range response -/
  | invalidRange
  /-- Bucket GET: network error, aborted or timed out -/
  | network (path : Path)
  | stuck
  deriving DecidableEq, Repr

/-! ## Keys -/

def decimal (n : Nat) : Bytes := (Nat.toDigits 10 n).map fun c => UInt8.ofNat c.toNat

/-- `o:path` -/
def wholeKey (path : Path) : Key := 111 :: 58 :: path

/-- `r:path:offset:length` -/
def rangeKey (path : Path) (offset length : Nat) : Key :=
  114 :: 58 :: (path ++ 58 :: (decimal offset ++ 58 :: decimal length))

/-- `s:path` -/
def lengthKey (path : Path) : Key := 115 :: 58 :: path

/-- The digits that a number is written with. -/
theorem mem_decimal {n : Nat} {b : UInt8} (h : b ∈ decimal n) : b ≠ 58 := by
  obtain ⟨c, hc, rfl⟩ := List.mem_map.mp h
  have hdigit := Nat.isDigit_of_mem_toDigits (by decide) (by decide) hc
  simp only [Char.isDigit, Bool.and_eq_true, decide_eq_true_eq] at hdigit
  have hle : c.toNat ≤ 57 := UInt32.le_iff_toNat_le.mp hdigit.2
  intro heq
  have hval : (UInt8.ofNat c.toNat).toNat = 58 := congrArg UInt8.toNat heq
  rw [UInt8.toNat_ofNat', Nat.mod_eq_of_lt (by omega)] at hval
  omega

theorem decimal_injective {a b : Nat} (h : decimal a = decimal b) : a = b := by
  have hback : ∀ n, Nat.ofDigitChars 10 ((decimal n).map fun d => Char.ofNat d.toNat) 0 = n := by
    intro n
    have hchars : (decimal n).map (fun d => Char.ofNat d.toNat) = Nat.toDigits 10 n := by
      rw [decimal, List.map_map]
      refine (List.map_congr_left fun c hc => ?_).trans (List.map_id _)
      have hdigit := Nat.isDigit_of_mem_toDigits (by decide) (by decide) hc
      simp only [Char.isDigit, Bool.and_eq_true, decide_eq_true_eq] at hdigit
      have hle : c.toNat ≤ 57 := UInt32.le_iff_toNat_le.mp hdigit.2
      have hsmall : (UInt8.ofNat c.toNat).toNat = c.toNat := by
        rw [UInt8.toNat_ofNat']
        exact Nat.mod_eq_of_lt (by omega)
      dsimp only [Function.comp_apply, id_eq]
      rw [hsmall, Char.ofNat_toNat]
    rw [hchars, Nat.ofDigitChars_ten_toDigits]
  rw [← hback a, h, hback b]

/-- The last occurrence of a separator. -/
theorem append_cons_inj {α : Type} {x : α} {a b a' b' : List α} (hb : x ∉ b) (hb' : x ∉ b')
    (h : a ++ x :: b = a' ++ x :: b') : a = a' ∧ b = b' := by
  rcases List.append_eq_append_iff.mp h with ⟨t, ha, ht⟩ | ⟨t, ha, ht⟩
  · cases t with
    | nil =>
        rw [List.append_nil] at ha
        rw [List.nil_append] at ht
        exact ⟨ha.symm, (List.cons.inj ht).2⟩
    | cons y t =>
        rw [List.cons_append, List.cons.injEq] at ht
        exact absurd (by rw [ht.2]; simp) hb
  · cases t with
    | nil =>
        rw [List.append_nil] at ha
        rw [List.nil_append] at ht
        exact ⟨ha, (List.cons.inj ht).2.symm⟩
    | cons y t =>
        rw [List.cons_append, List.cons.injEq] at ht
        exact absurd (by rw [ht.2]; simp) hb'

theorem wholeKey_injective {path path' : Path} (h : wholeKey path = wholeKey path') :
    path = path' := by
  unfold wholeKey at h
  simpa using h

theorem rangeKey_injective {path path' : Path} {offset offset' length length' : Nat}
    (h : rangeKey path offset length = rangeKey path' offset' length') :
    path = path' ∧ offset = offset' ∧ length = length' := by
  have hnot : ∀ n, (58 : UInt8) ∉ decimal n := fun n hmem => mem_decimal hmem rfl
  unfold rangeKey at h
  rw [List.cons.injEq, List.cons.injEq] at h
  have hsplit : (path ++ 58 :: decimal offset) ++ 58 :: decimal length =
      (path' ++ 58 :: decimal offset') ++ 58 :: decimal length' := by
    rw [List.append_assoc, List.append_assoc]
    exact h.2.2
  obtain ⟨hfirst, hlength⟩ := append_cons_inj (hnot _) (hnot _) hsplit
  obtain ⟨hpath, hoffset⟩ := append_cons_inj (hnot _) (hnot _) hfirst
  exact ⟨hpath, decimal_injective hoffset, decimal_injective hlength⟩

theorem wholeKey_ne_rangeKey (path path' : Path) (offset length : Nat) :
    wholeKey path ≠ rangeKey path' offset length := by
  intro h
  exact absurd (List.cons.inj h).1 (by decide)

/-! ## State -/

structure CachedRange where
  path : Path
  offset : Nat
  bytes : Bytes
  deriving DecidableEq, Repr

/-- A range that the disk cache may hold. -/
structure DiskRange where
  key : Key
  offset : Nat
  length : Nat
  deriving DecidableEq, Repr

structure RecentRead where
  offset : Nat
  length : Nat
  time : ℚ

structure HttpBucket where
  diskCache : Option DiskCache
  lengths : Path → Option Nat
  root : Option Bytes
  objects : List (Path × Bytes)
  cachedObjectBytes : Nat
  ranges : List (Key × CachedRange)
  rangeKeys : Path → Option (List Key)
  cacheOrder : List Key
  diskRanges : Path → List DiskRange
  recent : Path → Option RecentRead

namespace HttpBucket

variable (o : HttpOptions) (b : HttpBucket)

/-! ### The cache in memory -/

/-- Make a key the one used last. -/
def touch (key : Key) : HttpBucket :=
  { b with cacheOrder := b.cacheOrder.filter (· ≠ key) ++ [key] }

def cached (path : Path) : Option Bytes × HttpBucket :=
  match b.objects.lookup path with
  | none => (none, b)
  | some bytes =>
      let b : HttpBucket := { b with
        objects := (b.objects.filter fun e => e.1 ≠ path) ++ [(path, bytes)] }
      (some bytes, b.touch (wholeKey path))

/-- Drop the buffer with the key at the front of the order. -/
def dropOldest (key : Key) (rest : List Key) : Option HttpBucket :=
  if key.take 2 = [111, 58] then do
    let bytes ← b.objects.lookup (key.drop 2)
    return { b with
      cacheOrder := rest
      cachedObjectBytes := b.cachedObjectBytes - bytes.length
      objects := b.objects.filter fun e => e.1 ≠ key.drop 2 }
  else do
    let range ← b.ranges.lookup key
    let keys ← b.rangeKeys range.path
    let left := keys.filter (· ≠ key)
    return { b with
      cacheOrder := rest
      cachedObjectBytes := b.cachedObjectBytes - range.bytes.length
      ranges := b.ranges.filter fun e => e.1 ≠ key
      rangeKeys := Function.update b.rangeKeys range.path (if left.isEmpty then none else some left) }

/-- Drop buffers in the order of use until there is room; `none` is an order without a key left. -/
def evictFrom (incoming : Nat) : List Key → HttpBucket → Option HttpBucket
  | [], b => if b.cachedObjectBytes + incoming ≤ o.objectCacheBytes then some b else none
  | key :: rest, b =>
      if b.cachedObjectBytes + incoming ≤ o.objectCacheBytes then some b
      else (b.dropOldest key rest).bind (evictFrom incoming rest)

def evict (incoming : Nat) : Option HttpBucket := evictFrom o incoming b.cacheOrder b

/-- Forget an object that is kept. -/
def forget (path : Path) : HttpBucket :=
  match b.objects.lookup path with
  | none => b
  | some old => { b with
      cachedObjectBytes := b.cachedObjectBytes - old.length
      objects := b.objects.filter fun e => e.1 ≠ path
      cacheOrder := b.cacheOrder.filter (· ≠ wholeKey path) }

def keepWhole (path : Path) (bytes : Bytes) : Option HttpBucket :=
  if bytes.length ≤ o.objectCacheBytes then do
    let b ← (b.forget path).evict o bytes.length
    let b : HttpBucket := { b with
      objects := b.objects ++ [(path, bytes)]
      cachedObjectBytes := b.cachedObjectBytes + bytes.length }
    return b.touch (wholeKey path)
  else some b

def keepRange (path : Path) (offset : Nat) (bytes : Bytes) : Option HttpBucket :=
  let key := rangeKey path offset bytes.length
  if o.objectCacheBytes < bytes.length ∨ (b.ranges.lookup key).isSome then some b
  else do
    let b ← b.evict o bytes.length
    let keys := (b.rangeKeys path).getD []
    let b : HttpBucket := { b with
      ranges := b.ranges ++ [(key, ⟨path, offset, bytes⟩)]
      rangeKeys := Function.update b.rangeKeys path
        (some (if key ∈ keys then keys else keys ++ [key]))
      cachedObjectBytes := b.cachedObjectBytes + bytes.length }
    return b.touch key

/-! ### The disk cache -/

def persist (key : Key) (bytes : Bytes) : Option HttpBucket :=
  match b.diskCache with
  | none => some b
  | some disk => (disk.put key bytes).map fun r => { b with diskCache := some r.2 }

def persisted (key : Key) : Bool :=
  match b.diskCache with
  | none => false
  | some disk => (disk.entries.lookup key).isSome

def rememberLength (path : Path) (length : Nat) : Option HttpBucket :=
  let b := { b with lengths := Function.update b.lengths path (some length) }
  b.persist (lengthKey path) (leBytes 8 length)

def maxSafeInteger : Nat := 2 ^ 53 - 1

def indexDiskRange (path : Path) (key : Key) (offset length : Nat) : HttpBucket :=
  if maxSafeInteger < offset ∨ maxSafeInteger < length ∨ length < 1 then b
  else
    let entries := (b.diskRanges path).filter fun e => b.persisted e.key
    let entries := if entries.any (fun e => e.key = key) then entries
      else entries ++ [⟨key, offset, length⟩]
    { b with diskRanges := Function.update b.diskRanges path entries }

def rememberRange (path : Path) (offset : Nat) (bytes : Bytes) : Option HttpBucket := do
  let key := rangeKey path offset bytes.length
  let b ← b.keepRange o path offset bytes
  let b ← b.persist key bytes
  return if b.persisted key then b.indexDiskRange path key offset bytes.length else b

/-- The first range in memory that covers a range. -/
def coveringRange (offset length : Nat) : List Key → Option (Option (Key × CachedRange))
  | [] => some none
  | key :: keys => do
      let range ← b.ranges.lookup key
      if range.offset ≤ offset ∧ offset + length ≤ range.offset + range.bytes.length then
        return some (key, range)
      else coveringRange offset length keys

/-- The shortest range on disk that covers a range. -/
def diskCandidate (path : Path) (offset length : Nat) : Option DiskRange :=
  (((b.diskRanges path).filter fun e => decide (e.offset ≤ offset ∧
    offset + length ≤ e.offset + e.length) && b.persisted e.key).insertionSort
      fun a b => a.length ≤ b.length).head?

/-- A part of a buffer. -/
def part (bytes : Bytes) (offset length : Nat) : Bytes := (bytes.drop offset).take length

def cachedRange (path : Path) (offset length : Nat) : Option (Option Bytes × HttpBucket) := do
  match ← b.coveringRange offset length ((b.rangeKeys path).getD []) with
  | some (key, range) => return (some (part range.bytes (offset - range.offset) length), b.touch key)
  | none =>
      match b.diskCandidate path offset length, b.diskCache with
      | some range, some disk =>
          let (found, disk) := disk.get range.key
          let b := { b with diskCache := some disk }
          match found with
          | none => return (none, b)
          | some bytes =>
              if bytes.length = range.length then do
                let b ← b.keepRange o path range.offset bytes
                return (some (part bytes (offset - range.offset) length), b)
              else return (none, b)
      | _, _ => return (none, b)

def diskWhole (path : Path) : Option (Option Bytes × HttpBucket) :=
  match b.diskCache with
  | none => some (none, b)
  | some disk =>
      let (found, disk) := disk.get (wholeKey path)
      let b := { b with diskCache := some disk }
      match found with
      | none => some (none, b)
      | some bytes =>
          if o.maxObjectBytes < bytes.length ∨ (b.lengths path).any (· ≠ bytes.length) then
            some (none, { b with diskCache := some (disk.delete (wholeKey path)) })
          else do
            let b ← b.rememberLength path bytes.length
            let b ← b.keepWhole o path bytes
            return (some bytes, b)

/-- `cached(path) ?? diskWhole(path)` -/
def keptWhole (path : Path) : Option (Option Bytes × HttpBucket) :=
  match b.cached path with
  | (some bytes, b) => some (some bytes, b)
  | (none, b) => b.diskWhole o path

/-! ### Responses -/

/-- What a server answers. A header that does not have its form is `some none`. -/
structure Response where
  status : Nat
  contentRange : Option (Option (Nat × Nat × Nat))
  contentLength : Option (Option Nat)
  /-- a Content-Encoding other than identity -/
  encoded : Bool
  body : Bytes

/-- Programs over the bucket. -/
abbrev Call := EStateM HttpError HttpBucket

/-- A part that does not fail. -/
def expect {α : Type} (x : HttpBucket → Option (α × HttpBucket)) : Call α := fun b =>
  match x b with
  | none => .error .stuck b
  | some (a, b) => .ok a b

def expectState (x : HttpBucket → Option HttpBucket) : Call Unit :=
  expect fun b => (x b).map fun b => ((), b)

def check (p : Prop) [Decidable p] (e : HttpError) : Call Unit :=
  EStateM.liftExcept (Except.ensure p e)

/-- A response, or `none` for a missing object. -/
def finishRequest (path : Path) : Option Response → Call (Option Response)
  | none => throw (.network path)
  | some response =>
      if response.status = 404 then pure none
      else do
        check (response.status = 200 ∨ response.status = 206) (.status path response.status)
        check (response.encoded = false) .encoding
        return some response

/-- The whole object. -/
def complete (path : Path) (response : Response) : Call Bytes := do
  check (response.status = 200 ∧ response.contentRange = none) .expectedComplete
  let bytes := response.body
  check (bytes.length ≠ 0 ∧ bytes.length ≤ o.maxObjectBytes) .excessiveObject
  let b ← get
  check ((response.contentLength = none ∨ response.contentLength = some (some bytes.length)) ∧
    (b.lengths path).all (· = bytes.length)) .invalidWhole
  expectState (·.rememberLength path bytes.length)
  expectState (·.persist (wholeKey path) bytes)
  expectState (·.keepWhole o path bytes)
  return bytes

def acceptRange (path : Path) (offset length : Nat) (response : Response) : Call Bytes := do
  let bytes := response.body
  match response.contentRange with
  | some (some (start, stop, total)) =>
      let b ← get
      check ((start ≤ maxSafeInteger ∧ stop ≤ maxSafeInteger ∧ total ≤ maxSafeInteger) ∧
        start = offset ∧ stop + 1 = offset + length ∧ bytes.length = length ∧ stop < total ∧
        (b.lengths path).all (· = total)) .invalidRange
      expectState (·.rememberLength path total)
      expectState (·.rememberRange o path offset bytes)
      return bytes
  | _ => throw .noContentRange

/-! ## Soundness -/

/-- Every buffer in memory, with its key. -/
def buffers : List (Key × Bytes) :=
  b.objects.map (fun e => (wholeKey e.1, e.2)) ++ b.ranges.map fun e => (e.1, e.2.bytes)

/-- The cache in memory: the order of use has every buffer once, and the bytes are counted. -/
structure Accounts : Prop where
  order : (b.buffers.map Prod.fst).Perm b.cacheOrder
  nodup : b.cacheOrder.Nodup
  total : b.cachedObjectBytes = (b.buffers.map fun e => e.2.length).sum
  limit : b.cachedObjectBytes ≤ o.objectCacheBytes

section Content

variable (server : Path → Option Bytes)

/-- The bytes stand in the object, at the offset. -/
def Slice (path : Path) (offset : Nat) (bytes : Bytes) : Prop :=
  ∃ object, server path = some object ∧ At object offset bytes

/-- The bytes are what a key of the disk cache stands for. -/
def Right (key : Key) (bytes : Bytes) : Prop :=
  (∀ path, key = wholeKey path → server path = some bytes) ∧
  ∀ path offset length, key = rangeKey path offset length → Slice server path offset bytes

/-- A disk cache whose records are right, as far as they check. -/
def Held (disk : DiskCache) : Prop :=
  ∃ segs, Log (fun key s => checksum s.payload = s.crc → Right server key s.payload)
    (fun _ => True) segs disk

/-- What is kept are bytes of the objects. -/
structure Content : Prop where
  objects : ∀ e ∈ b.objects, server e.1 = some e.2
  ranges : ∀ e ∈ b.ranges, Slice server e.2.path e.2.offset e.2.bytes
  named : ∀ e ∈ b.ranges, e.1 = rangeKey e.2.path e.2.offset e.2.bytes.length
  indexed : ∀ e ∈ b.ranges, ∃ keys, b.rangeKeys e.2.path = some keys ∧ e.1 ∈ keys
  pointed : ∀ path keys, b.rangeKeys path = some keys → ∀ key ∈ keys,
    ∃ range, (key, range) ∈ b.ranges ∧ range.path = path
  disk : ∀ disk, b.diskCache = some disk → Held server disk
  diskRanges : ∀ path, ∀ e ∈ b.diskRanges path, e.key = rangeKey path e.offset e.length
  root : ∀ bytes, b.root = some bytes → bytes = (server catalogHead).getD []

structure Sound : Prop extends Accounts o b, Content b server

end Content

/-! ### Accounts -/

section Accounts

variable {o b} {b' : HttpBucket} {key : Key} {bytes : Bytes}

/-- Buffers and keys in another order. -/
theorem Accounts.perm (h : Accounts o b) (hbuffers : b.buffers.Perm b'.buffers)
    (horder : b.cacheOrder.Perm b'.cacheOrder) (htotal : b'.cachedObjectBytes = b.cachedObjectBytes) :
    Accounts o b' where
  order := ((hbuffers.map _).symm.trans h.order).trans horder
  nodup := horder.nodup_iff.mp h.nodup
  total := by rw [htotal, h.total, (hbuffers.map _).sum_eq]
  limit := htotal.trans_le h.limit

theorem Accounts.drop (h : Accounts o b) (hbuffers : b.buffers.Perm ((key, bytes) :: b'.buffers))
    (horder : b.cacheOrder.Perm (key :: b'.cacheOrder))
    (htotal : b'.cachedObjectBytes = b.cachedObjectBytes - bytes.length) : Accounts o b' := by
  have hkeys := ((hbuffers.map Prod.fst).symm.trans h.order).trans horder
  have hsum := (hbuffers.map fun e => e.2.length).sum_eq
  rw [List.map_cons, List.sum_cons, ← h.total] at hsum
  refine ⟨hkeys.cons_inv, (List.nodup_cons.mp (horder.nodup_iff.mp h.nodup)).2, ?_, ?_⟩
  · rw [htotal, hsum]
    exact Nat.add_sub_cancel_left _ _
  · have := h.limit
    omega

theorem Accounts.add (h : Accounts o b) (hbuffers : b'.buffers.Perm ((key, bytes) :: b.buffers))
    (horder : b'.cacheOrder.Perm (key :: b.cacheOrder)) (hkey : key ∉ b.cacheOrder)
    (htotal : b'.cachedObjectBytes = b.cachedObjectBytes + bytes.length)
    (hroom : b.cachedObjectBytes + bytes.length ≤ o.objectCacheBytes) : Accounts o b' := by
  refine ⟨((hbuffers.map Prod.fst).trans (h.order.cons key)).trans horder.symm,
    horder.nodup_iff.mpr (List.nodup_cons.mpr ⟨hkey, h.nodup⟩), ?_, htotal.trans_le hroom⟩
  rw [htotal, (hbuffers.map fun e => e.2.length).sum_eq, List.map_cons, List.sum_cons, h.total]
  exact Nat.add_comm _ _

theorem perm_touch (hkey : key ∈ b.cacheOrder) (hnodup : b.cacheOrder.Nodup) :
    b.cacheOrder.Perm (b.touch key).cacheOrder := by
  have hfilter : b.cacheOrder.filter (· ≠ key) = b.cacheOrder.erase key := by
    rw [hnodup.erase_eq_filter]
    refine List.filter_congr fun k _ => ?_
    by_cases hk : k = key <;> simp [hk]
  refine (List.perm_cons_erase hkey).trans ?_
  rw [touch, hfilter]
  exact (List.perm_append_singleton _ _).symm

theorem touch_new (hkey : key ∉ b.cacheOrder) :
    (b.touch key).cacheOrder.Perm (key :: b.cacheOrder) := by
  have hfilter : b.cacheOrder.filter (· ≠ key) = b.cacheOrder :=
    List.filter_eq_self.mpr fun k hk => decide_eq_true fun heq => hkey (heq ▸ hk)
  rw [touch, hfilter]
  exact List.perm_append_singleton _ _

theorem Accounts.mem_order (h : Accounts o b) : key ∈ b.cacheOrder ↔
    (∃ e ∈ b.objects, key = wholeKey e.1) ∨ ∃ e ∈ b.ranges, key = e.1 := by
  rw [← h.order.mem_iff, buffers, List.map_append, List.map_map, List.map_map, List.mem_append,
    List.mem_map, List.mem_map]
  simp only [Function.comp_apply, eq_comm]

theorem Accounts.nodup_objects (h : Accounts o b) : (b.objects.map Prod.fst).Nodup := by
  have hnodup := h.order.nodup_iff.mpr h.nodup
  rw [buffers, List.map_append, List.map_map] at hnodup
  have hkeys : (b.objects.map (Prod.fst ∘ fun e => (wholeKey e.1, e.2))).Nodup :=
    (List.nodup_append.mp hnodup).1
  refine List.Nodup.of_map wholeKey ?_
  rw [List.map_map]
  exact hkeys

theorem Accounts.nodup_ranges (h : Accounts o b) : (b.ranges.map Prod.fst).Nodup := by
  have hnodup := h.order.nodup_iff.mpr h.nodup
  rw [buffers, List.map_append, List.map_map, List.map_map] at hnodup
  exact (List.nodup_append.mp hnodup).2.1

/-- An object and the other buffers. -/
theorem Accounts.perm_objects (h : Accounts o b) {path : Path}
    (hfound : b.objects.lookup path = some bytes) :
    b.buffers.Perm ((wholeKey path, bytes) :: (b.objects.filter fun e => e.1 ≠ path).map
      (fun e => (wholeKey e.1, e.2)) ++ b.ranges.map fun e => (e.1, e.2.bytes)) :=
  ((perm_lookup h.nodup_objects hfound).map _).append_right _

/-- A range and the other buffers. -/
theorem Accounts.perm_ranges (h : Accounts o b) {range : CachedRange}
    (hfound : b.ranges.lookup key = some range) :
    b.buffers.Perm ((key, range.bytes) :: (b.objects.map (fun e => (wholeKey e.1, e.2)) ++
      (b.ranges.filter fun e => e.1 ≠ key).map fun e => (e.1, e.2.bytes))) :=
  (((perm_lookup h.nodup_ranges hfound).map _).append_left _).trans List.perm_middle

end Accounts

/-! ### Eviction -/

section Evict

variable {o b} {server : Path → Option Bytes} {key : Key} {rest : List Key}

/-- **One eviction** finds the buffer of the key. -/
theorem dropOldest_spec (h : Sound o b server) (horder : b.cacheOrder = key :: rest) :
    ∃ b', b.dropOldest key rest = some b' ∧ Sound o b' server ∧ b'.cacheOrder = rest := by
  have hkey : key ∈ b.cacheOrder := horder ▸ List.mem_cons_self
  rcases h.mem_order.mp hkey with ⟨e, he, rfl⟩ | ⟨e, he, rfl⟩
  · have hfound : b.objects.lookup e.1 = some e.2 := lookup_of_mem h.nodup_objects he
    refine ⟨_, by
      rw [dropOldest, if_pos (by rfl)]
      change (b.objects.lookup e.1).bind _ = _
      rw [hfound]
      rfl, ⟨?_, ?_⟩, rfl⟩
    · exact h.toAccounts.drop (h.perm_objects hfound) (horder ▸ List.Perm.refl _) rfl
    · exact ⟨fun x hx => h.objects x (List.mem_of_mem_filter hx), h.ranges, h.named, h.indexed,
        h.pointed, h.disk, h.diskRanges, h.root⟩
  · have hfound : b.ranges.lookup e.1 = some e.2 := lookup_of_mem h.nodup_ranges he
    obtain ⟨keys, hkeys, hin⟩ := h.indexed e he
    have hnot : e.1.take 2 ≠ [111, 58] := by
      rw [h.named e he]
      intro hprefix
      exact absurd (List.cons.inj hprefix).1 (by decide)
    refine ⟨_, by
      rw [dropOldest, if_neg hnot, hfound]
      change (b.rangeKeys e.2.path).bind _ = _
      rw [hkeys]
      rfl, ⟨?_, ?_⟩, rfl⟩
    · exact h.toAccounts.drop (h.perm_ranges hfound) (by rw [horder]) rfl
    · refine ⟨h.objects, fun x hx => h.ranges x (List.mem_of_mem_filter hx),
        fun x hx => h.named x (List.mem_of_mem_filter hx), fun x hx => ?_, fun path ks hks k hk => ?_,
        h.disk, h.diskRanges, h.root⟩
      · -- Another range of the same object keeps its key.
        obtain ⟨hx, hne⟩ := List.mem_filter.mp hx
        obtain ⟨ks, hks, hxin⟩ := h.indexed x hx
        dsimp only
        by_cases hpath : x.2.path = e.2.path
        · rw [hpath, hkeys, Option.some.injEq] at hks
          have hleft : x.1 ∈ keys.filter (· ≠ e.1) := List.mem_filter.mpr ⟨hks ▸ hxin, hne⟩
          refine ⟨keys.filter (· ≠ e.1), ?_, hleft⟩
          rw [hpath, Function.update_self, if_neg]
          intro hempty
          rw [List.isEmpty_iff.mp hempty] at hleft
          cases hleft
        · exact ⟨ks, by rw [Function.update_of_ne hpath, hks], hxin⟩
      · dsimp only at hks ⊢
        by_cases hpath : path = e.2.path
        · subst hpath
          rw [Function.update_self] at hks
          split at hks
          · cases hks
          · cases hks
            obtain ⟨hk, hne⟩ := List.mem_filter.mp hk
            obtain ⟨range, hrange, hp⟩ := h.pointed _ _ hkeys k hk
            exact ⟨range, List.mem_filter.mpr ⟨hrange, hne⟩, hp⟩
        · rw [Function.update_of_ne hpath] at hks
          obtain ⟨range, hrange, hp⟩ := h.pointed _ _ hks k hk
          refine ⟨range, List.mem_filter.mpr ⟨hrange, decide_eq_true fun heq => ?_⟩, hp⟩
          -- The key of the range that goes names its object.
          have hname := h.named _ hrange
          rw [show k = e.1 from heq, h.named e he] at hname
          exact hpath (hp.symm.trans (rangeKey_injective hname).1.symm)

/-- **Eviction never runs out of entries**, for a buffer within the limit. By induction on the order
of use. -/
theorem evict_spec (h : Sound o b server) {incoming : Nat} (hin : incoming ≤ o.objectCacheBytes) :
    ∃ b', b.evict o incoming = some b' ∧ Sound o b' server ∧
      b'.cachedObjectBytes + incoming ≤ o.objectCacheBytes ∧
      ∀ key ∈ b'.cacheOrder, key ∈ b.cacheOrder := by
  unfold evict
  have key : ∀ (order : List Key) (b : HttpBucket), Sound o b server → b.cacheOrder = order →
      ∃ b', evictFrom o incoming order b = some b' ∧ Sound o b' server ∧
        b'.cachedObjectBytes + incoming ≤ o.objectCacheBytes ∧
        ∀ key ∈ b'.cacheOrder, key ∈ order := by
    intro order
    induction order with
    | nil =>
        intro b h horder
        have hnone : b.buffers = [] := by
          have hkeys := h.order
          rw [horder, List.perm_nil, List.map_eq_nil_iff] at hkeys
          exact hkeys
        have hzero : b.cachedObjectBytes = 0 := by
          rw [h.total, hnone]
          rfl
        refine ⟨b, ?_, h, by omega, by simp [horder]⟩
        rw [evictFrom, if_pos (by omega)]
    | cons k rest ih =>
        intro b h horder
        rw [evictFrom]
        by_cases hfits : b.cachedObjectBytes + incoming ≤ o.objectCacheBytes
        · exact ⟨b, if_pos hfits, h, hfits, by simp [horder]⟩
        · obtain ⟨b₁, hdrop, h₁, horder₁⟩ := dropOldest_spec h horder
          obtain ⟨b', hloop, h', hroom, hsub⟩ := ih b₁ h₁ horder₁
          refine ⟨b', ?_, h', hroom, fun k' hk' => List.mem_cons_of_mem _ (hsub k' hk')⟩
          rw [if_neg hfits, hdrop]
          exact hloop
  exact key b.cacheOrder b h rfl

end Evict

/-! ### Keeping buffers -/

section Keep

variable {o b} {server : Path → Option Bytes} {path : Path} {offset : Nat} {bytes : Bytes}

theorem Sound.cached (h : Sound o b server) (path : Path) : Sound o (b.cached path).2 server ∧
    ∀ bytes, (b.cached path).1 = some bytes → server path = some bytes := by
  unfold HttpBucket.cached
  split
  · exact ⟨h, fun bytes hb => by cases hb⟩
  · rename_i bytes hfound
    have hmem := mem_of_lookup hfound
    have hkey : wholeKey path ∈ b.cacheOrder := h.mem_order.mpr (.inl ⟨_, hmem, rfl⟩)
    have hperm : b.objects.Perm ((b.objects.filter fun e => e.1 ≠ path) ++ [(path, bytes)]) :=
      (perm_lookup h.nodup_objects hfound).trans (List.perm_append_singleton _ _).symm
    refine ⟨⟨h.toAccounts.perm ((hperm.map _).append_right _) (perm_touch hkey h.nodup) rfl, ?_⟩, ?_⟩
    · exact ⟨fun e he => h.objects e (hperm.mem_iff.mpr he), h.ranges, h.named, h.indexed, h.pointed,
        h.disk, h.diskRanges, h.root⟩
    · intro bytes' hb
      cases hb
      exact h.objects _ hmem

theorem Sound.forget (h : Sound o b server) (path : Path) :
    Sound o (b.forget path) server ∧ wholeKey path ∉ (b.forget path).cacheOrder := by
  unfold HttpBucket.forget
  split
  · rename_i hnone
    refine ⟨h, fun hkey => ?_⟩
    rcases h.mem_order.mp hkey with ⟨e, he, heq⟩ | ⟨e, he, heq⟩
    · refine notMem_of_lookup hnone ?_
      rw [wholeKey_injective heq]
      exact List.mem_map_of_mem he
    · rw [h.named e he] at heq
      exact wholeKey_ne_rangeKey _ _ _ _ heq
  · rename_i old hfound
    have hkey : wholeKey path ∈ b.cacheOrder :=
      h.mem_order.mpr (.inl ⟨_, mem_of_lookup hfound, rfl⟩)
    have horder : b.cacheOrder.Perm (wholeKey path :: b.cacheOrder.filter (· ≠ wholeKey path)) :=
      (perm_touch hkey h.nodup).trans (List.perm_append_singleton _ _)
    refine ⟨⟨h.toAccounts.drop (h.perm_objects hfound) horder rfl, ?_⟩, by simp⟩
    exact ⟨fun e he => h.objects e (List.mem_of_mem_filter he), h.ranges, h.named, h.indexed,
      h.pointed, h.disk, h.diskRanges, h.root⟩

theorem keepWhole_spec (h : Sound o b server) (hbytes : server path = some bytes) :
    ∃ b', b.keepWhole o path bytes = some b' ∧ Sound o b' server := by
  unfold keepWhole
  split
  · rename_i hfits
    obtain ⟨hforget, hnot⟩ := h.forget path
    obtain ⟨b₁, hevict, h₁, hroom, hsub⟩ := evict_spec hforget hfits
    have hnew : wholeKey path ∉ b₁.cacheOrder := fun hkey => hnot (hsub _ hkey)
    rw [hevict]
    refine ⟨_, rfl, h₁.toAccounts.add ?_ (touch_new hnew) hnew rfl hroom, ?_⟩
    · change (List.map _ (b₁.objects ++ [(path, bytes)]) ++ _).Perm _
      rw [List.map_append, List.append_assoc]
      exact List.perm_middle
    · refine ⟨fun e he => ?_, h₁.ranges, h₁.named, h₁.indexed, h₁.pointed, h₁.disk, h₁.diskRanges, h₁.root⟩
      rcases List.mem_append.mp he with he | he
      · exact h₁.objects e he
      · rw [List.mem_singleton.mp he]
        exact hbytes
  · exact ⟨b, rfl, h⟩

theorem keepRange_spec (h : Sound o b server) (hbytes : Slice server path offset bytes) :
    ∃ b', b.keepRange o path offset bytes = some b' ∧ Sound o b' server := by
  unfold keepRange
  dsimp only
  split
  · exact ⟨b, rfl, h⟩
  · rename_i hno
    rw [not_or, Nat.not_lt, Bool.not_eq_true, Option.isSome_eq_false_iff, Option.isNone_iff_eq_none]
      at hno
    have hnot : rangeKey path offset bytes.length ∉ b.cacheOrder := by
      intro hkey
      rcases h.mem_order.mp hkey with ⟨e, he, heq⟩ | ⟨e, he, heq⟩
      · exact wholeKey_ne_rangeKey _ _ _ _ heq.symm
      · refine notMem_of_lookup hno.2 ?_
        rw [heq]
        exact List.mem_map_of_mem he
    obtain ⟨b₁, hevict, h₁, hroom, hsub⟩ := evict_spec h hno.1
    have hnew : rangeKey path offset bytes.length ∉ b₁.cacheOrder := fun hkey => hnot (hsub _ hkey)
    rw [hevict]
    refine ⟨_, rfl, h₁.toAccounts.add ?_ (touch_new hnew) hnew rfl hroom, ?_⟩
    · change (_ ++ List.map _ (b₁.ranges ++ [(_, (⟨path, offset, bytes⟩ : CachedRange))])).Perm _
      rw [List.map_append, ← List.append_assoc]
      exact List.perm_append_singleton _ _
    · -- The keys of the object, with the new one.
      have hkeys : ∀ key, key ∈ (if rangeKey path offset bytes.length ∈ (b₁.rangeKeys path).getD []
            then (b₁.rangeKeys path).getD []
            else (b₁.rangeKeys path).getD [] ++ [rangeKey path offset bytes.length]) ↔
          key ∈ (b₁.rangeKeys path).getD [] ∨ key = rangeKey path offset bytes.length := by
        intro key
        split
        · rename_i hin
          exact ⟨.inl, fun hor => hor.elim id fun heq => heq ▸ hin⟩
        · rw [List.mem_append, List.mem_singleton]
      refine ⟨h₁.objects, fun e he => ?_, fun e he => ?_, fun e he => ?_, fun p ks hks key hkey => ?_,
        h₁.disk, h₁.diskRanges, h₁.root⟩
      · rcases List.mem_append.mp he with he | he
        · exact h₁.ranges e he
        · rw [List.mem_singleton.mp he]
          exact hbytes
      · rcases List.mem_append.mp he with he | he
        · exact h₁.named e he
        · rw [List.mem_singleton.mp he]
      · change ∃ keys, Function.update b₁.rangeKeys path _ e.2.path = some keys ∧ _
        rcases List.mem_append.mp he with he | he
        · obtain ⟨ks, hks, hin⟩ := h₁.indexed e he
          by_cases hpath : e.2.path = path
          · rw [hpath, Function.update_self]
            refine ⟨_, rfl, (hkeys _).mpr (.inl ?_)⟩
            rw [← hpath, hks]
            exact hin
          · exact ⟨ks, by rw [Function.update_of_ne hpath, hks], hin⟩
        · rw [List.mem_singleton.mp he]
          dsimp only
          rw [Function.update_self]
          exact ⟨_, rfl, (hkeys _).mpr (.inr rfl)⟩
      · change Function.update b₁.rangeKeys path _ p = some ks at hks
        change ∃ range, (key, range) ∈ b₁.ranges ++ [_] ∧ _
        have hold : ∀ ks', b₁.rangeKeys p = some ks' → key ∈ ks' →
            ∃ range, (key, range) ∈ b₁.ranges ++ [(rangeKey path offset bytes.length,
              (⟨path, offset, bytes⟩ : CachedRange))] ∧ range.path = p := by
          intro ks' hks' hin
          obtain ⟨range, hrange, hp⟩ := h₁.pointed p ks' hks' key hin
          exact ⟨range, List.mem_append_left _ hrange, hp⟩
        by_cases hpath : p = path
        · subst hpath
          rw [Function.update_self, Option.some.injEq] at hks
          rw [← hks] at hkey
          rcases (hkeys key).mp hkey with hkey | rfl
          · cases hks' : b₁.rangeKeys p with
            | none =>
                rw [hks'] at hkey
                cases hkey
            | some ks' =>
                rw [hks'] at hkey
                exact hold ks' hks' hkey
          · exact ⟨_, List.mem_append_right _ List.mem_cons_self, rfl⟩
        · rw [Function.update_of_ne hpath] at hks
          exact hold ks hks hkey

end Keep

/-! ### The disk cache -/

section Disk

variable {o b} {server : Path → Option Bytes} {path : Path} {offset length : Nat} {bytes : Bytes}
  {key : Key} {disk : DiskCache}

theorem Held.put (h : Held server disk) (hright : Right server key bytes) :
    ∃ r, disk.put key bytes = some r ∧ Held server r.2 := by
  obtain ⟨segs, hlog⟩ := h
  obtain ⟨effects, disk', segs', hput, hlog'⟩ := hlog.put (fun _ => hright) trivial
  exact ⟨_, hput, segs', hlog'⟩

theorem Held.get (h : Held server disk) (key : Key) : Held server (disk.get key).2 ∧
    ∀ bytes, (disk.get key).1 = some bytes → Right server key bytes := by
  obtain ⟨segs, hlog⟩ := h
  obtain ⟨hlog', hread⟩ := hlog.get key
  refine ⟨⟨segs, hlog'⟩, fun bytes hb => ?_⟩
  obtain ⟨s, -, hR, rfl, hcrc⟩ := hread bytes hb
  exact hR hcrc

theorem Held.delete (h : Held server disk) (key : Key) : Held server (disk.delete key) := by
  obtain ⟨segs, hlog⟩ := h
  exact ⟨segs, hlog.delete key⟩

theorem right_whole (h : server path = some bytes) : Right server (wholeKey path) bytes := by
  refine ⟨fun path' heq => ?_, fun path' offset length heq => ?_⟩
  · rw [← wholeKey_injective heq]
    exact h
  · exact absurd heq (wholeKey_ne_rangeKey _ _ _ _)

theorem right_range (h : Slice server path offset bytes) (length : Nat) :
    Right server (rangeKey path offset length) bytes := by
  refine ⟨fun path' heq => ?_, fun path' offset' length' heq => ?_⟩
  · exact absurd heq.symm (wholeKey_ne_rangeKey _ _ _ _)
  · obtain ⟨rfl, rfl, -⟩ := rangeKey_injective heq
    exact h

theorem right_length (path : Path) (bytes : Bytes) : Right server (lengthKey path) bytes := by
  refine ⟨fun path' heq => ?_, fun path' offset length heq => ?_⟩
  · exact absurd (List.cons.inj heq).1 (by decide)
  · exact absurd (List.cons.inj heq).1 (by decide)

/-- Other records on disk. -/
theorem Sound.withDisk (h : Sound o b server) (hdisk : Held server disk) :
    Sound o { b with diskCache := some disk } server where
  toAccounts := ⟨h.order, h.nodup, h.total, h.limit⟩
  toContent := ⟨h.objects, h.ranges, h.named, h.indexed, h.pointed,
    fun _ heq => Option.some.inj heq ▸ hdisk, h.diskRanges, h.root⟩

theorem persist_spec (h : Sound o b server) (hright : Right server key bytes) :
    ∃ b', b.persist key bytes = some b' ∧ Sound o b' server := by
  unfold persist
  cases hdisk : b.diskCache with
  | none => exact ⟨b, rfl, h⟩
  | some disk =>
      obtain ⟨r, hput, hheld⟩ := (h.disk disk hdisk).put hright
      dsimp only
      rw [hput]
      exact ⟨_, rfl, h.withDisk hheld⟩

theorem rememberLength_spec (h : Sound o b server) (path : Path) (length : Nat) :
    ∃ b', b.rememberLength path length = some b' ∧ Sound o b' server := by
  refine persist_spec ⟨⟨h.order, h.nodup, h.total, h.limit⟩, ?_⟩ (right_length path _)
  exact ⟨h.objects, h.ranges, h.named, h.indexed, h.pointed, h.disk, h.diskRanges, h.root⟩

theorem Sound.indexDiskRange (h : Sound o b server) (path : Path) (offset length : Nat) :
    Sound o (b.indexDiskRange path (rangeKey path offset length) offset length) server := by
  unfold HttpBucket.indexDiskRange
  split
  · exact h
  · refine ⟨⟨h.order, h.nodup, h.total, h.limit⟩, ?_⟩
    refine ⟨h.objects, h.ranges, h.named, h.indexed, h.pointed, h.disk, fun p e he => ?_, h.root⟩
    dsimp only at he
    by_cases hpath : p = path
    · subst hpath
      rw [Function.update_self] at he
      have hin : e ∈ (b.diskRanges p).filter (fun e => b.persisted e.key) ∨
          e = ⟨rangeKey p offset length, offset, length⟩ := by
        split at he
        · exact .inl he
        · exact (List.mem_append.mp he).imp_right List.mem_singleton.mp
      rcases hin with hin | rfl
      · exact h.diskRanges p e (List.mem_of_mem_filter hin)
      · rfl
    · rw [Function.update_of_ne hpath] at he
      exact h.diskRanges p e he

theorem rememberRange_spec (h : Sound o b server) (hbytes : Slice server path offset bytes) :
    ∃ b', b.rememberRange o path offset bytes = some b' ∧ Sound o b' server := by
  obtain ⟨b₁, hkeep, h₁⟩ := keepRange_spec h hbytes
  obtain ⟨b₂, hpersist, h₂⟩ := persist_spec h₁ (right_range hbytes bytes.length)
  refine ⟨_, by
    unfold rememberRange
    rw [hkeep]
    dsimp only [Option.bind_eq_bind, Option.bind_some]
    rw [hpersist]
    rfl, ?_⟩
  split
  · exact h₂.indexDiskRange path offset bytes.length
  · exact h₂

/-- A part of bytes that stand in an object. -/
theorem Slice.part {start : Nat} (h : Slice server path start bytes) (hstart : start ≤ offset)
    (hstop : offset + length ≤ start + bytes.length) :
    Slice server path offset (part bytes (offset - start) length) ∧
      (part bytes (offset - start) length).length = length := by
  obtain ⟨object, hobject, hlen, hbytes⟩ := h
  have hpart : (HttpBucket.part bytes (offset - start) length).length = length := by
    rw [HttpBucket.part, List.length_take, List.length_drop]
    omega
  refine ⟨⟨object, hobject, by rw [hpart]; omega, ?_⟩, hpart⟩
  rw [hpart, HttpBucket.part, ← hbytes, List.drop_take, List.drop_drop, List.take_take,
    Nat.add_sub_cancel' hstart, Nat.min_eq_left (by omega)]

theorem coveringRange_spec (h : Sound o b server) {keys : List Key}
    (hkeys : ∀ key ∈ keys, ∃ range, (key, range) ∈ b.ranges ∧ range.path = path) :
    ∃ r, b.coveringRange offset length keys = some r ∧ ∀ key range, r = some (key, range) →
      (key, range) ∈ b.ranges ∧ range.path = path ∧ range.offset ≤ offset ∧
        offset + length ≤ range.offset + range.bytes.length := by
  induction keys with
  | nil => exact ⟨none, rfl, fun key range hr => by cases hr⟩
  | cons key keys ih =>
      obtain ⟨range, hrange, hpath⟩ := hkeys key List.mem_cons_self
      have hfound : b.ranges.lookup key = some range := lookup_of_mem h.nodup_ranges hrange
      rw [coveringRange, hfound]
      dsimp only [Option.bind_eq_bind, Option.bind_some]
      split
      · rename_i hcovers
        refine ⟨_, rfl, fun key' range' hr => ?_⟩
        cases hr
        exact ⟨hrange, hpath, hcovers⟩
      · exact ih fun k hk => hkeys k (List.mem_cons_of_mem _ hk)

/-- **A range that is found is the range of the object.** -/
theorem cachedRange_spec (h : Sound o b server) (path : Path) (offset length : Nat) :
    ∃ r, b.cachedRange o path offset length = some r ∧ Sound o r.2 server ∧
      ∀ bytes, r.1 = some bytes → Slice server path offset bytes ∧ bytes.length = length := by
  have hkeys : ∀ key ∈ (b.rangeKeys path).getD [],
      ∃ range, (key, range) ∈ b.ranges ∧ range.path = path := by
    intro key hkey
    cases hks : b.rangeKeys path with
    | none =>
        rw [hks] at hkey
        cases hkey
    | some ks =>
        rw [hks] at hkey
        exact h.pointed path ks hks key hkey
  obtain ⟨r, hcover, hr⟩ := coveringRange_spec h hkeys
  unfold cachedRange
  rw [hcover]
  dsimp only [Option.bind_eq_bind, Option.bind_some]
  cases r with
  | some found =>
      obtain ⟨key, range⟩ := found
      obtain ⟨hrange, hpath, hstart, hstop⟩ := hr key range rfl
      have hkey : key ∈ b.cacheOrder := h.mem_order.mpr (.inr ⟨_, hrange, rfl⟩)
      refine ⟨_, rfl, ⟨h.toAccounts.perm (List.Perm.refl _) (perm_touch hkey h.nodup) rfl, ?_⟩, ?_⟩
      · exact ⟨h.objects, h.ranges, h.named, h.indexed, h.pointed, h.disk, h.diskRanges, h.root⟩
      · intro bytes hb
        cases hb
        rw [← hpath]
        exact (h.ranges _ hrange).part hstart hstop
  | none =>
      dsimp only
      split
      · rename_i range disk hrange hdisk
        -- The candidate covers the range, and its key names it.
        have hmem := (List.perm_insertionSort _ _).mem_iff.mp (List.mem_of_mem_head? hrange)
        obtain ⟨hmem, hcovers⟩ := List.mem_filter.mp hmem
        rw [Bool.and_eq_true, decide_eq_true_eq] at hcovers
        obtain ⟨hheld, hread⟩ := (h.disk disk hdisk).get range.key
        split
        · exact ⟨_, rfl, h.withDisk hheld, fun bytes hb => by cases hb⟩
        · rename_i bytes hfound
          split
          · rename_i hlength
            have hslice : Slice server path range.offset bytes :=
              (hread bytes hfound).2 path range.offset range.length (h.diskRanges path range hmem)
            obtain ⟨b₁, hkeep, h₁⟩ := keepRange_spec (h.withDisk hheld) hslice
            rw [hkeep]
            refine ⟨_, rfl, h₁, fun bytes' hb => ?_⟩
            cases hb
            exact hslice.part hcovers.1.1 (by omega)
          · exact ⟨_, rfl, h.withDisk hheld, fun bytes hb => by cases hb⟩
      · exact ⟨_, rfl, h, fun bytes hb => by cases hb⟩

theorem diskWhole_spec (h : Sound o b server) (path : Path) :
    ∃ r, b.diskWhole o path = some r ∧ Sound o r.2 server ∧
      ∀ bytes, r.1 = some bytes → server path = some bytes := by
  unfold diskWhole
  cases hdisk : b.diskCache with
  | none => exact ⟨_, rfl, h, fun bytes hb => by cases hb⟩
  | some disk =>
      obtain ⟨hheld, hread⟩ := (h.disk disk hdisk).get (wholeKey path)
      dsimp only
      split
      · exact ⟨_, rfl, h.withDisk hheld, fun bytes hb => by cases hb⟩
      · rename_i bytes hfound
        have hwhole := (hread bytes hfound).1 path rfl
        split
        · exact ⟨_, rfl, h.withDisk (hheld.delete _), fun bytes hb => by cases hb⟩
        · obtain ⟨b₁, hlength, h₁⟩ := rememberLength_spec (h.withDisk hheld) path bytes.length
          obtain ⟨b₂, hkeep, h₂⟩ := keepWhole_spec h₁ hwhole
          rw [hlength]
          dsimp only [Option.bind_eq_bind, Option.bind_some]
          rw [hkeep]
          refine ⟨_, rfl, h₂, fun bytes' hb => ?_⟩
          cases hb
          exact hwhole

theorem keptWhole_spec (h : Sound o b server) (path : Path) :
    ∃ r, b.keptWhole o path = some r ∧ Sound o r.2 server ∧
      ∀ bytes, r.1 = some bytes → server path = some bytes := by
  obtain ⟨hsound, hwhole⟩ := h.cached path
  unfold keptWhole
  split
  · rename_i bytes b' hcached
    rw [hcached] at hsound hwhole
    exact ⟨_, rfl, hsound, hwhole⟩
  · rename_i b' hcached
    rw [hcached] at hsound
    exact diskWhole_spec hsound path

end Disk

/-! ### Responses -/

section Responses

variable {o} {server : Path → Option Bytes} {path : Path} {offset length : Nat}

/-- A server that holds immutable objects: a whole response is the object, and a range is the one
that its Content-Range gives. -/
def Answers (server : Path → Option Bytes) (path : Path) (response : Response) : Prop :=
  (response.status = 404 → server path = none) ∧
  (response.status = 200 → server path = some response.body) ∧
  (response.status = 206 → ∀ start stop total,
    response.contentRange = some (some (start, stop, total)) → ∃ object,
      server path = some object ∧ total = object.length ∧
        response.body = part object start (stop + 1 - start))

/-- A call that leaves a sound bucket, and never gets stuck. -/
abbrev Safe (o : HttpOptions) (server : Path → Option Bytes) {α : Type} (x : Call α)
    (Q : α → Prop) : Prop :=
  EStateM.Keeps (fun b => Sound o b server) (· ≠ .stuck) x Q

theorem safe_expect {α : Type} {x : HttpBucket → Option (α × HttpBucket)} {Q : α → Prop}
    (h : ∀ b, Sound o b server → ∃ r, x b = some r ∧ Sound o r.2 server ∧ Q r.1) :
    Safe o server (expect x) Q := by
  intro b hb
  obtain ⟨⟨a, b'⟩, hx, hsound, hQ⟩ := h b hb
  unfold expect
  rw [hx]
  exact ⟨hsound, hQ⟩

theorem safe_expectState {x : HttpBucket → Option HttpBucket}
    (h : ∀ b, Sound o b server → ∃ b', x b = some b' ∧ Sound o b' server) :
    Safe o server (expectState x) fun _ => True := by
  refine safe_expect fun b hb => ?_
  obtain ⟨b', hx, hsound⟩ := h b hb
  exact ⟨((), b'), by rw [hx]; rfl, hsound, trivial⟩

theorem safe_check {p : Prop} [Decidable p] {e : HttpError} (he : e ≠ .stuck) :
    Safe o server (check p e) fun _ => p := EStateM.keeps_ensure he

theorem safe_finishRequest {response : Option Response}
    (h : ∀ r, response = some r → Answers server path r) :
    Safe o server (finishRequest path response) fun r => (r = none → server path = none) ∧
      ∀ r', r = some r' → (r'.status = 200 ∨ r'.status = 206) ∧ Answers server path r' := by
  cases response with
  | none => exact EStateM.keeps_throw (by simp)
  | some response =>
      refine EStateM.keeps_ite (fun hmissing => EStateM.keeps_pure
        ⟨fun _ => (h _ rfl).1 hmissing, fun r' hr => by cases hr⟩) fun _ => ?_
      refine (safe_check (by simp)).bind fun _ hstatus => ?_
      refine (safe_check (by simp)).bind fun _ _ => EStateM.keeps_pure
        ⟨fun hnone => absurd hnone (Option.some_ne_none _), fun r' hr => ?_⟩
      cases hr
      exact ⟨hstatus, h _ rfl⟩

/-- **What is taken for the whole object is the whole object.** -/
theorem safe_complete {response : Response} (h : Answers server path response) :
    Safe o server (complete o path response) fun bytes => server path = some bytes := by
  refine (safe_check (by simp)).bind fun _ hstatus => ?_
  have hwhole := h.2.1 hstatus.1
  refine (safe_check (by simp)).bind fun _ _ => EStateM.keeps_get.bind fun b _ => ?_
  refine (safe_check (by simp)).bind fun _ _ => ?_
  refine (safe_expectState fun b hb => rememberLength_spec hb path _).bind fun _ _ => ?_
  refine (safe_expectState fun b hb => persist_spec hb (right_whole hwhole)).bind fun _ _ => ?_
  refine (safe_expectState fun b hb => keepWhole_spec hb hwhole).bind fun _ _ => ?_
  exact EStateM.keeps_pure hwhole

/-- **What is taken for a range is that range.** -/
theorem safe_acceptRange {response : Response} (hstatus : response.status = 206)
    (h : Answers server path response) :
    Safe o server (acceptRange o path offset length response) fun bytes =>
      Slice server path offset bytes ∧ bytes.length = length := by
  unfold acceptRange
  dsimp only
  split
  · rename_i start stop total hrange
    refine EStateM.keeps_get.bind fun b _ => (safe_check (by simp)).bind fun _ hcheck => ?_
    obtain ⟨-, rfl, hstop, hlength, htotal, -⟩ := hcheck
    obtain ⟨object, hobject, rfl, hbody⟩ := h.2.2 hstatus _ _ _ hrange
    have hslice : Slice server path start response.body := by
      refine ⟨object, hobject, by omega, ?_⟩
      rw [hlength]
      rw [part, show stop + 1 - start = length by omega] at hbody
      exact hbody.symm
    refine (safe_expectState fun b hb => rememberLength_spec hb path _).bind fun _ _ => ?_
    refine (safe_expectState fun b hb => rememberRange_spec hb hslice).bind fun _ _ => ?_
    exact EStateM.keeps_pure ⟨hslice, hlength⟩
  · exact EStateM.keeps_throw (by simp)

end Responses

end HttpBucket

end Zsqlite
