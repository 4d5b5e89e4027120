import Zsqlite.Domain
import Zsqlite.Lib.Assoc
import Zsqlite.Lib.Slide
import Zsqlite.Lib.Wire

set_option autoImplicit false

/-! # The browser's disk cache

`disk-cache.mts`: an append log of records, each with its key and checksums, and an index of the
records that are kept, in the order of their last use. When the log is full, records are dropped
and the others are slid together in place. Opening a log scans it up to the first record that does
not check.

Keys are represented by their UTF-8 encoding. The decoder drops a byte order mark, so a key that
starts with one comes back as another key.
-/

namespace Zsqlite

open ByteVec Wire Assoc

namespace DiskCache

abbrev Key := Bytes

def headerSize : Nat := 20

/-- `ZCS1` -/
def magic : Nat := 0x3153435a

/-! ## Checksums -/

def crcShift (i : Nat) : Nat := (i >>> 1) ^^^ (if i &&& 1 = 1 then 0xedb88320 else 0)

/-- An entry of the table. -/
def crcEntry (i : Nat) : Nat := Nat.repeat crcShift 8 i

def checksum (bytes : Bytes) : Nat :=
  bytes.foldl (fun crc byte => (crc >>> 8) ^^^ crcEntry ((crc ^^^ byte.toNat) &&& 255))
    0xffffffff ^^^ 0xffffffff

/-! ## Files -/

/-- What is done to the file. -/
inductive Effect where
  | copy (src dst len : Nat)
  | write (start : Nat) (bytes : Bytes)
  | truncate (size : Nat)

def Effect.apply : Effect → Bytes → Bytes
  | .copy src dst len, file => ByteVec.copy file src dst len
  | .write start bytes, file => overwrite file start bytes
  | .truncate size, file => resize file size

/-- An effect of which only the first bytes came about. -/
def Effect.partially (torn : Nat) : Effect → Bytes → Bytes
  | .copy src dst len, file => ByteVec.copy file src dst (min torn len)
  | .write start bytes, file => overwrite file start (bytes.take torn)
  | .truncate _, file => file

def applyAll (effects : List Effect) (file : Bytes) : Bytes :=
  effects.foldl (fun file e => e.apply file) file

/-- The file when only `done` effects, and part of the next one, came about. -/
def interrupted (effects : List Effect) (done torn : Nat) (file : Bytes) : Bytes :=
  match effects[done]? with
  | none => applyAll effects file
  | some e => e.partially torn (applyAll (effects.take done) file)

end DiskCache

open DiskCache

/-! ## The cache -/

structure DiskEntry where
  start : Nat
  keySize : Nat
  bytes : Nat
  total : Nat
  crc : Nat
  deriving DecidableEq, Repr

/-- The cache over its file; it does nothing any more once its handle is closed. -/
structure DiskCache where
  file : Bytes
  opened : Bool
  budget : Nat
  entries : List (Key × DiskEntry)
  liveBytes : Nat
  size : Nat

namespace DiskCache

variable (c : DiskCache)

def delete (key : Key) : DiskCache :=
  match c.entries.lookup key with
  | none => c
  | some e => { c with
      liveBytes := c.liveBytes - e.total
      entries := c.entries.filter fun p => p.1 ≠ key }

/-- The bytes of a record's payload. -/
def payload (file : Bytes) (e : DiskEntry) : Bytes :=
  window file (e.start + headerSize + e.keySize) e.bytes

def get (key : Key) : Option Bytes × DiskCache :=
  if c.opened = false then (none, c)
  else
    match c.entries.lookup key with
    | none => (none, c)
    | some e =>
        if c.file.length < e.start + headerSize + e.keySize + e.bytes then
          (none, { c with opened := false })
        else if checksum (payload c.file e) ≠ e.crc then (none, c.delete key)
        else (some (payload c.file e), { c with
          entries := (c.entries.filter fun p => p.1 ≠ key) ++ [(key, e)] })

/-! ### Compaction -/

/-- Drop the least recently used records; `none` is a loop that does not end. -/
def evict (target : Nat) : List (Key × DiskEntry) → Nat → Option (List (Key × DiskEntry) × Nat)
  | [], live => if live ≤ target then some ([], live) else none
  | entry :: entries, live =>
      if live ≤ target then some (entry :: entries, live)
      else evict target entries (live - entry.2.total)

def bufferSize : Nat := 64 * 1024

/-- The copies of one record. -/
def chunkCopies (src dst total copied : Nat) : List Effect :=
  if copied < total then
    .copy (src + copied) (dst + copied) (min bufferSize (total - copied)) ::
      chunkCopies src dst total (copied + bufferSize)
  else []
termination_by total - copied
decreasing_by
  unfold bufferSize
  omega

/-- The copies of records in physical order. -/
def moves : Nat → List (Key × DiskEntry) → List Effect
  | _, [] => []
  | position, (_, e) :: rest =>
      (if e.start ≠ position then chunkCopies e.start position e.total 0 else []) ++
        moves (position + e.total) rest

/-- Where the records end up. -/
def place : Nat → List (Key × DiskEntry) → List (Key × DiskEntry)
  | _, [] => []
  | position, (key, e) :: rest =>
      (key, { e with start := position }) :: place (position + e.total) rest

def totals (entries : List (Key × DiskEntry)) : Nat := (entries.map fun p => p.2.total).sum

def ordered (entries : List (Key × DiskEntry)) : List (Key × DiskEntry) :=
  entries.insertionSort fun a b => a.2.start ≤ b.2.start

/-- `compact`, with what it does to the file. The records keep their order of use. -/
def compact (incoming : Nat) : Option (List Effect × DiskCache) := do
  let (entries, live) ← evict (min (c.budget - incoming) (c.budget * 4 / 5)) c.entries c.liveBytes
  let placed := place 0 (ordered entries)
  let effects := moves 0 (ordered entries) ++ [.truncate (totals entries)]
  return (effects, { c with
    file := applyAll effects c.file
    entries := entries.map fun p => (p.1, (placed.lookup p.1).getD p.2)
    liveBytes := live
    size := totals entries })

/-! ### Insertion -/

/-- The header of a record. -/
def header (keySize bytes crc keyCrc : Nat) : Bytes :=
  leBytes 4 magic ++ (leBytes 4 keySize ++ (leBytes 4 bytes ++ (leBytes 4 crc ++ leBytes 4 keyCrc)))

/-- Append a record, its header last. -/
def append (key : Key) (bytes : Bytes) : List Effect × DiskCache :=
  let effects := [
    .write (c.size + headerSize) key,
    .write (c.size + headerSize + key.length) bytes,
    .write c.size (header key.length bytes.length (checksum bytes) (checksum key))]
  let total := headerSize + key.length + bytes.length
  (effects, { c with
    file := applyAll effects c.file
    entries := c.entries ++ [(key, ⟨c.size, key.length, bytes.length, total, checksum bytes⟩)]
    size := c.size + total
    liveBytes := c.liveBytes + total })

/-- Whether `put` writes anything. -/
def takes (key : Key) (bytes : Bytes) : Bool :=
  c.opened && (c.entries.lookup key).isNone && !bytes.isEmpty &&
    decide (key.length ≤ 1024 ∧ bytes.length ≤ 0xffffffff ∧
      headerSize + key.length + bytes.length ≤ c.budget)

def put (key : Key) (bytes : Bytes) : Option (List Effect × DiskCache) :=
  if c.takes key bytes then do
    let total := headerSize + key.length + bytes.length
    let (before, c) ← (if c.budget < c.size + total then c.compact total else some ([], c))
    let (after, c) := c.append key bytes
    return (before ++ after, c)
  else some ([], c)

def clear : DiskCache :=
  if c.opened then { c with file := [], entries := [], size := 0, liveBytes := 0 } else c

/-! ### Opening -/

/-- A word of the header at `start`. -/
def word (file : Bytes) (start i : Nat) : Nat := leNat (window file (start + 4 * i) 4)

/-- The record at `start`, when its header and its key check: the bytes of the key, and its entry. -/
def recordAt (file : Bytes) (budget start : Nat) : Option (Bytes × DiskEntry) :=
  if start + headerSize ≤ file.length then
    let keySize := word file start 1
    let bytes := word file start 2
    let total := headerSize + keySize + bytes
    if word file start 0 ≠ magic ∨ keySize < 1 ∨ 1024 < keySize ∨ bytes < 1 ∨ budget < total ∨
        file.length < start + total then none
    else
      let key := window file (start + headerSize) keySize
      if checksum key ≠ word file start 4 then none
      else some (key, ⟨start, keySize, bytes, total, word file start 3⟩)
  else none

theorem recordAt_total {file : Bytes} {budget start : Nat} {r : Bytes × DiskEntry}
    (h : recordAt file budget start = some r) :
    0 < r.2.total ∧ start + r.2.total ≤ file.length := by
  unfold recordAt at h
  split at h
  · dsimp only at h
    split at h
    · cases h
    · rename_i hno
      split at h
      · cases h
      · cases h
        simp only [not_or, Nat.not_lt] at hno
        unfold headerSize at hno ⊢
        dsimp only
        omega
  · cases h

/-- The records a scan meets. -/
def walk (file : Bytes) (budget start : Nat) : List (Bytes × DiskEntry) :=
  match _h : recordAt file budget start with
  | none => []
  | some r => r :: walk file budget (start + r.2.total)
termination_by file.length - start
decreasing_by
  have := recordAt_total _h
  omega

section Keys

variable (utf8 : Bytes → Bool)

/-- The decoder of keys: fatal, and without the option to keep a byte order mark. -/
def decodeKey (bytes : Bytes) : Option Key :=
  if utf8 bytes then
    some (if bytes.take 3 = [0xef, 0xbb, 0xbf] then bytes.drop 3 else bytes)
  else none

/-- Index the records met, up to a key that cannot be decoded. -/
def index : List (Bytes × DiskEntry) → DiskCache → Except DiskCache DiskCache
  | [], c => .ok c
  | (bytes, e) :: rest, c =>
      match decodeKey utf8 bytes with
      | none => .error c
      | some key =>
          index rest { c.delete key with
            entries := (c.delete key).entries ++ [(key, e)]
            liveBytes := (c.delete key).liveBytes + e.total
            size := c.size + e.total }

/-- `scan` of a file that has just been opened, with what it does to the file. -/
def scan (file : Bytes) (budget : Nat) : Option (List Effect × DiskCache) :=
  match index utf8 (walk file budget 0) ⟨file, true, budget, [], 0, 0⟩ with
  | .error c => some ([], { c with opened := false })
  | .ok c => do
      let cut : List Effect := [.truncate c.size]
      let c := { c with file := applyAll cut c.file }
      let (after, c) ← (if c.budget < c.size then c.compact 0 else some ([], c))
      return (cut ++ after, c)

end Keys

/-! ## Runs -/

/-- Calls, and crashes in the middle of an insertion or of opening. -/
inductive Op where
  | put (key : Key) (bytes : Bytes)
  | get (key : Key)
  | delete (key : Key)
  | clear
  | reopen (budget : Nat)
  | crashPut (key : Key) (bytes : Bytes) (done torn : Nat)
  | crashReopen (budget done torn : Nat)

/-- A cache whose process has gone. -/
def crashed (file : Bytes) : DiskCache := ⟨file, false, c.budget, [], 0, 0⟩

def step (utf8 : Bytes → Bool) : Op → Option DiskCache
  | .put key bytes => (c.put key bytes).map Prod.snd
  | .get key => some (c.get key).2
  | .delete key => some (c.delete key)
  | .clear => some c.clear
  | .reopen budget => (scan utf8 c.file budget).map Prod.snd
  | .crashPut key bytes done torn =>
      (c.put key bytes).map fun r => c.crashed (interrupted r.1 done torn c.file)
  | .crashReopen budget done torn =>
      (scan utf8 c.file budget).map fun r => c.crashed (interrupted r.1 done torn c.file)

def run (utf8 : Bytes → Bool) (ops : List Op) : Option DiskCache :=
  ops.foldlM (fun c op => c.step utf8 op) ⟨[], false, 0, [], 0, 0⟩

/-- What an operation puts under a key. -/
def Op.puts : Op → Option (Key × Bytes)
  | .put key bytes => some (key, bytes)
  | .crashPut key bytes _ _ => some (key, bytes)
  | _ => none

/-- Whether the process goes in the middle of an operation. -/
def Op.crashes : Op → Bool
  | .crashPut _ _ _ _ => true
  | .crashReopen _ _ _ => true
  | _ => false

/-- A record of the log, with the checksum that its header gives for the payload. -/
structure Seg where
  key : Bytes
  payload : Bytes
  crc : Nat

namespace Seg

def encode (s : Seg) : Bytes :=
  header s.key.length s.payload.length s.crc (checksum s.key) ++ (s.key ++ s.payload)

def total (s : Seg) : Nat := headerSize + s.key.length + s.payload.length

/-- Its entry, when it stands at `start`. -/
def entry (s : Seg) (start : Nat) : DiskEntry :=
  ⟨start, s.key.length, s.payload.length, s.total, s.crc⟩

/-- The fields fit the words of the header. -/
structure Sized (s : Seg) : Prop where
  key : s.key.length ≤ 1024
  payload : s.payload.length ≤ 0xffffffff
  crc : s.crc < 2 ^ 32

theorem length_encode (s : Seg) : s.encode.length = s.total := by
  simp only [encode, header, List.length_append, length_leBytes, total, headerSize]
  omega

theorem total_pos (s : Seg) : 0 < s.total := by
  unfold total headerSize
  omega

end Seg

/-- The log of records. -/
def bytesOf (segs : List Seg) : Bytes := segs.flatMap Seg.encode

theorem bytesOf_append (a b : List Seg) : bytesOf (a ++ b) = bytesOf a ++ bytesOf b :=
  List.flatMap_append

theorem bytesOf_cons (s : Seg) (segs : List Seg) : bytesOf (s :: segs) = s.encode ++ bytesOf segs :=
  List.flatMap_cons

theorem crcEntry_lt {i : Nat} (h : i < 2 ^ 32) : crcEntry i < 2 ^ 32 := by
  have hshift : ∀ j, j < 2 ^ 32 → crcShift j < 2 ^ 32 := by
    intro j hj
    unfold crcShift
    refine Nat.xor_lt_two_pow ?_ ?_
    · rw [Nat.shiftRight_eq_div_pow]
      omega
    · split <;> decide
  have hrepeat : ∀ n, Nat.repeat crcShift n i < 2 ^ 32 := by
    intro n
    induction n with
    | zero => exact h
    | succ n ih => exact hshift _ ih
  exact hrepeat 8

theorem checksum_lt (bytes : Bytes) : checksum bytes < 2 ^ 32 := by
  unfold checksum
  refine Nat.xor_lt_two_pow ?_ (by decide)
  refine List.foldlRecOn (motive := fun crc => crc < 2 ^ 32) _ _ (by decide) fun crc hcrc byte _ => ?_
  refine Nat.xor_lt_two_pow ?_ (crcEntry_lt ?_)
  · rw [Nat.shiftRight_eq_div_pow]
    omega
  · exact lt_of_le_of_lt Nat.and_le_right (by decide)

section Reading

variable {file : Bytes} {start budget : Nat}

theorem window_of_at {b : Bytes} (h : At file start b) : window file start b.length = b := by
  rw [← take_drop_eq_window h.1]
  exact h.2

theorem word_of_at {n i : Nat} (hn : n < 2 ^ 32) (h : At file (start + 4 * i) (leBytes 4 n)) :
    word file start i = n := by
  have hw := window_of_at h
  rw [length_leBytes] at hw
  rw [word, hw, leNat_leBytes (by omega)]

/-- What stands where a record stands. -/
structure Reads (file : Bytes) (start : Nat) (s : Seg) : Prop where
  magic : word file start 0 = magic
  keySize : word file start 1 = s.key.length
  bytes : word file start 2 = s.payload.length
  crc : word file start 3 = s.crc
  keyCrc : word file start 4 = checksum s.key
  key : window file (start + headerSize) s.key.length = s.key
  payload : payload file (s.entry start) = s.payload

theorem reads_of_at {s : Seg} (hs : s.Sized) (h : At file start s.encode) : Reads file start s := by
  unfold Seg.encode header at h
  simp only [at_append, List.length_append, length_leBytes] at h
  obtain ⟨⟨h₀, h₁, h₂, h₃, h₄⟩, hkey, hpayload⟩ := h
  have hk := hs.key
  have hp := hs.payload
  refine ⟨word_of_at (by decide) h₀, word_of_at (by omega) h₁, word_of_at (by omega) h₂,
    word_of_at hs.crc ?_, word_of_at (checksum_lt _) ?_, ?_, ?_⟩
  · exact h₃
  · exact h₄
  · exact window_of_at hkey
  · exact window_of_at hpayload

/-- A record that is found is the one that stands there. -/
theorem recordAt_of_at {s : Seg} (hs : s.Sized) (h : At file start s.encode)
    {r : Bytes × DiskEntry} (hr : recordAt file budget start = some r) :
    r = (s.key, s.entry start) := by
  have hreads := reads_of_at hs h
  unfold recordAt at hr
  split at hr
  · dsimp only at hr
    split at hr
    · cases hr
    · split at hr
      · cases hr
      · cases hr
        rw [hreads.keySize, hreads.bytes, hreads.crc, hreads.key]
        rfl
  · cases hr

/-- Whatever the bytes, what is found is a record. -/
theorem at_of_recordAt {r : Bytes × DiskEntry} (hr : recordAt file budget start = some r) :
    ∃ s : Seg, s.Sized ∧ At file start s.encode ∧ r = (s.key, s.entry start) := by
  have htotal := recordAt_total hr
  unfold recordAt at hr
  split at hr
  · dsimp only at hr
    split at hr
    · cases hr
    · rename_i hno
      split at hr
      · cases hr
      · rename_i hcrc
        cases hr
        simp only [not_or, Nat.not_lt, ne_eq, not_not] at hno hcrc
        dsimp only at htotal
        have hword : ∀ i, word file start i < 2 ^ 32 := fun i => leNat_window_lt _ _ _
        refine ⟨⟨window file (start + headerSize) (word file start 1),
          window file (start + headerSize + word file start 1) (word file start 2),
          word file start 3⟩, ⟨?_, ?_, hword 3⟩, ?_, ?_⟩
        · rw [length_window]
          omega
        · rw [length_window]
          have := hword 2
          omega
        · unfold Seg.encode header
          dsimp only
          rw [length_window, length_window, hcrc, ← hno.1]
          unfold word headerSize
          rw [leBytes_leNat_window, leBytes_leNat_window, leBytes_leNat_window,
            leBytes_leNat_window, leBytes_leNat_window]
          unfold headerSize word at htotal
          generalize leNat (window file (start + 4 * 1) 4) = keySize at htotal ⊢
          generalize leNat (window file (start + 4 * 2) 4) = bytes at htotal ⊢
          have h₁ := window_append file (start + 4 * 3) 4 4
          have h₂ := window_append file (start + 4 * 2) 4 8
          have h₃ := window_append file (start + 4 * 1) 4 12
          have h₄ := window_append file (start + 4 * 0) 4 16
          have h₅ := window_append file (start + 20) keySize bytes
          have h₆ := window_append file (start + 4 * 0) 20 (keySize + bytes)
          simp only [Nat.add_assoc, Nat.reduceMul, Nat.reduceAdd, Nat.add_zero] at h₁ h₂ h₃ h₄ h₅ h₆ ⊢
          rw [h₁, h₂, h₃, h₄, h₅, h₆]
          exact at_window (by omega)
        · unfold Seg.entry Seg.total
          dsimp only
          rw [length_window, length_window]
  · cases hr

end Reading

/-! ## Scanning -/

/-- What a scan meets where records stand. -/
def recordsOf : Nat → List Seg → List (Bytes × DiskEntry)
  | _, [] => []
  | start, s :: segs => (s.key, s.entry start) :: recordsOf (start + s.total) segs

section Walk

variable {file : Bytes} {budget start : Nat}

theorem walk_none (h : recordAt file budget start = none) : walk file budget start = [] := by
  rw [walk]
  split
  · rfl
  · rename_i hr
    rw [h] at hr
    cases hr

theorem walk_some {r : Bytes × DiskEntry} (h : recordAt file budget start = some r) :
    walk file budget start = r :: walk file budget (start + r.2.total) := by
  rw [walk]
  split
  · rename_i hr
    rw [h] at hr
    cases hr
  · rename_i r' hr
    rw [h] at hr
    cases hr
    rfl

/-- **Whatever the file, a scan meets records that stand one after the other.** -/
theorem walk_eq (hstart : start ≤ file.length) :
    ∃ segs : List Seg, (∀ s ∈ segs, s.Sized) ∧ walk file budget start = recordsOf start segs ∧
      At file start (bytesOf segs) := by
  induction hn : file.length - start using Nat.strongRecOn generalizing start with
  | _ n ih =>
      cases hr : recordAt file budget start with
      | none =>
          refine ⟨[], ?_, walk_none hr, hstart, rfl⟩
          intro s hs
          cases hs
      | some r =>
          obtain ⟨hpos, hle⟩ := recordAt_total hr
          obtain ⟨s, hs, hat, rfl⟩ := at_of_recordAt hr
          dsimp only at hpos hle
          obtain ⟨segs, hsized, hwalk, hrest⟩ := ih (file.length - (start + (s.entry start).total))
            (by omega) hle rfl
          refine ⟨s :: segs, fun t ht => ?_, ?_, ?_⟩
          · rcases List.mem_cons.mp ht with rfl | ht
            · exact hs
            · exact hsized t ht
          · rw [walk_some hr, hwalk]
            rfl
          · rw [bytesOf_cons]
            refine at_append.mpr ⟨hat, ?_⟩
            rw [Seg.length_encode]
            exact hrest

/-- **In a log of records, a scan meets records of it**, from the first one on. -/
theorem walk_bytesOf {segs : List Seg} (hsized : ∀ s ∈ segs, s.Sized)
    (h : At file start (bytesOf segs)) (hend : start + (bytesOf segs).length = file.length) :
    ∃ met rest, segs = met ++ rest ∧ walk file budget start = recordsOf start met := by
  induction segs generalizing start with
  | nil =>
      refine ⟨[], [], rfl, walk_none ?_⟩
      unfold recordAt headerSize
      rw [if_neg]
      rw [show bytesOf [] = [] from rfl, List.length_nil] at hend
      omega
  | cons s segs ih =>
      rw [bytesOf_cons] at h hend
      obtain ⟨hat, hrest⟩ := at_append.mp h
      rw [Seg.length_encode] at hrest
      rw [List.length_append, Seg.length_encode] at hend
      cases hr : recordAt file budget start with
      | none => exact ⟨[], s :: segs, rfl, walk_none hr⟩
      | some r =>
          obtain rfl := recordAt_of_at (hsized s List.mem_cons_self) hat hr
          obtain ⟨met, rest, rfl, hwalk⟩ := ih (fun t ht => hsized t (List.mem_cons_of_mem _ ht))
            hrest (by omega)
          refine ⟨s :: met, rest, rfl, ?_⟩
          rw [walk_some hr]
          exact congrArg (_ :: ·) hwalk

end Walk

/-! ## The index -/

/-- An entry and the record that it stands for, which `R` relates. -/
def Stands (R : Key → Seg → Prop) (segs : List Seg) (p : Key × DiskEntry) : Prop :=
  ∃ pre s post, segs = pre ++ s :: post ∧ p.2 = s.entry (bytesOf pre).length ∧ R p.1 s

/-- The index of a log of records. -/
structure Indexed (R : Key → Seg → Prop) (segs : List Seg) (c : DiskCache) : Prop where
  keys : (c.entries.map Prod.fst).Nodup
  starts : (c.entries.map fun p => p.2.start).Nodup
  live : c.liveBytes = totals c.entries
  stands : ∀ p ∈ c.entries, Stands R segs p
  size : c.size = (bytesOf segs).length

variable {R : Key → Seg → Prop} {segs : List Seg} {c : DiskCache}

theorem Stands.le {p : Key × DiskEntry} (h : Stands R segs p) :
    p.2.start + p.2.total ≤ (bytesOf segs).length ∧ 0 < p.2.total := by
  obtain ⟨pre, s, post, rfl, hp, -⟩ := h
  rw [hp, bytesOf_append, bytesOf_cons, List.length_append, List.length_append, Seg.length_encode]
  exact ⟨by unfold Seg.entry; dsimp only; omega, s.total_pos⟩

/-- **Records do not overlap.** -/
theorem Stands.disjoint {p q : Key × DiskEntry} (hp : Stands R segs p) (hq : Stands R segs q)
    (h : p.2.start < q.2.start) : p.2.start + p.2.total ≤ q.2.start := by
  obtain ⟨pre, s, post, hsegs, hp, -⟩ := hp
  obtain ⟨pre', s', post', hsegs', hq, -⟩ := hq
  rw [hp, hq] at h ⊢
  unfold Seg.entry at h ⊢
  dsimp only at h ⊢
  rcases List.append_eq_append_iff.mp (hsegs.symm.trans hsegs') with ⟨t, ht, hs⟩ | ⟨t, ht, -⟩
  · cases t with
    | nil =>
        rw [List.append_nil] at ht
        rw [ht] at h
        omega
    | cons u t =>
        rw [List.cons_append, List.cons.injEq] at hs
        rw [ht, bytesOf_append, bytesOf_cons, List.length_append, List.length_append, ← hs.1,
          Seg.length_encode]
        omega
  · rw [ht, bytesOf_append, List.length_append] at h
    omega

theorem totals_cons (p : Key × DiskEntry) (entries : List (Key × DiskEntry)) :
    totals (p :: entries) = p.2.total + totals entries := by
  rw [totals, List.map_cons, List.sum_cons, totals]

theorem totals_perm {a b : List (Key × DiskEntry)} (h : a.Perm b) : totals a = totals b :=
  (h.map _).sum_eq

/-- The order of use does not matter. -/
theorem Indexed.perm (h : Indexed R segs c) {entries : List (Key × DiskEntry)}
    (hperm : c.entries.Perm entries) : Indexed R segs { c with entries := entries } where
  keys := (hperm.map _).nodup_iff.mp h.keys
  starts := (hperm.map _).nodup_iff.mp h.starts
  live := h.live.trans (totals_perm hperm)
  stands p hp := h.stands p (hperm.mem_iff.mpr hp)
  size := h.size

/-- Dropping entries. -/
theorem Indexed.delete (h : Indexed R segs c) (key : Key) :
    Indexed R segs (c.delete key) ∧ key ∉ (c.delete key).entries.map Prod.fst := by
  unfold DiskCache.delete
  split
  · rename_i hnone
    exact ⟨h, notMem_of_lookup hnone⟩
  · rename_i e he
    have hsub : (c.entries.filter fun p => decide (p.1 ≠ key)).Sublist c.entries :=
      List.filter_sublist
    refine ⟨⟨h.keys.sublist (hsub.map _), h.starts.sublist (hsub.map _), ?_,
      fun p hp => h.stands p (hsub.subset hp), h.size⟩, ?_⟩
    · have htotal := totals_perm (perm_lookup h.keys he)
      rw [← h.live] at htotal
      dsimp only
      rw [htotal, totals_cons, Nat.add_sub_cancel_left]
    · intro hmem
      obtain ⟨p, hp, hkey⟩ := List.mem_map.mp hmem
      exact of_decide_eq_true (List.mem_filter.mp hp).2 hkey

/-- Adding the entry of a record at the end of the log. -/
theorem Indexed.add (h : Indexed R segs c) {key : Key} (hkey : key ∉ c.entries.map Prod.fst)
    {s : Seg} (hs : R key s) : Indexed R (segs ++ [s]) { c with
      entries := c.entries ++ [(key, s.entry c.size)]
      liveBytes := c.liveBytes + s.total
      size := c.size + s.total } where
  keys := by
    rw [List.map_append, List.map_singleton]
    refine List.nodup_append.mpr ⟨h.keys, List.nodup_singleton _, fun a ha b hb => ?_⟩
    rw [List.mem_singleton.mp hb]
    rintro rfl
    exact hkey ha
  starts := by
    rw [List.map_append, List.map_singleton]
    refine List.nodup_append.mpr ⟨h.starts, List.nodup_singleton _, fun a ha b hb => ?_⟩
    obtain ⟨p, hp, rfl⟩ := List.mem_map.mp ha
    rw [List.mem_singleton.mp hb]
    have := (h.stands p hp).le
    have := h.size
    unfold Seg.entry
    dsimp only
    omega
  live := by
    rw [totals, List.map_append, List.sum_append, List.map_singleton, List.sum_singleton]
    exact congrArg (· + s.total) h.live
  stands p hp := by
    rcases List.mem_append.mp hp with hp | hp
    · obtain ⟨pre, t, post, rfl, hp, ht⟩ := h.stands p hp
      exact ⟨pre, t, post ++ [s], by simp, hp, ht⟩
    · rw [List.mem_singleton.mp hp]
      exact ⟨segs, s, [], rfl, by rw [h.size], hs⟩
  size := by
    dsimp only
    rw [bytesOf_append, List.length_append, ← h.size, bytesOf_cons, List.length_append,
      Seg.length_encode]
    rfl

/-! ## Compaction -/

/-- **Eviction ends**, and leaves the records used last. -/
theorem evict_total (target : Nat) (entries : List (Key × DiskEntry)) :
    ∃ kept, evict target entries (totals entries) = some (kept, totals kept) ∧
      kept.Sublist entries ∧ totals kept ≤ target := by
  induction entries with
  | nil => exact ⟨[], if_pos (Nat.zero_le _), .slnil, Nat.zero_le _⟩
  | cons p entries ih =>
      by_cases hfits : totals (p :: entries) ≤ target
      · exact ⟨p :: entries, if_pos hfits, .refl _, hfits⟩
      · obtain ⟨kept, hevict, hsub, hle⟩ := ih
        refine ⟨kept, ?_, hsub.cons _, hle⟩
        rw [evict, if_neg hfits, totals_cons, Nat.add_sub_cancel_left, hevict]

theorem perm_ordered (entries : List (Key × DiskEntry)) : (ordered entries).Perm entries :=
  List.perm_insertionSort _ _

/-- The place of a record in the file. -/
def range (p : Key × DiskEntry) : Nat × Nat := (p.2.start, p.2.total)

/-- Records in physical order follow one another. -/
theorem ahead_ordered (h : Indexed R segs c) {kept : List (Key × DiskEntry)}
    (hsub : kept.Sublist c.entries) :
    Ahead 0 ((ordered kept).map range) (bytesOf segs).length := by
  have hmem : ∀ p ∈ ordered kept, Stands R segs p := fun p hp =>
    h.stands p (hsub.subset ((perm_ordered kept).mem_iff.mp hp))
  have hnodup : ((ordered kept).map fun p => p.2.start).Nodup :=
    ((perm_ordered kept).map _).nodup_iff.mpr (h.starts.sublist (hsub.map _))
  have hsorted : (ordered kept).Pairwise fun a b => a.2.start ≤ b.2.start :=
    List.pairwise_insertionSort _ _
  -- From any position before the records that are left.
  have key : ∀ (l : List (Key × DiskEntry)) (pos : Nat), (∀ p ∈ l, Stands R segs p) →
      (l.map fun p => p.2.start).Nodup → (l.Pairwise fun a b => a.2.start ≤ b.2.start) →
      (∀ p ∈ l, pos ≤ p.2.start) → pos ≤ (bytesOf segs).length →
      Ahead pos (l.map range) (bytesOf segs).length := by
    intro l
    induction l with
    | nil => exact fun pos _ _ _ _ hle => hle
    | cons p l ih =>
        intro pos hst hnd hs hpos hle
        rw [List.map_cons, List.nodup_cons] at hnd
        obtain ⟨hfirst, hs⟩ := List.pairwise_cons.mp hs
        refine ⟨hpos p List.mem_cons_self, ih _ (fun q hq => hst q (List.mem_cons_of_mem _ hq))
          hnd.2 hs (fun q hq => ?_) (hst p List.mem_cons_self).le.1⟩
        refine (hst p List.mem_cons_self).disjoint (hst q (List.mem_cons_of_mem _ hq)) ?_
        refine lt_of_le_of_ne (hfirst q hq) fun heq => hnd.1 ?_
        exact List.mem_map.mpr ⟨q, hq, heq.symm⟩
  exact key _ 0 hmem hnodup hsorted (fun _ _ => Nat.zero_le _) (Nat.zero_le _)

theorem applyAll_append (a b : List Effect) (file : Bytes) :
    applyAll (a ++ b) file = applyAll b (applyAll a file) := List.foldl_append

theorem applyAll_cons (e : Effect) (effects : List Effect) (file : Bytes) :
    applyAll (e :: effects) file = applyAll effects (e.apply file) := rfl

/-- The pieces of a copy are one copy. -/
theorem applyAll_chunkCopies {src dst : Nat} (h : dst ≤ src) (total copied : Nat) (file : Bytes) :
    applyAll (chunkCopies src dst total copied) file =
      ByteVec.copy file (src + copied) (dst + copied) (total - copied) := by
  induction hn : total - copied using Nat.strongRecOn generalizing copied file with
  | _ n ih =>
      rw [chunkCopies]
      by_cases hmore : copied < total
      · rw [if_pos hmore]
        have hbuffer : 0 < bufferSize := by decide
        rw [applyAll_cons, Effect.apply, ih (total - (copied + bufferSize)) (by omega) _ _ rfl]
        by_cases hlast : total - copied ≤ bufferSize
        · have hnone : total - (copied + bufferSize) = 0 := by omega
          rw [Nat.min_eq_right hlast, hnone, copy_zero, hn]
        · have hall : bufferSize + (total - (copied + bufferSize)) = n := by omega
          rw [Nat.min_eq_left (by omega), ← Nat.add_assoc, ← Nat.add_assoc, copy_copy (by omega),
            hall]
      · have hnone : n = 0 := by omega
        rw [if_neg hmore, hnone, copy_zero]
        rfl

/-- **The copies slide the records together.** -/
theorem applyAll_moves {position : Nat} {l : List (Key × DiskEntry)} {file : Bytes}
    (h : Ahead position (l.map range) file.length) :
    applyAll (moves position l) file = slide position (l.map range) file := by
  induction l generalizing position file with
  | nil => rfl
  | cons p l ih =>
      obtain ⟨k, e⟩ := p
      obtain ⟨hpos, hrest⟩ := h
      have hle := hrest.le
      change position ≤ e.start at hpos
      change e.start + e.total ≤ file.length at hle
      have hcopy : applyAll (if e.start ≠ position then chunkCopies e.start position e.total 0 else [])
          file = ByteVec.copy file e.start position e.total := by
        split
        · exact applyAll_chunkCopies hpos e.total 0 file
        · rename_i heq
          rw [← not_not.mp heq, copy_self hle]
          rfl
      have hlen : (ByteVec.copy file e.start position e.total).length = file.length :=
        length_copy (by omega)
      rw [moves, applyAll_append, hcopy, ih]
      · rfl
      · rw [hlen]
        exact hrest.mono (Nat.add_le_add_right hpos _)

theorem sum_range (l : List (Key × DiskEntry)) : ((l.map range).map Prod.snd).sum = totals l := by
  rw [List.map_map]
  rfl

/-- The file after a compaction. -/
theorem applyAll_compact {kept : List (Key × DiskEntry)} {file : Bytes}
    (h : Ahead 0 ((ordered kept).map range) file.length) :
    applyAll (moves 0 (ordered kept) ++ [.truncate (totals kept)]) file =
      ((ordered kept).map fun p => window file p.2.start p.2.total).flatten := by
  have htake := take_slide h
  rw [sum_range, totals_perm (perm_ordered kept), Nat.zero_add, List.take_zero, List.nil_append,
    List.map_map] at htake
  have hlen : totals kept ≤ (slide 0 ((ordered kept).map range) file).length := by
    by_contra hshort
    have hl := congrArg List.length htake
    rw [List.length_take, List.length_flatten, List.map_map] at hl
    have hsum : (List.map (List.length ∘ ((fun r => window file r.1 r.2) ∘ range))
        (ordered kept)).sum = totals kept := by
      rw [← totals_perm (perm_ordered kept), totals]
      congr 1
      exact List.map_congr_left fun p _ => length_window _ _ _
    rw [hsum] at hl
    omega
  rw [applyAll_append, applyAll_moves h]
  change resize _ _ = _
  rw [resize, Nat.sub_eq_zero_of_le hlen, htake]
  exact List.append_nil _

theorem at_bytesOf (pre : List Seg) (s : Seg) (post : List Seg) :
    At (bytesOf (pre ++ s :: post)) (bytesOf pre).length s.encode := by
  have hself := at_self (bytesOf (pre ++ s :: post))
  nth_rewrite 2 [bytesOf_append] at hself
  rw [bytesOf_cons] at hself
  have hat := (at_append.mp (at_append.mp hself).2).1
  rwa [Nat.zero_add] at hat

theorem Stands.at {p : Key × DiskEntry} (h : Stands R segs p) {file : Bytes}
    (hfile : file = bytesOf segs) : ∃ s ∈ segs, p.2 = s.entry p.2.start ∧
      At file p.2.start s.encode ∧ R p.1 s := by
  obtain ⟨pre, s, post, rfl, hp, hR⟩ := h
  refine ⟨s, by simp, by rw [hp]; rfl, ?_, hR⟩
  rw [hp, hfile]
  exact at_bytesOf pre s post

/-- Records that a list of entries stands for, wherever they are. -/
def StandFor (R : Key → Seg → Prop) : List (Key × DiskEntry) → List Seg → Prop :=
  List.Forall₂ fun p s => p.2 = s.entry p.2.start ∧ R p.1 s

section Place

variable {l : List (Key × DiskEntry)} {position : Nat}

theorem keys_place (position : Nat) (l : List (Key × DiskEntry)) :
    (place position l).map Prod.fst = l.map Prod.fst := by
  induction l generalizing position with
  | nil => rfl
  | cons p l ih => rw [place, List.map_cons, ih, List.map_cons]

theorem totals_place (position : Nat) (l : List (Key × DiskEntry)) :
    totals (place position l) = totals l := by
  induction l generalizing position with
  | nil => rfl
  | cons p l ih => rw [place, totals_cons, ih, totals_cons]

/-- Placed records stand one after the other. -/
theorem stands_place {placed : List Seg} (h : StandFor R l placed) {p : Key × DiskEntry}
    (hp : p ∈ place position l) : ∃ pre s post, placed = pre ++ s :: post ∧
      p.2 = s.entry (position + (bytesOf pre).length) ∧ R p.1 s := by
  induction h generalizing position with
  | nil => cases hp
  | @cons q s l placed hq _ ih =>
      obtain ⟨k, e⟩ := q
      obtain ⟨hentry, hR⟩ := hq
      rw [place] at hp
      rcases List.mem_cons.mp hp with rfl | hp
      · refine ⟨[], s, placed, rfl, ?_, hR⟩
        dsimp only at hentry ⊢
        rw [hentry]
        rfl
      · obtain ⟨pre, t, post, rfl, hp, hR⟩ := ih hp
        have htotal : e.total = s.total := by
          dsimp only at hentry
          rw [hentry]
          rfl
        refine ⟨s :: pre, t, post, rfl, ?_, hR⟩
        rw [hp, bytesOf_cons, List.length_append, Seg.length_encode, htotal, Nat.add_assoc]

theorem le_place {p : Key × DiskEntry} (hp : p ∈ place position l) : position ≤ p.2.start := by
  induction l generalizing position with
  | nil => cases hp
  | cons q l ih =>
      rw [place] at hp
      rcases List.mem_cons.mp hp with rfl | hp
      · exact le_rfl
      · exact (Nat.le_add_right _ _).trans (ih hp)

theorem nodup_place (h : ∀ p ∈ l, 0 < p.2.total) :
    ((place position l).map fun p => p.2.start).Nodup := by
  induction l generalizing position with
  | nil => exact List.nodup_nil
  | cons q l ih =>
      rw [place, List.map_cons, List.nodup_cons]
      refine ⟨fun hmem => ?_, ih fun p hp => h p (List.mem_cons_of_mem _ hp)⟩
      obtain ⟨p, hp, heq⟩ := List.mem_map.mp hmem
      have hle := le_place hp
      have hpos := h q List.mem_cons_self
      dsimp only at heq
      omega

/-- Entries that are updated under their keys. -/
theorem map_lookup {placed : List (Key × DiskEntry)} (hkeys : (placed.map Prod.fst).Nodup)
    (hsame : placed.map Prod.fst = l.map Prod.fst) :
    (l.map fun p => (p.1, (placed.lookup p.1).getD p.2)) = placed := by
  refine List.ext_getElem? fun i => ?_
  have hi : (placed.map Prod.fst)[i]? = (l.map Prod.fst)[i]? := by rw [hsame]
  rw [List.getElem?_map, List.getElem?_map] at hi
  rw [List.getElem?_map]
  cases hp : placed[i]? with
  | none =>
      rw [hp] at hi
      rw [Option.map_eq_none_iff]
      exact Option.map_eq_none_iff.mp hi.symm
  | some q =>
      rw [hp] at hi
      obtain ⟨p, hpl, hkey⟩ := Option.map_eq_some_iff.mp hi.symm
      have hlookup := lookup_of_mem hkeys (List.mem_of_getElem? hp)
      rw [hpl, Option.map_some, hkey, hlookup]
      rfl

end Place

/-- **Compaction** returns within its target, with a log of the records kept. Every record is where
its new entry says, byte for byte as before, and was as before when it was its turn. -/
theorem Indexed.compact (h : Indexed R segs c) (hfile : c.file = bytesOf segs) (incoming : Nat) :
    ∃ kept segs' c', c.compact incoming =
        some (moves 0 (ordered kept) ++ [.truncate (totals kept)], c') ∧
      kept.Sublist c.entries ∧ Indexed R segs' c' ∧ c'.file = bytesOf segs' ∧
      (∀ s ∈ segs', s ∈ segs) ∧ c'.size ≤ c.budget - incoming ∧
      c'.size ≤ c.budget * 4 / 5 ∧ c'.budget = c.budget ∧ c'.opened = c.opened ∧
      c'.entries.map Prod.fst = kept.map Prod.fst ∧
      (∀ k e', (k, e') ∈ c'.entries → ∃ e, (k, e) ∈ kept ∧ e'.total = e.total ∧
        window c'.file e'.start e'.total = window c.file e.start e.total) ∧
      ∀ before p after, ordered kept = before ++ p :: after →
        window (applyAll (moves 0 before) c.file) p.2.start p.2.total =
          window c.file p.2.start p.2.total := by
  obtain ⟨kept, hevict, hsub, htarget⟩ :=
    evict_total (min (c.budget - incoming) (c.budget * 4 / 5)) c.entries
  have hahead := ahead_ordered h hsub
  rw [← hfile] at hahead
  have hkeys : (kept.map Prod.fst).Nodup := h.keys.sublist (hsub.map _)
  have hkeys' : ((place 0 (ordered kept)).map Prod.fst).Nodup := by
    rw [keys_place]
    exact ((perm_ordered kept).map _).nodup_iff.mpr hkeys
  have hstands : ∀ p ∈ ordered kept, Stands R segs p := fun p hp =>
    h.stands p (hsub.subset ((perm_ordered kept).mem_iff.mp hp))
  have hkept : ∀ p ∈ ordered kept, p ∈ kept := fun p hp => (perm_ordered kept).mem_iff.mp hp
  -- The records kept, in physical order, each with where it was.
  obtain ⟨segs', hfor, hin, hbytes⟩ : ∃ segs', StandFor (fun k s => R k s ∧ ∃ e, (k, e) ∈ kept ∧
        e.total = s.total ∧ window c.file e.start e.total = s.encode) (ordered kept) segs' ∧
      (∀ s ∈ segs', s ∈ segs) ∧
      ((ordered kept).map fun p => window c.file p.2.start p.2.total).flatten = bytesOf segs' := by
    clear hahead
    generalize ordered kept = l at hstands hkept
    induction l with
    | nil => exact ⟨[], .nil, by simp, rfl⟩
    | cons p l ih =>
        obtain ⟨segs', hfor, hin, hbytes⟩ := ih (fun q hq => hstands q (List.mem_cons_of_mem _ hq))
          fun q hq => hkept q (List.mem_cons_of_mem _ hq)
        obtain ⟨s, hs, hentry, hat, hR⟩ := (hstands p List.mem_cons_self).at hfile
        have htotal : p.2.total = s.total := by
          rw [hentry]
          rfl
        have hwindow : window c.file p.2.start p.2.total = s.encode := by
          rw [htotal, ← Seg.length_encode]
          exact window_of_at hat
        refine ⟨s :: segs', .cons ⟨hentry, hR, p.2, hkept p List.mem_cons_self, htotal, hwindow⟩ hfor,
          fun t ht => ?_, ?_⟩
        · rcases List.mem_cons.mp ht with rfl | ht
          · exact hs
          · exact hin t ht
        · rw [List.map_cons, List.flatten_cons, hbytes, hwindow, bytesOf_cons]
  have hperm : (kept.map fun p => (p.1, ((place 0 (ordered kept)).lookup p.1).getD p.2)).Perm
      (place 0 (ordered kept)) := by
    have hmap := map_lookup (l := ordered kept) hkeys' (keys_place 0 _)
    have := (perm_ordered kept).map fun p : Key × DiskEntry =>
      (p.1, ((place 0 (ordered kept)).lookup p.1).getD p.2)
    rw [hmap] at this
    exact this.symm
  have hresult := applyAll_compact hahead
  have hlength : totals kept = (bytesOf segs').length := by
    rw [← hbytes, List.length_flatten, List.map_map, ← totals_perm (perm_ordered kept), totals]
    congr 1
    exact List.map_congr_left fun p _ => (length_window _ _ _).symm
  have hplaced : ∀ p ∈ place 0 (ordered kept), ∃ pre s post, segs' = pre ++ s :: post ∧
      p.2 = s.entry (bytesOf pre).length ∧ R p.1 s ∧ ∃ e, (p.1, e) ∈ kept ∧ e.total = s.total ∧
        window c.file e.start e.total = s.encode := by
    intro p hp
    have hst := stands_place hfor hp
    simp only [Nat.zero_add] at hst
    exact hst
  refine ⟨kept, segs', { c with
      file := applyAll (moves 0 (ordered kept) ++ [.truncate (totals kept)]) c.file
      entries := kept.map fun p => (p.1, ((place 0 (ordered kept)).lookup p.1).getD p.2)
      liveBytes := totals kept
      size := totals kept }, ?_, hsub, ⟨?_, ?_, ?_, ?_, hlength⟩, hresult.trans hbytes, hin,
    htarget.trans (Nat.min_le_left _ _), htarget.trans (Nat.min_le_right _ _), rfl, rfl, ?_, ?_, ?_⟩
  · rw [DiskCache.compact, h.live, hevict]
    rfl
  · exact (hperm.map _).nodup_iff.mpr hkeys'
  · refine (hperm.map _).nodup_iff.mpr (nodup_place fun p hp => ?_)
    exact (hstands p hp).le.2
  · dsimp only
    rw [totals_perm hperm, totals_place, totals_perm (perm_ordered kept)]
  · intro p hp
    obtain ⟨pre, s, post, heq, hentry, hR, -⟩ := hplaced p (hperm.mem_iff.mp hp)
    exact ⟨pre, s, post, heq, hentry, hR⟩
  · rw [List.map_map]
    rfl
  · intro k e' hp
    obtain ⟨pre, s, post, heq, hentry, hR, e, he, htotal, hwindow⟩ :=
      hplaced (k, e') (hperm.mem_iff.mp hp)
    dsimp only at hentry
    have htotal' : e'.total = s.total := by
      rw [hentry]
      rfl
    have hat : At (bytesOf segs') e'.start s.encode := by
      rw [hentry, heq]
      exact at_bytesOf pre s post
    refine ⟨e, he, htotal'.trans htotal.symm, ?_⟩
    dsimp only
    rw [hresult.trans hbytes, htotal', ← Seg.length_encode, window_of_at hat, hwindow]
  · intro before p after hsplit
    rw [hsplit, List.map_append] at hahead
    rw [applyAll_moves hahead.left]
    exact slide_keeps hahead List.mem_cons_self

/-! ## Insertion -/

/-- A part written behind a gap at the end, and then the gap. -/
theorem overwrite_gap {v gap b : Bytes} {start : Nat} (hstart : start = v.length) (hgap : gap ≠ [])
    (hb : b ≠ []) :
    overwrite (overwrite v (start + gap.length) b) start gap = v ++ (gap ++ b) := by
  refine ext_getD ?_ fun i hi => ?_
  · rw [length_overwrite hgap, length_overwrite hb, List.length_append, List.length_append]
    omega
  · rw [length_overwrite hgap, length_overwrite hb] at hi
    rw [getD_overwrite, getD_overwrite]
    by_cases h₁ : start ≤ i ∧ i < start + gap.length
    · rw [if_pos h₁, List.getD_append_right _ _ _ _ (by omega),
        List.getD_append _ _ _ _ (by omega), hstart]
    · rw [if_neg h₁]
      by_cases h₂ : start + gap.length ≤ i ∧ i < start + gap.length + b.length
      · rw [if_pos h₂, List.getD_append_right _ _ _ _ (by omega),
          List.getD_append_right _ _ _ _ (by omega)]
        congr 1
        omega
      · rw [if_neg h₂, List.getD_append _ _ _ _ (by omega)]

theorem length_header (keySize bytes crc keyCrc : Nat) :
    (header keySize bytes crc keyCrc).length = headerSize := by
  simp only [header, List.length_append, length_leBytes, headerSize]

/-- The record that is appended. -/
def Seg.of (key : Key) (bytes : Bytes) : Seg := ⟨key, bytes, checksum bytes⟩

theorem file_append (hfile : c.file = bytesOf segs) (hsize : c.size = c.file.length) (key : Key)
    {bytes : Bytes} (hbytes : bytes ≠ []) :
    (c.append key bytes).2.file = bytesOf (segs ++ [Seg.of key bytes]) := by
  have hrest : key ++ bytes ≠ [] := fun h => hbytes (List.append_eq_nil_iff.mp h).2
  have hheader : header key.length bytes.length (checksum bytes) (checksum key) ≠ [] := by
    intro h
    have := congrArg List.length h
    rw [length_header] at this
    exact absurd this (by decide)
  have hgap := overwrite_gap hsize hheader hrest
  rw [length_header] at hgap
  unfold append
  simp only [applyAll_cons, Effect.apply]
  rw [overwrite_append, bytesOf_append, ← hfile]
  refine hgap.trans ?_
  rw [bytesOf_cons]
  exact congrArg (c.file ++ ·) (List.append_nil _).symm

/-! ## States -/

/-- The record that a scan takes for an entry. -/
def segAt (file : Bytes) (r : Bytes × DiskEntry) : Seg := ⟨r.1, payload file r.2, r.2.crc⟩

/-- Whatever the budget, a scan meets records with `Q` only. -/
def Readable (Q : Seg → Prop) (file : Bytes) : Prop :=
  ∀ budget, ∀ r ∈ walk file budget 0, Q (segAt file r)

/-- A cache with its index. While it is open the file is the log of the records `segs`. -/
structure Log (R : Key → Seg → Prop) (Q : Seg → Prop) (segs : List Seg) (c : DiskCache) : Prop
    extends Indexed R segs c where
  sized : ∀ s ∈ segs, s.Sized
  whole : c.opened = true → c.file = bytesOf segs ∧ c.size ≤ c.budget ∧ ∀ s ∈ segs, Q s
  closed : c.opened = false → Readable Q c.file

variable {Q : Seg → Prop}

/-- The records a scan takes are those that stand there. -/
theorem segAt_recordsOf {file : Bytes} {start : Nat} (hsized : ∀ s ∈ segs, s.Sized)
    (h : At file start (bytesOf segs)) : (recordsOf start segs).map (segAt file) = segs := by
  induction segs generalizing start with
  | nil => rfl
  | cons s segs ih =>
      rw [bytesOf_cons] at h
      obtain ⟨hat, hrest⟩ := at_append.mp h
      rw [Seg.length_encode] at hrest
      have hpayload := (reads_of_at (hsized s List.mem_cons_self) hat).payload
      rw [recordsOf, List.map_cons, ih (fun t ht => hsized t (List.mem_cons_of_mem _ ht)) hrest]
      congr 1
      unfold segAt
      dsimp only
      rw [hpayload]
      rfl

theorem readable_bytesOf (hsized : ∀ s ∈ segs, s.Sized) (hQ : ∀ s ∈ segs, Q s) :
    Readable Q (bytesOf segs) := by
  intro budget r hr
  have hself : At (bytesOf segs) 0 (bytesOf segs) := at_self _
  obtain ⟨met, rest, hsplit, hwalk⟩ : ∃ met rest, segs = met ++ rest ∧
      walk (bytesOf segs) budget 0 = recordsOf 0 met := walk_bytesOf hsized hself (Nat.zero_add _)
  have hmet : At (bytesOf segs) 0 (bytesOf met) := by
    rw [hsplit, bytesOf_append] at hself ⊢
    exact (at_append.mp hself).1
  have hsub : ∀ s ∈ met, s ∈ segs := fun s hs => by
    rw [hsplit]
    exact List.mem_append_left _ hs
  have hsegs := segAt_recordsOf (fun s hs => hsized s (hsub s hs)) hmet
  rw [hwalk] at hr
  have hmem : segAt (bytesOf segs) r ∈ met := by
    rw [← hsegs]
    exact List.mem_map_of_mem hr
  exact hQ _ (hsub _ hmem)

theorem Log.readable (h : Log R Q segs c) : Readable Q c.file := by
  cases hopen : c.opened with
  | false => exact h.closed hopen
  | true =>
      obtain ⟨hfile, -, hQ⟩ := h.whole hopen
      rw [hfile]
      exact readable_bytesOf h.sized hQ

theorem Log.mono (h : Log R Q segs c) {R' : Key → Seg → Prop} {Q' : Seg → Prop}
    (hR : ∀ k s, R k s → R' k s) (hQ : ∀ s, Q s → Q' s) : Log R' Q' segs c where
  keys := h.keys
  starts := h.starts
  live := h.live
  stands p hp := by
    obtain ⟨pre, s, post, hsegs, hentry, hs⟩ := h.stands p hp
    exact ⟨pre, s, post, hsegs, hentry, hR _ _ hs⟩
  size := h.size
  sized := h.sized
  whole hopen := by
    obtain ⟨hfile, hsize, hall⟩ := h.whole hopen
    exact ⟨hfile, hsize, fun s hs => hQ s (hall s hs)⟩
  closed hopen budget r hr := hQ _ (h.closed hopen budget r hr)

/-- A cache without entries over a file that nobody has open. -/
theorem log_closed {file : Bytes} (h : Readable Q file) (budget : Nat) :
    Log R Q [] ⟨file, false, budget, [], 0, 0⟩ where
  keys := List.nodup_nil
  starts := List.nodup_nil
  live := rfl
  stands p hp := by cases hp
  size := rfl
  sized s hs := by cases hs
  whole hopen := by cases hopen
  closed _ := h

/-! ## Calls -/

theorem delete_frame (c : DiskCache) (key : Key) : (c.delete key).file = c.file ∧
    (c.delete key).opened = c.opened ∧ (c.delete key).budget = c.budget ∧
    (c.delete key).size = c.size := by
  unfold delete
  split
  · exact ⟨rfl, rfl, rfl, rfl⟩
  · exact ⟨rfl, rfl, rfl, rfl⟩

theorem Log.delete (h : Log R Q segs c) (key : Key) : Log R Q segs (c.delete key) := by
  obtain ⟨hfile, hopen, hbudget, hsize⟩ := delete_frame c key
  refine ⟨(h.toIndexed.delete key).1, h.sized, ?_, ?_⟩
  · rw [hfile, hopen, hbudget, hsize]
    exact h.whole
  · rw [hfile, hopen]
    exact h.closed

/-- **What is read is the payload of a record**, with the checksum of its header. -/
theorem Log.get (h : Log R Q segs c) (key : Key) : Log R Q segs (c.get key).2 ∧
    ∀ bytes, (c.get key).1 = some bytes →
      ∃ s ∈ segs, R key s ∧ s.payload = bytes ∧ checksum s.payload = s.crc := by
  unfold DiskCache.get
  split
  · exact ⟨h, fun bytes hb => by cases hb⟩
  · rename_i hopen
    have hopen : c.opened = true := by simpa using hopen
    split
    · exact ⟨h, fun bytes hb => by cases hb⟩
    · rename_i e he
      obtain ⟨hfile, -, -⟩ := h.whole hopen
      obtain ⟨s, hs, hentry, hat, hR⟩ := (h.stands _ (mem_of_lookup he)).at hfile
      dsimp only at hentry hat
      have hreads := reads_of_at (h.sized s hs) hat
      have hpayload : payload c.file e = s.payload := by
        rw [hentry]
        exact hreads.payload
      -- The record is in the file, so the read is not short.
      have hlong : ¬ c.file.length < e.start + headerSize + e.keySize + e.bytes := by
        have hle := hat.1
        rw [Seg.length_encode] at hle
        have htotal : headerSize + e.keySize + e.bytes = s.total := by
          rw [hentry]
          rfl
        omega
      rw [if_neg hlong]
      split
      · exact ⟨h.delete key, fun bytes hb => by cases hb⟩
      · rename_i hcrc
        have hperm : c.entries.Perm ((c.entries.filter fun p => p.1 ≠ key) ++ [(key, e)]) :=
          (perm_lookup h.keys he).trans (List.perm_append_singleton _ _).symm
        refine ⟨⟨h.toIndexed.perm hperm, h.sized, h.whole, h.closed⟩, fun bytes hb => ?_⟩
        cases hb
        refine ⟨s, hs, hR, hpayload.symm, ?_⟩
        have hcrc := not_not.mp hcrc
        rw [hpayload] at hcrc
        rw [hcrc, hentry]
        rfl

theorem Log.clear (h : Log R Q segs c) : ∃ segs', Log R Q segs' c.clear := by
  unfold DiskCache.clear
  split
  · rename_i hopen
    have hempty : Indexed R [] { c with file := [], entries := [], size := 0, liveBytes := 0 } :=
      ⟨List.nodup_nil, List.nodup_nil, rfl, by simp, rfl⟩
    refine ⟨[], hempty, by simp, fun _ => ⟨rfl, Nat.zero_le _, by simp⟩, fun hclosed => ?_⟩
    rw [hopen] at hclosed
    cases hclosed
  · exact ⟨segs, h⟩

/-- **Insertion** returns, and the log stays within its budget. -/
theorem Log.put (h : Log R Q segs c) {key : Key} {bytes : Bytes} (hR : R key (Seg.of key bytes))
    (hQ : Q (Seg.of key bytes)) :
    ∃ effects c' segs', c.put key bytes = some (effects, c') ∧ Log R Q segs' c' := by
  unfold DiskCache.put
  split
  · rename_i htakes
    simp only [takes, Bool.and_eq_true, decide_eq_true_eq, Bool.not_eq_eq_eq_not, Bool.not_true,
      Option.isNone_iff_eq_none] at htakes
    obtain ⟨⟨⟨hopen, hkey⟩, hempty⟩, hkeySize, hbytes, htotal⟩ := htakes
    have hne : bytes ≠ [] := by
      rintro rfl
      cases hempty
    obtain ⟨hfile, hsize, hall⟩ := h.whole hopen
    -- Compacted or not, the cache has room for the record.
    obtain ⟨before, mid, segs₁, hmid, hindex, hfile₁, hsized₁, hQ₁, hopen₁, hbudget₁, hkey₁,
        hroom⟩ :
        ∃ before mid segs₁, (if c.budget < c.size + (headerSize + key.length + bytes.length) then
            c.compact (headerSize + key.length + bytes.length) else some ([], c)) =
            some (before, mid) ∧ Indexed R segs₁ mid ∧ mid.file = bytesOf segs₁ ∧
          (∀ s ∈ segs₁, s.Sized) ∧ (∀ s ∈ segs₁, Q s) ∧ mid.opened = true ∧
          mid.budget = c.budget ∧ key ∉ mid.entries.map Prod.fst ∧
          mid.size + (headerSize + key.length + bytes.length) ≤ c.budget := by
      have hnot := notMem_of_lookup hkey
      split
      · obtain ⟨kept, segs₁, mid, hcompact, hsub, hindex, hfile₁, hin, hle, -, hb, ho, hkeys, -⟩ :=
          h.toIndexed.compact hfile (headerSize + key.length + bytes.length)
        refine ⟨_, mid, segs₁, hcompact, hindex, hfile₁, fun s hs => h.sized s (hin s hs),
          fun s hs => hall s (hin s hs), ho.trans hopen, hb, ?_, by omega⟩
        rw [hkeys]
        exact fun hmem => hnot ((hsub.map _).subset hmem)
      · exact ⟨[], c, segs, rfl, h.toIndexed, hfile, h.sized, hall, hopen, rfl, hnot, by omega⟩
    dsimp only
    rw [hmid]
    have hadd := hindex.add hkey₁ hR
    refine ⟨_, _, segs₁ ++ [Seg.of key bytes], rfl,
      ⟨hadd.keys, hadd.starts, hadd.live, hadd.stands, hadd.size⟩, fun s hs => ?_,
      fun _ => ⟨?_, ?_, fun s hs => ?_⟩, fun hclosed => ?_⟩
    · rcases List.mem_append.mp hs with hs | hs
      · exact hsized₁ s hs
      · rw [List.mem_singleton.mp hs]
        exact ⟨hkeySize, hbytes, checksum_lt bytes⟩
    · exact file_append hfile₁ (by rw [hindex.size, hfile₁]) key hne
    · change mid.size + _ ≤ mid.budget
      rw [hbudget₁]
      exact hroom
    · rcases List.mem_append.mp hs with hs | hs
      · exact hQ₁ s hs
      · rw [List.mem_singleton.mp hs]
        exact hQ
    · rw [show (mid.append key bytes).2.opened = mid.opened from rfl, hopen₁] at hclosed
      cases hclosed
  · exact ⟨[], c, segs, rfl, h⟩

/-! ## Opening -/

section Opening

variable {utf8 : Bytes → Bool}

/-- Indexing records that stand behind those indexed before. By induction on the records. -/
theorem index_spec {todo : List Seg} (hQR : ∀ s k, Q s → decodeKey utf8 s.key = some k → R k s)
    (hQ : ∀ s ∈ todo, Q s) (h : Indexed R segs c) :
    (∃ c', index utf8 (recordsOf c.size todo) c = .ok c' ∧ Indexed R (segs ++ todo) c' ∧
      c'.file = c.file ∧ c'.opened = c.opened ∧ c'.budget = c.budget) ∨
    ∃ c' done rest, index utf8 (recordsOf c.size todo) c = .error c' ∧ todo = done ++ rest ∧
      Indexed R (segs ++ done) c' ∧ c'.file = c.file := by
  induction todo generalizing c segs with
  | nil => exact .inl ⟨c, rfl, by rwa [List.append_nil], rfl, rfl, rfl⟩
  | cons s todo ih =>
      rw [recordsOf, index]
      cases hkey : decodeKey utf8 s.key with
      | none => exact .inr ⟨c, [], s :: todo, rfl, rfl, by rwa [List.append_nil], rfl⟩
      | some key =>
          obtain ⟨hdelete, hnot⟩ := h.delete key
          obtain ⟨hfile, hopen, hbudget, hsize⟩ := delete_frame c key
          have hadd := hdelete.add hnot (hQR s key (hQ s List.mem_cons_self) hkey)
          rw [hsize] at hadd
          have hrest := ih (fun t ht => hQ t (List.mem_cons_of_mem _ ht)) hadd
          rcases hrest with ⟨c', hc, hindex, hf, ho, hb⟩ | ⟨c', done, rest, hc, rfl, hindex, hf⟩
          · refine .inl ⟨c', hc, ?_, hf.trans hfile, ho.trans hopen, hb.trans hbudget⟩
            rwa [List.append_assoc] at hindex
          · refine .inr ⟨c', s :: done, rest, hc, rfl, ?_, hf.trans hfile⟩
            rwa [List.append_assoc] at hindex

/-- **Opening** returns, whatever the file and the budget. -/
theorem log_scan (hQR : ∀ s k, Q s → decodeKey utf8 s.key = some k → R k s) {file : Bytes}
    (hfile : Readable Q file) (budget : Nat) :
    ∃ effects c' segs', scan utf8 file budget = some (effects, c') ∧ Log R Q segs' c' := by
  obtain ⟨segs, hsized, hwalk, hat⟩ : ∃ segs : List Seg, (∀ s ∈ segs, s.Sized) ∧
      walk file budget 0 = recordsOf 0 segs ∧ At file 0 (bytesOf segs) :=
    walk_eq (Nat.zero_le file.length)
  have hsegs := segAt_recordsOf hsized hat
  have hQ : ∀ s ∈ segs, Q s := by
    intro s hs
    rw [← hsegs] at hs
    obtain ⟨r, hr, rfl⟩ := List.mem_map.mp hs
    exact hfile budget r (by rw [hwalk]; exact hr)
  have hstart : Indexed R [] ⟨file, true, budget, [], 0, 0⟩ :=
    ⟨List.nodup_nil, List.nodup_nil, rfl, by simp, rfl⟩
  unfold scan
  rw [hwalk]
  rcases index_spec hQR hQ hstart with
    ⟨c, hc, hindex, hf, ho, hb⟩ | ⟨c, done, rest, hc, rfl, hindex, hf⟩
  · rw [hc]
    rw [List.nil_append] at hindex
    dsimp only at hf ho hb ⊢
    -- The file is cut behind the last record that checks.
    have hcut : applyAll [.truncate c.size] c.file = bytesOf segs := by
      change resize c.file c.size = _
      rw [hf, hindex.size, resize, Nat.sub_eq_zero_of_le (by have := hat.1; omega)]
      exact (List.append_nil _).trans hat.2
    have hcutIndex : Indexed R segs { c with file := applyAll [.truncate c.size] c.file } :=
      ⟨hindex.keys, hindex.starts, hindex.live, hindex.stands, hindex.size⟩
    by_cases hover : c.budget < c.size
    · rw [if_pos hover]
      obtain ⟨kept, segs', c', hcompact, -, hindex', hfile', hin, hle, -, hb', ho', -⟩ :=
        hcutIndex.compact hcut 0
      rw [hcompact]
      refine ⟨_, c', segs', rfl, hindex', fun s hs => hsized s (hin s hs), fun _ =>
        ⟨hfile', hle.trans (by rw [hb']; exact Nat.sub_le _ _), fun s hs => hQ s (hin s hs)⟩,
        fun hclosed => ?_⟩
      rw [ho'] at hclosed
      exact absurd (ho.symm.trans hclosed) (by decide)
    · rw [if_neg hover]
      refine ⟨_, _, segs, rfl, hcutIndex, hsized, fun _ => ⟨hcut, Nat.le_of_not_lt hover, hQ⟩,
        fun hclosed => ?_⟩
      exact absurd (ho.symm.trans hclosed) (by decide)
  · rw [hc]
    rw [List.nil_append] at hindex
    have hclosed : Indexed R done { c with opened := false } :=
      ⟨hindex.keys, hindex.starts, hindex.live, hindex.stands, hindex.size⟩
    refine ⟨_, _, done, rfl, hclosed, fun s hs => hsized s (List.mem_append_left _ hs),
      fun hopen => absurd hopen Bool.false_ne_true, fun _ => ?_⟩
    dsimp only at hf ⊢
    rw [hf]
    exact hfile

end Opening

/-! ## Whole runs -/

/-- **Step.** -/
theorem Log.step {utf8 : Bytes → Bool}
    (hQR : ∀ s k, Q s → decodeKey utf8 s.key = some k → R k s) (h : Log R Q segs c) (op : Op)
    (hput : ∀ p ∈ op.puts, R p.1 (Seg.of p.1 p.2) ∧ Q (Seg.of p.1 p.2))
    (hcrash : op.crashes = true → ∀ c', c.step utf8 op = some c' → Readable Q c'.file) :
    ∃ c' segs', c.step utf8 op = some c' ∧ Log R Q segs' c' := by
  cases op with
  | put key bytes =>
      obtain ⟨hR, hQ⟩ := hput (key, bytes) rfl
      obtain ⟨effects, c', segs', hc, hlog⟩ := h.put hR hQ
      exact ⟨c', segs', by rw [DiskCache.step, hc]; rfl, hlog⟩
  | get key => exact ⟨_, segs, rfl, (h.get key).1⟩
  | delete key => exact ⟨_, segs, rfl, h.delete key⟩
  | clear =>
      obtain ⟨segs', hlog⟩ := h.clear
      exact ⟨_, segs', rfl, hlog⟩
  | reopen budget =>
      obtain ⟨effects, c', segs', hc, hlog⟩ := log_scan hQR h.readable budget
      exact ⟨c', segs', by rw [DiskCache.step, hc]; rfl, hlog⟩
  | crashPut key bytes done torn =>
      obtain ⟨hR, hQ⟩ := hput (key, bytes) rfl
      obtain ⟨effects, c', segs', hc, -⟩ := h.put hR hQ
      have hstep : c.step utf8 (.crashPut key bytes done torn) =
          some (c.crashed (interrupted effects done torn c.file)) := by
        rw [DiskCache.step, hc]
        rfl
      exact ⟨_, [], hstep, log_closed (hcrash rfl _ hstep) _⟩
  | crashReopen budget done torn =>
      obtain ⟨effects, c', segs', hc, -⟩ := log_scan hQR h.readable budget
      have hstep : c.step utf8 (.crashReopen budget done torn) =
          some (c.crashed (interrupted effects done torn c.file)) := by
        rw [DiskCache.step, hc]
        rfl
      exact ⟨_, [], hstep, log_closed (hcrash rfl _ hstep) _⟩

end DiskCache

end Zsqlite
