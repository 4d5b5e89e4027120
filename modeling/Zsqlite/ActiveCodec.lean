import Zsqlite.Format
import Zsqlite.Lib.Wire

set_option autoImplicit false

/-! # The bytes of the active file's records

The fixed-size records of `format.rs` and the layout policy of `layout.rs` inside the header:
fields at hand-assigned offsets, reserved bytes that must be zero, and a checksum at the end.
Each `decode_eq_ok` says that decoding accepts exactly the encodings of admissible values. The
header is the exception: eight bytes of retired timers are ignored, so its accepted blocks are
the encodings with any timers (`ActiveHeader.decode_eq_ok`).

The checksum is a parameter. A digest is the number its bytes spell; the zero digest, where it
stands for absence, is `none`.
-/

namespace Zsqlite

open ByteVec Wire

/-- The errors of `format.rs` that its decoders return. -/
inductive FormatError where
  | version
  | invalid (text : String)
  | checksum
  deriving DecidableEq, Repr

@[irreducible] def getU16 (input : Bytes) (offset : Nat) : Nat := leNat (window input offset 2)

@[irreducible] def getU32 (input : Bytes) (offset : Nat) : Nat := leNat (window input offset 4)

@[irreducible] def getU64 (input : Bytes) (offset : Nat) : Nat := leNat (window input offset 8)

@[irreducible] def getDigest (input : Bytes) (offset : Nat) : Digest := leNat (window input offset 32)

section Fields

variable (input : Bytes) (offset : Nat) {n : Nat}

theorem getU16_lt : getU16 input offset < 2 ^ 16 := by
  unfold getU16
  exact leNat_window_lt input offset 2

theorem getU32_lt : getU32 input offset < 2 ^ 32 := by
  unfold getU32
  exact leNat_window_lt input offset 4

theorem getU64_lt : getU64 input offset < 2 ^ 64 := by
  unfold getU64
  exact leNat_window_lt input offset 8

theorem getDigest_lt : getDigest input offset < 2 ^ 256 := by
  unfold getDigest
  exact leNat_window_lt input offset 32

variable {input offset}

theorem getU16_eq (h : n < 2 ^ 16) :
    getU16 input offset = n ↔ window input offset 2 = leBytes 2 n := by
  unfold getU16
  exact leNat_window_eq h

theorem getU32_eq (h : n < 2 ^ 32) :
    getU32 input offset = n ↔ window input offset 4 = leBytes 4 n := by
  unfold getU32
  exact leNat_window_eq h

theorem getU64_eq (h : n < 2 ^ 64) :
    getU64 input offset = n ↔ window input offset 8 = leBytes 8 n := by
  unfold getU64
  exact leNat_window_eq h

theorem getDigest_eq (h : n < 2 ^ 256) :
    getDigest input offset = n ↔ window input offset 32 = leBytes 32 n := by
  unfold getDigest
  exact leNat_window_eq h

end Fields

/-! ## Layout policies -/

namespace LayoutPolicy

variable (l : LayoutPolicy)

def fixed (bytes : Nat) : Except StoreError LayoutPolicy := do
  Except.ensure (512 ≤ bytes ∧ bytes ≤ 8 * 1024 * 1024 ∧ 2 ^ Nat.log 2 bytes = bytes) .value
  return { l with frames := .fixed bytes }

def withPackTarget (bytes : Nat) : Except StoreError LayoutPolicy := do
  Except.ensure (bytes ≠ 0) .value
  return { l with packTarget := bytes }

def withLevel (level : Nat) : Except StoreError LayoutPolicy := do
  Except.ensure (1 ≤ level ∧ level ≤ 22) .value
  return { l with zstdLevel := level }

def withMaintenance (input deletions : Nat) : Except StoreError LayoutPolicy := do
  Except.ensure (input ≤ 64 * 1024 * 1024) .value
  return { l with maintenanceInput := input, deletionBudget := deletions }

/-- The cache mode and the cache bytes as they are stored. -/
def cacheFields : Nat × Nat :=
  match l.cache with
  | .automatic => (0, 0)
  | .fixed bytes => (1, bytes)

/-- The stored frame bytes: zero for one page per frame. -/
def frameField : Nat :=
  match l.frames with
  | .page => 0
  | .fixed bytes => bytes

def entries : Entries :=
  [(0, leBytes 8 l.frameField), (8, leBytes 8 l.zstdLevel), (16, leBytes 8 l.cacheFields.2),
    (24, leBytes 8 l.maintenanceInput), (32, leBytes 8 l.deletionBudget),
    (40, leBytes 8 l.packTarget), (48, leBytes 8 l.cacheFields.1)]

def encode : Bytes := puts (zeros 128) l.entries

/-- The cache capacity of a stored mode and size. -/
def decodeCache (mode bytes : Nat) : Except StoreError CacheCapacity :=
  if mode = 0 ∧ bytes = 0 then .ok .automatic
  else if mode = 1 then .ok (.fixed bytes)
  else .error .value

/-- `i32::try_from`. -/
def toI32 (n : Nat) : Except StoreError Nat := do
  Except.ensure (n < 2 ^ 31) .value
  return n

def decode (bytes : Bytes) : Except StoreError LayoutPolicy := do
  Except.ensure (window bytes 56 72 = zeros 72) .value
  let policy ← default.withLevel (← toI32 (getU64 bytes 8))
  let policy ← policy.withMaintenance (getU64 bytes 24) (getU64 bytes 32)
  let policy ← policy.withPackTarget (getU64 bytes 40)
  let cache ← decodeCache (getU64 bytes 48) (getU64 bytes 16)
  let policy := { policy with cache := cache }
  if getU64 bytes 0 ≠ 0 then policy.fixed (getU64 bytes 0) else return policy

/-- What the constructors allow, with fields of their stored widths. -/
structure Admissible : Prop where
  frames : ∀ bytes, l.frames = .fixed bytes →
    512 ≤ bytes ∧ bytes ≤ 8 * 1024 * 1024 ∧ 2 ^ Nat.log 2 bytes = bytes
  level : 1 ≤ l.zstdLevel ∧ l.zstdLevel ≤ 22
  cache : ∀ bytes, l.cache = .fixed bytes → bytes < 2 ^ 64
  maintenance : l.maintenanceInput ≤ 64 * 1024 * 1024
  deletions : l.deletionBudget < 2 ^ 64
  packTarget : l.packTarget ≠ 0 ∧ l.packTarget < 2 ^ 64

variable {l}

theorem fits_entries (l : LayoutPolicy) : Fits 128 0 l.entries := by
  simp [Fits, entries]

theorem length_encode (l : LayoutPolicy) : l.encode.length = 128 :=
  length_puts (by simp) l.fits_entries

theorem decodeCache_eq_ok {mode bytes : Nat} {cache : CacheCapacity} :
    decodeCache mode bytes = .ok cache ↔
      (mode = 0 ∧ bytes = 0 ∧ cache = .automatic) ∨ (mode = 1 ∧ cache = .fixed bytes) := by
  unfold decodeCache
  split
  · rename_i h
    obtain ⟨rfl, rfl⟩ := h
    simp [eq_comm]
  · rename_i h
    split
    · rename_i h₁
      subst h₁
      simp [eq_comm]
    · rename_i h₁
      simp only [reduceCtorEq, h₁, false_and, or_false, false_iff]
      rintro ⟨h₂, h₃, _⟩
      exact h ⟨h₂, h₃⟩

theorem frameField_lt (h : l.Admissible) : l.frameField < 2 ^ 64 := by
  unfold frameField
  cases hf : l.frames with
  | page => decide
  | fixed bytes => exact lt_of_le_of_lt (h.frames bytes hf).2.1 (by decide)

theorem cacheFields_lt (h : l.Admissible) :
    l.cacheFields.1 < 2 ^ 64 ∧ l.cacheFields.2 < 2 ^ 64 := by
  unfold cacheFields
  cases hc : l.cache with
  | automatic => decide
  | fixed bytes => exact ⟨Nat.one_lt_two_pow (by decide), h.cache bytes hc⟩

/-- A block decodes to the policy whose fields it stores. -/
theorem decode_spec {bytes : Bytes} : decode bytes = .ok l ↔
    window bytes 56 72 = zeros 72 ∧ l.Admissible ∧ getU64 bytes 0 = l.frameField ∧
    getU64 bytes 8 = l.zstdLevel ∧ getU64 bytes 16 = l.cacheFields.2 ∧
    getU64 bytes 24 = l.maintenanceInput ∧ getU64 bytes 32 = l.deletionBudget ∧
    getU64 bytes 40 = l.packTarget ∧ getU64 bytes 48 = l.cacheFields.1 := by
  have hlt : ∀ off, getU64 bytes off < 2 ^ 64 := getU64_lt bytes
  simp only [decode, withLevel, withMaintenance, withPackTarget, fixed, Except.bind_eq_ok,
    Except.ensure_eq_ok, exists_const, decodeCache_eq_ok, toI32, Except.pure_eq_ok]
  constructor
  · rintro ⟨hzero, _, ⟨hlevel, rfl⟩, _, ⟨hrange, rfl⟩, _, ⟨hinput, rfl⟩, _, ⟨htarget, rfl⟩, cache,
      hcache, h⟩
    have hcacheLt : ∀ size, cache = .fixed size → size < 2 ^ 64 := by
      rintro size rfl
      rcases hcache with ⟨_, _, h⟩ | ⟨_, h⟩
      · cases h
      · cases h
        exact hlt 16
    have hcacheFields : ∀ {l : LayoutPolicy}, l.cache = cache →
        getU64 bytes 16 = l.cacheFields.2 ∧ getU64 bytes 48 = l.cacheFields.1 := by
      intro l hl
      unfold cacheFields
      rcases hcache with ⟨h₁, h₂, h⟩ | ⟨h₁, h⟩
      · rw [hl, h]
        exact ⟨h₂, h₁⟩
      · rw [hl, h]
        exact ⟨rfl, h₁⟩
    refine ⟨hzero, ?_⟩
    split at h
    · rename_i hne
      simp only [Except.bind_eq_ok, Except.ensure_eq_ok, exists_const, Except.pure_eq_ok] at h
      obtain ⟨hframes, rfl⟩ := h
      refine ⟨⟨?_, hrange, hcacheLt, hinput, hlt 32, htarget, hlt 40⟩, rfl, rfl,
        (hcacheFields rfl).1, rfl, rfl, rfl, (hcacheFields rfl).2⟩
      intro size hsize
      cases hsize
      exact hframes
    · rename_i hzero
      obtain rfl := Except.pure_eq_ok.mp h
      refine ⟨⟨?_, hrange, hcacheLt, hinput, hlt 32, htarget, hlt 40⟩, not_not.mp hzero, rfl,
        (hcacheFields rfl).1, rfl, rfl, rfl, (hcacheFields rfl).2⟩
      intro size hsize
      cases hsize
  · rintro ⟨hzero, h, h0, h8, h16, h24, h32, h40, h48⟩
    obtain ⟨frames, packTarget, zstdLevel, cache, maintenanceInput, deletionBudget⟩ := l
    have hlevel := h.level
    simp only at h8 h24 h32 h40 hlevel
    refine ⟨hzero, _, ⟨by omega, rfl⟩, _, ⟨by omega, rfl⟩, _, ⟨by have := h.maintenance; simp only at this; omega, rfl⟩, _,
      ⟨by rw [h40]; exact h.packTarget.1, rfl⟩, cache, ?_, ?_⟩
    · cases cache with
      | automatic => exact .inl ⟨h48, h16, rfl⟩
      | fixed size => exact .inr ⟨h48, by rw [h16]; rfl⟩
    · rw [h8, h24, h32, h40]
      cases frames with
      | page => rw [if_neg (by rw [h0]; exact not_not.mpr rfl)]; rfl
      | fixed size =>
          have hframes := h.frames size rfl
          have hsize : getU64 bytes 0 = size := h0
          rw [hsize, if_pos (by omega)]
          simp only [Except.bind_eq_ok, Except.ensure_eq_ok, exists_const, Except.pure_eq_ok]
          exact ⟨hframes, trivial⟩

/-- **Layout policies.** The decoder accepts exactly the encodings of admissible policies. -/
theorem decode_eq_ok {bytes : Bytes} (hlen : bytes.length = 128) :
    decode bytes = .ok l ↔ l.Admissible ∧ bytes = l.encode := by
  rw [decode_spec, encode, eq_puts_iff l.fits_entries hlen, and_left_comm]
  refine and_congr_right fun h => ?_
  rw [getU64_eq (frameField_lt h), getU64_eq (lt_of_le_of_lt h.level.2 (by decide)),
    getU64_eq (cacheFields_lt h).2, getU64_eq (lt_of_le_of_lt h.maintenance (by decide)),
    getU64_eq h.deletions, getU64_eq h.packTarget.2, getU64_eq (cacheFields_lt h).1]
  simp only [Matches, entries, length_leBytes]
  constructor
  · rintro ⟨hzero, h0, h8, h16, h24, h32, h40, h48⟩
    exact ⟨rfl, h0, rfl, h8, rfl, h16, rfl, h24, rfl, h32, rfl, h40, rfl, h48, hzero⟩
  · rintro ⟨-, h0, -, h8, -, h16, -, h24, -, h32, -, h40, -, h48, hzero⟩
    exact ⟨hzero, h0, h8, h16, h24, h32, h40, h48⟩

end LayoutPolicy

/-! ## Checksummed sectors -/

def formatVersion : Nat := 1

/-- `ZSQLAC01` -/
def activeMagic : Bytes := [0x5a, 0x53, 0x51, 0x4c, 0x41, 0x43, 0x30, 0x31]

/-- `ZSQLAS01` -/
def activeStateMagic : Bytes := [0x5a, 0x53, 0x51, 0x4c, 0x41, 0x53, 0x30, 0x31]

/-- `PFR1` -/
def frameMagic : Bytes := [0x50, 0x46, 0x52, 0x31]

variable (crc : Bytes → UInt32)

/-- The checksum in the last four bytes of a record of `n` bytes is right. -/
def checkRecord (n : Nat) (input : Bytes) : Except FormatError Unit :=
  Except.ensure (getU32 input (n - 4) = (crc (window input 0 (n - 4))).toNat) .checksum

def checkSector (input magic : Bytes) : Except FormatError Unit := do
  Except.ensure (window input 0 8 = magic) (.invalid "invalid magic")
  Except.ensure (getU16 input 8 = formatVersion) .version
  checkRecord crc sectorSize input

/-! ## Active states -/

namespace ActiveState

variable (s : ActiveState)

def entries : Entries :=
  [(0, activeStateMagic), (8, leBytes 2 formatVersion), (16, leBytes 32 s.databaseId),
    (48, leBytes 8 s.sequence), (56, leBytes 8 s.txid), (64, leBytes 8 s.logicalSize),
    (72, leBytes 4 s.pageSize), (80, leBytes 32 s.history), (112, leBytes 8 s.commitUnix),
    (120, leBytes 8 s.recordCount)] ++
  (match s.truncatePages with
    | some pages => [(128, [1]), (132, leBytes 4 pages)]
    | none => []) ++
  [(136, leBytes 8 s.firstCommitUnix)]

def encode : Bytes := putChecksum crc sectorSize (puts (zeros sectorSize) s.entries)

/-- The truncate boundary: a tag byte, then a page count. -/
def decodeTruncate (tag : Bytes) (pages : Nat) : Except FormatError (Option Nat) :=
  if tag = [0] ∧ pages = 0 then .ok none
  else if tag = [1] then .ok (some pages)
  else .error (.invalid "invalid active truncate boundary")

def decode (input : Bytes) : Except FormatError ActiveState := do
  checkSector crc input activeStateMagic
  let truncatePages ← decodeTruncate (window input 128 1) (getU32 input 132)
  let output : ActiveState :=
    { databaseId := getDigest input 16
      sequence := getU64 input 48
      txid := getU64 input 56
      logicalSize := getU64 input 64
      pageSize := getU32 input 72
      history := getDigest input 80
      commitUnix := getU64 input 112
      firstCommitUnix := getU64 input 136
      recordCount := getU64 input 120
      truncatePages }
  Except.ensure (output.valid = true ∧ window input 10 6 = zeros 6 ∧ window input 76 4 = zeros 4 ∧
      window input 129 3 = zeros 3 ∧ window input 144 (sectorSize - 4 - 144) = zeros (sectorSize - 4 - 144))
    (.invalid "invalid active state")
  return output

/-- The fields have the widths of their types. -/
structure Typed : Prop where
  databaseId : s.databaseId < 2 ^ 256
  sequence : s.sequence < 2 ^ 64
  txid : s.txid < 2 ^ 64
  logicalSize : s.logicalSize < 2 ^ 64
  pageSize : s.pageSize < 2 ^ 32
  history : s.history < 2 ^ 256
  commitUnix : s.commitUnix < 2 ^ 64
  firstCommitUnix : s.firstCommitUnix < 2 ^ 64
  recordCount : s.recordCount < 2 ^ 64
  truncatePages : ∀ pages, s.truncatePages = some pages → pages < 2 ^ 32

variable {s}

theorem fits_entries (s : ActiveState) : Fits (sectorSize - 4) 0 s.entries := by
  unfold entries
  cases s.truncatePages <;> simp [Fits, activeStateMagic, sectorSize]

theorem decodeTruncate_eq_ok {tag : Bytes} {pages : Nat} {t : Option Nat} :
    decodeTruncate tag pages = .ok t ↔
      (tag = [0] ∧ pages = 0 ∧ t = none) ∨ (tag = [1] ∧ t = some pages) := by
  unfold decodeTruncate
  split
  · rename_i h
    obtain ⟨rfl, rfl⟩ := h
    simp [eq_comm]
  · rename_i h
    split
    · rename_i h₁
      subst h₁
      simp [eq_comm]
    · rename_i h₁
      simp only [reduceCtorEq, h₁, false_and, or_false, false_iff]
      rintro ⟨h₂, h₃, _⟩
      exact h ⟨h₂, h₃⟩

/-- **Active states.** The decoder accepts exactly the encodings of valid states. -/
theorem decode_eq_ok {input : Bytes} (hlen : input.length = sectorSize) :
    decode crc input = .ok s ↔ s.Typed ∧ s.valid = true ∧ input = s.encode crc := by
  rw [encode, eq_putChecksum_iff (by decide) s.fits_entries hlen]
  simp only [decode, checkSector, checkRecord, Except.bind_eq_ok, Except.ensure_eq_ok, exists_const,
    Except.pure_eq_ok, decodeTruncate_eq_ok]
  constructor
  · rintro ⟨⟨hmagic, hversion, hcrc⟩, t, ht, ⟨hvalid, h10, h76, h129, h144⟩, rfl⟩
    have u64 : ∀ off, window input off 8 = leBytes 8 (getU64 input off) :=
      fun off => (getU64_eq (getU64_lt input off)).mp rfl
    have digest : ∀ off, window input off 32 = leBytes 32 (getDigest input off) :=
      fun off => (getDigest_eq (getDigest_lt input off)).mp rfl
    have u32 : ∀ off, window input off 4 = leBytes 4 (getU32 input off) :=
      fun off => (getU32_eq (getU32_lt input off)).mp rfl
    have hversion : window input 8 2 = leBytes 2 formatVersion := (getU16_eq (by decide)).mp hversion
    refine ⟨⟨getDigest_lt _ _, getU64_lt _ _, getU64_lt _ _, getU64_lt _ _, getU32_lt _ _,
      getDigest_lt _ _, getU64_lt _ _, getU64_lt _ _, getU64_lt _ _, ?_⟩, hvalid, ?_, ?_⟩
    · rintro pages hpages
      rcases ht with ⟨_, _, rfl⟩ | ⟨_, rfl⟩
      · cases hpages
      · obtain rfl := Option.some.inj hpages
        exact getU32_lt _ _
    · rcases ht with ⟨htag, hpages, rfl⟩ | ⟨htag, rfl⟩
      · have h132 : window input 132 4 = zeros 4 := by
          rw [u32, hpages, leBytes_zero]
        have h128 : window input 128 8 = zeros 8 :=
          window_eq_zeros_add.mpr ⟨htag, window_eq_zeros_add.mpr ⟨h129, h132⟩⟩
        simp only [entries, List.append_nil, List.cons_append, List.nil_append, Matches,
          length_leBytes]
        exact ⟨rfl, hmagic, rfl, hversion, h10, digest 16, rfl, u64 48, rfl, u64 56, rfl, u64 64,
          rfl, u32 72, h76, digest 80, rfl, u64 112, rfl, u64 120, h128, u64 136, h144⟩
      · simp only [entries, List.cons_append, List.nil_append, Matches, length_leBytes,
          List.length_cons, List.length_nil]
        exact ⟨rfl, hmagic, rfl, hversion, h10, digest 16, rfl, u64 48, rfl, u64 56, rfl, u64 64,
          rfl, u32 72, h76, digest 80, rfl, u64 112, rfl, u64 120, rfl, htag, h129, u32 132, rfl,
          u64 136, h144⟩
    · unfold getU32 at hcrc
      exact hcrc
  · rintro ⟨hs, hvalid, hmatch, hcrc⟩
    -- The stored fields, with the truncate boundary in one of its two forms.
    obtain ⟨hmagic, hversion, h10, h16, h48, h56, h64, h72, h76, h80, h112, h120, ht, h129, h136,
        h144⟩ : window input 0 8 = activeStateMagic ∧ window input 8 2 = leBytes 2 formatVersion ∧
        window input 10 6 = zeros 6 ∧ window input 16 32 = leBytes 32 s.databaseId ∧
        window input 48 8 = leBytes 8 s.sequence ∧ window input 56 8 = leBytes 8 s.txid ∧
        window input 64 8 = leBytes 8 s.logicalSize ∧ window input 72 4 = leBytes 4 s.pageSize ∧
        window input 76 4 = zeros 4 ∧ window input 80 32 = leBytes 32 s.history ∧
        window input 112 8 = leBytes 8 s.commitUnix ∧ window input 120 8 = leBytes 8 s.recordCount ∧
        ((window input 128 1 = [0] ∧ getU32 input 132 = 0 ∧ s.truncatePages = none) ∨
          window input 128 1 = [1] ∧ s.truncatePages = some (getU32 input 132)) ∧
        window input 129 3 = zeros 3 ∧ window input 136 8 = leBytes 8 s.firstCommitUnix ∧
        window input 144 (sectorSize - 4 - 144) = zeros (sectorSize - 4 - 144) := by
      unfold entries at hmatch
      cases htruncate : s.truncatePages with
      | none =>
          simp only [htruncate, List.append_nil, List.cons_append, List.nil_append, Matches,
            length_leBytes] at hmatch
          obtain ⟨-, hmagic, -, hversion, h10, h16, -, h48, -, h56, -, h64, -, h72, h76, h80, -, h112,
            -, h120, h128, h136, h144⟩ := hmatch
          obtain ⟨htag, hrest⟩ := (window_eq_zeros_add (a := 1) (b := 7)).mp h128
          obtain ⟨h129, h132⟩ := (window_eq_zeros_add (a := 3) (b := 4)).mp hrest
          exact ⟨hmagic, hversion, h10, h16, h48, h56, h64, h72, h76, h80, h112, h120,
            .inl ⟨htag, (getU32_eq (by decide)).mpr (h132.trans (leBytes_zero 4).symm), rfl⟩, h129,
            h136, h144⟩
      | some pages =>
          simp only [htruncate, List.cons_append, List.nil_append, Matches, length_leBytes,
            List.length_cons, List.length_nil] at hmatch
          obtain ⟨-, hmagic, -, hversion, h10, h16, -, h48, -, h56, -, h64, -, h72, h76, h80, -, h112,
            -, h120, -, htag, h129, h132, -, h136, h144⟩ := hmatch
          exact ⟨hmagic, hversion, h10, h16, h48, h56, h64, h72, h76, h80, h112, h120,
            .inr ⟨htag, by rw [(getU32_eq (hs.truncatePages _ htruncate)).mpr h132]⟩, h129, h136, h144⟩
    have hout : s = { databaseId := getDigest input 16, sequence := getU64 input 48,
                      txid := getU64 input 56, logicalSize := getU64 input 64,
                      pageSize := getU32 input 72, history := getDigest input 80,
                      commitUnix := getU64 input 112, firstCommitUnix := getU64 input 136,
                      recordCount := getU64 input 120, truncatePages := s.truncatePages } := by
      rw [(getDigest_eq hs.databaseId).mpr h16, (getU64_eq hs.sequence).mpr h48,
        (getU64_eq hs.txid).mpr h56, (getU64_eq hs.logicalSize).mpr h64,
        (getU32_eq hs.pageSize).mpr h72, (getDigest_eq hs.history).mpr h80,
        (getU64_eq hs.commitUnix).mpr h112, (getU64_eq hs.firstCommitUnix).mpr h136,
        (getU64_eq hs.recordCount).mpr h120]
    refine ⟨⟨hmagic, (getU16_eq (by decide)).mpr hversion, ?_⟩, s.truncatePages, ht,
      ⟨hout ▸ hvalid, h10, h76, h129, h144⟩, hout⟩
    unfold getU32
    exact hcrc

end ActiveState

/-! ## Active headers -/

/-- `valid_policy`: what the policy constructors allow. -/
def StoragePolicyRecord.valid (p : StoragePolicyRecord) : Bool :=
  (p.rolloverBytes == 0 || decide (1024 * 1024 ≤ p.rolloverBytes))
    && (p.dictionaryBytes == 0
      || (decide (8192 ≤ p.dictionaryBytes) && decide (p.dictionaryBytes ≤ 768 * 1024)))
    && (decide (1024 * 1024 ≤ p.sampleBytes) && decide (p.sampleBytes ≤ 96 * 1024 * 1024))

/-- A stored digest; the zero digest stands for absence. -/
def optionalDigest (d : Digest) : Option Digest := if d = 0 then none else some d

theorem optionalDigest_eq {d : Digest} {o : Option Digest} (h : ∀ d, o = some d → d ≠ 0) :
    optionalDigest d = o ↔ d = o.getD 0 := by
  unfold optionalDigest
  cases o with
  | none => simp
  | some e =>
      have := h e rfl
      simp only [Option.getD_some]
      constructor
      · intro he
        split at he
        · cases he
        · exact Option.some.inj he
      · rintro rfl
        rw [if_neg this]

namespace ActiveHeader

variable (h : ActiveHeader)

def policyEntries : Entries :=
  [(208 + 8, leBytes 8 h.policy.rolloverBytes), (208 + 16, leBytes 4 h.policy.dictionaryBytes),
    (208 + 20, leBytes 8 h.policy.sampleBytes)]

/-- The fields of a header whose retired timer bytes are `timers`. -/
def entriesWith (timers : Bytes) : Entries :=
  [(0, activeMagic), (8, leBytes 2 formatVersion), (16, leBytes 32 h.databaseId),
    (64, leBytes 4 h.pageSize), (72, leBytes 8 h.startTxid), (80, leBytes 32 h.baseHistory),
    (112, leBytes 32 (h.parentPhysicalDigest.getD 0)), (144, leBytes 8 h.baseLogicalSize),
    (208, timers)] ++ h.policyEntries ++
  [(256, h.layout.encode), (384, leBytes 32 h.attachmentId), (416, leBytes 8 h.sourceBytes),
    (424, leBytes 32 (h.sourceHeaderDigest.getD 0))]

/-- The block of a header with these timer bytes, as versions before the retirement wrote it. -/
def encodeWith (timers : Bytes) : Bytes :=
  putChecksum crc sectorSize (puts (zeros sectorSize) (h.entriesWith timers))

/-- The timers are retired: zeros are written. -/
def encode : Bytes := h.encodeWith crc (zeros 8)

def decode (input : Bytes) : Except FormatError ActiveHeader := do
  checkSector crc input activeMagic
  let layout ← (LayoutPolicy.decode (window input 256 128)).mapError
    fun _ => .invalid "invalid frame layout policy"
  let output : ActiveHeader :=
    { attachmentId := getDigest input 384
      databaseId := getDigest input 16
      pageSize := getU32 input 64
      startTxid := getU64 input 72
      baseHistory := getDigest input 80
      parentPhysicalDigest := optionalDigest (getDigest input 112)
      baseLogicalSize := getU64 input 144
      policy := ⟨getU64 input (208 + 8), getU32 input (208 + 16), getU64 input (208 + 20)⟩
      layout
      sourceBytes := getU64 input 416
      sourceHeaderDigest := optionalDigest (getDigest input 424) }
  Except.ensure (output.valid = true ∧ output.policy.valid = true ∧ window input 10 6 = zeros 6 ∧
      window input 48 16 = zeros 16 ∧ window input 68 4 = zeros 4 ∧
      window input 152 56 = zeros 56 ∧ window input 236 20 = zeros 20 ∧
      window input 456 (sectorSize - 4 - 456) = zeros (sectorSize - 4 - 456))
    (.invalid "invalid active header")
  return output

/-- What the code enforces of a header, with fields of their stored widths. -/
structure Admissible : Prop where
  valid : h.valid = true
  policy : h.policy.valid = true
  layout : h.layout.Admissible
  attachmentId : h.attachmentId < 2 ^ 256
  databaseId : h.databaseId < 2 ^ 256
  pageSize : h.pageSize < 2 ^ 32
  startTxid : h.startTxid < 2 ^ 64
  baseHistory : h.baseHistory < 2 ^ 256
  parentPhysicalDigest : ∀ d, h.parentPhysicalDigest = some d → d ≠ 0 ∧ d < 2 ^ 256
  baseLogicalSize : h.baseLogicalSize < 2 ^ 64
  rolloverBytes : h.policy.rolloverBytes < 2 ^ 64
  sourceBytes : h.sourceBytes < 2 ^ 64
  sourceHeaderDigest : ∀ d, h.sourceHeaderDigest = some d → d ≠ 0 ∧ d < 2 ^ 256

variable {h}

theorem fits_entriesWith {timers : Bytes} (ht : timers.length = 8) :
    Fits (sectorSize - 4) 0 (h.entriesWith timers) := by
  simp [Fits, entriesWith, policyEntries, activeMagic, sectorSize, ht, LayoutPolicy.length_encode]

theorem Admissible.policy_lt (hh : h.Admissible) :
    h.policy.dictionaryBytes < 2 ^ 32 ∧ h.policy.sampleBytes < 2 ^ 64 := by
  have := hh.policy
  simp only [StoragePolicyRecord.valid, Bool.and_eq_true, Bool.or_eq_true, beq_iff_eq,
    decide_eq_true_eq] at this
  omega

theorem getD_lt {o : Option Digest} (ho : ∀ d, o = some d → d ≠ 0 ∧ d < 2 ^ 256) :
    o.getD 0 < 2 ^ 256 := by
  cases o with
  | none => exact Nat.two_pow_pos 256
  | some d => exact (ho d rfl).2

/-- **Active headers.** The decoder accepts exactly the encodings of admissible headers, with any
timer bytes. -/
theorem decode_eq_ok {input : Bytes} (hlen : input.length = sectorSize) :
    decode crc input = .ok h ↔
      h.Admissible ∧ input = h.encodeWith crc (window input 208 8) := by
  have hlayout : (window input 256 128).length = 128 := length_window input 256 128
  rw [encodeWith, eq_putChecksum_iff (by decide) (fits_entriesWith (length_window input 208 8)) hlen]
  simp only [decode, checkSector, checkRecord, Except.bind_eq_ok, Except.ensure_eq_ok, exists_const,
    Except.pure_eq_ok, Except.mapError_eq_ok, LayoutPolicy.decode_eq_ok hlayout, entriesWith,
    policyEntries, List.cons_append, List.nil_append, Matches, length_leBytes, length_window,
    LayoutPolicy.length_encode]
  constructor
  · rintro ⟨⟨hmagic, hversion, hcrc⟩, layout, ⟨hadmissible, hlayout⟩,
      ⟨hvalid, hpolicy, h10, h48, h68, h152, h236, h456⟩, rfl⟩
    have u64 : ∀ off, window input off 8 = leBytes 8 (getU64 input off) :=
      fun off => (getU64_eq (getU64_lt input off)).mp rfl
    have digest : ∀ off, window input off 32 = leBytes 32 (getDigest input off) :=
      fun off => (getDigest_eq (getDigest_lt input off)).mp rfl
    have u32 : ∀ off, window input off 4 = leBytes 4 (getU32 input off) :=
      fun off => (getU32_eq (getU32_lt input off)).mp rfl
    have optional : ∀ off, window input off 32 =
        leBytes 32 ((optionalDigest (getDigest input off)).getD 0) := by
      intro off
      rw [digest off]
      unfold optionalDigest
      split
      · rename_i hzero
        rw [hzero]
        rfl
      · rfl
    have nonzero : ∀ off d, optionalDigest (getDigest input off) = some d → d ≠ 0 ∧ d < 2 ^ 256 := by
      intro off d hd
      unfold optionalDigest at hd
      split at hd
      · cases hd
      · rename_i hne
        obtain rfl := Option.some.inj hd
        exact ⟨hne, getDigest_lt _ _⟩
    refine ⟨⟨hvalid, hpolicy, hadmissible, getDigest_lt _ _, getDigest_lt _ _, getU32_lt _ _,
      getU64_lt _ _, getDigest_lt _ _, nonzero 112, getU64_lt _ _, getU64_lt _ _, getU64_lt _ _,
      nonzero 424⟩, ?_, ?_⟩
    · exact ⟨rfl, hmagic, rfl, (getU16_eq (by decide)).mp hversion, h10, digest 16, h48, u32 64, h68,
        u64 72, rfl, digest 80, rfl, optional 112, rfl, u64 144, h152, trivial, rfl, u64 (208 + 8), rfl,
        u32 (208 + 16), rfl, u64 (208 + 20), h236, hlayout, rfl, digest 384, rfl, u64 416, rfl,
        optional 424, h456⟩
    · unfold getU32 at hcrc
      exact hcrc
  · rintro ⟨hh, ⟨-, hmagic, -, hversion, h10, h16, h48, h64, h68, h72, -, h80, -, h112, -, h144, h152,
      -, -, h216, -, h224, -, h228, h236, h256, -, h384, -, h416, -, h424, h456⟩, hcrc⟩
    have hout : h = { attachmentId := getDigest input 384, databaseId := getDigest input 16,
                      pageSize := getU32 input 64, startTxid := getU64 input 72,
                      baseHistory := getDigest input 80,
                      parentPhysicalDigest := optionalDigest (getDigest input 112),
                      baseLogicalSize := getU64 input 144,
                      policy := ⟨getU64 input (208 + 8), getU32 input (208 + 16),
                        getU64 input (208 + 20)⟩,
                      layout := h.layout, sourceBytes := getU64 input 416,
                      sourceHeaderDigest := optionalDigest (getDigest input 424) } := by
      rw [(getDigest_eq hh.attachmentId).mpr h384, (getDigest_eq hh.databaseId).mpr h16,
        (getU32_eq hh.pageSize).mpr h64, (getU64_eq hh.startTxid).mpr h72,
        (getDigest_eq hh.baseHistory).mpr h80,
        (optionalDigest_eq fun d hd => (hh.parentPhysicalDigest d hd).1).mpr
          ((getDigest_eq (getD_lt hh.parentPhysicalDigest)).mpr h112),
        (getU64_eq hh.baseLogicalSize).mpr h144, (getU64_eq hh.rolloverBytes).mpr h216,
        (getU32_eq hh.policy_lt.1).mpr h224, (getU64_eq hh.policy_lt.2).mpr h228,
        (getU64_eq hh.sourceBytes).mpr h416,
        (optionalDigest_eq fun d hd => (hh.sourceHeaderDigest d hd).1).mpr
          ((getDigest_eq (getD_lt hh.sourceHeaderDigest)).mpr h424)]
    refine ⟨⟨hmagic, (getU16_eq (by decide)).mpr hversion, ?_⟩, h.layout, ⟨hh.layout, h256⟩,
      ⟨hout ▸ hh.valid, ?_, h10, h48, h68, h152, h236, h456⟩, hout⟩
    · unfold getU32
      exact hcrc
    · have := hh.policy
      rw [hout] at this
      exact this

end ActiveHeader

/-! ## Frame headers -/

/-- The stored codec: raw or Zstandard. -/
def codecByte (compressed : Bool) : UInt8 := if compressed then 1 else 0

def decodeCodec (bytes : Bytes) : Except FormatError Bool :=
  if bytes = [0] then .ok false
  else if bytes = [1] then .ok true
  else .error (.invalid "unknown page codec")

theorem decodeCodec_eq_ok {bytes : Bytes} {compressed : Bool} :
    decodeCodec bytes = .ok compressed ↔ bytes = [codecByte compressed] := by
  unfold decodeCodec
  split
  · rename_i h
    cases compressed <;> simp [h, codecByte]
  · rename_i h
    split
    · rename_i h₁
      cases compressed <;> simp [h₁, codecByte]
    · rename_i h₁
      cases compressed <;> simp [h, h₁, codecByte]

def maxFramePayload : Nat := 8 * 1024 * 1024

def u16Max : Nat := 2 ^ 16 - 1

namespace FrameHeader

variable (h : FrameHeader)

def entries : Entries :=
  [(0, frameMagic), (4, leBytes 4 h.pageNo), (8, [codecByte h.compressed]), (10, leBytes 2 h.dictionaryIndex),
    (12, leBytes 4 h.storedLen), (16, leBytes 4 h.rawLen)]

def encode : Bytes := putChecksum crc frameHeaderSize (puts (zeros frameHeaderSize) h.entries)

/-- The field checks of `FrameHeader::decode`. -/
def valid : Bool :=
  h.pageNo ≠ 0
    && decide (512 ≤ h.rawLen) && decide (h.rawLen ≤ maxFramePayload) && decide (512 ∣ h.rawLen)
    && h.storedLen ≠ 0 && decide (h.storedLen ≤ h.rawLen)
    && decide (h.storedLen ≤ maxFramePayload)
    && (h.compressed || (h.dictionaryIndex == u16Max && h.storedLen == h.rawLen))

def decode (input : Bytes) : Except FormatError FrameHeader := do
  Except.ensure (window input 0 4 = frameMagic) (.invalid "invalid frame magic")
  checkRecord crc frameHeaderSize input
  let compressed ← decodeCodec (window input 8 1)
  let output : FrameHeader :=
    { pageNo := getU32 input 4
      compressed
      dictionaryIndex := getU16 input 10
      storedLen := getU32 input 12
      rawLen := getU32 input 16 }
  Except.ensure (output.valid = true ∧ window input 9 1 = zeros 1) (.invalid "invalid page frame")
  return output

/-- The fields that the checks do not bound have the widths of their types. -/
def Typed : Prop := h.pageNo < 2 ^ 32 ∧ h.dictionaryIndex < 2 ^ 16

variable {h}

theorem fits_entries (h : FrameHeader) : Fits (frameHeaderSize - 4) 0 h.entries := by
  simp [Fits, entries, frameMagic, frameHeaderSize]

theorem valid_lt (hv : h.valid = true) : h.storedLen < 2 ^ 32 ∧ h.rawLen < 2 ^ 32 := by
  simp only [valid, Bool.and_eq_true, decide_eq_true_eq] at hv
  have hmax : maxFramePayload < 2 ^ 32 := by decide
  omega

/-- **Frame headers.** The decoder accepts exactly the encodings of valid headers. -/
theorem decode_eq_ok {input : Bytes} (hlen : input.length = frameHeaderSize) :
    decode crc input = .ok h ↔ h.Typed ∧ h.valid = true ∧ input = h.encode crc := by
  rw [encode, eq_putChecksum_iff (by decide) h.fits_entries hlen]
  simp only [decode, checkRecord, Except.bind_eq_ok, Except.ensure_eq_ok, exists_const,
    Except.pure_eq_ok, decodeCodec_eq_ok, entries, Matches, length_leBytes, List.length_cons,
    List.length_nil]
  constructor
  · rintro ⟨hmagic, hcrc, compressed, hcodec, ⟨hvalid, h9⟩, rfl⟩
    have u32 : ∀ off, window input off 4 = leBytes 4 (getU32 input off) :=
      fun off => (getU32_eq (getU32_lt input off)).mp rfl
    refine ⟨⟨getU32_lt _ _, getU16_lt _ _⟩, hvalid, ⟨rfl, hmagic, rfl, u32 4, rfl, hcodec, h9,
      (getU16_eq (getU16_lt input 10)).mp rfl, rfl, u32 12, rfl, u32 16, rfl⟩, ?_⟩
    unfold getU32 at hcrc
    exact hcrc
  · rintro ⟨⟨hpage, hdictionary⟩, hvalid,
      ⟨-, hmagic, -, h4, -, h8, h9, h10, -, h12, -, h16, -⟩, hcrc⟩
    have hout : h = { pageNo := getU32 input 4, compressed := h.compressed,
                      dictionaryIndex := getU16 input 10, storedLen := getU32 input 12,
                      rawLen := getU32 input 16 } := by
      rw [(getU32_eq hpage).mpr h4, (getU16_eq hdictionary).mpr h10,
        (getU32_eq (valid_lt hvalid).1).mpr h12, (getU32_eq (valid_lt hvalid).2).mpr h16]
    refine ⟨hmagic, ?_, h.compressed, h8, ⟨hout ▸ hvalid, h9⟩, hout⟩
    unfold getU32
    exact hcrc

end FrameHeader

/-! ## Re-encoding -/

namespace ActiveHeader

variable {crc} {h h' : ActiveHeader}

theorem length_encodeWith {timers : Bytes} (ht : timers.length = 8) :
    (h.encodeWith crc timers).length = sectorSize :=
  length_putChecksum (by decide)
    (length_puts (by simp) ((fits_entriesWith ht).mono (Nat.sub_le _ _)))

/-- The stored fields of a header with any timers. -/
theorem matches_encodeWith {timers : Bytes} (ht : timers.length = 8) :
    Matches (h.encodeWith crc timers) (sectorSize - 4) 0 (h.entriesWith timers) :=
  ((eq_putChecksum_iff (by decide) (fits_entriesWith ht) (length_encodeWith ht)).mp rfl).1

theorem timers_encodeWith {timers : Bytes} (ht : timers.length = 8) :
    window (h.encodeWith crc timers) 208 8 = timers := by
  have : Matches (h.encodeWith crc timers) (sectorSize - 4) 0 (h.entriesWith timers) :=
    matches_encodeWith ht
  simp only [entriesWith, policyEntries, List.cons_append, List.nil_append, Matches, ht] at this
  exact this.2.2.2.2.2.2.2.2.2.2.2.2.2.2.2.2.2.1

theorem decode_encodeWith (hh : h.Admissible) {timers : Bytes} (ht : timers.length = 8) :
    decode crc (h.encodeWith crc timers) = .ok h :=
  (decode_eq_ok crc (length_encodeWith ht)).mpr ⟨hh, by rw [timers_encodeWith ht]⟩

/-- Outside the timers and the checksum the blocks of one header agree. -/
theorem window_encodeWith {timers timers' : Bytes} (ht : timers.length = 8)
    (ht' : timers'.length = 8) {off len : Nat} (h₁ : off + len ≤ 208 ∨ 216 ≤ off)
    (h₂ : off + len ≤ sectorSize - 4) :
    window (h.encodeWith crc timers) off len = window (h.encodeWith crc timers') off len := by
  unfold encodeWith
  rw [window_putChecksum_of_le h₂, window_putChecksum_of_le h₂]
  let before : Entries := [(0, activeMagic), (8, leBytes 2 formatVersion),
    (16, leBytes 32 h.databaseId), (64, leBytes 4 h.pageSize), (72, leBytes 8 h.startTxid),
    (80, leBytes 32 h.baseHistory), (112, leBytes 32 (h.parentPhysicalDigest.getD 0)),
    (144, leBytes 8 h.baseLogicalSize)]
  have hreplace : ∀ after : Entries,
      window (puts (zeros sectorSize) (before ++ (208, timers) :: after)) off len =
        window (puts (zeros sectorSize) (before ++ (208, timers') :: after)) off len := fun after =>
    window_puts_replace (by rw [ht, ht']) (by rw [ht]; exact h₁)
  exact hreplace _

/-- A block re-encodes to itself exactly when its timers are zero. -/
theorem encode_eq_iff {input : Bytes} (hlen : input.length = sectorSize)
    (hdecode : decode crc input = .ok h) : h.encode crc = input ↔ window input 208 8 = zeros 8 := by
  obtain ⟨hh, hinput⟩ := (decode_eq_ok crc hlen).mp hdecode
  constructor
  · intro heq
    rw [← heq]
    exact timers_encodeWith (by simp)
  · intro htimers
    rw [htimers] at hinput
    exact hinput.symm

theorem encode_injective (hh : h.Admissible) (hh' : h'.Admissible)
    (heq : h.encode crc = h'.encode crc) : h = h' := by
  have hd : decode crc (h.encode crc) = .ok h := decode_encodeWith hh (by simp)
  have hd' : decode crc (h'.encode crc) = .ok h' := decode_encodeWith hh' (by simp)
  rw [heq] at hd
  exact Except.ok.inj (hd.symm.trans hd')

end ActiveHeader

theorem ActiveState.length_encode (s : ActiveState) : (s.encode crc).length = sectorSize :=
  length_putChecksum (by decide) (length_puts (by simp) (s.fits_entries.mono (Nat.sub_le _ _)))

theorem FrameHeader.length_encode (h : FrameHeader) : (h.encode crc).length = frameHeaderSize :=
  length_putChecksum (by decide) (length_puts (by simp) (h.fits_entries.mono (Nat.sub_le _ _)))

/-- **The fixed records of the active file.** Whatever the checksum, decoding undoes encoding for
every admissible header, state and frame header. An accepted state or frame header re-encodes to
its own bytes. An accepted header re-encodes to its own bytes outside the retired timers and the
checksum, and to exactly its own bytes when the timers are zero; different admissible headers have
different encodings. -/
theorem active_records_exact :
    (∀ h : ActiveHeader, h.Admissible → ActiveHeader.decode crc (h.encode crc) = .ok h) ∧
    (∀ s : ActiveState, s.Typed → s.valid = true → ActiveState.decode crc (s.encode crc) = .ok s) ∧
    (∀ h : FrameHeader, h.Typed → h.valid = true →
      FrameHeader.decode crc (h.encode crc) = .ok h) ∧
    (∀ input h, input.length = sectorSize → ActiveHeader.decode crc input = .ok h →
      (∀ off len, off + len ≤ 208 ∨ 216 ≤ off → off + len ≤ sectorSize - 4 →
        window (h.encode crc) off len = window input off len) ∧
      (h.encode crc = input ↔ window input 208 8 = zeros 8)) ∧
    (∀ h h' : ActiveHeader, h.Admissible → h'.Admissible → h.encode crc = h'.encode crc → h = h') ∧
    (∀ input s, input.length = sectorSize → ActiveState.decode crc input = .ok s →
      s.encode crc = input) ∧
    (∀ input h, input.length = frameHeaderSize → FrameHeader.decode crc input = .ok h →
      h.encode crc = input) := by
  refine ⟨fun h hh => ActiveHeader.decode_encodeWith hh (by simp), fun s hs hv => ?_,
    fun h ht hv => ?_, fun input h hlen hdecode => ⟨fun off len h₁ h₂ => ?_, ?_⟩,
    fun h h' => ActiveHeader.encode_injective, fun input s hlen hdecode => ?_,
    fun input h hlen hdecode => ?_⟩
  · exact (ActiveState.decode_eq_ok crc (s.length_encode crc)).mpr ⟨hs, hv, rfl⟩
  · exact (FrameHeader.decode_eq_ok crc (h.length_encode crc)).mpr ⟨ht, hv, rfl⟩
  · obtain ⟨_, hinput⟩ := (ActiveHeader.decode_eq_ok crc hlen).mp hdecode
    rw [hinput]
    exact ActiveHeader.window_encodeWith (by simp) (by simp) h₁ h₂
  · exact ActiveHeader.encode_eq_iff hlen hdecode
  · exact ((ActiveState.decode_eq_ok crc hlen).mp hdecode).2.2.symm
  · exact ((FrameHeader.decode_eq_ok crc hlen).mp hdecode).2.2.symm

/-- The header of a new database with the default policies. -/
def freshHeader : ActiveHeader where
  attachmentId := 1
  databaseId := 2
  pageSize := 0
  startTxid := 1
  baseHistory := genesisHistory
  parentPhysicalDigest := none
  baseLogicalSize := 0
  policy := ⟨0, 768 * 1024, 96 * 1024 * 1024⟩
  layout := .default
  sourceBytes := 0
  sourceHeaderDigest := none

theorem freshHeader_admissible : freshHeader.Admissible where
  valid := by decide
  policy := by decide
  layout := ⟨by simp [freshHeader, LayoutPolicy.default], by decide,
    by simp [freshHeader, LayoutPolicy.default], by decide, by decide, by decide⟩
  attachmentId := by decide
  databaseId := by decide
  pageSize := by decide
  startTxid := by decide
  baseHistory := by decide
  parentPhysicalDigest := by simp [freshHeader]
  baseLogicalSize := by decide
  rolloverBytes := by decide
  sourceBytes := by decide
  sourceHeaderDigest := by simp [freshHeader]

theorem active_records_exact_fresh :
    ActiveHeader.decode crc32 (freshHeader.encode crc32) = .ok freshHeader :=
  (active_records_exact crc32).1 freshHeader freshHeader_admissible

/-- The checksum covers the timers: changing their first byte changes it. -/
theorem ActiveHeader.checksum_ne {h : ActiveHeader} {a b : UInt8} {rest : Bytes}
    (hrest : rest.length = 7) (hab : a ≠ b) :
    window (h.encodeWith crc32 (a :: rest)) (sectorSize - 4) 4 ≠
      window (h.encodeWith crc32 (b :: rest)) (sectorSize - 4) 4 := by
  have ha : (a :: rest).length = 8 := by simp [hrest]
  have hb : (b :: rest).length = 8 := by simp [hrest]
  -- The bytes under the checksum, with the timers split off.
  have hbody : ∀ timers : Bytes, timers.length = 8 →
      window (puts (zeros sectorSize) (h.entriesWith timers)) 0 (sectorSize - 4) =
        window (h.encodeWith crc32 (zeros 8)) 0 208 ++ (timers ++
          window (h.encodeWith crc32 (zeros 8)) 216 (sectorSize - 4 - 216)) := by
    intro timers ht
    refine (@window_putChecksum_body _ _ crc32).symm.trans ?_
    show window (h.encodeWith crc32 timers) 0 (208 + (8 + (sectorSize - 4 - 216))) = _
    rw [← window_append, ← window_append]
    simp only [Nat.zero_add]
    rw [timers_encodeWith ht]
    have hlow : window (h.encodeWith crc32 timers) 0 208 =
        window (h.encodeWith crc32 (zeros 8)) 0 208 :=
      window_encodeWith ht (length_zeros 8) (.inl (by decide)) (by decide)
    have hhigh : window (h.encodeWith crc32 timers) (208 + 8) (sectorSize - 4 - 216) =
        window (h.encodeWith crc32 (zeros 8)) (208 + 8) (sectorSize - 4 - 216) :=
      window_encodeWith ht (length_zeros 8) (.inr (by decide)) (by decide)
    rw [hlow, hhigh]
  unfold encodeWith
  rw [window_putChecksum, window_putChecksum, hbody _ ha, hbody _ hb]
  intro heq
  exact crc32_ne_of_byte hab (UInt32.toNat_inj.mp
    (leBytes_injective (UInt32.toNat_lt _) (UInt32.toNat_lt _) heq))

/-- A header block from before the retirement of the timers is accepted and re-encodes to other
checksum bytes. -/
theorem ActiveHeader.reencoded_checksum_differs :
    ∃ input h, input.length = sectorSize ∧ ActiveHeader.decode crc32 input = .ok h ∧
      window (h.encode crc32) (sectorSize - 4) 4 ≠ window input (sectorSize - 4) 4 :=
  ⟨freshHeader.encodeWith crc32 [1, 0, 0, 0, 0, 0, 0, 0], freshHeader, length_encodeWith rfl,
    decode_encodeWith freshHeader_admissible rfl, checksum_ne rfl (by decide)⟩

end Zsqlite
