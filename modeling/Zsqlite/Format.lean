import Zsqlite.Domain

set_option autoImplicit false

/-! # Records of the active file

The active header and active state of `format.rs` and the layout policy of `layout.rs`, as
decoded values. `valid` is the part of each `decode` that checks field values; the byte
encoding and its checksum are not modelled, so a sector holds a value (`Sector.state`), zeros
(`Sector.empty`) or bytes that fail their magic or checksum (`Sector.torn`).
-/

namespace Zsqlite

def sectorSize : Nat := 4096

def activeStateAOffset : Nat := sectorSize

def activeStateBOffset : Nat := activeStateAOffset + sectorSize

/-- The header sector and the two state sectors; records follow. -/
def activeMetadataEnd : Nat := 3 * sectorSize

def frameHeaderSize : Nat := 24

/-- The lineage digest of a database without a sealed view. Only equality with it matters. -/
def genesisHistory : Digest := 1

/-! ## Policies -/

structure StoragePolicyRecord where
  rolloverBytes : Nat
  dictionaryBytes : Nat
  sampleBytes : Nat
  deriving DecidableEq, Repr

inductive CacheCapacity where
  | automatic
  | fixed (bytes : Nat)
  deriving DecidableEq, Repr

inductive FrameLayout where
  | fixed (bytes : Nat)
  | page
  deriving DecidableEq, Repr

structure LayoutPolicy where
  frames : FrameLayout
  packTarget : Nat
  zstdLevel : Nat
  cache : CacheCapacity
  maintenanceInput : Nat
  deletionBudget : Nat
  deriving DecidableEq, Repr

def LayoutPolicy.default : LayoutPolicy where
  frames := .page
  packTarget := 4 * 1024 * 1024
  zstdLevel := 3
  cache := .automatic
  maintenanceInput := 64 * 1024 * 1024
  deletionBudget := 8

/-- The largest decoded size of a frame. -/
def LayoutPolicy.frameBytes (l : LayoutPolicy) (size : PageSize) : Nat :=
  match l.frames with
  | .page => size.get
  | .fixed bytes => max bytes size.get

/-! ## Header and state -/

structure ActiveHeader where
  attachmentId : Digest
  databaseId : Digest
  pageSize : Nat
  startTxid : Nat
  baseHistory : Digest
  /-- The preceding sealed manifest; `none` is the zero digest of a genesis file. -/
  parentPhysicalDigest : Option Digest
  baseLogicalSize : Nat
  policy : StoragePolicyRecord
  layout : LayoutPolicy
  /-- Length of the native base, zero when there is none. -/
  sourceBytes : Nat
  sourceHeaderDigest : Option Digest
  deriving DecidableEq, Repr

/-- The field checks of `ActiveHeader::decode`. -/
def ActiveHeader.valid (h : ActiveHeader) : Bool :=
  h.startTxid ≠ 0
    && (h.pageSize == 0 || validPageSize h.pageSize)
    && (h.pageSize ≠ 0 || h.baseLogicalSize == 0)
    && (h.pageSize == 0 || decide (h.pageSize ∣ h.baseLogicalSize))
    && ((h.startTxid == 1) == h.parentPhysicalDigest.isNone)
    && (h.startTxid ≠ 1 || h.baseHistory == genesisHistory)
    && ((h.sourceBytes == 0) == h.sourceHeaderDigest.isNone)
    && (h.sourceBytes == 0
      || (h.pageSize ≠ 0 && decide (h.pageSize ∣ h.sourceBytes) && h.startTxid == 1))

structure ActiveState where
  databaseId : Digest
  sequence : Nat
  txid : Nat
  logicalSize : Nat
  pageSize : Nat
  history : Digest
  commitUnix : Nat
  firstCommitUnix : Nat
  recordCount : Nat
  /-- Lowest logical page count reached by this active file. -/
  truncatePages : Option Nat
  deriving DecidableEq, Repr

/-- The field checks of `ActiveState::decode`. -/
def ActiveState.valid (s : ActiveState) : Bool :=
  s.sequence ≠ 0
    && (s.pageSize ≠ 0 || s.logicalSize == 0)
    && (s.pageSize == 0 || (validPageSize s.pageSize && decide (s.pageSize ∣ s.logicalSize)))
    && s.truncatePages.all fun pages =>
      s.pageSize ≠ 0 && decide (pages ≤ s.logicalSize / s.pageSize)

/-- The sector a state of this sequence number is written to. -/
def activeStateOffset (sequence : Nat) : Nat :=
  if sequence % 2 = 0 then activeStateBOffset else activeStateAOffset

inductive Sector where
  | empty
  | torn
  | state (s : ActiveState)
  deriving DecidableEq, Repr

/-! ## Frame headers -/

/-- The 24-byte frame header in front of a payload. -/
structure FrameHeader where
  pageNo : Nat
  compressed : Bool
  dictionaryIndex : Nat
  storedLen : Nat
  rawLen : Nat
  deriving DecidableEq

/-! ## What the header checks say -/

theorem ActiveHeader.validPageSize_of_valid {h : ActiveHeader} (hv : h.valid = true)
    (hp : h.pageSize ≠ 0) : validPageSize h.pageSize = true := by
  simp only [valid, Bool.and_eq_true, Bool.or_eq_true, beq_iff_eq] at hv
  exact hv.1.1.1.1.1.1.2.resolve_left hp

/-- A file over a native base is the first of its database. -/
theorem ActiveHeader.startTxid_of_source {h : ActiveHeader} (hv : h.valid = true)
    (hs : h.sourceBytes ≠ 0) : h.startTxid = 1 := by
  simp only [valid, Bool.and_eq_true, Bool.or_eq_true, beq_iff_eq] at hv
  exact (hv.2.resolve_left hs).2

/-- A native base is page aligned. -/
theorem ActiveHeader.source_aligned {h : ActiveHeader} (hv : h.valid = true)
    (hs : h.sourceBytes ≠ 0) : h.pageSize ≠ 0 ∧ h.pageSize ∣ h.sourceBytes := by
  simp only [valid, Bool.and_eq_true, Bool.or_eq_true, beq_iff_eq, decide_eq_true_eq] at hv
  have := hv.2.resolve_left hs
  simpa using this.1

end Zsqlite
