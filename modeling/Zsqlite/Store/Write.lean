import Zsqlite.Store.Open

set_option autoImplicit false

/-! # Writing, rolling back and publishing

A page is written into its active record, in place when it has one. The first overwrite of a
committed record keeps a copy of it, so a rollback can restore it; records appended since the
last publication are cut off instead. `publish` writes the next state sector, which commits the
records, the size and the lowest page count in one step.

A database whose page size is not known yet collects its bytes in a bootstrap file until the
SQLite header arrives.
-/

namespace Zsqlite

open ByteVec

variable (E : Env)

/-! ## Pages -/

def overwriteActiveRecord (page : Nat) (bytes : Bytes) : StoreM Unit := do
  let offset ← StoreM.ofExcept fun w => w.activeRecordOffset page
  StoreM.onActiveFile fun f => f.writePayload offset bytes

def appendActiveRecord (page : Nat) (bytes : Bytes) : StoreM Unit := do
  let offset := (← StoreM.ofExcept World.activeFile).len
  let recordEnd ← EStateM.liftExcept (checkedAdd offset (recordLen (← get).store.head.pageSize))
  StoreM.onActiveFile fun f =>
    ((f.setLen recordEnd).writePayload offset bytes).writeFrameHeader offset page
  StoreM.updateStore fun s =>
    { s with active := { s.active with activeRecords := s.active.activeRecords.insert page offset } }

/-- The page has a committed record without an undo copy. -/
def Store.needsOriginal (s : Store) (page : Nat) : Bool :=
  s.active.activeRecords[page]?.any (fun offset => offset < s.head.activeCommitEnd) &&
    !s.pendingRawOriginals.contains page

/-- Keep an undo copy of a committed record that is about to be overwritten. -/
def saveOriginal (page : Nat) : StoreM Unit := do
  if (← get).store.needsOriginal page then
    let original ← readPage E page
    StoreM.updateStore fun s =>
      { s with pendingRawOriginals := s.pendingRawOriginals.insert page original }

/-- The checks on a page about to be written; page one must declare the page size. -/
def Store.checkPage (s : Store) (page : Nat) (bytes : Bytes) : Except StoreError Unit := do
  Except.ensure (bytes.length = s.head.pageSize)
    (.invalidPageLength page bytes.length s.head.pageSize)
  Except.ensure (page = 1 → parsePageSize bytes = some s.head.pageSize)
    (.invalidPageSize ((parsePageSize bytes).getD 0))

def writeMutablePage (page : Nat) (bytes : Bytes) : StoreM Unit := do
  StoreM.ofExcept fun w => w.store.checkPage page bytes
  saveOriginal E page
  let number ← EStateM.liftExcept (PageNumber.new page)
  StoreM.updateStore fun s => { s with pageCache := s.pageCache.invalidate number }
  let records := (← get).store.active.activeRecords
  (if records.contains page then overwriteActiveRecord page bytes
    else appendActiveRecord page bytes)
  StoreM.updateStore fun s => { s with pendingRawPages := insert page s.pendingRawPages }

/-- The content a partial write of a page starts from. -/
def partialBase (page : Nat) : StoreM Bytes := do
  let s := (← get).store
  if s.pendingTruncatePages.any (fun preserved => preserved < page) then
    return zeros s.head.pageSize
  else readPage E page

/-- The page loop of `write_mutable_pages`, from the bytes already consumed. -/
def writeMutablePages (offset : Nat) (input : Bytes) : Nat → Nat → StoreM Unit
  | 0, _ => return
  | fuel + 1, consumed =>
      if consumed < input.length then do
        let size := (← get).store.head.pageSize
        let logical ← EStateM.liftExcept (checkedAdd offset consumed)
        let page ← EStateM.liftExcept (toU32 (logical / size + 1))
        let within := logical % size
        let amount := min (input.length - consumed) (size - within)
        let bytes := (input.drop consumed).take amount
        let base ← (if within = 0 ∧ amount = size then pure bytes else partialBase E page)
        writeMutablePage E page (overwrite base within bytes)
        writeMutablePages offset input fuel (consumed + amount)
      else return

/-- Move the bootstrap file into active records once the page size is known. -/
def drainBootstrap (size : Nat) : StoreM Unit := do
  match (← get).store.bootstrap with
  | none => throw .range
  | some file =>
      StoreM.updateStore fun s => { s with bootstrap := none }
      (List.range ((file.length + size - 1) / size)).forM fun i => do
        let page ← EStateM.liftExcept (toU32 (i + 1))
        writeMutablePage E page (window file (i * size) size)

/-- The SQLite header at the start of the bootstrap file, zero while the file is shorter. -/
def bootstrapHeader (file : Bytes) : Bytes :=
  if 100 ≤ file.length then file.take 100 else zeros 100

def writeBootstrap (offset : Nat) (input : Bytes) (last : Nat) : StoreM Unit := do
  let file := overwrite ((← get).store.bootstrap.getD []) offset input
  StoreM.updateStore fun s =>
    { s with bootstrap := some file, pendingSize := max s.pendingSize last, pendingDirty := true }
  if (bootstrapHeader file).take 16 = sqliteMagic then
    match parsePageSize (bootstrapHeader file) with
    | none => throw .unknownPageSize
    | some size =>
        StoreM.updateStore fun s => { s with head := { s.head with pageSize := size } }
        ensureActive
        drainBootstrap E size

/-- Write into the pages of a database whose page size is known. -/
def writeKnown (offset : Nat) (input : Bytes) (last : Nat) : StoreM Unit := do
  writeMutablePages E offset input input.length 0
  StoreM.updateStore fun s =>
    { s with pendingSize := max s.pendingSize last, pendingDirty := true }

/-- Write bytes at any offset. -/
def writeAt (offset : Nat) (input : Bytes) : StoreM Nat := do
  if input = [] then return 0
  else
    beginWrite E
    let last ← EStateM.liftExcept (checkedAdd offset input.length)
    let size := (← get).store.head.pageSize
    (if size = 0 then writeBootstrap E offset input last else writeKnown E offset input last)
    return input.length

/-! ## Truncation -/

/-- Shrink to `maxPage` pages: zero the records above and lower the mark. -/
def shrink (maxPage : Nat) : StoreM Unit := do
  StoreM.updateStore fun s =>
    { s with pageCache := s.pageCache.invalidateWhere fun page => maxPage < page }
  let s := (← get).store
  (s.active.activeRecords.keys.filter fun page => maxPage < page).forM fun page =>
    writeMutablePage E page (zeros s.head.pageSize)
  StoreM.updateStore fun s =>
    { s with pendingTruncatePages := Overlay.lower s.pendingTruncatePages (some maxPage) }

def truncate (size : Nat) : StoreM Unit := do
  beginWrite E
  let s := (← get).store
  if s.head.pageSize = 0 then
    StoreM.updateStore fun s =>
      { s with
        bootstrap := s.bootstrap.map fun file => resize file size
        pendingSize := size
        pendingDirty := true }
  else if ¬ s.head.pageSize ∣ size then throw (.invalidPageSize s.head.pageSize)
  else
    let maxPage ← EStateM.liftExcept (pageCount size s.head.pageSize)
    (if size < s.pendingSize then shrink E maxPage else pure ())
    StoreM.updateStore fun s => { s with pendingSize := size, pendingDirty := true }

/-! ## Rollback -/

/-- Write an undo copy back into its committed record. -/
def Store.undoRecord (s : Store) (f : PageFile) (entry : Nat × Bytes) : PageFile :=
  match s.active.activeRecords[entry.1]? with
  | some offset => if offset < s.head.activeCommitEnd then f.writePayload offset entry.2 else f
  | none => f

/-- Undo the overwrites of committed records. -/
def Store.restore (s : Store) (f : PageFile) : PageFile :=
  s.pendingRawOriginals.toList.foldl s.undoRecord f

/-- The store after a rollback. -/
def Store.rolledBack (s : Store) : Store :=
  { s with
    active := { s.active with
      activeRecords := s.active.activeRecords.filter fun _ offset =>
        offset < s.head.activeCommitEnd }
    pendingRawOriginals := ∅
    pendingRawPages := ∅
    pendingSize := s.head.logicalSize
    pendingTruncatePages := none
    pendingDirty := false
    bootstrap := none }

/-- Leave a transaction or a checkpoint. -/
def Store.endTransaction (s : Store) : Store :=
  let s := if s.publicationOwner = .checkpoint then s.transition .transaction else s
  s.releasePublication

/-- Errors of the file operations are ignored. -/
def World.discardMutablePending (w : World) : World :=
  let w' := match w.activeFile with
    | .ok f => w.setActiveFile ((w.store.restore f).setLen w.store.head.activeCommitEnd)
    | .error _ => w
  w'.updateStore fun s => s.rolledBack.endTransaction

def discardPending : StoreM Unit := modify World.discardMutablePending

/-! ## Publication -/

/-- The state sector a publication writes. -/
def Store.nextState (s : Store) (now : Nat) : ActiveState where
  databaseId := s.active.header.databaseId
  sequence := s.active.stateSequence + 1
  txid := s.head.txid + 1
  logicalSize := s.pendingSize
  pageSize := s.head.pageSize
  history := s.head.history
  commitUnix := now
  firstCommitUnix := if s.head.oldestDirtyUnix = 0 then now else s.head.oldestDirtyUnix
  recordCount := s.active.activeRecords.size
  truncatePages := Overlay.lower s.active.truncatePages s.pendingTruncatePages

/-- The store after its next state is on disk. -/
def Store.committed (s : Store) (now rawEnd : Nat) : Store :=
  { s with
    active := { s.active with
      stateSequence := s.active.stateSequence + 1
      truncatePages := Overlay.lower s.active.truncatePages s.pendingTruncatePages }
    head := { s.head with
      logicalSize := s.pendingSize
      txid := s.head.txid + 1
      activeCommitOffset := activeStateOffset (s.active.stateSequence + 1)
      activeCommitEnd := rawEnd
      oldestDirtyUnix := if s.head.oldestDirtyUnix = 0 then now else s.head.oldestDirtyUnix
      lastDirtyUnix := now }
    pendingRawPages := ∅
    pendingRawOriginals := ∅
    pendingTruncatePages := none
    pendingDirty := false
    bootstrap := none }

def Store.endPublication (retain : Bool) (s : Store) : Store :=
  if retain then s else s.releasePublication

/-- Write the next state sector. -/
def publishState (retain : Bool) : StoreM Unit := do
  let s := (← get).store
  let _ ← EStateM.liftExcept (checkedAdd s.head.txid 1)
  let f ← StoreM.ofExcept World.activeFile
  let _ ← EStateM.liftExcept (checkedAdd s.active.stateSequence 1)
  let now := (← get).disk.clock
  StoreM.onActiveFile fun f => f.writeState (s.nextState now)
  StoreM.updateStore fun s =>
    let s := s.committed now f.len
    if retain then s.transition .checkpoint else s.releasePublication

/-- Publish the pending image; `retain` keeps the lock for a checkpoint. -/
def publishInner (durable retain : Bool) : StoreM Unit := do
  let s := (← get).store
  if s.hasPending = false then
    (if durable then beginWrite E else pure ())
    StoreM.updateStore (Store.endPublication retain)
  else if s.head.pageSize = 0 then
    if s.pendingSize = 0 then
      StoreM.updateStore fun s =>
        { s with pendingDirty := false, bootstrap := none }.endPublication retain
    else throw .unknownPageSize
  else publishState retain

def publish (durable : Bool) : StoreM Unit := publishInner E durable false

def publishCheckpoint (durable : Bool) : StoreM Unit := publishInner E durable true

/-- Reserve publication for a checkpoint. -/
def beginCheckpointPublication : StoreM Unit := do
  let s := (← get).store
  if s.publicationOwner = .checkpoint then return
  else if s.publicationOwner ≠ .unlocked ∨ s.hasPending then throw .busy
  else
    beginWrite E
    StoreM.updateStore fun s => s.transition .checkpoint

def finishCheckpointPublication : StoreM Unit := StoreM.updateStore Store.endTransaction

/-- Dropping a store rolls its transaction back and gives up its lock. -/
def World.drop (w : World) : World :=
  let w := if w.store.hasPending then w.discardMutablePending else w
  w.updateStore fun s => { s with publicationOwner := .unlocked }

/-- Drop the store and open the database again. -/
def reopen (writable : Bool) : StoreM Unit := do
  modify World.drop
  openMode E writable

end Zsqlite
