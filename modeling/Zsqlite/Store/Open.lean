import Zsqlite.Store.State
import Zsqlite.Seal

set_option autoImplicit false

/-! # Loading and replacing the active file

`reload` reads the active file at the database path, recovers an interrupted seal, pins the base
view and scans the committed records. `createActive` builds the file that replaces it and
renames it over the path; the store then adopts it.
-/

namespace Zsqlite

open ByteVec

variable (E : Env)

/-! ## Replacing the active file -/

/-- What a new active file is based on. -/
inductive ActiveBase where
  | genesis
  | existing (view : PinnedView)
  | installed (view : DurableView)

/-- The manifest of the base, when the base ends where the head stands. -/
def ActiveBase.validate (database : Digest) (head : HeadState) :
    ActiveBase → Except StoreError (Option Digest)
  | .genesis => do
      Except.ensure (head.txid = 0 ∧ head.logicalSize = 0 ∧ head.history = genesisHistory)
        .identityMismatch
      return none
  | .existing view => do
      let v := view.metadata.view
      Except.ensure (v.database = database ∧ v.size.get = head.logicalSize ∧ v.txid = head.txid ∧
        v.history = head.history) .identityMismatch
      return some view.id
  | .installed view => do
      let v := view.metadata.view
      Except.ensure (v.database = database ∧ v.size.get = head.logicalSize ∧ v.txid = head.txid)
        .identityMismatch
      return some view.id

/-- The lineage the new file starts from. -/
def ActiveBase.history (head : HeadState) : ActiveBase → Digest
  | .installed view => view.metadata.view.history
  | _ => head.history

/-- Rename a finished file over the database path. -/
def Disk.install (d : Disk) (f : PageFile) : Disk :=
  { d with
    files := d.files.insert d.nextInode f
    installed := d.nextInode
    nextInode := d.nextInode + 1 }

/-- The first state of a new active file without records. -/
def initialState (header : ActiveHeader) (head : HeadState) : ActiveState where
  databaseId := header.databaseId
  sequence := 1
  txid := head.txid
  logicalSize := head.logicalSize
  pageSize := head.pageSize
  history := header.baseHistory
  commitUnix := 0
  firstCommitUnix := 0
  recordCount := 0
  truncatePages := none

/-- The header of the file that replaces the active one. -/
def Store.nextHeader (s : Store) (base : ActiveBase) (parent : Option Digest)
    (policy : StoragePolicyRecord) : ActiveHeader where
  attachmentId := s.active.header.attachmentId
  databaseId := s.active.header.databaseId
  pageSize := s.head.pageSize
  startTxid := s.head.txid + 1
  baseHistory := base.history s.head
  parentPhysicalDigest := parent
  baseLogicalSize := s.head.logicalSize
  policy
  layout := s.layout
  sourceBytes := s.active.header.sourceBytes
  sourceHeaderDigest := s.active.header.sourceHeaderDigest

/-- An active file without records. -/
def ActiveHeader.emptyFile (header : ActiveHeader) (head : HeadState) : PageFile :=
  ⟨header, .state (initialState header head), .empty, []⟩

/-- Build the next active file and install it; with `announce` a pending descriptor in the
catalog names it first. -/
def createActive (base : ActiveBase) (policy : StoragePolicyRecord) (announce : Bool) :
    StoreM ActiveFile := do
  let s := (← get).store
  let parent ← EStateM.liftExcept (base.validate s.active.header.databaseId s.head)
  let _ ← EStateM.liftExcept (checkedAdd s.head.txid 1)
  let header := s.nextHeader base parent policy
  (if announce then StoreM.onCatalog fun C => C.prepareSeal header else pure ())
  let inode := (← get).disk.nextInode
  modify fun w => { w with disk := w.disk.install (header.emptyFile s.head) }
  return ⟨inode, header, 1, ∅, none⟩

/-- Pages that a read of the view must not bring back into the cache. -/
def Store.synchronizeReadCache (s : Store) : Store :=
  let pages := s.head.logicalSize / s.head.pageSize
  { s with
    pageCache := s.pageCache.synchronize s.view fun page =>
      pages < page || s.active.activeRecords.contains page ||
        s.active.truncatePages.any fun last => last < page }

def Store.adoptActive (s : Store) (active : ActiveFile) : Store :=
  { s with
    active
    head := { s.head with
      history := active.header.baseHistory
      activeCommitOffset := 0
      activeCommitEnd := activeMetadataEnd
      oldestDirtyUnix := 0
      lastDirtyUnix := 0 } }.synchronizeReadCache

/-- The lock a publication needs. -/
def guardPublication : StoreM Unit := do
  if (← get).store.publicationOwner = .unlocked then throw .busy

def installActive (policy : StoragePolicyRecord) : StoreM Unit := do
  let base := (← get).store.view.elim ActiveBase.genesis ActiveBase.existing
  guardPublication
  let active ← createActive base policy false
  StoreM.updateStore fun s => s.adoptActive active

def ensureActive : StoreM Unit := do
  let s := (← get).store
  if s.head.pageSize = 0 then throw .unknownPageSize
  else if s.active.header.pageSize = s.head.pageSize then return
  else if s.active.header.pageSize ≠ 0 ∨ s.head.txid ≠ 0 ∨ s.head.activeCommitOffset ≠ 0 then
    throw .identityMismatch
  else installActive s.active.header.policy

/-! ## Loading the active file -/

def Disk.openFile (d : Disk) (inode : Nat) : Except StoreError PageFile :=
  match d.files[inode]? with
  | none => .error .io
  | some f => .ok f

/-- Where the sealed base ends: size, transaction, lineage. -/
def sealedEnd (view : Option PinnedView) : Nat × Nat × Digest :=
  view.elim (0, 0, genesisHistory) fun view =>
    (view.size.get, view.metadata.view.txid, view.metadata.view.history)

/-- The checks of `load_local` on the header, the newest state and the records. -/
def Disk.loadActive (d : Disk) (inode : Nat) (header : ActiveHeader) (view : Option PinnedView) :
    Except StoreError (ActiveState × BTreeMap Nat Nat × Nat) := do
  let (sealedSize, sealedTxid, sealedHistory) := sealedEnd view
  Except.ensure (view.all fun view => view.metadata.view.database = header.databaseId)
    .identityMismatch
  let start ← checkedAdd sealedTxid 1
  Except.ensure (header.startTxid = start ∧ header.baseHistory = sealedHistory ∧
    header.baseLogicalSize = sealedSize ∧
    view.all fun view => view.size.pageSize.get = header.pageSize) .identityMismatch
  let f ← d.openFile inode
  let state ← readActiveState f header.databaseId
  Except.ensure (state.pageSize = header.pageSize ∧ state.history = sealedHistory ∧
    sealedTxid ≤ state.txid ∧ (state.txid = sealedTxid → state.logicalSize = sealedSize) ∧
    ¬ (sealedTxid < state.txid ∧ state.txid < header.startTxid)) .identityMismatch
  let (records, committedEnd) ← loadActiveRecords f activeMetadataEnd state.pageSize state.recordCount
  Except.ensure (committedEnd ≤ f.len) (.corrupt f.len)
  return (state, records, committedEnd)

/-- Open the native base a header names. -/
def Disk.openSource (d : Disk) (header : ActiveHeader) : Except StoreError (Option Bytes) :=
  if header.sourceBytes = 0 then return none
  else
    match d.source with
    | none => .error .io
    | some bytes => do
        let sqliteHeader ← readExactAt bytes 0 100
        Except.ensure (bytes.length = header.sourceBytes ∧
          some (E.hash.bytes sqliteHeader) = header.sourceHeaderDigest ∧
          parsePageSize sqliteHeader = some header.pageSize) .identityMismatch
        return some bytes

/-- The store after loading an active file: nothing is pending. -/
def Store.loaded (s : Store) (header : ActiveHeader) (view : Option PinnedView)
    (source : Option Bytes) (state : ActiveState) (committedEnd : Nat) : Store :=
  { s with
    head := {
      pageSize := state.pageSize
      logicalSize := state.logicalSize
      txid := state.txid
      history := state.history
      activeCommitOffset :=
        if state.txid < header.startTxid then 0 else activeStateOffset state.sequence
      activeCommitEnd := committedEnd
      oldestDirtyUnix :=
        if state.firstCommitUnix = 0 then state.commitUnix else state.firstCommitUnix
      lastDirtyUnix := state.commitUnix }
    view
    source
    layout := header.layout
    pageCache := s.pageCache.setBudget header.layout.cache
    pendingSize := state.logicalSize
    pendingTruncatePages := none
    pendingDirty := false
    pendingRawPages := ∅
    pendingRawOriginals := ∅
    bootstrap := none }.synchronizeReadCache

def loadLocal (inode : Nat) (header : ActiveHeader) (view : Option PinnedView) : StoreM Unit := do
  let (state, records, committedEnd) ← StoreM.ofExcept fun w => w.disk.loadActive inode header view
  StoreM.updateStore fun s =>
    { s with active := ⟨inode, header, state.sequence, records, state.truncatePages⟩ }
  let source ← StoreM.ofExcept fun w => w.disk.openSource E header
  StoreM.updateStore fun s => s.loaded header view source state committedEnd

/-- Pin the base view a header names. -/
def Catalog.pinBase (C : Catalog) (header : ActiveHeader) : Except StoreError (Option PinnedView) :=
  match header.parentPhysicalDigest with
  | none => return none
  | some id => some <$> C.pin E id

/-- Retire the native base of a finished conversion: the header no longer names it. -/
def retireSource : StoreM Unit := do
  let done ← StoreM.ofExcept fun w => w.disk.catalog.convertedPrefix E
  (if done.isSome then StoreM.onCatalog fun C => C.releaseConversion else pure ())
  modify fun w => { w with disk := { w.disk with source := none } }

def reload : StoreM Unit := do
  let w ← get
  let f ← EStateM.liftExcept (w.disk.openFile w.disk.installed)
  let header ← EStateM.liftExcept (readActiveHeader f)
  EStateM.liftExcept (Except.ensure (header.databaseId = w.store.active.header.databaseId)
    .identityMismatch)
  EStateM.liftExcept (w.disk.catalog.validateAttachment header)
  (if w.store.writable then StoreM.onCatalog fun C => C.recoverSeal header else pure ())
  let view ← StoreM.ofExcept fun w => w.disk.catalog.pinBase E header
  loadLocal E w.disk.installed header view
  let w' ← get
  if w'.store.writable ∧ header.sourceBytes = 0 ∧ header.parentPhysicalDigest.isSome ∧
      w'.disk.info.isSome ∧ w'.disk.source.isSome then retireSource E

/-- Reload when the open file has a newer state, is no longer the one at the path, or has bytes
past the committed end. -/
def refresh : StoreM Unit := do
  let w ← get
  if w.store.hasPending then return
  else
    let f ← EStateM.liftExcept w.activeFile
    let state ← EStateM.liftExcept (readActiveState f w.store.active.header.databaseId)
    if w.store.active.stateSequence < state.sequence ∨
        w.store.active.file ≠ w.disk.installed ∨ w.store.head.activeCommitEnd < f.len then
      reload E

def upgradeWritable : StoreM Bool := do
  let w ← get
  if w.store.writable then return false
  else
    let _ ← EStateM.liftExcept (w.disk.openFile w.disk.installed)
    StoreM.updateStore fun s =>
      { s with active := { s.active with file := w.disk.installed }, writable := true }
    return true

/-- Drop the uncommitted bytes behind the committed records. -/
def trimActive : StoreM Unit := do
  let f ← StoreM.ofExcept World.activeFile
  let committedEnd := (← get).store.head.activeCommitEnd
  if committedEnd < f.len then StoreM.onActiveFile fun f => f.setLen committedEnd else pure ()

/-- Enter a transaction: lock, reload, trim. -/
def beginWrite : StoreM Unit := do
  let w ← get
  if ¬ w.store.writable then throw .readOnly
  else if w.store.publicationOwner ≠ .unlocked then return
  else if w.disk.publicationHeld then throw .busy
  else
    StoreM.updateStore fun s => { s with publicationOwner := .transaction }
    EStateM.finish (do reload E; trimActive) id fun w => w.updateStore Store.releasePublication

/-! ## Opening -/

def Store.blank (file : Nat) (header : ActiveHeader) (writable : Bool) : Store where
  writable
  publicationOwner := .unlocked
  head := ⟨0, 0, 0, genesisHistory, 0, 0, 0, 0⟩
  view := none
  layout := LayoutPolicy.default
  pageCache := PageCache.new LayoutPolicy.default.cache
  active := ⟨file, header, 1, ∅, none⟩
  source := none
  pendingRawPages := ∅
  pendingRawOriginals := ∅
  pendingSize := 0
  pendingTruncatePages := none
  pendingDirty := false
  bootstrap := none

def maxDictionaryBytes : Nat := 768 * 1024

/-- The default policy: no rollover, the largest dictionary and sample budget. -/
def StoragePolicyRecord.default : StoragePolicyRecord where
  rolloverBytes := 0
  dictionaryBytes := maxDictionaryBytes
  sampleBytes := maxSampleBytes

/-- The header of a new database. -/
def ActiveHeader.genesis (database attachment : Digest) : ActiveHeader where
  attachmentId := attachment
  databaseId := database
  pageSize := 0
  startTxid := 1
  baseHistory := genesisHistory
  parentPhysicalDigest := none
  baseLogicalSize := 0
  policy := .default
  layout := .default
  sourceBytes := 0
  sourceHeaderDigest := none

/-- The catalog of a new database. -/
def Catalog.initialized (database attachment : Digest) : Catalog where
  manifests := ∅
  endpoints := ∅
  packs := ∅
  dictionaries := ∅
  database := some database
  attachment := some attachment
  finalized := none
  pending := none
  conversion := none

/-- `initialize`: a new database before its first reload. -/
def World.initialized (database attachment : Digest) (clock : Nat) : World where
  disk := {
    files := (∅ : BTreeMap Nat PageFile).insert 0
      ((ActiveHeader.genesis database attachment).emptyFile
        ⟨0, 0, 0, genesisHistory, 0, 0, 0, 0⟩)
    installed := 0
    nextInode := 1
    catalog := .initialized database attachment
    source := none
    info := none
    paused := false
    publicationHeld := false
    clock }
  store := .blank 0 (.genesis database attachment) true

/-- Open the existing database at the path. -/
def openMode (writable : Bool) : StoreM Unit := do
  let w ← get
  let f ← EStateM.liftExcept (w.disk.openFile w.disk.installed)
  let header ← EStateM.liftExcept (readActiveHeader f)
  StoreM.updateStore fun _ => Store.blank w.disk.installed header writable
  reload E

end Zsqlite
