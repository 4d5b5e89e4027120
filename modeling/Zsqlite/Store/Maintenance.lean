import Zsqlite.Store.Write

set_option autoImplicit false

/-! # Seals, compaction and source attachment

A seal has three phases. `prepareActiveWork` copies the committed records under the publication
lock and gives the lock up; `SealWork.prepare` encodes the copy; `finishWork` takes the lock
again and publishes the result only when neither the header nor the head has moved. Repacks and
dictionary updates go through the same three phases without records. A source conversion seals
prefixes of the native base and then attaches the last one.

Which packs a repack selects and whether a dictionary update is due are arguments here. The
collector that runs after a publication is a parameter: a function that may fail and may drop
objects, and leaves the descriptors and the conversion root alone.
-/

namespace Zsqlite

open ByteVec

variable (E : Env)

/-! ## The collector -/

/-- `C'` has lost objects of `C` and nothing else. -/
structure Catalog.Shrinks (C C' : Catalog) : Prop where
  manifests : ∀ (id : Digest) m, C'.manifests[id]? = some m → C.manifests[id]? = some m
  packs : ∀ (id : Digest) p, C'.packs[id]? = some p → C.packs[id]? = some p
  database : C'.database = C.database
  attachment : C'.attachment = C.attachment
  finalized : C'.finalized = C.finalized
  pending : C'.pending = C.pending
  conversion : C'.conversion = C.conversion

structure Collector where
  collect : Nat → Catalog → Except StoreError Catalog
  shrinks : ∀ {budget C C'}, collect budget C = .ok C' → C.Shrinks C'

variable (G : Collector)

/-! ## The maintenance lock -/

def acquireMaintenance : StoreM Unit := do
  let w ← get
  match w.store.publicationOwner with
  | .maintenance => return
  | .checkpoint => throw .busy
  | .transaction =>
      refresh E
      StoreM.updateStore fun s => s.transition .maintenance
  | .unlocked =>
      if w.disk.publicationHeld then throw .busy
      else
        StoreM.updateStore fun s => { s with publicationOwner := .transaction }
        EStateM.finish (refresh E) id fun w => w.updateStore Store.releasePublication
        StoreM.updateStore fun s => s.transition .maintenance

def Store.releaseMaintenance (s : Store) : Store :=
  let s := if s.publicationOwner = .maintenance then s.transition .transaction else s
  s.releasePublication

/-! ## Publishing a view -/

/-- A failed installation reloads what is visible before the error is returned. -/
def createOrReload (base : ActiveBase) (policy : StoragePolicyRecord) : StoreM ActiveFile :=
  fun w =>
    match createActive base policy true w with
    | .ok active w' => .ok active w'
    | .error e w' =>
        match reload E w' with
        | .ok _ w'' => .error e w''
        | .error _ w'' => .error e w''

/-- Pin an installed manifest, make it the base of a new active file and finalize the
descriptor. -/
def publishView (durable : DurableView) : StoreM Unit := do
  let view ← StoreM.ofExcept fun w => w.disk.catalog.pin E durable.id
  guardPublication
  let active ← createOrReload E (.installed durable) (← get).store.active.header.policy
  StoreM.updateStore fun s => { s with view := some view }.adoptActive active
  StoreM.onCatalog fun C => C.finishSeal active.header

/-! ## Work -/

inductive SealKind where
  | active (header : ActiveHeader) (head : HeadState) (restore : PublicationPhase)
  | source (before after : Nat)

structure SealWork where
  input : SealInput
  kind : SealKind

structure PreparedWork where
  prepared : PreparedSeal
  kind : SealKind
  sourceView : Option PinnedView

/-- The endpoint of the store's committed state. -/
def Store.sealEndpoint (s : Store) (size : LogicalBytes) : SealEndpoint where
  dictionaryBytes := s.active.header.policy.dictionaryBytes
  database := s.active.header.databaseId
  lineage := s.active.header.databaseId
  size
  txid := s.head.txid
  history := s.head.history
  truncate := s.active.truncatePages

/-- The endpoint of a view, for work that leaves it as it is. -/
def Store.viewEndpoint (s : Store) (view : PinnedView) (dictionaryBytes : Nat) : SealEndpoint where
  dictionaryBytes
  database := view.metadata.view.database
  lineage := s.active.header.databaseId
  size := view.size
  txid := view.metadata.view.txid
  history := view.metadata.view.history
  truncate := none

/-- Copy the committed records up to the logical size. -/
def World.snapshot (w : World) (size : LogicalBytes) :
    Except StoreError (List (Nat × Nat) × Bytes) := do
  let pages ← (w.store.active.activeRecords.keys.filter fun page => page ≤ size.pages).mapM
    fun page => do return (← PageNumber.new page, w.store.head.txid)
  let file ← pages.foldlM (fun file entry => do
    return overwrite file ((entry.1 - 1) * w.store.head.pageSize) (← w.readMutablePage entry.1)) []
  return (pages, file)

def World.activeWork (w : World) (restore : PublicationPhase) : Except StoreError SealWork := do
  let size ← LogicalBytes.new w.store.head.logicalSize (← PageSize.new w.store.head.pageSize)
  Except.ensure (w.store.head.txid ≠ 0) .value
  let (pages, file) ← w.snapshot size
  let input ← SealInput.new E w.disk.catalog w.store.view (w.store.sealEndpoint size) pages file
    w.store.layout
  return ⟨input, .active w.store.active.header w.store.head restore⟩

/-- Snapshot the committed state under the lock, then give the lock up. -/
def prepareActiveWork : StoreM (Option SealWork) := do
  let s := (← get).store
  if s.head.txid < s.active.header.startTxid then return none
  else
    acquireMaintenance E
    let unlock := fun w : World => w.updateStore fun s => { s with publicationOwner := .unlocked }
    EStateM.finish (some <$> StoreM.ofExcept fun w => w.activeWork E s.publicationOwner)
      unlock unlock

/-- Work on the view alone: `edit` selects what is rewritten. -/
def prepareViewWork (dictionaryBytes : Nat) (edit : SealInput → SealInput) :
    StoreM (Option SealWork) := do
  let w ← get
  match w.store.view with
  | none => return none
  | some view =>
      if w.store.hasPending ∨ w.store.active.header.startTxid ≤ w.store.head.txid then return none
      else
        let input ← EStateM.liftExcept (SealInput.new E w.disk.catalog (some view)
          (w.store.viewEndpoint view dictionaryBytes) [] [] w.store.layout)
        return some ⟨edit input,
          .active w.store.active.header w.store.head w.store.publicationOwner⟩

/-- Rewrite the live frames of the selected packs. -/
def prepareRepackWork (selected : List Digest) : StoreM (Option SealWork) := do
  if selected = [] then return none
  else prepareViewWork E 0 fun input => { input with repack := some selected }

/-- Adopt a better dictionary. -/
def prepareDictionaryWork : StoreM (Option SealWork) := do
  let policy := (← get).store.active.header.policy
  if policy.dictionaryBytes = 0 then return none
  else prepareViewWork E policy.dictionaryBytes fun input =>
    { input with dictionaryUpdate := true, dictionaryTraining := true }

/-- Encode the input. A prefix of the source is also installed and recorded as progress. -/
def SealWork.prepare (work : SealWork) : StoreM PreparedWork := do
  let prepared ← StoreM.ofExcept fun w => work.input.prepare E w.disk.paused
  match work.kind with
  | .active header head restore => return ⟨prepared, .active header head restore, none⟩
  | .source before after =>
      let w ← get
      if w.disk.paused then throw .busy
      else
        let current ← EStateM.liftExcept (w.disk.catalog.convertedPrefix E)
        EStateM.liftExcept (Except.ensure (current.elim 0 (fun view => view.size.get) = before)
          .busy)
        let (C, durable) ← EStateM.liftExcept (prepared.install E w.disk.catalog)
        modify fun w => w.setCatalog C
        let view ← StoreM.ofExcept fun w => w.disk.catalog.pin E durable.id
        StoreM.onCatalog fun C => C.retainConversion E view
        return ⟨prepared, .source before after, some view⟩

/-! ## Source attachment -/

/-- `CHUNK_BYTES` -/
def chunkBytes : Nat := 8 * 1024 * 1024

/-- The next chunk of the native base. -/
def World.sourceWork (w : World) (source : Bytes) : Except StoreError SealWork := do
  let s := w.store
  let done ← w.disk.catalog.convertedPrefix E
  Except.ensure (done.all fun view =>
    view.metadata.view.database = s.active.header.databaseId ∧ view.metadata.view.txid = 1 ∧
    view.size.pageSize.get = s.head.pageSize) .identityMismatch
  let before := done.elim 0 fun view => view.size.get
  let total := s.active.header.sourceBytes
  Except.ensure (before ≤ total) (.corrupt 0)
  let after := min (before + chunkBytes) total
  let pageSize ← PageSize.new s.head.pageSize
  let first := before / pageSize.get + 1
  let last := after / pageSize.get
  let pages ← (List.range' first (last + 1 - first)).mapM fun page => do
    return (← PageNumber.new (← toU32 page), 1)
  let size ← LogicalBytes.new after pageSize
  let endpoint : SealEndpoint := {
    dictionaryBytes := s.active.header.policy.dictionaryBytes
    database := s.active.header.databaseId
    lineage := s.active.header.databaseId
    size
    txid := 1
    history := done.elim genesisHistory fun view => view.metadata.view.history
    truncate := none }
  let input ← SealInput.new E w.disk.catalog done endpoint pages source s.layout
  return ⟨{ input with sourcePrefix := true }, .source before after⟩

def prepareSourceWork : StoreM (Option SealWork) := do
  let w ← get
  match w.store.source with
  | none => return none
  | some source =>
      if w.disk.paused then return none
      else if w.store.hasPending ∨ w.store.publicationOwner = .checkpoint then throw .busy
      else some <$> EStateM.liftExcept (w.sourceWork E source)

/-- The header over an attached source. -/
def Store.attachedHeader (s : Store) (view : PinnedView) : ActiveHeader :=
  { s.active.header with
    sourceBytes := 0
    sourceHeaderDigest := none
    startTxid := 2
    parentPhysicalDigest := some view.id
    baseLogicalSize := view.size.get
    baseHistory := view.metadata.view.history }

/-- The committed state, continued over an attached source. -/
def Store.attachedState (s : Store) (view : PinnedView) : ActiveState where
  databaseId := s.active.header.databaseId
  sequence := 1
  txid := s.head.txid
  logicalSize := s.head.logicalSize
  pageSize := s.head.pageSize
  history := view.metadata.view.history
  commitUnix := s.head.lastDirtyUnix
  firstCommitUnix := s.head.oldestDirtyUnix
  recordCount := s.active.activeRecords.size
  truncatePages := s.active.truncatePages

/-- The active file over an attached source: the committed records are carried over. -/
def Store.attachedFile (s : Store) (view : PinnedView) (slots : List RawRecord) : PageFile :=
  ⟨s.attachedHeader view, .state (s.attachedState view), .empty, slots⟩

def installSourceBase (view : PinnedView) : StoreM Unit := do
  let s := (← get).store
  let f ← StoreM.ofExcept World.activeFile
  let count := slotIndex f.header.pageSize s.head.activeCommitEnd
  EStateM.liftExcept (Except.ensure (count ≤ f.slots.length) .io)
  let file := s.attachedFile view (f.slots.take count)
  StoreM.onCatalog fun C => C.prepareSeal file.header
  let inode := (← get).disk.nextInode
  modify fun w => { w with disk := w.disk.install file }
  loadLocal E inode file.header (some view)
  StoreM.onCatalog fun C => C.finishSeal file.header

/-- Attach the whole source as the sealed base, when the progress root still names it. -/
def attachSource (view : PinnedView) (after : Nat) : StoreM Unit := do
  let w ← get
  if w.store.source = none then return
  else
    let done ← EStateM.liftExcept (w.disk.catalog.convertedPrefix E)
    match done with
    | none => throw (.corrupt 0)
    | some current =>
        EStateM.liftExcept (Except.ensure (current.id = view.id ∧ current.size.get = after) .busy)
        if after = w.store.active.header.sourceBytes then
          installSourceBase E view
          StoreM.onCatalog fun C => C.releaseConversion
          modify fun w => { w with disk := { w.disk with source := none } }

def finishSourceWork (view : PinnedView) (after : Nat) : StoreM Unit := do
  let w ← get
  if after < w.store.active.header.sourceBytes then return
  else if w.disk.paused ∨ w.store.hasPending then throw .busy
  else
    acquireMaintenance E
    let release := fun w : World => w.updateStore Store.releaseMaintenance
    EStateM.finish (attachSource E view after) release release

/-! ## Finishing -/

/-- Publish prepared work, when the head is still the one it was prepared from. -/
def publishWork (prepared : PreparedSeal) (header : ActiveHeader) (head : HeadState) :
    StoreM Unit := do
  let w ← get
  EStateM.liftExcept (Except.ensure (w.store.active.header = header ∧ w.store.head = head) .busy)
  let (C, durable) ← EStateM.liftExcept (prepared.install E w.disk.catalog)
  modify fun w => w.setCatalog C
  publishView E durable
  if prepared.report then return
  else
    let budget := (← get).store.layout.deletionBudget
    StoreM.onCatalog (G.collect budget)

def finishWork (work : PreparedWork) : StoreM Unit := do
  match work.kind with
  | .source _ after =>
      match work.sourceView with
      | none => throw (.corrupt 0)
      | some view => finishSourceWork E view after
  | .active header head restore =>
      if (← get).store.hasPending then throw .busy
      else
        acquireMaintenance E
        EStateM.finish (publishWork E G work.prepared header head)
          (fun w => w.updateStore fun s =>
            if restore = .unlocked then s.releaseMaintenance else s.transition restore)
          fun w => w.updateStore Store.releaseMaintenance

/-! ## Compaction and flushing -/

def compactInner : StoreM Unit := do
  let w ← get
  if w.store.hasPending ∨ w.store.active.header.startTxid ≤ w.store.head.txid then throw .busy
  else
    match w.store.view with
    | none => return
    | some view =>
        if view.metadata.parent = .checkpoint then return
        else
          let (C, durable) ← EStateM.liftExcept (checkpointManifest E w.disk.catalog view)
          modify fun w => w.setCatalog C
          publishView E durable

def compact : StoreM Unit := do
  acquireMaintenance E
  let release := fun w : World => w.updateStore Store.releaseMaintenance
  EStateM.finish (compactInner E) release release

/-- Seal and attach the native base chunk by chunk. -/
def flushSource : Nat → StoreM Unit
  | 0 => return
  | fuel + 1 => do
      if (← get).store.source = none then return
      else
        match ← prepareSourceWork E with
        | none => throw .busy
        | some work =>
            finishWork E G (← work.prepare E)
            flushSource fuel

def sealActive : StoreM Unit := do
  if (← get).store.source ≠ none then throw .busy
  else
    match ← prepareActiveWork E with
    | none => return
    | some work => finishWork E G (← work.prepare E)

/-- One chunk more than the source has. -/
def Store.sourceChunks (s : Store) : Nat := s.active.header.sourceBytes / chunkBytes + 2

def flushSidecars : StoreM Unit := do
  flushSource E G (← get).store.sourceChunks
  beginWrite E
  let pending := (← get).store.hasPending
  (if pending then do
      publish E true
      beginWrite E
    else pure ())
  let s := (← get).store
  if s.head.txid < s.active.header.startTxid then
    StoreM.updateStore Store.releasePublication
  else
    sealActive E G
    StoreM.updateStore Store.releasePublication

end Zsqlite
