import Zsqlite.Lib.Overlay
import Zsqlite.PageFile
import Zsqlite.Head
import Zsqlite.Cache

set_option autoImplicit false

/-! # The store and what it reads

`Disk` is what processes share: the page files by inode, the inode at the database path, the
object catalog of the head and the conversion files of the sidecar. `Store` is one process's
open database; its file handles are inodes, or the bytes of a file that is never written again.
A store function is a computation that returns or fails and leaves a state either way.

Left out are statistics, deadlines of background work, syncs and permissions.
-/

namespace Zsqlite

open ByteVec

/-! ## State -/

/-- The conversion descriptor of an adopted native database. -/
structure SourceInfo where
  database : Digest
  bytes : Nat
  pageSize : Nat
  header : Digest
  deriving DecidableEq, Repr

structure Disk where
  files : BTreeMap Nat PageFile
  /-- The inode at the database path. -/
  installed : Nat
  nextInode : Nat
  catalog : Catalog
  /-- The native base `.source` in the sidecar. -/
  source : Option Bytes
  info : Option SourceInfo
  paused : Bool
  /-- Another process holds the publication lock. -/
  publicationHeld : Bool
  clock : Nat

structure ActiveFile where
  /-- The inode of the open handle. -/
  file : Nat
  header : ActiveHeader
  stateSequence : Nat
  activeRecords : BTreeMap Nat Nat
  truncatePages : Option Nat

structure HeadState where
  pageSize : Nat
  logicalSize : Nat
  txid : Nat
  history : Digest
  activeCommitOffset : Nat
  activeCommitEnd : Nat
  oldestDirtyUnix : Nat
  lastDirtyUnix : Nat
  deriving DecidableEq, Repr

inductive PublicationPhase where
  | unlocked
  | transaction
  | checkpoint
  | maintenance
  deriving DecidableEq, Repr

structure Store where
  writable : Bool
  publicationOwner : PublicationPhase
  head : HeadState
  view : Option PinnedView
  layout : LayoutPolicy
  pageCache : PageCache
  active : ActiveFile
  source : Option Bytes
  pendingRawPages : Finset Nat
  pendingRawOriginals : BTreeMap Nat Bytes
  pendingSize : Nat
  pendingTruncatePages : Option Nat
  pendingDirty : Bool
  bootstrap : Option Bytes

structure World where
  disk : Disk
  store : Store

abbrev StoreM := EStateM StoreError World

namespace Store

variable (s : Store)

def logicalSize : Nat := s.pendingSize

def hasPending : Bool :=
  s.pendingDirty || !decide (s.pendingRawPages = ∅) || !s.pendingRawOriginals.isEmpty
    || s.bootstrap.isSome

/-- A page of the view that the active file hides. -/
def shadowed (page : Nat) : Bool :=
  s.active.activeRecords.contains page ||
    (Overlay.lower s.pendingTruncatePages s.active.truncatePages).any fun last => last < page

/-- Leave a transaction. Maintenance and checkpoints keep the lock. -/
def releasePublication : Store :=
  if s.publicationOwner = .transaction then { s with publicationOwner := .unlocked } else s

/-- Change the phase of a held lock. -/
def transition (phase : PublicationPhase) : Store :=
  if s.publicationOwner = .unlocked then s else { s with publicationOwner := phase }

end Store

namespace World

variable (w : World)

/-- The file the store has open. -/
def activeFile : Except StoreError PageFile :=
  match w.disk.files[w.store.active.file]? with
  | none => .error .io
  | some f => .ok f

def setActiveFile (f : PageFile) : World :=
  { w with disk := { w.disk with files := w.disk.files.insert w.store.active.file f } }

def setCatalog (C : Catalog) : World := { w with disk := { w.disk with catalog := C } }

def updateStore (f : Store → Store) : World := { w with store := f w.store }

end World

namespace StoreM

/-- Run a computation on the page cache. -/
def onCache {α : Type} (m : EStateM StoreError PageCache α) : StoreM α := fun w =>
  match m w.store.pageCache with
  | .ok a cache => .ok a { w with store := { w.store with pageCache := cache } }
  | .error e cache => .error e { w with store := { w.store with pageCache := cache } }

def ofExcept {α : Type} (f : World → Except StoreError α) : StoreM α := fun w =>
  EStateM.liftExcept (f w) w

def updateStore (f : Store → Store) : StoreM Unit := modify fun w => w.updateStore f

/-- Edit the catalog. -/
def onCatalog (f : Catalog → Except StoreError Catalog) : StoreM Unit := do
  let C ← ofExcept fun w => f w.disk.catalog
  modify fun w => w.setCatalog C

/-- Edit the open file. -/
def onActiveFile (f : PageFile → PageFile) : StoreM Unit := do
  let file ← ofExcept World.activeFile
  modify fun w => w.setActiveFile (f file)

section Outcomes

variable {α : Type} {w w' : World} {a : α}

theorem ofExcept_eq_ok {f : World → Except StoreError α} :
    ofExcept f w = .ok a w' ↔ f w = .ok a ∧ w = w' :=
  EStateM.liftExcept_eq_ok

@[simp] theorem updateStore_apply (f : Store → Store) (w : World) :
    updateStore f w = .ok () (w.updateStore f) := rfl

theorem onCatalog_eq_ok {f : Catalog → Except StoreError Catalog} {u : Unit} :
    onCatalog f w = .ok u w' ↔ ∃ C, f w.disk.catalog = .ok C ∧ w' = w.setCatalog C := by
  simp only [onCatalog, EStateM.bind_eq_ok, ofExcept_eq_ok, EStateM.modify_apply]
  constructor
  · rintro ⟨C, _, ⟨hC, rfl⟩, h⟩
    cases h
    exact ⟨C, hC, rfl⟩
  · rintro ⟨C, hC, rfl⟩
    exact ⟨C, w, ⟨hC, rfl⟩, rfl⟩

theorem onActiveFile_eq_ok {f : PageFile → PageFile} {u : Unit} :
    onActiveFile f w = .ok u w' ↔ ∃ file, w.activeFile = .ok file ∧
      w' = w.setActiveFile (f file) := by
  simp only [onActiveFile, EStateM.bind_eq_ok, ofExcept_eq_ok, EStateM.modify_apply]
  constructor
  · rintro ⟨file, _, ⟨hf, rfl⟩, h⟩
    cases h
    exact ⟨file, hf, rfl⟩
  · rintro ⟨file, hf, rfl⟩
    exact ⟨file, w, ⟨hf, rfl⟩, rfl⟩

end Outcomes

end StoreM

/-! ## Reading -/

section Read

variable (E : Env)

namespace World

variable (w : World)

def activeRecordOffset (page : Nat) : Except StoreError Nat :=
  match w.store.active.activeRecords[page]? with
  | none => .error .range
  | some offset => .ok offset

/-- The page bytes of an active record. -/
def readMutablePage (page : Nat) : Except StoreError Bytes := do
  let offset ← w.activeRecordOffset page
  let f ← w.activeFile
  match f.slots[slotIndex f.header.pageSize offset]? with
  | none => .error .io
  | some record =>
      match record.pageNo with
      | none => .error .format
      | some number =>
          Except.ensure (number = page ∧ f.header.pageSize = w.store.head.pageSize)
            (.corrupt offset)
          return record.payload

/-- What lies under the records; `none` when the page is the view's. -/
def readBasePage (size : PageSize) (page : Nat) : Except StoreError (Option Bytes) :=
  match w.store.view with
  | none =>
      match w.store.source with
      | none => return some (zeros size.get)
      | some source =>
          let offset := (page - 1) * size.get
          if offset < w.store.active.header.sourceBytes then
            some <$> readExactAt source offset size.get
          else return some (zeros size.get)
  | some view => if view.size.pages < page then return some (zeros size.get) else return none

/-- The layers above the view; `none` when the page is the view's. -/
def readLocalPage (page : Nat) : Except StoreError (Option Bytes) := do
  let size ← PageSize.new w.store.head.pageSize
  let blank := some (zeros size.get)
  if w.store.pendingTruncatePages.any (fun preserved => preserved < page) ∧
      page ∉ w.store.pendingRawPages then return blank
  else if w.store.active.activeRecords.contains page then some <$> w.readMutablePage page
  else if w.store.active.truncatePages.any (fun preserved => preserved < page) then return blank
  else w.readBasePage size page

end World

/-- A page of the view, through the cache. -/
def readSealedPage (page : Nat) : StoreM Bytes := do
  match (← get).store.view with
  | none => throw (.corrupt 0)
  | some view =>
      let number ← EStateM.liftExcept (PageNumber.new page)
      StoreM.onCache (PageCache.read E view number (← get).store.shadowed)

def readPage (page : Nat) : StoreM Bytes := do
  match ← StoreM.ofExcept fun w => w.readLocalPage page with
  | some bytes => return bytes
  | none => readSealedPage E page

/-- The page loop of `read_at`, from the bytes already copied. -/
def readPages (offset actual : Nat) : Nat → Bytes → StoreM Bytes
  | 0, out => return out
  | fuel + 1, out =>
      if out.length < actual then do
        let size := (← get).store.head.pageSize
        let logical ← EStateM.liftExcept (checkedAdd offset out.length)
        let page ← EStateM.liftExcept (toU32 (logical / size + 1))
        let within := logical % size
        let amount := min (actual - out.length) (size - within)
        let bytes ← readPage E page
        readPages offset actual fuel (out ++ (bytes.drop within).take amount)
      else return out

/-- The pages of one group, read locally first and from the view after that. -/
def readGroup (numbers : List Nat) : StoreM (List Bytes) := do
  let pages ← numbers.mapM fun n => do
    let number ← EStateM.liftExcept (do PageNumber.new (← toU32 n))
    return (number, ← StoreM.ofExcept fun w => w.readLocalPage number)
  pages.mapM fun (number, page) =>
    match page with
    | some bytes => pure bytes
    | none => readSealedPage E number

/-- Append what a request of `length` bytes at `offset` takes from consecutive pages. -/
def copyPages (size offset length : Nat) (out : Bytes) (pages : List Bytes) : Bytes :=
  pages.foldl (fun out page =>
    let within := (offset + out.length) % size
    out ++ (page.drop within).take (min (length - out.length) (page.length - within))) out

/-- `read_batched`: groups of up to 256 pages. -/
def readBatched (offset length : Nat) : Nat → Bytes → StoreM Bytes
  | 0, out => return out
  | fuel + 1, out =>
      if out.length < length then do
        let size := (← get).store.head.pageSize
        let logical ← EStateM.liftExcept (checkedAdd offset out.length)
        let first := logical / size + 1
        let last := min (((← EStateM.liftExcept (checkedAdd offset length)) - 1) / size + 1)
          (first + 255)
        let pages ← readGroup E (List.range' first (last + 1 - first))
        readBatched offset length fuel (copyPages size offset length out pages)
      else return out

/-- The bytes and the fill of a read of `length` bytes at `offset`. -/
def readAt (offset length : Nat) : StoreM (Nat × Bytes) := do
  let s := (← get).store
  if length = 0 ∨ s.pendingSize ≤ offset then return (0, zeros length)
  else
    let actual := min (s.pendingSize - offset) length
    let bytes ← (if s.head.pageSize = 0 then
        match s.bootstrap with
        | none => pure []
        | some file =>
            let copied := min actual (file.length - offset)
            if copied = 0 then pure [] else EStateM.liftExcept (readExactAt file offset copied)
      else if s.head.pageSize < actual then readBatched E offset actual actual []
      else readPages E offset actual actual [])
    return (actual, resize bytes length)

end Read

end Zsqlite
