import Zsqlite.PinnedView

set_option autoImplicit false

/-! # Sealing

`SealInput.prepare` turns a private copy of committed pages into encoded frames: it copies or
decodes the frames a repack selected, elides zero pages, groups the others into frames and
encodes them in bounded batches (`prepared.rs`, `parallel.rs`). `PreparedSeal.install` edits
the source view, writes the frames into packs and installs a manifest, as a run over the
source or as a checkpoint (`prepared.rs`, `view.rs`).
-/

namespace Zsqlite

open ByteVec

variable (E : Env)

/-! ## Input -/

structure SealEndpoint where
  dictionaryBytes : Nat
  database : Digest
  lineage : Digest
  size : LogicalBytes
  txid : Nat
  history : Digest
  truncate : Option Nat

/-- The source view, the pages to seal and the private file that holds them at their logical
offsets. -/
structure SealInput where
  endpoint : SealEndpoint
  source : Option PinnedView
  pages : List (Nat × Nat)
  file : Bytes
  layout : LayoutPolicy
  dictionaries : Dictionaries
  preferred : List Digest
  dictionaryTraining : Bool
  dictionaryUpdate : Bool
  sourcePrefix : Bool
  repack : Option (List Digest)

def readExactAt (file : Bytes) (offset length : Nat) : Except StoreError Bytes :=
  if offset + length ≤ file.length then .ok ((file.drop offset).take length) else .error .io

namespace SealInput

/-- Pin the source again and take over its last preferred dictionary; a first seal may start
from a related database's dictionary. -/
def new (C : Catalog) (source : Option PinnedView) (endpoint : SealEndpoint)
    (pages : List (Nat × Nat)) (file : Bytes) (layout : LayoutPolicy) :
    Except StoreError SealInput := do
  let source ← source.mapM fun view => C.pin E view.id
  let dictionary := source.elim (E.seedDictionary.map fun bytes => (E.hash.bytes bytes, bytes))
    fun view => view.metadata.view.preferred.getLast?.bind fun id =>
      view.dictionaries[id]?.map fun bytes => (id, bytes)
  return {
    endpoint, source, pages, file, layout
    dictionaries := dictionary.elim ∅ fun d => (∅ : Dictionaries).insert d.1 d.2
    preferred := dictionary.elim [] fun d => [d.1]
    dictionaryTraining := false
    dictionaryUpdate := false
    sourcePrefix := false
    repack := none }

variable (input : SealInput)

def pageSize : PageSize := input.endpoint.size.pageSize

def read (page : Nat) : Except StoreError Bytes :=
  readExactAt input.file ((page - 1) * input.pageSize.get) input.pageSize.get

/-! ## Repacking -/

/-- Add a page to the private file. -/
def put (version : PageVersion) (bytes : Bytes) : SealInput :=
  { input with
    file := overwrite input.file ((version.page - 1) * input.pageSize.get) bytes
    pages := input.pages ++ [(version.page, version.txid)] }

/-- Put the live pages of a decoded frame into the private file. -/
def copyLive (view : PinnedView) (location : FrameLocation) (raw : Bytes) : SealInput :=
  (location.metadata.pages.zip (chunks input.pageSize.get raw)).foldl (fun input entry =>
    if view.metadata.view.isLive entry.1 (location.metadata.id E) then input.put entry.1 entry.2
    else input) input

/-- Copy a fully live frame as it is; take the live pages out of any other. -/
def repackFrame (view : PinnedView) (state : SealInput × List EncodedFrame)
    (location : FrameLocation) : Except StoreError (SealInput × List EncodedFrame) :=
  let live := fun version => view.metadata.view.isLive version (location.metadata.id E)
  if location.metadata.pages.any live then do
    let record ← view.readRecord location
    if location.metadata.pages.all live then do
      location.metadata.authenticatePayload E record
      return (state.1, state.2 ++ [⟨location.metadata, record⟩])
    else do
      let raw ← location.metadata.verifyPayload E record view.dictionaries
      return (state.1.copyLive E view location raw, state.2)
  else return state

/-- The frames of the selected packs, in physical order. -/
def repackLocations (view : PinnedView) (selected : List Digest) : List FrameLocation :=
  ((view.metadata.view.frames.toList.map Prod.snd).filter fun l => l.pack ∈ selected).insertionSort
    fun a b => a.pack < b.pack ∨ a.pack = b.pack ∧ a.offset ≤ b.offset

def readRepack : Except StoreError (SealInput × List EncodedFrame) :=
  match input.repack, input.source with
  | none, _ => return (input, [])
  | some _, none => .error (.corrupt 0)
  | some selected, some view => do
      let (input, frames) ←
        (repackLocations view selected).foldlM (repackFrame E view) (input, [])
      return ({ input with pages := input.pages.insertionSort fun a b => a.1 ≤ b.1 }, frames)

/-! ## Encoding -/

/-- Replace the dictionary by a better one when training selects it. -/
def trainDictionary : Except StoreError SealInput := do
  let samples ← (if input.endpoint.dictionaryBytes ≠ 0 then
      input.pages.mapM fun (page, _) => input.read page
    else pure [])
  let trained :=
    if input.endpoint.dictionaryBytes ≠ 0 ∧ input.dictionaryTraining then
      E.selectDictionary input.endpoint.txid samples
    else none
  let input := trained.elim input fun bytes =>
    { input with
      preferred := [E.hash.bytes bytes]
      dictionaries := (∅ : Dictionaries).insert (E.hash.bytes bytes) bytes }
  return { input with
    dictionaries := input.dictionaries.filter fun id _ => id ∈ input.preferred }

def encoder : FrameEncoder where
  level := input.layout.zstdLevel
  dictionary := input.preferred.getLast?.bind fun id =>
    input.dictionaries[id]?.map fun bytes => (id, bytes)

end SealInput

/-- Contiguous shares of a list for a number of workers. -/
def shares {α : Type} : Nat → List α → List (List α)
  | 0, _ => []
  | w + 1, l =>
      let count := (l.length + w) / (w + 1)
      l.take count :: shares w (l.drop count)

/-- Encode groups of pages; results are joined in input order. -/
def encodeBatch (encoder : FrameEncoder) (size : PageSize) (groups : List FramePages) :
    Except StoreError (List EncodedFrame) := do
  let parts ← (shares (max 1 (E.workers groups.length)) groups).mapM fun share =>
    share.mapM fun pages => encoder.build E size pages
  return parts.flatten

def batchBytes : Nat := 8 * 1024 * 1024

/-- The accumulators of the page loop of `prepare`. -/
structure Spill where
  zeros : List Nat
  group : FramePages
  batch : List FramePages
  batchBytes : Nat
  frames : List EncodedFrame

namespace SealInput

variable (input : SealInput)

def encode (st : Spill) : Except StoreError Spill := do
  let encoded ← encodeBatch E input.encoder input.pageSize st.batch
  return { st with batch := [], batchBytes := 0, frames := st.frames ++ encoded }

/-- Hand the current group to the batch, encoding the batch first when it would overflow. -/
def spill (st : Spill) : Except StoreError Spill := do
  let bytes := input.pageSize.get * st.group.length
  let st ← (if st.batchBytes + bytes > batchBytes then input.encode E st else pure st)
  return { st with
    group := []
    batch := st.batch ++ [st.group]
    batchBytes := st.batchBytes + bytes }

/-- One page: note a zero page, or add the page to a group with room for it. -/
def addPage (st : Spill) (entry : Nat × Nat) : Except StoreError Spill := do
  let bytes ← input.read entry.1
  if bytes.all (· == 0) then
    return { st with zeros := st.zeros ++ [entry.1] }
  else
    let full := (st.group.length + 1) * input.pageSize.get > input.layout.frameBytes input.pageSize
    let st ← (if st.group ≠ [] ∧ full then input.spill E st else pure st)
    return { st with group := st.group ++ [(PageVersion.verified E entry.1 entry.2 bytes, bytes)] }

end SealInput

structure PreparedSeal where
  endpoint : SealEndpoint
  source : Option PinnedView
  dictionaries : Dictionaries
  preferred : List Digest
  zeros : List Nat
  frames : List EncodedFrame
  layout : LayoutPolicy
  dictionaryUpdate : Bool
  sourcePrefix : Bool
  /-- Whether this is a repack. -/
  report : Bool

def SealInput.prepare (input : SealInput) (paused : Bool) : Except StoreError PreparedSeal := do
  Except.ensure (¬ (input.sourcePrefix ∧ paused)) .busy
  let (input, copied) ← input.readRepack E
  let input ← input.trainDictionary E
  let st ← input.pages.foldlM (input.addPage E) ⟨[], [], [], 0, copied⟩
  let st ← (if st.group ≠ [] then input.spill E st else pure st)
  let st ← (if st.batch ≠ [] then input.encode E st else pure st)
  return {
    endpoint := input.endpoint
    source := input.source
    dictionaries := input.dictionaries
    preferred := input.preferred
    zeros := st.zeros
    frames := st.frames
    layout := input.layout
    dictionaryUpdate := input.dictionaryUpdate
    sourcePrefix := input.sourcePrefix
    report := input.repack.isSome }

/-! ## Packs -/

structure PackWriter where
  frames : Pack
  metadataBytes : Nat

def PackWriter.new : PackWriter := ⟨[], 0⟩

def PackWriter.offset (w : PackWriter) : Nat := Pack.length w.frames

def PackWriter.append (w : PackWriter) (f : EncodedFrame) : Except StoreError PackWriter := do
  let metadataBytes := w.metadataBytes + f.metadata.encodedLen + 64
  Except.ensure (metadataBytes ≤ 16 * 1024 * 1024) .range
  let _ ← f.metadata.recordHeader
  return ⟨w.frames ++ [f], metadataBytes⟩

/-- The locations of the frames of a pack, the first record at `start`. -/
def Pack.locations (id : Digest) (start : Nat) : Pack → List FrameLocation
  | [] => []
  | f :: fs =>
      ⟨id, start + f.metadata.payloadStart, f.metadata.payloadBytes, f.metadata⟩ ::
        locations id (start + f.metadata.packedLen) fs

/-- What `install` edits: the catalog, the draft view and the ids of the packs it wrote. -/
structure Installing where
  catalog : Catalog
  view : ViewMetadata
  packs : List Digest

def PackWriter.finish (w : PackWriter) (st : Installing) : Except StoreError Installing := do
  Except.ensure (w.frames ≠ []) (.corrupt w.offset)
  let id := Pack.id E w.frames
  let view ← (Pack.locations id segmentHeaderSize w.frames).foldlM (ViewMetadata.insert E) st.view
  return ⟨st.catalog.installPack E w.frames, view, st.packs ++ [id]⟩

/-- Append one frame, closing the pack when it has reached its target. -/
def PackWriter.add (packTarget : Nat) (st : Installing × PackWriter) (f : EncodedFrame) :
    Except StoreError (Installing × PackWriter) := do
  f.metadata.authenticatePayload E f.payload
  let w ← st.2.append f
  if w.offset ≥ packTarget ∨ w.metadataBytes ≥ 8 * 1024 * 1024 then
    return (← w.finish E st.1, PackWriter.new)
  else return (st.1, w)

def writePacks (packTarget : Nat) (frames : List EncodedFrame) (st : Installing) :
    Except StoreError Installing := do
  let (st, w) ← frames.foldlM (PackWriter.add E packTarget) (st, PackWriter.new)
  if w.frames ≠ [] then w.finish E st else return st

/-! ## Manifests -/

/-- An installed manifest with its resolved metadata. -/
structure DurableView where
  id : Digest
  metadata : ValidatedMetadata

structure ManifestBuilder where
  metadata : ViewMetadata
  packs : List Digest
  dictionaries : List Digest
  /-- The source a run may be built over. -/
  parent : Option ValidatedMetadata
  sourceBegin : Nat
  representedBegin : Nat

namespace ManifestBuilder

def new (metadata : ViewMetadata) (source : Option ValidatedMetadata) : ManifestBuilder where
  metadata := metadata
  packs := source.elim [] fun s => s.view.packs
  dictionaries := source.elim [] fun s => s.view.dictionaries
  parent := source
  sourceBegin := source.elim metadata.txid fun s => s.spanBegin
  representedBegin := source.elim metadata.txid fun s =>
    if s.view.txid < metadata.txid then s.view.txid + 1 else metadata.txid

def checkpoint (b : ManifestBuilder) : ManifestBuilder := { b with parent := none }

/-- The run to write, when there is a parent and the patch is worth it. -/
def run (b : ManifestBuilder) : Except StoreError (Option MetadataRun) :=
  match b.parent with
  | none => return none
  | some source => do
      let run ← MetadataRun.between E source b.metadata
      if source.ancestors.length < maxRunDepth ∧
          run.patch.view.pages.size + run.removed.length < b.metadata.pages.size ∧
          source.decodedBytes + run.decodedBytes * 2 + 1024 ≤ viewLimit then
        return some run
      else return none

def finalize (b : ManifestBuilder) (C : Catalog) : Except StoreError (Catalog × DurableView) := do
  Except.ensure (b.metadata.packs ⊆ b.packs ∧ b.metadata.dictionaries ⊆ b.dictionaries)
    (.corrupt 0)
  C.validateRanges b.metadata
  let root := b.metadata.contentRoot E
  let run ← b.run E
  Except.ensure (b.sourceBegin ≤ b.metadata.txid) .value
  let body ← (run.elim (ManifestBody.checkpoint <$> b.metadata.encodeRaw E) fun run =>
    ManifestBody.run <$> run.encode E)
  let parent := run.elim Parent.checkpoint fun run => .previous run.parent
  Except.ensure (E.footerLength body ≤ viewLimit) .range
  let header ← SegmentHeader.new b.sourceBegin b.metadata.txid
    (if parent = .checkpoint then b.sourceBegin else b.representedBegin)
    (b.metadata.logicalHashFor E root) parent
  let object : ManifestObject := ⟨header, root, body⟩
  Except.ensure (E.storedLength object ≤ viewLimit) .range
  let C := C.installManifest E object
  let id := E.hash.manifest object
  return (C, ⟨id, ← C.loadMetadata E id⟩)

end ManifestBuilder

/-! ## Installation -/

namespace PreparedSeal

variable (prepared : PreparedSeal)

/-- The view the seal edits: the source, or an empty one. -/
def base : ViewMetadata :=
  prepared.source.elim
    (ViewMetadata.empty prepared.endpoint.database prepared.endpoint.lineage prepared.endpoint.size
      prepared.endpoint.txid prepared.endpoint.history)
    fun source => source.metadata.view

/-- The base cut to the endpoint, without the pages that became zero. -/
def draft : ViewMetadata :=
  let view := { prepared.base with
    size := prepared.endpoint.size
    txid := prepared.endpoint.txid
    history := prepared.endpoint.history }
  let view := view.removeAbove prepared.endpoint.size.pages
  let view := prepared.endpoint.truncate.elim view view.removeAbove
  prepared.zeros.foldl ViewMetadata.remove view

/-- The lineage entry of the sealed view; an equal-transaction rewrite keeps its own. -/
def entitle (view : ViewMetadata) : ViewMetadata :=
  if prepared.sourcePrefix then view.sealedLineage E none
  else if prepared.source.all fun source => source.metadata.view.txid < prepared.endpoint.txid then
    view.sealedLineage E (prepared.source.map fun source => source.metadata.view.logicalHash E)
  else view

def install (C : Catalog) : Except StoreError (Catalog × DurableView) := do
  Except.ensure (prepared.source.all fun source =>
      source.metadata.view.database = prepared.endpoint.database ∧
      source.metadata.view.lineage = prepared.endpoint.lineage) .identityMismatch
  let C ← prepared.dictionaries.toList.foldlM (fun C (_, bytes) => C.installDictionary E bytes) C
  let st ← writePacks E prepared.layout.packTarget prepared.frames
    ⟨C, { prepared.draft with preferred := prepared.preferred }, []⟩
  let view := prepared.entitle E st.view.retainFrames
  let builder := ManifestBuilder.new view (prepared.source.map PinnedView.metadata)
  let builder := if prepared.sourcePrefix ∨ prepared.dictionaryUpdate ∨ prepared.report then builder.checkpoint
    else builder
  let receipts := prepared.dictionaries.toList.map fun entry => E.hash.bytes entry.2
  let builder := { builder with
    packs := builder.packs ++ st.packs
    dictionaries := builder.dictionaries ++ receipts }
  builder.finalize E st.catalog

end PreparedSeal

/-- `checkpoint_manifest`: the same view as one checkpoint. -/
def checkpointManifest (C : Catalog) (source : PinnedView) :
    Except StoreError (Catalog × DurableView) :=
  (ManifestBuilder.new source.metadata.view (some source.metadata)).checkpoint.finalize E C

end Zsqlite
