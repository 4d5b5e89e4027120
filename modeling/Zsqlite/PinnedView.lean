import Zsqlite.View

set_option autoImplicit false

/-! # Loading and reading views

`Catalog.loadMetadata` resolves a manifest: it follows parent references through the endpoint
index down to a checkpoint and applies the runs on the way back (`load_metadata`,
`find_endpoint`). A reference names a logical endpoint, not a manifest, so the parent found
may be another physical manifest than the one the run was built on; the content root checked
at every step makes that harmless (`loadMetadata_spec`).

A `PinnedView` keeps what its leases keep alive: the resolved metadata, the dictionaries and
the packs. Reading a page of it either fails or returns the bytes whose checksum the page's
version names (`readPage_spec`); in a sound catalog it never fails (`readPage_total`).
-/

namespace Zsqlite

open ByteVec

variable (E : Env)

/-! ## Manifests -/

/-- `Header::new`: a span, the first represented transaction, and a parent that fits it. -/
def SegmentHeader.new (spanBegin spanEnd representedBegin : Nat) (logicalHash : Digest)
    (parent : Parent) : Except StoreError SegmentHeader := do
  Except.ensure (spanBegin ≠ 0 ∧ spanBegin ≤ spanEnd) .value
  Except.ensure (spanBegin ≤ representedBegin ∧ representedBegin ≤ spanEnd) .value
  match parent with
  | .checkpoint => Except.ensure (representedBegin = spanBegin) .range
  | .previous reference => do
      Except.ensure (spanBegin ≤ reference.txid ∧ reference.txid ≤ spanEnd) .range
      Except.ensure (representedBegin =
        if reference.txid = spanEnd then reference.txid else reference.txid + 1) .range
  return ⟨spanBegin, spanEnd, representedBegin, logicalHash, parent⟩

inductive ManifestRecord where
  | checkpoint (view : ValidatedMetadata)
  | run (run : MetadataRun)

def ManifestRecord.anyRun (p : MetadataRun → Bool) : ManifestRecord → Bool
  | .checkpoint _ => false
  | .run r => p r

/-- Length of the uncompressed record of a manifest. -/
def ManifestBody.rawLength : ManifestBody → Nat
  | .checkpoint v => v.rawLength
  | .run r => r.rawLength

/-- The checks on the view or patch of a manifest against its header and root. -/
def ManifestObject.checkPatch (m : ManifestObject) (patch : ViewMetadata) :
    Except StoreError Unit := do
  patch.validateFrameRanges
  Except.ensure (patch.txid = m.header.spanEnd) .identityMismatch
  Except.ensure (patch.logicalHashFor E m.root = m.header.logicalHash) .identityMismatch

/-- The decoded size a manifest is charged with, the run prefix apart. -/
def ManifestObject.charge (m : ManifestObject) : Nat :=
  E.footerLength m.body + m.body.rawLength

def ManifestRecord.fromSegment (m : ManifestObject) (budget : Nat) :
    Except StoreError ManifestRecord := do
  Except.ensure (E.footerLength m.body ≤ min budget viewLimit) .range
  Except.ensure (m.charge E + runPrefix ≤ budget) .range
  match m.body with
  | .checkpoint record => do
      let patch ← record.decode E
      Except.ensure (m.header.parent = .checkpoint) .identityMismatch
      m.checkPatch E patch.view
      Except.ensure (patch.view.contentRoot E = m.root) (.corrupt 0)
      return .checkpoint { patch with
        spanBegin := m.header.spanBegin
        spanEnd := m.header.spanEnd
        decodedBytes := m.charge E }
  | .run record => do
      let run ← record.decode E
      Except.ensure (m.header.parent = .previous run.parent ∧
          m.header.spanBegin = run.spanBegin ∧ m.header.spanEnd = run.spanEnd ∧
          run.root = m.root) .identityMismatch
      m.checkPatch E run.patch.view
      Except.ensure (∀ page ∈ run.removed, ¬ run.patch.view.pages.contains page) (.corrupt 0)
      return .run { run with
        patch := { run.patch with
          spanBegin := m.header.spanBegin
          spanEnd := m.header.spanEnd
          decodedBytes := m.charge E } }

def ManifestRecord.decodedBytes : ManifestRecord → Nat
  | .checkpoint view => view.decodedBytes
  | .run r => r.decodedBytes

/-- A lookup candidate: first represented transaction, one for runs, id. -/
structure Candidate where
  representedBegin : Nat
  isRun : Nat
  id : Digest

/-- The order in which `find_endpoint` sorts its candidates. -/
def Candidate.le (a b : Candidate) : Prop :=
  a.representedBegin < b.representedBegin ∨ a.representedBegin = b.representedBegin ∧
    (a.isRun < b.isRun ∨ a.isRun = b.isRun ∧ a.id ≤ b.id)

instance : DecidableRel Candidate.le := fun _ _ =>
  inferInstanceAs (Decidable (_ ∨ _ ∧ (_ ∨ _ ∧ _)))

namespace Catalog

variable (C : Catalog)

def candidates (endpoint : ParentRef) (seen : List Digest) : List Candidate :=
  C.endpoints.toList.filterMap fun (id, header) =>
    if header.logicalHash = endpoint.hash ∧ header.spanEnd = endpoint.txid ∧ id ∉ seen then
      some ⟨header.representedBegin, if header.parent = .checkpoint then 0 else 1, id⟩
    else none

/-- The manifest a logical endpoint is looked up as. -/
def findEndpoint (endpoint : ParentRef) (seen : List Digest) : Option Digest :=
  ((C.candidates endpoint seen).insertionSort Candidate.le).head?.map Candidate.id

def readManifest (id : Digest) : Except StoreError ManifestObject :=
  match C.manifests[id]? with
  | none => .error .io
  | some m => do
      Except.ensure (E.storedLength m ≤ viewLimit) .range
      let _ ← SegmentHeader.new m.header.spanBegin m.header.spanEnd m.header.representedBegin
        m.header.logicalHash m.header.parent
      Except.ensure (E.hash.manifest m = id) (.corrupt 0)
      return m

/-- Read the next manifest of a chain. -/
def fetch (next : Digest) (seen : List Digest) (decoded : Nat) :
    Except StoreError (ManifestRecord × Nat) := do
  Except.ensure (next ∉ seen) (.corrupt 0)
  let m ← C.readManifest E next
  Except.ensure (decoded ≤ viewLimit) .range
  let record ← ManifestRecord.fromSegment E m (viewLimit - decoded)
  Except.ensure (decoded + record.decodedBytes ≤ viewLimit) .range
  return (record, decoded + record.decodedBytes)

/-- Resolve `next` with at most `fuel` runs below it. -/
def loadFrom : Nat → Digest → List Digest → Nat → Except StoreError ValidatedMetadata
  | fuel, next, seen, decoded => do
    match ← C.fetch E next seen decoded with
    | (.checkpoint view, _) => return view
    | (.run run, decoded) =>
        match fuel with
        | 0 => .error .range
        | fuel + 1 =>
            match C.findEndpoint run.parent (next :: seen) with
            | none => .error (.corrupt 0)
            | some parent => run.apply E parent (← loadFrom fuel parent (next :: seen) decoded)

def loadMetadata (id : Digest) : Except StoreError ValidatedMetadata :=
  C.loadFrom E maxRunDepth id [] 0

/-! ## Pins -/

def readDictionary (id : Digest) : Except StoreError Bytes :=
  match C.dictionaries[id]? with
  | none => .error .io
  | some bytes => do
      Except.ensure (E.hash.bytes bytes = id) (.corrupt 0)
      return bytes

def placement (id : Digest) : Except StoreError Pack :=
  match C.packs[id]? with
  | none => .error (.corrupt 0)
  | some pack => .ok pack

/-- Every pack is placed and every payload range lies within its pack. -/
def validateRanges (v : ViewMetadata) : Except StoreError Unit :=
  v.frames.toList.forM fun (_, location) => do
    let pack ← C.placement location.pack
    Except.ensure (location.offset + location.length ≤ pack.length) .value

end Catalog

/-- Look up every key of a list. -/
def gather {β : Type} (f : Digest → Except StoreError β) (keys : List Digest) :
    Except StoreError (BTreeMap Digest β) :=
  keys.foldlM (fun found key => do return found.insert key (← f key)) ∅

/-- Every frame of the view is where its location says, in any pack of that identity. -/
def ViewMetadata.FramesLocated (E : Env) (v : ViewMetadata) : Prop :=
  ∀ (id : Digest) location, v.frames[id]? = some location →
    Located E location.pack location.offset location.metadata

/-- An owned manifest lease. -/
structure PinnedView where
  id : Digest
  metadata : ValidatedMetadata
  dictionaries : Dictionaries
  packs : BTreeMap Digest Pack

def Catalog.pin (C : Catalog) (id : Digest) : Except StoreError PinnedView := do
  let metadata ← C.loadMetadata E id
  let dictionaries ← gather (C.readDictionary E) metadata.view.dictionaries
  C.validateRanges metadata.view
  Except.ensure (∀ manifest ∈ id :: metadata.ancestors, C.manifests.contains manifest) .io
  let packs ← gather C.placement metadata.view.packs
  return ⟨id, metadata, dictionaries, packs⟩

/-! ## Reading -/

def FrameMetadata.recordHeader (m : FrameMetadata) : Except StoreError FrameHeader :=
  match m.pages.head? with
  | none => .error .range
  | some first => do
      return {
        pageNo := first.page
        compressed := m.encoding ≠ .raw
        dictionaryIndex := if m.dictionary.isSome then 0 else 2 ^ 16 - 1
        storedLen := ← toU32 m.payloadBytes
        rawLen := ← toU32 m.shape.decoded }

namespace PinnedView

variable (view : PinnedView)

def size : LogicalBytes := view.metadata.view.size

/-- The payload of the record at a location, its frame header checked. -/
def readRecord (location : FrameLocation) : Except StoreError Bytes :=
  match view.packs[location.pack]?.bind fun pack => pack.find location.offset with
  | none => .error (.corrupt location.offset)
  | some frame => do
      Except.ensure (frame.payload.length = location.length) (.corrupt location.offset)
      Except.ensure ((← frame.metadata.recordHeader) = (← location.metadata.recordHeader))
        (.corrupt location.offset)
      return frame.payload

/-- Read, authenticate and decode the frame at a location. -/
def fetch (location : FrameLocation) : Except StoreError Bytes := do
  location.metadata.verifyPayload E (← view.readRecord location) view.dictionaries

/-- One page of a view; pages it does not store are zero. -/
def readPage (page : Nat) : Except StoreError Bytes :=
  if view.size.pages < page then .error .range
  else
    match view.metadata.view.pages[page]? with
    | none => .ok (zeros view.size.pageSize.get)
    | some stored =>
        match view.metadata.view.frames[stored.frame]? with
        | none => .error (.corrupt 0)
        | some location => do
            let raw ← view.fetch E location
            let size := location.metadata.shape.pageSize.get
            Except.ensure (stored.slot * size + size ≤ raw.length) .range
            return slice size raw stored.slot

/-- Everything a read needs is at hand: resolved maps, and for every frame its record and its
dictionary. -/
structure Served (view : PinnedView) : Prop where
  resolved : view.metadata.view.Resolved E
  located : view.metadata.view.FramesLocated E
  frame : ∀ (id : Digest) location, view.metadata.view.frames[id]? = some location →
    ∃ pack frame, view.packs[location.pack]? = some pack ∧
      pack.find location.offset = some frame ∧ frame.metadata = location.metadata ∧
      frame.WellEncoded E
  dictionary : ∀ (id : Digest) location, view.metadata.view.frames[id]? = some location →
    ∀ d, location.metadata.dictionary = some d →
      ∃ bytes, view.dictionaries[d]? = some bytes ∧ E.hash.bytes bytes = d
  /-- Dictionaries have the content their names say. -/
  named : ∀ (d : Digest) bytes, view.dictionaries[d]? = some bytes → E.hash.bytes bytes = d

variable {E} {view : PinnedView}

theorem fetch_eq_ok {location : FrameLocation} {raw : Bytes} :
    view.fetch E location = .ok raw ↔ ∃ payload, view.readRecord location = .ok payload ∧
      location.metadata.verifyPayload E payload view.dictionaries = .ok raw :=
  Except.bind_eq_ok

/-- **A read is right or fails.** The bytes returned for a page are zero when the view stores
no version of it, and otherwise have the checksum of its version. -/
theorem readPage_spec (hv : view.metadata.view.Resolved E) {p : Nat} {b : Bytes}
    (h : view.readPage E p = .ok b) :
    p ≤ view.size.pages ∧ b.length = view.size.pageSize.get ∧
    (view.metadata.view.version p = none → b = zeros view.size.pageSize.get) ∧
    ∀ version, view.metadata.view.version p = some version →
      E.hash.checksum version.page version.txid b = version.checksum := by
  unfold readPage at h
  split at h
  · cases h
  · rename_i hp
    split at h
    · rename_i hpage
      cases h
      refine ⟨by omega, by simp, fun _ => rfl, fun version hver => ?_⟩
      simp [ViewMetadata.version, hpage] at hver
    · rename_i stored hpage
      obtain ⟨location, version, hl, hver, -, hslot⟩ := hv.versionOf_eq_some hpage
      simp only [hl, Except.bind_eq_ok, Except.ensure_eq_ok, exists_const] at h
      obtain ⟨raw, hraw, _, h⟩ := h
      cases h
      obtain ⟨payload, _, hpay⟩ := fetch_eq_ok.mp hraw
      obtain ⟨hlen, hsum⟩ := FrameMetadata.verifyPayload_chunk hpay hver hslot
      have hversion : view.metadata.view.version p = some version := by
        simp [ViewMetadata.version, ViewMetadata.versionOf, hpage, hl, hver]
      refine ⟨by omega, hlen.trans (congrArg PageSize.get (hv.frame _ _ hl).1), ?_, ?_⟩
      · intro hnone
        rw [hversion] at hnone
        cases hnone
      · intro version' hver'
        cases hversion.symm.trans hver'
        exact hsum

/-- Views that store the same version of a page return the same bytes for it. -/
theorem readPage_unique {view' : PinnedView} (hv : view.metadata.view.Resolved E)
    (hv' : view'.metadata.view.Resolved E) (hs : view.size.pageSize = view'.size.pageSize) {p : Nat}
    (hver : view.metadata.view.version p = view'.metadata.view.version p) {b b' : Bytes}
    (h : view.readPage E p = .ok b) (h' : view'.readPage E p = .ok b') : b = b' := by
  obtain ⟨_, _, hnone, hsome⟩ := readPage_spec hv h
  obtain ⟨_, _, hnone', hsome'⟩ := readPage_spec hv' h'
  cases hp : view.metadata.view.version p with
  | none => rw [hnone hp, hnone' (hver ▸ hp), hs]
  | some version =>
      exact E.hash.checksum_injective version.page version.txid
        ((hsome version hp).trans (hsome' version (hver ▸ hp)).symm)

theorem recordHeader_eq_ok {m : FrameMetadata} (hm : m.WellFormed) :
    ∃ header, m.recordHeader = .ok header := by
  have hp := hm.count
  have hb := hm.bounded
  have hbound : m.shape.decoded ≤ 8 * 1024 * 1024 := m.shape.bounded
  have hmax : 8 * 1024 * 1024 ≤ u32Max := by decide
  unfold FrameMetadata.recordHeader
  cases hpages : m.pages with
  | nil =>
      have := m.shape.nonempty
      simp [hpages] at hp
      omega
  | cons first rest =>
      have h₁ : toU32 m.payloadBytes = .ok m.payloadBytes := toU32_eq_ok.mpr ⟨by omega, rfl⟩
      have h₂ : toU32 m.shape.decoded = .ok m.shape.decoded := toU32_eq_ok.mpr ⟨by omega, rfl⟩
      simp only [List.head?_cons, h₁, h₂]
      exact ⟨_, rfl⟩

/-- A served view reads every page within its size. -/
theorem readPage_total (h : view.Served E) {p : Nat} (hp : p ≤ view.size.pages) :
    ∃ b, view.readPage E p = .ok b := by
  unfold readPage
  rw [if_neg (by omega)]
  split
  · exact ⟨_, rfl⟩
  · rename_i stored hpage
    obtain ⟨location, version, hl, hver, -, hslot⟩ := h.resolved.versionOf_eq_some hpage
    obtain ⟨-, hlen, hwf⟩ := h.resolved.frame _ _ hl
    obtain ⟨pack, frame, hpack, hfind, hmeta, hbl, henc⟩ := h.frame _ _ hl
    obtain ⟨raw, hraw⟩ := henc view.dictionaries fun d hd =>
      h.dictionary _ _ hl d (by rw [← hmeta]; exact hd)
    rw [hmeta] at hraw
    obtain ⟨header, hheader⟩ := recordHeader_eq_ok hwf
    have hrecord : view.readRecord location = .ok frame.payload := by
      simp only [readRecord, hpack, Option.bind_some, hfind, Except.bind_eq_ok,
        Except.ensure_eq_ok, exists_const, hmeta, hheader]
      exact ⟨by rw [← hbl, hmeta, hlen], header, rfl, header, rfl, rfl, rfl⟩
    have hfetch := fetch_eq_ok.mpr ⟨_, hrecord, hraw⟩
    have hrl := (FrameMetadata.verifyPayload_eq_ok.mp hraw).2.2.1
    refine ⟨slice location.metadata.shape.pageSize.get raw stored.slot, ?_⟩
    simp only [hl, Except.bind_eq_ok, Except.ensure_eq_ok, exists_const]
    refine ⟨raw, hfetch, ?_, rfl⟩
    rw [hrl, FrameShape.decoded, ← Nat.succ_mul]
    exact Nat.mul_le_mul_right _ hslot

end PinnedView

/-! ## What a manifest resolves to -/

/-- The view has the fields and the root that a manifest records. -/
structure ManifestObject.Describes (E : Env) (m : ManifestObject) (v : ViewMetadata) : Prop where
  root : v.contentRoot E = m.root
  size : v.size.get = m.body.view.size
  pageSize : v.size.pageSize.get = m.body.view.pageSize
  txid : v.txid = m.body.view.txid
  history : v.history = m.body.view.history
  parentSeal : v.parentSeal = m.body.view.parentSeal
  database : v.database = m.body.view.database
  lineage : v.lineage = m.body.view.lineage

/-- A resolved, located view that the manifest describes. -/
structure ManifestObject.ResolvesTo (E : Env) (m : ManifestObject) (v : ViewMetadata) : Prop where
  describes : m.Describes E v
  resolved : v.Resolved E
  located : v.FramesLocated E

section Load

variable {E} {C C' : Catalog}

theorem Catalog.readManifest_eq_ok {id : Digest} {m : ManifestObject}
    (h : C.readManifest E id = .ok m) : C.manifests[id]? = some m ∧ E.hash.manifest m = id := by
  unfold readManifest at h
  split at h
  · cases h
  · rename_i m' hm
    simp only [Except.bind_eq_ok, Except.ensure_eq_ok, exists_const] at h
    obtain ⟨_, _, _, hid, h⟩ := h
    cases h
    exact ⟨hm, hid⟩

theorem ManifestRecord.fromSegment_checkpoint {m : ManifestObject} {budget : Nat}
    {val : ValidatedMetadata} (hm : ∀ e ∈ m.body.view.frames, Located E e.pack e.offset e.metadata)
    (h : ManifestRecord.fromSegment E m budget = .ok (.checkpoint val)) :
    m.ResolvesTo E val.view := by
  simp only [fromSegment, Except.bind_eq_ok, Except.ensure_eq_ok, exists_const] at h
  obtain ⟨_, _, h⟩ := h
  split at h
  · rename_i record hbody
    simp only [Except.bind_eq_ok, Except.ensure_eq_ok, exists_const] at h
    obtain ⟨patch, hdec, _, _, _, hroot, h⟩ := h
    cases h
    obtain ⟨hres, _, hsize, hps, htxid, hhist, hseal, hdb, hlin, hframes⟩ :=
      ViewRecord.decode_spec hdec
    have hview : m.body.view = record := by simp [hbody, ManifestBody.view]
    refine ⟨⟨hroot, ?_, ?_, ?_, ?_, ?_, ?_, ?_⟩, hres, fun id location hl => ?_⟩
    all_goals try (rw [hview]; assumption)
    obtain ⟨e, he, hpack, hoff, hmeta⟩ := hframes id location hl
    rw [← hpack, ← hoff, ← hmeta]
    exact hm e (hview ▸ he)
  · simp only [Except.bind_eq_ok, Except.ensure_eq_ok, exists_const] at h
    obtain ⟨_, _, _, _, _, _, h⟩ := h
    cases h

theorem ManifestRecord.fromSegment_run {m : ManifestObject} {budget : Nat} {run : MetadataRun}
    (hm : ∀ e ∈ m.body.view.frames, Located E e.pack e.offset e.metadata)
    (h : ManifestRecord.fromSegment E m budget = .ok (.run run)) :
    run.patch.view.Resolved E ∧ run.patch.view.FramesLocated E ∧ run.root = m.root ∧
    ∀ v : ViewMetadata, v.contentRoot E = run.root → v.size = run.patch.view.size →
      v.txid = run.patch.view.txid → v.history = run.patch.view.history →
      v.parentSeal = run.patch.view.parentSeal → v.database = run.patch.view.database →
      v.lineage = run.patch.view.lineage → m.Describes E v := by
  simp only [fromSegment, Except.bind_eq_ok, Except.ensure_eq_ok, exists_const] at h
  obtain ⟨_, _, h⟩ := h
  split at h
  · simp only [Except.bind_eq_ok, Except.ensure_eq_ok, exists_const] at h
    obtain ⟨_, _, _, _, _, _, h⟩ := h
    cases h
  · rename_i record hbody
    simp only [Except.bind_eq_ok, Except.ensure_eq_ok, exists_const] at h
    obtain ⟨run', hdec, ⟨_, _, _, hroot⟩, _, _, _, h⟩ := h
    cases h
    simp only [RunRecord.decode, Except.bind_eq_ok, Except.ensure_eq_ok, exists_const] at hdec
    obtain ⟨_, _, _, _, _, _, patch, hpatch, _, hdec⟩ := hdec
    cases hdec
    obtain ⟨hres, _, hsize, hps, htxid, hhist, hseal, hdb, hlin, hframes⟩ :=
      ViewRecord.decode_spec hpatch
    have hview : m.body.view = record.patch := by simp [hbody, ManifestBody.view]
    refine ⟨hres, fun id location hl => ?_, hroot, ?_⟩
    · obtain ⟨e, he, hpack, hoff, hmeta⟩ := hframes id location hl
      rw [← hpack, ← hoff, ← hmeta]
      exact hm e (hview ▸ he)
    · intro v h₁ h₂ h₃ h₄ h₅ h₆ h₇
      refine ⟨h₁.trans hroot, ?_, ?_, ?_, ?_, ?_, ?_, ?_⟩
      · rw [h₂, hview, ← hsize]
      · rw [h₂, hview, ← hps]
      · rw [h₃, hview, ← htxid]
      · rw [h₄, hview, ← hhist]
      · rw [h₅, hview, ← hseal]
      · rw [h₆, hview, ← hdb]
      · rw [h₇, hview, ← hlin]

/-- The induction is on the number of runs still allowed: a run resolves once its parent,
whichever manifest the lookup selected, does. -/
theorem Catalog.loadFrom_spec (hC : C.Sound E) {fuel : Nat} {next : Digest} {seen : List Digest}
    {decoded : Nat} {val : ValidatedMetadata} (h : C.loadFrom E fuel next seen decoded = .ok val) :
    ∃ m, C.manifests[next]? = some m ∧ E.hash.manifest m = next ∧ m.ResolvesTo E val.view := by
  induction fuel generalizing next seen decoded val with
  | zero =>
      unfold loadFrom at h
      simp only [fetch, Except.bind_eq_ok, Except.ensure_eq_ok, exists_const] at h
      obtain ⟨_, ⟨_, m, hm, _, record, hrecord, _, hpure⟩, h⟩ := h
      cases hpure
      obtain ⟨hget, hid⟩ := readManifest_eq_ok hm
      cases record with
      | checkpoint view =>
          cases h
          exact ⟨m, hget, hid, ManifestRecord.fromSegment_checkpoint (hC.manifest _ _ hget) hrecord⟩
      | run r => cases h
  | succ fuel ih =>
      unfold loadFrom at h
      simp only [fetch, Except.bind_eq_ok, Except.ensure_eq_ok, exists_const] at h
      obtain ⟨_, ⟨_, m, hm, _, record, hrecord, _, hpure⟩, h⟩ := h
      cases hpure
      obtain ⟨hget, hid⟩ := readManifest_eq_ok hm
      refine ⟨m, hget, hid, ?_⟩
      cases record with
      | checkpoint view =>
          cases h
          exact ManifestRecord.fromSegment_checkpoint (hC.manifest _ _ hget) hrecord
      | run r =>
          obtain ⟨hpatch, hloc, hroot, hdesc⟩ :=
            ManifestRecord.fromSegment_run (hC.manifest _ _ hget) hrecord
          dsimp only at h
          split at h
          · cases h
          · rename_i parent _
            obtain ⟨base, hbase, happly⟩ := Except.bind_eq_ok.mp h
            obtain ⟨_, _, _, hb⟩ := ih hbase
            obtain ⟨hres, hr, hs, ht, hh, hp, hd, hl, hframes⟩ :=
              MetadataRun.apply_spec happly hb.resolved hpatch
            refine ⟨hdesc _ hr hs ht hh hp hd hl, hres, fun id location hl => ?_⟩
            rcases hframes id location hl with hl | hl
            · exact hloc id location hl
            · exact hb.located id location hl

/-- **Resolution is determined by the manifest id.** Whatever parents the lookups select, the
loaded view has the root and fields the manifest records. -/
theorem Catalog.loadMetadata_spec (hC : C.Sound E) {id : Digest} {val : ValidatedMetadata}
    (h : C.loadMetadata E id = .ok val) :
    ∃ m, C.manifests[id]? = some m ∧ E.hash.manifest m = id ∧ m.ResolvesTo E val.view :=
  loadFrom_spec hC h

/-! ## Pinned views are served -/

/-- A gathered map has exactly what the lookups returned. -/
theorem gather_spec {β : Type} {f : Digest → Except StoreError β} {keys : List Digest}
    {found : BTreeMap Digest β} (h : gather f keys = .ok found) :
    (∀ (k : Digest) b, found[k]? = some b → f k = .ok b) ∧
    ∀ k ∈ keys, ∃ b, found[k]? = some b := by
  have key : ∀ (start : BTreeMap Digest β),
      (∀ (k : Digest) b, start[k]? = some b → f k = .ok b) →
      keys.foldlM (fun found key => do return found.insert key (← f key)) start = .ok found →
      (∀ (k : Digest) b, found[k]? = some b → f k = .ok b) ∧
      (∀ (k : Digest) b, start[k]? = some b → found[k]? = some b) ∧
      ∀ k ∈ keys, ∃ b, found[k]? = some b := by
    intro start hstart hfold
    clear h
    induction keys generalizing start with
    | nil =>
        cases hfold
        exact ⟨hstart, fun _ _ h => h, fun _ h => absurd h (by simp)⟩
    | cons a keys ih =>
        rw [List.foldlM_cons, Except.bind_eq_ok] at hfold
        obtain ⟨next, hnext, hfold⟩ := hfold
        obtain ⟨b, hb, hnext⟩ := Except.bind_eq_ok.mp hnext
        cases hnext
        obtain ⟨hf, hkeep, hkeys⟩ := ih (start.insert a b) (by
          intro k c hk
          rw [Std.ExtTreeMap.getElem?_insert] at hk
          split at hk
          · rename_i hak
            cases hk
            rw [← (by simpa using hak : a = k)]
            exact hb
          · exact hstart k c hk) hfold
        refine ⟨hf, fun k c hk => ?_, fun k hk => ?_⟩
        · by_cases hak : a = k
          · subst hak
            have : b = c := Except.ok.inj (hb.symm.trans (hstart _ _ hk))
            exact this ▸ hkeep a b (by simp)
          · exact hkeep k c (by simp [Std.ExtTreeMap.getElem?_insert, hak, hk])
        · rcases List.mem_cons.mp hk with rfl | hk
          · exact ⟨b, hkeep k b (by simp)⟩
          · exact hkeys k hk
  obtain ⟨h₁, _, h₂⟩ := key ∅ (by intro k b hk; simp at hk) h
  exact ⟨h₁, h₂⟩

theorem ViewMetadata.mem_packs {v : ViewMetadata} {id : Digest} {location : FrameLocation}
    (h : v.frames[id]? = some location) : location.pack ∈ v.packs :=
  List.mem_map.mpr ⟨(id, location), Std.ExtTreeMap.mem_toList_iff_getElem?_eq_some.mpr h, rfl⟩

theorem ViewMetadata.mem_dictionaries {v : ViewMetadata} {id d : Digest}
    {location : FrameLocation} (h : v.frames[id]? = some location)
    (hd : location.metadata.dictionary = some d) : d ∈ v.dictionaries :=
  List.mem_append.mpr (.inl (List.mem_filterMap.mpr
    ⟨(id, location), Std.ExtTreeMap.mem_toList_iff_getElem?_eq_some.mpr h, hd⟩))

theorem Catalog.readDictionary_eq_ok {id : Digest} {bytes : Bytes}
    (h : C.readDictionary E id = .ok bytes) : E.hash.bytes bytes = id := by
  unfold readDictionary at h
  split at h
  · cases h
  · simp only [Except.bind_eq_ok, Except.ensure_eq_ok, exists_const] at h
    obtain ⟨hid, h⟩ := h
    cases h
    exact hid

theorem Catalog.placement_eq_ok {id : Digest} {pack : Pack} (h : C.placement id = .ok pack) :
    C.packs[id]? = some pack := by
  unfold placement at h
  split at h
  · cases h
  · cases h
    assumption

/-- **A pin serves its view.** What a pin of a sound catalog holds is the resolved view of the
manifest with every record and dictionary its pages need. -/
theorem Catalog.pin_spec (hC : C.Sound E) {id : Digest} {view : PinnedView}
    (h : C.pin E id = .ok view) :
    view.id = id ∧ C.loadMetadata E id = .ok view.metadata ∧ view.Served E := by
  simp only [pin, Except.bind_eq_ok, Except.ensure_eq_ok, exists_const] at h
  obtain ⟨metadata, hload, dictionaries, hdict, _, _, _, packs, hpacks, h⟩ := h
  cases h
  obtain ⟨m, _, _, hm⟩ := loadMetadata_spec hC hload
  obtain ⟨hd, hdmem⟩ := gather_spec hdict
  obtain ⟨hp, hpmem⟩ := gather_spec hpacks
  refine ⟨rfl, hload, hm.resolved, hm.located, fun fid location hl => ?_,
    fun fid location hl d hdict => ?_, fun d bytes hb => readDictionary_eq_ok (hd d bytes hb)⟩
  · obtain ⟨pack, hpack⟩ := hpmem _ (ViewMetadata.mem_packs hl)
    obtain ⟨hid, henc⟩ := hC.pack _ _ (placement_eq_ok (hp _ _ hpack))
    obtain ⟨frame, hfind, hmeta⟩ := hm.located fid location hl pack hid
    exact ⟨pack, frame, hpack, hfind, hmeta, henc frame (Pack.mem_of_findFrom hfind)⟩
  · obtain ⟨bytes, hbytes⟩ := hdmem d (ViewMetadata.mem_dictionaries hl hdict)
    exact ⟨bytes, hbytes, readDictionary_eq_ok (hd _ _ hbytes)⟩

end Load

end Zsqlite
