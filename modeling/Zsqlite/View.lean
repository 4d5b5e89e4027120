import Zsqlite.Pack

set_option autoImplicit false

/-! # View metadata

A view maps pages to frame slots and frame ids to pack locations (`view.rs`). It is stored as
a whole (a checkpoint) or as a patch over a parent view (a run); both decoders validate the
maps and compare the content root, the hash of all page versions in page order.

`Resolved` is what validation establishes. Since the content root fixes the list of page
versions, two resolved views with one root agree on the version of every page
(`version_eq_of_contentRoot`): this, not the encoding, is what later modules rely on.
-/

namespace Zsqlite

def viewLimit : Nat := 512 * 1024 * 1024

def maxRunDepth : Nat := 64

/-- Fixed bytes of an encoded run before its removed pages. -/
def runPrefix : Nat := 92

/-- A mutable resolved view draft. -/
structure ViewMetadata where
  database : Digest
  lineage : Digest
  size : LogicalBytes
  txid : Nat
  history : Digest
  parentSeal : Option Digest
  frames : BTreeMap Digest FrameLocation
  pages : BTreeMap Nat StoredPage
  preferred : List Digest

/-- A validated view with what its manifest chain established. -/
structure ValidatedMetadata where
  view : ViewMetadata
  spanBegin : Nat
  spanEnd : Nat
  ancestors : List Digest
  decodedBytes : Nat
  parent : Parent

variable (E : Env)

namespace ViewMetadata

variable (v : ViewMetadata)

def empty (database lineage : Digest) (size : LogicalBytes) (txid : Nat) (history : Digest) :
    ViewMetadata :=
  ⟨database, lineage, size, txid, history, none, ∅, ∅, []⟩

/-- The version a page entry points to. -/
def versionOf (s : StoredPage) : Option PageVersion :=
  v.frames[s.frame]?.bind fun location => location.metadata.pages[s.slot]?

/-- The version of a page, if the view stores one. -/
def version (page : Nat) : Option PageVersion := v.pages[page]?.bind v.versionOf

def pageVersions : List PageVersion := v.pages.toList.filterMap fun entry => v.versionOf entry.2

/-- Whether the page of this version is served by this frame. -/
def isLive (version : PageVersion) (frame : Digest) : Bool :=
  v.pages[version.page]?.any fun stored => stored.frame == frame

def removeAbove (last : Nat) : ViewMetadata :=
  { v with pages := v.pages.filter fun page _ => page ≤ last }

def remove (page : Nat) : ViewMetadata := { v with pages := v.pages.erase page }

/-- Drop the frames no page refers to. -/
def retainFrames : ViewMetadata :=
  { v with frames := v.frames.filter fun id _ => v.pages.toList.any fun e => e.2.frame == id }

def insert (location : FrameLocation) : Except StoreError ViewMetadata := do
  Except.ensure (location.metadata.shape.pageSize = v.size.pageSize) .identityMismatch
  let pages ← location.metadata.pages.zipIdx.foldlM (fun pages (version, index) => do
    Except.ensure (version.page ≤ v.size.pages ∧ version.txid ≤ v.txid) (.corrupt 0)
    Except.ensure (index < location.metadata.shape.pages) .value
    return pages.insert version.page ⟨location.metadata.id E, index⟩) v.pages
  return { v with pages, frames := v.frames.insert (location.metadata.id E) location }

def packs : List Digest := v.frames.toList.map fun entry => entry.2.pack

def dictionaries : List Digest :=
  (v.frames.toList.filterMap fun entry => entry.2.metadata.dictionary) ++ v.preferred

def contentRoot : Digest := E.hash.content v.pageVersions

/-- Start a new lineage entry over the sealed parent with this logical hash. -/
def sealedLineage (parent : Option Digest) : ViewMetadata :=
  { v with
    parentSeal := parent
    history := E.hash.lineage
      ⟨v.database, v.lineage, v.txid, v.size.pageSize.get, v.size.get, parent, v.contentRoot E⟩ }

def logicalHashFor (root : Digest) : Digest :=
  E.hash.view
    ⟨v.database, v.lineage, v.size.pageSize.get, v.size.get, v.txid, v.history, v.parentSeal, root⟩

def logicalHash : Digest := v.logicalHashFor E (v.contentRoot E)

/-! ## Validation -/

/-- Consecutive ranges (offset, length) do not overlap. -/
def disjointRanges : List (Nat × Nat) → Bool
  | a :: b :: rest => decide (a.1 + a.2 ≤ b.1) && disjointRanges (b :: rest)
  | _ => true

/-- Within every pack the payload ranges of the frames are disjoint. -/
def validateFrameRanges : Except StoreError Unit :=
  v.packs.dedup.forM fun pack =>
    let ranges := v.frames.toList.filterMap fun entry =>
      if entry.2.pack = pack then some (entry.2.offset, entry.2.length) else none
    Except.ensure (disjointRanges (ranges.insertionSort fun a b => a.1 ≤ b.1)) (.corrupt 0)

/-- Length of the encoding: 192 fixed bytes, 32 per preferred dictionary, 40 per page, and 76
with the metadata per frame. -/
def encodedLength : Nat :=
  192 + v.preferred.length * 32 + v.pages.size * 40 +
    (v.frames.toList.map fun entry => 76 + entry.2.metadata.encodedLen).sum

/-- The check of one page entry. -/
def validatePage (page : Nat) (stored : StoredPage) : Except StoreError Unit :=
  match v.frames[stored.frame]? with
  | none => .error (.corrupt 0)
  | some location =>
      match location.metadata.pages[stored.slot]? with
      | none => .error (.corrupt 0)
      | some version =>
          Except.ensure (version.page = page ∧ version.txid ≤ v.txid ∧ page ≤ v.size.pages)
            (.corrupt 0)

def validate : Except StoreError ValidatedMetadata := do
  Except.ensure (v.preferred.length ≤ 4 ∧ v.preferred.Nodup) (.corrupt 0)
  v.pages.toList.forM fun (page, stored) => v.validatePage page stored
  Except.ensure ((v.pages.toList.map fun e => e.2.frame).dedup.length = v.frames.size) (.corrupt 0)
  v.frames.toList.forM fun (id, location) =>
    Except.ensure (id = location.metadata.id E ∧
        location.metadata.shape.pageSize = v.size.pageSize ∧
        location.length = location.metadata.payloadBytes)
      (.corrupt 0)
  Except.ensure (v.encodedLength ≤ viewLimit) .range
  v.validateFrameRanges
  return {
    view := v
    spanBegin := v.txid
    spanEnd := v.txid
    ancestors := []
    decodedBytes := v.encodedLength
    parent := .checkpoint }

/-! ## Encoding -/

def encodeRaw : Except StoreError ViewRecord := do
  let _ ← toU32 v.preferred.length
  let _ ← toU32 v.frames.size
  let _ ← toU32 v.pages.size
  Except.ensure (v.encodedLength ≤ viewLimit) .range
  return {
    database := v.database
    lineage := v.lineage
    pageSize := v.size.pageSize.get
    size := v.size.get
    txid := v.txid
    history := v.history
    parentSeal := v.parentSeal
    root := v.contentRoot E
    preferred := v.preferred
    frames := v.frames.toList.map fun (id, location) =>
      ⟨id, location.pack, location.offset, location.metadata⟩
    pages := v.pages.toList }

end ViewMetadata

namespace ViewRecord

variable (r : ViewRecord)

def rawLength : Nat :=
  192 + r.preferred.length * 32 + r.pages.length * 40 +
    (r.frames.map fun e => 76 + e.metadata.encodedLen).sum

/-- Read one frame entry. -/
def decodeFrame (pageSize : PageSize) (frames : BTreeMap Digest FrameLocation)
    (entry : FrameEntry) : Except StoreError (BTreeMap Digest FrameLocation) := do
  Except.ensure (entry.metadata.encodedLen ≤ 89 + (8 * 1024 * 1024 / pageSize.get) * 44) .range
  let metadata ← entry.metadata.decode E entry.id
  Except.ensure (entry.offset + metadata.payloadBytes ≤ u64Max) .value
  Except.ensure (¬ frames.contains entry.id) (.corrupt 0)
  return frames.insert entry.id ⟨entry.pack, entry.offset, metadata.payloadBytes, metadata⟩

/-- Read one page entry. -/
def decodePage (frames : BTreeMap Digest FrameLocation) (pages : BTreeMap Nat StoredPage)
    (entry : Nat × StoredPage) : Except StoreError (BTreeMap Nat StoredPage) := do
  let page ← PageNumber.new entry.1
  match frames[entry.2.frame]? with
  | none => .error (.corrupt 0)
  | some location =>
      Except.ensure (entry.2.slot < location.metadata.shape.pages) .value
      Except.ensure (¬ pages.contains page) (.corrupt 0)
      return pages.insert page entry.2

def decode : Except StoreError ValidatedMetadata := do
  let pageSize ← PageSize.new r.pageSize
  let size ← LogicalBytes.new r.size pageSize
  Except.ensure (r.txid ≠ 0) .value
  Except.ensure (r.preferred.length ≤ 4 ∧ r.preferred.Nodup) (.corrupt 0)
  Except.ensure (r.frames.length ≤ r.rawLength / 64) .range
  let frames ← r.frames.foldlM (decodeFrame E pageSize) ∅
  Except.ensure (r.pages.length ≤ size.pages ∧ r.pages.length ≤ r.rawLength / 40) .range
  let pages ← r.pages.foldlM (decodePage frames) ∅
  let validated ← ViewMetadata.validate E {
    database := r.database
    lineage := r.lineage
    size
    txid := r.txid
    history := r.history
    parentSeal := r.parentSeal
    frames
    pages
    preferred := r.preferred }
  Except.ensure (validated.decodedBytes = r.rawLength ∧ r.root = validated.view.contentRoot E)
    (.corrupt 0)
  return validated

end ViewRecord

/-! ## Runs -/

/-- A validated sparse patch. Missing entries inherit; removals and the size stop fallback. -/
structure MetadataRun where
  parent : ParentRef
  root : Digest
  spanBegin : Nat
  spanEnd : Nat
  patch : ValidatedMetadata
  removed : List Nat

namespace MetadataRun

variable (run : MetadataRun)

def decodedBytes : Nat := runPrefix + run.removed.length * 4 + run.patch.decodedBytes

/-- The patch that takes `source` to `target`. -/
def between (source : ValidatedMetadata) (target : ViewMetadata) :
    Except StoreError MetadataRun := do
  let pages := target.pages.filter fun number page =>
    source.view.pages[number]? ≠ some page ∨
      source.view.frames[page.frame]? ≠ target.frames[page.frame]?
  let frames := target.frames.filter fun id _ => pages.toList.any fun e => e.2.frame == id
  let patch : ViewMetadata := { target with pages, frames }
  Except.ensure (source.spanBegin ≤ target.txid) .value
  return {
    parent := ⟨source.view.logicalHash E, source.view.txid⟩
    root := target.contentRoot E
    spanBegin := source.spanBegin
    spanEnd := target.txid
    patch := ← patch.validate E
    removed := source.view.pages.keys.filter fun page =>
      page ≤ target.size.pages && !target.pages.contains page }

def encode : Except StoreError RunRecord := do
  let _ ← toU32 run.removed.length
  let patch ← run.patch.view.encodeRaw E
  Except.ensure (runPrefix + run.removed.length * 4 + patch.rawLength ≤ viewLimit) .range
  return ⟨run.parent, run.root, run.spanBegin, run.spanEnd, run.removed, patch⟩

end MetadataRun

def RunRecord.rawLength (r : RunRecord) : Nat :=
  runPrefix + r.removed.length * 4 + r.patch.rawLength

def RunRecord.decode (r : RunRecord) : Except StoreError MetadataRun := do
  Except.ensure (r.rawLength ≤ viewLimit) .range
  Except.ensure (r.parent.txid ≠ 0) .value
  Except.ensure (r.spanBegin ≠ 0 ∧ r.spanEnd ≠ 0 ∧ r.spanBegin ≤ r.spanEnd) .value
  r.removed.forM fun page => do
    let _ ← PageNumber.new page
  Except.ensure (r.removed.Pairwise (· < ·)) (.corrupt 0)
  let patch ← r.patch.decode E
  Except.ensure (r.spanEnd = patch.view.txid ∧
      ∀ page ∈ r.removed, page ≤ patch.view.size.pages ∧ ¬ patch.view.pages.contains page)
    (.corrupt 0)
  return ⟨r.parent, r.root, r.spanBegin, r.spanEnd, patch, r.removed⟩

/-- The maps of a run laid over those of its resolved parent. -/
def MetadataRun.overlay (run : MetadataRun) (base : ViewMetadata) : ViewMetadata :=
  let patch := run.patch.view
  let kept := run.removed.foldl ViewMetadata.remove (base.removeAbove patch.size.pages)
  { base with
    size := patch.size
    txid := patch.txid
    history := patch.history
    parentSeal := patch.parentSeal
    preferred := patch.preferred
    frames := base.frames ∪ patch.frames
    pages := kept.pages ∪ patch.pages }

/-- Apply a run to its resolved parent. -/
def MetadataRun.apply (run : MetadataRun) (parentId : Digest) (base : ValidatedMetadata) :
    Except StoreError ValidatedMetadata := do
  let patch := run.patch.view
  Except.ensure (run.parent.hash = base.view.logicalHash E ∧ run.parent.txid = base.view.txid ∧
      base.view.database = patch.database ∧ base.view.lineage = patch.lineage ∧
      base.view.size.pageSize = patch.size.pageSize ∧ run.spanEnd = patch.txid ∧
      base.view.txid ≤ patch.txid ∧
      (patch.txid = base.view.txid → patch.size = base.view.size ∧
        patch.history = base.view.history ∧ run.root = base.view.contentRoot E))
    .identityMismatch
  let decodedBytes := base.decodedBytes + run.decodedBytes
  Except.ensure (base.ancestors.length < maxRunDepth ∧ parentId ∉ base.ancestors ∧
      decodedBytes ≤ viewLimit)
    .range
  let view := (run.overlay base.view).retainFrames
  view.validateFrameRanges
  Except.ensure (view.contentRoot E = run.root) (.corrupt 0)
  return {
    view
    spanBegin := run.spanBegin
    spanEnd := run.spanEnd
    ancestors := parentId :: base.ancestors
    decodedBytes
    parent := .previous run.parent }

/-! ## What validation establishes -/

namespace ViewMetadata

variable {E} {v w : ViewMetadata}

/-- Frames are filed under their id and page entries name versions of their page. -/
structure Consistent (E : Env) (v : ViewMetadata) : Prop where
  keyed : ∀ (id : Digest) location, v.frames[id]? = some location → location.metadata.id E = id
  paged : ∀ (page : Nat) stored, v.pages[page]? = some stored →
    ∃ version, v.versionOf stored = some version ∧ version.page = page

/-- A consistent view of well-formed frames of its page size, with no page above its size. -/
structure Resolved (E : Env) (v : ViewMetadata) : Prop extends Consistent E v where
  frame : ∀ (id : Digest) location, v.frames[id]? = some location →
    location.metadata.shape.pageSize = v.size.pageSize ∧
    location.length = location.metadata.payloadBytes ∧ location.metadata.WellFormed
  bounded : ∀ (page : Nat) stored, v.pages[page]? = some stored → page ≤ v.size.pages

/-- The version stored for a page names that page. -/
theorem Consistent.page_of_version (h : v.Consistent E) {p : Nat} {version : PageVersion}
    (hver : v.version p = some version) : version.page = p := by
  obtain ⟨stored, hp, hs⟩ := Option.bind_eq_some_iff.mp hver
  obtain ⟨version', hs', hpage⟩ := h.paged p stored hp
  cases hs.symm.trans hs'
  exact hpage

theorem mem_pageVersions {ver : PageVersion} :
    ver ∈ v.pageVersions ↔ ∃ (p : Nat) (s : StoredPage), v.pages[p]? = some s ∧
      v.versionOf s = some ver := by
  simp [pageVersions, List.mem_filterMap, Std.ExtTreeMap.mem_toList_iff_getElem?_eq_some]

/-- The version of a page is the one listed for it. -/
theorem version_eq_find? (h : v.Consistent E) (p : Nat) :
    v.version p = v.pageVersions.find? fun ver => ver.page == p := by
  symm
  cases hp : v.pages[p]? with
  | none =>
      rw [List.find?_eq_none.mpr]
      · simp [version, hp]
      · intro ver hver
        obtain ⟨q, s, hq, hs⟩ := mem_pageVersions.mp hver
        obtain ⟨ver', hs', hpage⟩ := h.paged q s hq
        cases hs.symm.trans hs'
        rintro he
        simp only [beq_iff_eq] at he
        rw [← he, hpage, hq] at hp
        cases hp
  | some s =>
      obtain ⟨ver, hs, hpage⟩ := h.paged p s hp
      have hv : v.version p = some ver := by simp [version, hp, hs]
      rw [hv]
      have hmem : ver ∈ v.pageVersions := mem_pageVersions.mpr ⟨p, s, hp, hs⟩
      obtain ⟨ver', hf⟩ := Option.isSome_iff_exists.mp
        (List.find?_isSome (p := fun ver : PageVersion => ver.page == p).mpr
          ⟨ver, hmem, by simp [hpage]⟩)
      rw [hf]
      obtain ⟨q, t, hq, ht⟩ := mem_pageVersions.mp (List.mem_of_find?_eq_some hf)
      obtain ⟨_, ht', hpage'⟩ := h.paged q t hq
      cases ht.symm.trans ht'
      have hfp := List.find?_some hf
      simp only [beq_iff_eq] at hfp
      rw [← hpage', hfp, hp] at hq
      cases hq
      exact ht.symm.trans hs

/-- Views with one content root store the same version of every page. -/
theorem version_eq_of_contentRoot (hv : v.Consistent E) (hw : w.Consistent E)
    (h : v.contentRoot E = w.contentRoot E) (p : Nat) : v.version p = w.version p := by
  rw [version_eq_find? hv, version_eq_find? hw, E.hash.content_injective h]

theorem Resolved.versionOf_eq_some (h : v.Resolved E) {p : Nat} {s : StoredPage}
    (hp : v.pages[p]? = some s) :
    ∃ location version, v.frames[s.frame]? = some location ∧
      location.metadata.pages[s.slot]? = some version ∧ version.page = p ∧
      s.slot < location.metadata.shape.pages := by
  obtain ⟨ver, hs, hpage⟩ := h.paged p s hp
  obtain ⟨location, hl, hver⟩ := Option.bind_eq_some_iff.mp hs
  refine ⟨location, ver, hl, hver, hpage, ?_⟩
  rw [← (h.frame _ _ hl).2.2.count]
  exact (List.getElem?_eq_some_iff.mp hver).1

/-! ### Edits of the maps -/

theorem pages_removeAbove (last p : Nat) :
    (v.removeAbove last).pages[p]? = if p ≤ last then v.pages[p]? else none := by
  simp only [removeAbove, Std.ExtTreeMap.getElem?_filter']
  cases v.pages[p]? <;> simp [Option.filter]

theorem pages_remove (q p : Nat) :
    (v.remove q).pages[p]? = if q = p then none else v.pages[p]? := by
  simp [remove, Std.ExtTreeMap.getElem?_erase]

theorem foldl_remove (l : List Nat) :
    l.foldl remove v = { v with pages := (l.foldl remove v).pages } := by
  induction l generalizing v with
  | nil => rfl
  | cons q l ih =>
      rw [List.foldl_cons, ih]
      rfl

theorem pages_foldl_remove (l : List Nat) (p : Nat) :
    (l.foldl remove v).pages[p]? = if p ∈ l then none else v.pages[p]? := by
  induction l generalizing v with
  | nil => simp
  | cons q l ih =>
      rw [List.foldl_cons, ih, pages_remove]
      by_cases hq : q = p
      · subst hq
        simp
      · simp only [List.mem_cons, hq, if_false, Ne.symm hq, false_or]

theorem frames_retainFrames (id : Digest) :
    v.retainFrames.frames[id]? =
      v.frames[id]?.filter fun _ => v.pages.toList.any fun e => e.2.frame == id := by
  simp [retainFrames]

theorem frames_of_retainFrames {id : Digest} {location : FrameLocation}
    (h : v.retainFrames.frames[id]? = some location) : v.frames[id]? = some location := by
  rw [frames_retainFrames] at h
  exact (Option.filter_eq_some_iff.mp h).1

/-- The frames that pages refer to are kept. -/
theorem versionOf_retainFrames {p : Nat} {s : StoredPage} (h : v.pages[p]? = some s) :
    v.retainFrames.versionOf s = v.versionOf s := by
  have hany : (v.pages.toList.any fun e => e.2.frame == s.frame) = true := by
    rw [List.any_eq_true]
    exact ⟨(p, s), Std.ExtTreeMap.mem_toList_iff_getElem?_eq_some.mpr h, by simp⟩
  unfold versionOf
  rw [frames_retainFrames, hany]
  cases v.frames[s.frame]? <;> simp [Option.filter]

theorem version_retainFrames (p : Nat) : v.retainFrames.version p = v.version p := by
  unfold version
  show (v.pages[p]?.bind _) = _
  cases h : v.pages[p]? with
  | none => rfl
  | some s => exact versionOf_retainFrames h

theorem Consistent.retainFrames (h : v.Consistent E) : v.retainFrames.Consistent E where
  keyed id location hl := h.keyed id location (frames_of_retainFrames hl)
  paged p s hp := by
    have hp : v.pages[p]? = some s := hp
    rw [versionOf_retainFrames hp]
    exact h.paged p s hp

theorem Resolved.retainFrames (h : v.Resolved E) : v.retainFrames.Resolved E where
  toConsistent := h.toConsistent.retainFrames
  frame id location hl := h.frame id location (frames_of_retainFrames hl)
  bounded := h.bounded

/-! ### The decoders -/

theorem validatePage_eq_ok {p : Nat} {s : StoredPage} (h : v.validatePage p s = .ok ()) :
    (∃ version, v.versionOf s = some version ∧ version.page = p) ∧ p ≤ v.size.pages := by
  unfold validatePage at h
  split at h
  · cases h
  · rename_i location hl
    split at h
    · cases h
    · rename_i version hver
      obtain ⟨hpage, _, hsize⟩ := Except.ensure_eq_ok.mp h
      exact ⟨⟨version, by simp [versionOf, hl, hver], hpage⟩, hsize⟩

/-- A validated draft is itself; its page entries resolve and its frames are filed by id. -/
theorem validate_spec {val : ValidatedMetadata} (h : v.validate E = .ok val) :
    val.view = v ∧ val.decodedBytes = v.encodedLength ∧ val.ancestors = [] ∧
    (∀ (p : Nat) s, v.pages[p]? = some s →
      (∃ version, v.versionOf s = some version ∧ version.page = p) ∧ p ≤ v.size.pages) ∧
    ∀ (id : Digest) location, v.frames[id]? = some location →
      id = location.metadata.id E ∧ location.metadata.shape.pageSize = v.size.pageSize ∧
      location.length = location.metadata.payloadBytes := by
  simp only [validate, Except.bind_eq_ok, Except.forM_eq_ok, Except.ensure_eq_ok,
    Prod.forall, exists_const, Std.ExtTreeMap.mem_toList_iff_getElem?_eq_some] at h
  obtain ⟨_, hpages, _, hframes, _, _, _, h⟩ := h
  cases h
  exact ⟨rfl, rfl, rfl, fun p s hp => validatePage_eq_ok (hpages p s hp), hframes⟩

end ViewMetadata

namespace ViewRecord

variable {E} {r : ViewRecord}

/-- Frames a record decodes to are the record's own, checked. -/
theorem decodeFrame_invariant {pageSize : PageSize} {frames : BTreeMap Digest FrameLocation}
    (h : r.frames.foldlM (decodeFrame E pageSize) ∅ = .ok frames) (id : Digest)
    (location : FrameLocation) (hl : frames[id]? = some location) :
    location.metadata.WellFormed ∧
    ∃ e ∈ r.frames, e.pack = location.pack ∧ e.offset = location.offset ∧
      e.metadata = location.metadata := by
  revert id location
  refine Except.foldlM_invariant (I := fun frames : BTreeMap Digest FrameLocation =>
    ∀ (id : Digest) (location : FrameLocation), frames[id]? = some location →
      location.metadata.WellFormed ∧
      ∃ e ∈ r.frames, e.pack = location.pack ∧ e.offset = location.offset ∧
        e.metadata = location.metadata) ?_ ?_ h
  · intro e he s s' hs hstep id location hl
    simp only [decodeFrame, Except.bind_eq_ok, Except.ensure_eq_ok, exists_const] at hstep
    obtain ⟨_, m, hm, _, _, hs'⟩ := hstep
    obtain ⟨rfl, _, hwf⟩ := FrameMetadata.decode_eq_ok hm
    cases hs'
    rw [Std.ExtTreeMap.getElem?_insert] at hl
    split at hl
    · cases hl
      exact ⟨hwf, e, he, rfl, rfl, rfl⟩
    · exact hs id location hl
  · intro id location hl
    simp at hl

/-- **What a decoded record is.** The view has the record's fields, its root, resolved page
entries, and only frames the record lists. -/
theorem decode_spec {val : ValidatedMetadata} (h : r.decode E = .ok val) :
    val.view.Resolved E ∧ val.view.contentRoot E = r.root ∧ val.view.size.get = r.size ∧
    val.view.size.pageSize.get = r.pageSize ∧ val.view.txid = r.txid ∧
    val.view.history = r.history ∧ val.view.parentSeal = r.parentSeal ∧
    val.view.database = r.database ∧ val.view.lineage = r.lineage ∧
    ∀ (id : Digest) location, val.view.frames[id]? = some location →
      ∃ e ∈ r.frames, e.pack = location.pack ∧ e.offset = location.offset ∧
        e.metadata = location.metadata := by
  simp only [decode, Except.bind_eq_ok, Except.ensure_eq_ok, exists_const] at h
  obtain ⟨ps, hps, size, hsize, _, _, _, frames, hframes, _, pages, _, val', hval, ⟨_, hroot⟩, h⟩ := h
  cases h
  obtain ⟨hview, _, _, hp, hf⟩ := ViewMetadata.validate_spec hval
  obtain ⟨hget, hpsize⟩ := LogicalBytes.new_eq_ok hsize
  have hdec := decodeFrame_invariant hframes
  rw [hview] at hroot ⊢
  refine ⟨⟨⟨fun id location hl => (hf id location hl).1.symm, fun p s h => (hp p s h).1⟩,
      fun id location hl => ⟨(hf id location hl).2.1, (hf id location hl).2.2,
        (hdec id location hl).1⟩, fun p s h => (hp p s h).2⟩,
    hroot.symm, hget, ?_, rfl, rfl, rfl, rfl, rfl,
    fun id location hl => (hdec id location hl).2⟩
  rw [← PageSize.new_eq_ok hps, ← hpsize]

end ViewRecord

namespace MetadataRun

variable {E} {run : MetadataRun} {base val : ValidatedMetadata} {parentId : Digest}

/-- Pages of the overlay come from the patch, or from the base where neither the patch nor a
removal nor the size intervenes. -/
theorem pages_overlay (b : ViewMetadata) (p : Nat) :
    (run.overlay b).pages[p]? = (run.patch.view.pages[p]?).or
      (if p ∈ run.removed then none
       else if p ≤ run.patch.view.size.pages then b.pages[p]? else none) := by
  show ((_ ∪ _ : BTreeMap Nat StoredPage))[p]? = _
  rw [Std.ExtTreeMap.getElem?_union, ViewMetadata.pages_foldl_remove,
    ViewMetadata.pages_removeAbove]

theorem frames_overlay (b : ViewMetadata) (id : Digest) :
    (run.overlay b).frames[id]? = (run.patch.view.frames[id]?).or b.frames[id]? := by
  show ((_ ∪ _ : BTreeMap Digest FrameLocation))[id]? = _
  rw [Std.ExtTreeMap.getElem?_union]

/-- A frame id fixes the versions, so an entry resolves in the overlay as it did in the view
it comes from. -/
theorem versionOf_overlay {b : ViewMetadata} (hb : b.Consistent E)
    (hp : run.patch.view.Consistent E) {s : StoredPage} {ver : PageVersion}
    (h : b.versionOf s = some ver ∨ run.patch.view.versionOf s = some ver) :
    (run.overlay b).versionOf s = some ver := by
  unfold ViewMetadata.versionOf at h ⊢
  rw [frames_overlay]
  cases hpf : run.patch.view.frames[s.frame]? with
  | none =>
      rw [hpf] at h
      simpa using h
  | some location =>
      rw [hpf] at h
      rcases h with h | h
      · obtain ⟨location', hl, hver⟩ := Option.bind_eq_some_iff.mp h
        have : location.metadata = location'.metadata := E.hash.frame_injective
          ((hp.keyed _ _ hpf).trans (hb.keyed _ _ hl).symm)
        simpa [this] using hver
      · simpa using h

theorem pages_of_overlay {b : ViewMetadata} {p : Nat} {s : StoredPage}
    (h : (run.overlay b).pages[p]? = some s) :
    run.patch.view.pages[p]? = some s ∨ b.pages[p]? = some s ∧ p ≤ run.patch.view.size.pages := by
  rw [pages_overlay, Option.or_eq_some_iff] at h
  rcases h with h | ⟨-, h⟩
  · exact .inl h
  · split at h
    · cases h
    · split at h
      · rename_i hle
        exact .inr ⟨h, hle⟩
      · cases h

theorem resolved_overlay {b : ViewMetadata} (hb : b.Resolved E) (hp : run.patch.view.Resolved E)
    (hsize : b.size.pageSize = run.patch.view.size.pageSize) : (run.overlay b).Resolved E where
  keyed id location hl := by
    rw [frames_overlay, Option.or_eq_some_iff] at hl
    rcases hl with hl | ⟨-, hl⟩
    · exact hp.keyed id location hl
    · exact hb.keyed id location hl
  paged p s hs := by
    rcases pages_of_overlay hs with hs | ⟨hs, -⟩
    · obtain ⟨ver, hver, hpage⟩ := hp.paged p s hs
      exact ⟨ver, versionOf_overlay hb.toConsistent hp.toConsistent (.inr hver), hpage⟩
    · obtain ⟨ver, hver, hpage⟩ := hb.paged p s hs
      exact ⟨ver, versionOf_overlay hb.toConsistent hp.toConsistent (.inl hver), hpage⟩
  frame id location hl := by
    rw [frames_overlay, Option.or_eq_some_iff] at hl
    rcases hl with hl | ⟨-, hl⟩
    · exact hp.frame id location hl
    · obtain ⟨hps, hlen⟩ := hb.frame id location hl
      exact ⟨hps.trans hsize, hlen⟩
  bounded p s hs := by
    rcases pages_of_overlay hs with hs | ⟨-, hle⟩
    · exact hp.bounded p s hs
    · exact hle

/-- **What an applied run is.** Over a resolved parent a run gives a resolved view with the
run's root, size and transaction, and frames of the patch or the parent. -/
theorem apply_spec (h : run.apply E parentId base = .ok val) (hb : base.view.Resolved E)
    (hp : run.patch.view.Resolved E) :
    val.view.Resolved E ∧ val.view.contentRoot E = run.root ∧
    val.view.size = run.patch.view.size ∧ val.view.txid = run.patch.view.txid ∧
    val.view.history = run.patch.view.history ∧
    val.view.parentSeal = run.patch.view.parentSeal ∧
    val.view.database = run.patch.view.database ∧ val.view.lineage = run.patch.view.lineage ∧
    ∀ (id : Digest) location, val.view.frames[id]? = some location →
      run.patch.view.frames[id]? = some location ∨ base.view.frames[id]? = some location := by
  simp only [apply, Except.bind_eq_ok, Except.ensure_eq_ok, exists_const] at h
  obtain ⟨⟨_, _, hdb, hlin, hps, _⟩, _, _, _, hroot, h⟩ := h
  cases h
  refine ⟨(resolved_overlay hb hp hps).retainFrames, hroot, rfl, rfl, rfl, rfl, hdb, hlin,
    fun id location hl => ?_⟩
  have := ViewMetadata.frames_of_retainFrames hl
  rw [frames_overlay, Option.or_eq_some_iff] at this
  exact this.imp_right And.right

end MetadataRun

end Zsqlite
