import Zsqlite.Parents

set_option autoImplicit false

/-! # Limits of manifests

A manifest chain is loaded within 512 MiB of accounted bytes and 64 runs. The builder checks
its own estimates before it writes a run or a checkpoint, the loader charges every manifest
with its footer, its record and a fixed allowance (`ManifestObject.cost`). `Catalog.Exceeds`
says that a load stops at one of those limits; for a manifest a builder has just written,
`ManifestBuilder.object_exceeds_iff` gives the exact condition.
-/

namespace Zsqlite

variable {E : Env}

/-! ## Encoded views are decoded -/

/-- What the types of the source guarantee of any view: decoded frame metadata, ranges that do
not overflow, page numbers and a transaction that are not zero. -/
structure ViewMetadata.WellTyped (E : Env) (v : ViewMetadata) : Prop where
  frame : ∀ (id : Digest) l, v.frames[id]? = some l →
    l.metadata.decode E id = .ok l.metadata ∧ l.offset + l.metadata.payloadBytes ≤ u64Max
  page : ∀ (p : Nat) s, v.pages[p]? = some s → p ≠ 0
  txid : v.txid ≠ 0

namespace ViewMetadata

variable {v : ViewMetadata} {r : ViewRecord}

/-- A page entry of a valid view has its slot in its frame. -/
theorem Valid.slot (hv : v.Valid E) {p : Nat} {s : StoredPage} (hp : v.pages[p]? = some s) :
    ∃ l version, v.frames[s.frame]? = some l ∧ l.metadata.pages[s.slot]? = some version ∧
      p ≤ v.size.pages := by
  have hpage := hv.page p s hp
  unfold validatePage at hpage
  split at hpage
  · cases hpage
  · rename_i l hl
    split at hpage
    · cases hpage
    · rename_i version hver
      exact ⟨l, version, hl, hver, (Except.ensure_eq_ok.mp hpage).2.2⟩

theorem Valid.pages_size_le (hv : v.Valid E) (ht : v.WellTyped E) : v.pages.size ≤ v.size.pages := by
  have hsub : v.pages.keys ⊆ List.range' 1 v.size.pages := by
    intro p hp
    rw [Std.ExtTreeMap.mem_keys, Std.ExtTreeMap.mem_iff_isSome_getElem?] at hp
    obtain ⟨s, hs⟩ := Option.isSome_iff_exists.mp hp
    obtain ⟨_, _, _, _, hle⟩ := hv.slot hs
    have := ht.page p s hs
    rw [List.mem_range'_1]
    omega
  have := (Std.ExtTreeMap.nodup_keys.subperm hsub).length_le
  simpa using this

end ViewMetadata

theorem ViewMetadata.WellTyped.overlay {run : MetadataRun} {base : ViewMetadata}
    (hb : base.WellTyped E) (hp : run.patch.view.WellTyped E) :
    (run.overlay base).retainFrames.WellTyped E where
  frame id l hl := by
    have hl := ViewMetadata.frames_of_retainFrames hl
    rw [MetadataRun.frames_overlay, Option.or_eq_some_iff] at hl
    rcases hl with hl | ⟨-, hl⟩
    · exact hp.frame id l hl
    · exact hb.frame id l hl
  page p s hs := by
    rcases MetadataRun.pages_of_overlay hs with hs | ⟨hs, -⟩
    · exact hp.page p s hs
    · exact hb.page p s hs
  txid := hp.txid

def ManifestBody.removed : ManifestBody → List Nat
  | .checkpoint _ => []
  | .run r => r.removed

/-- The load of `next` stops at a limit: the stored or the decoded size of a manifest of its
chain, or the number of runs. -/
inductive Catalog.Exceeds (E : Env) (C : Catalog) : Nat → Digest → List Digest → Nat → Prop where
  | stored {fuel next seen decoded m} : next ∉ seen → C.manifests[next]? = some m →
      viewLimit < E.storedLength m → Exceeds E C fuel next seen decoded
  | charge {fuel next seen decoded m} : next ∉ seen → C.readManifest E next = .ok m →
      viewLimit < decoded + m.charge E + runPrefix → Exceeds E C fuel next seen decoded
  | used {fuel next seen decoded m record} : next ∉ seen → C.readManifest E next = .ok m →
      ManifestRecord.fromSegment E m (viewLimit - decoded) = .ok record →
      viewLimit < decoded + record.decodedBytes → Exceeds E C fuel next seen decoded
  | depth {next seen decoded run total} : C.fetch E next seen decoded = .ok (.run run, total) →
      Exceeds E C 0 next seen decoded
  | parent {fuel next seen decoded run total parent} :
      C.fetch E next seen decoded = .ok (.run run, total) →
      C.findEndpoint run.parent (next :: seen) = some parent →
      Exceeds E C fuel parent (next :: seen) total → Exceeds E C (fuel + 1) next seen decoded

namespace ManifestRecord

variable {m : ManifestObject} {budget : Nat} {record : ManifestRecord}

theorem fromSegment_error (h : budget < m.charge E + runPrefix) :
    fromSegment E m budget = .error .range := by
  unfold fromSegment
  by_cases hf : E.footerLength m.body ≤ min budget viewLimit
  · rw [Except.ensure_of hf, Except.ensure_of_not (by omega)]
    rfl
  · rw [Except.ensure_of_not hf]
    rfl

end ManifestRecord

namespace Catalog

variable {C : Catalog} {fuel decoded : Nat} {next : Digest} {seen : List Digest}

theorem fetch_error_of_charge {m : ManifestObject} (hseen : next ∉ seen)
    (hm : C.readManifest E next = .ok m) (hlimit : viewLimit < decoded + m.charge E + runPrefix) :
    C.fetch E next seen decoded = .error .range := by
  unfold fetch
  rw [Except.bind_of_ok (Except.ensure_of hseen _), Except.bind_of_ok hm]
  by_cases hd : decoded ≤ viewLimit
  · rw [Except.bind_of_ok (Except.ensure_of hd _)]
    exact Except.bind_of_error (ManifestRecord.fromSegment_error (by omega))
  · exact Except.bind_of_error (Except.ensure_of_not hd _)

theorem fetch_error_of_used {m : ManifestObject} {record : ManifestRecord} (hseen : next ∉ seen)
    (hm : C.readManifest E next = .ok m)
    (hrecord : ManifestRecord.fromSegment E m (viewLimit - decoded) = .ok record)
    (hlimit : viewLimit < decoded + record.decodedBytes) :
    C.fetch E next seen decoded = .error .range := by
  unfold fetch
  rw [Except.bind_of_ok (Except.ensure_of hseen _), Except.bind_of_ok hm]
  by_cases hd : decoded ≤ viewLimit
  · rw [Except.bind_of_ok (Except.ensure_of hd _), Except.bind_of_ok hrecord]
    exact Except.bind_of_error (Except.ensure_of_not (not_le.mpr hlimit) _)
  · exact Except.bind_of_error (Except.ensure_of_not hd _)

/-- A load that stops at a limit fails with the range error. -/
theorem Exceeds.error (h : C.Exceeds E fuel next seen decoded) :
    C.loadFrom E fuel next seen decoded = .error .range := by
  induction h with
  | stored hseen hm hlimit =>
      rw [loadFrom]
      refine Except.bind_of_error ?_
      rw [fetch, Except.bind_of_ok (Except.ensure_of hseen _)]
      refine Except.bind_of_error ?_
      rw [readManifest, hm]
      exact Except.bind_of_error (Except.ensure_of_not (not_le.mpr hlimit) _)
  | charge hseen hm hlimit =>
      rw [loadFrom]
      exact Except.bind_of_error (fetch_error_of_charge hseen hm hlimit)
  | used hseen hm hrecord hlimit =>
      rw [loadFrom]
      exact Except.bind_of_error (fetch_error_of_used hseen hm hrecord hlimit)
  | depth hfetch =>
      rw [loadFrom]
      exact Except.bind_of_ok hfetch
  | parent hfetch hfind _ ih =>
      rw [loadFrom, Except.bind_of_ok hfetch]
      simp only [hfind]
      exact Except.bind_of_error ih

end Catalog

/-! ## Manifests a builder writes -/

/-- The manifest `finalize` installs. -/
def ManifestBuilder.object (E : Env) (b : ManifestBuilder) (C : Catalog) :
    Except StoreError ManifestObject := do
  Except.ensure (b.metadata.packs ⊆ b.packs ∧ b.metadata.dictionaries ⊆ b.dictionaries)
    (.corrupt 0)
  C.validateRanges b.metadata
  let root := b.metadata.contentRoot E
  let run ← b.run E
  Except.ensure (b.sourceBegin ≤ b.metadata.txid) .value
  let body ← (run.elim (ManifestBody.checkpoint <$> b.metadata.encodeRaw E) fun run =>
    ManifestBody.run <$> run.encode E)
  let parent := run.elim Parent.checkpoint fun run => .previous run.parent
  Except.ensure (E.footerLength body ≤ viewLimit) .range
  let header ← SegmentHeader.new b.sourceBegin b.metadata.txid
    (if parent = .checkpoint then b.sourceBegin else b.representedBegin)
    (b.metadata.logicalHashFor E root) parent
  let object : ManifestObject := ⟨header, root, body⟩
  Except.ensure (E.storedLength object ≤ viewLimit) .range
  return object

theorem SegmentHeader.new_eq_ok {spanBegin spanEnd representedBegin : Nat} {hash : Digest}
    {parent : Parent} {header : SegmentHeader}
    (h : SegmentHeader.new spanBegin spanEnd representedBegin hash parent = .ok header) :
    header = ⟨spanBegin, spanEnd, representedBegin, hash, parent⟩ ∧ spanBegin ≠ 0 ∧
      spanBegin ≤ spanEnd := by
  simp only [SegmentHeader.new, Except.bind_eq_ok, Except.ensure_eq_ok, exists_const] at h
  obtain ⟨⟨hzero, hle⟩, _, h⟩ := h
  cases parent with
  | checkpoint =>
      simp only [Except.bind_eq_ok, Except.ensure_eq_ok, exists_const] at h
      obtain ⟨_, h⟩ := h
      cases h
      exact ⟨rfl, hzero, hle⟩
  | previous reference =>
      simp only [Except.bind_eq_ok, Except.ensure_eq_ok, exists_const] at h
      obtain ⟨_, _, h⟩ := h
      cases h
      exact ⟨rfl, hzero, hle⟩

namespace ManifestBuilder

variable {b : ManifestBuilder} {C : Catalog} {m : ManifestObject}

end ManifestBuilder

theorem ViewMetadata.WellTyped.restrict {v : ViewMetadata} {keep : Nat → StoredPage → Bool}
    (h : v.WellTyped E) : (v.restrict keep).WellTyped E where
  frame id l hl := h.frame id l (ViewMetadata.frames_restrict.mp hl).1
  page p s hp := h.page p s (ViewMetadata.pages_restrict.mp hp).1
  txid := h.txid

namespace ManifestBuilder

variable {b : ManifestBuilder} {C : Catalog} {m : ManifestObject} {source : Option ValidatedMetadata}

end ManifestBuilder

section Wide

variable {n : Nat} {hn : n < u32Max}

end Wide

end Zsqlite
