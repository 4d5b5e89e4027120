import Zsqlite.Head
import Zsqlite.SealImage

set_option autoImplicit false

/-! # What an installation stores

Inserting a frame makes its versions the ones the view stores for their pages and leaves every
other page alone (`insert_spec`). Writing all frames of a prepared seal into packs repeats
that, and the installed manifest, run or checkpoint, resolves to a view with the same content
root. So the installed view stores, at every page, what the draft with all frames inserted
stores (`PreparedSeal.install_spec`).
-/

namespace Zsqlite

open ByteVec

variable {E : Env}

/-- `w` stores, for the pages of the frames `ms`, a version of one of them, and is unchanged
from `v` elsewhere. -/
def ViewMetadata.UpdatedBy (ms : List FrameMetadata) (v w : ViewMetadata) : Prop :=
  ∀ p, (∃ m ∈ ms, ∃ version ∈ m.pages, version.page = p ∧ w.version p = some version) ∨
    ((∀ m ∈ ms, ∀ version ∈ m.pages, version.page ≠ p) ∧ w.version p = v.version p)

namespace ViewMetadata

variable {u v w : ViewMetadata} {location : FrameLocation}

theorem UpdatedBy.refl (v : ViewMetadata) : UpdatedBy [] v v := fun _ => .inr ⟨by simp, rfl⟩

theorem UpdatedBy.trans {ms ns : List FrameMetadata} (h : UpdatedBy ms u v)
    (h' : UpdatedBy ns v w) : UpdatedBy (ms ++ ns) u w := by
  intro p
  rcases h' p with ⟨m, hm, version, hv, hpage, hw⟩ | ⟨hnot, hw⟩
  · exact .inl ⟨m, List.mem_append_right _ hm, version, hv, hpage, hw⟩
  · rcases h p with ⟨m, hm, version, hv, hpage, hv'⟩ | ⟨hnot', hv'⟩
    · exact .inl ⟨m, List.mem_append_left _ hm, version, hv, hpage, hw.trans hv'⟩
    · refine .inr ⟨fun m hm => ?_, hw.trans hv'⟩
      rcases List.mem_append.mp hm with hm | hm
      · exact hnot' m hm
      · exact hnot m hm

/-- The page entries after an insertion. -/
theorem pages_of_insert (h : v.insert E location = .ok w) (p : Nat) :
    (∃ i version, location.metadata.pages[i]? = some version ∧ version.page = p ∧
      w.pages[p]? = some ⟨location.metadata.id E, i⟩) ∨
    ((∀ version ∈ location.metadata.pages, version.page ≠ p) ∧ w.pages[p]? = v.pages[p]?) := by
  obtain ⟨_, _, h⟩ := Except.bind_eq_ok.mp h
  obtain ⟨pages, hpages, h⟩ := Except.bind_eq_ok.mp h
  cases h
  have key := Except.foldlM_prefix
    (I := fun (done : List (PageVersion × Nat)) (pages : BTreeMap Nat StoredPage) => ∀ p : Nat,
      (∃ e ∈ done, e.1.page = p ∧ pages[p]? = some ⟨location.metadata.id E, e.2⟩) ∨
      ((∀ e ∈ done, e.1.page ≠ p) ∧ pages[p]? = v.pages[p]?))
    (fun done e pages pages' _ hI hstep p => by
      obtain ⟨_, _, hstep⟩ := Except.bind_eq_ok.mp hstep
      obtain ⟨_, _, hstep⟩ := Except.bind_eq_ok.mp hstep
      cases hstep
      by_cases hp : e.1.page = p
      · exact .inl ⟨e, by simp, hp, by simp [hp]⟩
      · have hget : (pages.insert e.1.page (⟨location.metadata.id E, e.2⟩ : StoredPage))[p]? =
            pages[p]? := by simp [Std.ExtTreeMap.getElem?_insert, hp]
        rcases hI p with ⟨e', he', hpage, hs⟩ | ⟨hnot, hs⟩
        · exact .inl ⟨e', by simp [he'], hpage, hget.trans hs⟩
        · refine .inr ⟨fun e' he' => ?_, hget.trans hs⟩
          rcases List.mem_append.mp he' with he' | he'
          · exact hnot e' he'
          · cases List.mem_singleton.mp he'
            exact hp)
    (fun _ => .inr ⟨by simp, rfl⟩) hpages p
  rcases key with ⟨⟨version, i⟩, he, hpage, hs⟩ | ⟨hnot, hs⟩
  · exact .inl ⟨i, version, List.mem_zipIdx_iff_getElem?.mp he, hpage, hs⟩
  · refine .inr ⟨fun version hver => ?_, hs⟩
    obtain ⟨i, hi⟩ := List.mem_iff_getElem?.mp hver
    exact hnot (version, i) (List.mem_zipIdx_iff_getElem?.mpr hi)

theorem frames_of_insert (h : v.insert E location = .ok w) :
    w = { v with
      pages := w.pages
      frames := v.frames.insert (location.metadata.id E) location } := by
  obtain ⟨_, _, h⟩ := Except.bind_eq_ok.mp h
  obtain ⟨pages, _, h⟩ := Except.bind_eq_ok.mp h
  cases h
  rfl

/-- **Insertion.** The view gains the versions of the frame and keeps the others. -/
theorem insert_spec (hv : v.Consistent E) (h : v.insert E location = .ok w) :
    w.Consistent E ∧ UpdatedBy [location.metadata] v w ∧ w.size = v.size ∧ w.txid = v.txid ∧
    w.database = v.database ∧ w.lineage = v.lineage := by
  have heq := frames_of_insert h
  have hframes : ∀ id : Digest, w.frames[id]? =
      if location.metadata.id E = id then some location else v.frames[id]? := by
    intro id
    rw [heq]
    simp [Std.ExtTreeMap.getElem?_insert]
  have hnew : ∀ i, w.versionOf ⟨location.metadata.id E, i⟩ = location.metadata.pages[i]? := by
    intro i
    simp [versionOf, hframes]
  -- An entry that resolved before resolves alike: its frame was replaced at most by itself.
  have hold : ∀ s version, v.versionOf s = some version → w.versionOf s = some version := by
    intro s version hs
    obtain ⟨old, hl, hver⟩ := Option.bind_eq_some_iff.mp hs
    unfold versionOf
    rw [hframes]
    split
    · rename_i hid
      have : location.metadata = old.metadata :=
        E.hash.frame_injective (hid.trans (hv.keyed _ _ hl).symm)
      simpa [this] using hver
    · simpa [hl] using hver
  have hversion : ∀ p, v.pages[p]? = w.pages[p]? → w.version p = v.version p := by
    intro p hp
    unfold version
    rw [← hp]
    cases hs : v.pages[p]? with
    | none => rfl
    | some s =>
        obtain ⟨version, hver, _⟩ := hv.paged p s hs
        exact (hold s version hver).trans hver.symm
  refine ⟨⟨fun id l hl => ?_, fun p s hs => ?_⟩, fun p => ?_, by rw [heq], by rw [heq],
    by rw [heq], by rw [heq]⟩
  · rw [hframes] at hl
    split at hl
    · rename_i hid
      cases hl
      exact hid
    · exact hv.keyed id l hl
  · rcases pages_of_insert h p with ⟨i, version, hi, hpage, hw⟩ | ⟨_, hw⟩
    · rw [hw] at hs
      cases hs
      exact ⟨version, (hnew i).trans hi, hpage⟩
    · obtain ⟨version, hver, hpage⟩ := hv.paged p s (hw ▸ hs)
      exact ⟨version, hold s version hver, hpage⟩
  · rcases pages_of_insert h p with ⟨i, version, hi, hpage, hw⟩ | ⟨hnot, hw⟩
    · exact .inl ⟨location.metadata, by simp, version, List.mem_of_getElem? hi, hpage, by
        simp [ViewMetadata.version, hw, hnew, hi]⟩
    · exact .inr ⟨by simpa using hnot, hversion p hw.symm⟩

end ViewMetadata

/-! ## Packs -/

theorem Pack.lt_offset_of_mem_locations {id start : Nat} {p : Pack} {l : FrameLocation}
    (h : l ∈ locations id start p) : start < l.offset := by
  induction p generalizing start with
  | nil => cases h
  | cons f p ih =>
      rcases List.mem_cons.mp h with rfl | h
      · simp only [FrameMetadata.payloadStart]
        omega
      · have := ih h
        omega

/-- A recorded location is where a lookup finds the frame. -/
theorem Pack.find_of_mem_locations {id start : Nat} {p : Pack} {l : FrameLocation}
    (h : l ∈ locations id start p) :
    l.pack = id ∧ ∃ f, findFrom start p l.offset = some f ∧ f.metadata = l.metadata := by
  induction p generalizing start with
  | nil => cases h
  | cons f p ih =>
      rcases List.mem_cons.mp h with rfl | h
      · exact ⟨rfl, f, by simp [findFrom], rfl⟩
      · obtain ⟨hid, g, hg, hmeta⟩ := ih h
        have hlt := lt_offset_of_mem_locations h
        refine ⟨hid, g, ?_, hmeta⟩
        rw [findFrom, if_neg, hg]
        simp only [FrameMetadata.packedLen] at hlt
        omega

theorem Pack.map_metadata_locations (id start : Nat) (p : Pack) :
    (locations id start p).map FrameLocation.metadata = p.map EncodedFrame.metadata := by
  induction p generalizing start with
  | nil => rfl
  | cons f p ih => simp [locations, ih]

/-- `st'` continues `st` with the frames `ms` written and inserted. -/
structure Installing.Extends (E : Env) (ms : List FrameMetadata) (st st' : Installing) : Prop where
  sound : st'.catalog.Sound E
  consistent : st'.view.Consistent E
  located : st'.view.FramesLocated E
  updated : ViewMetadata.UpdatedBy ms st.view st'.view
  size : st'.view.size = st.view.size
  txid : st'.view.txid = st.view.txid
  database : st'.view.database = st.view.database
  lineage : st'.view.lineage = st.view.lineage

theorem Installing.Extends.trans {ms ns : List FrameMetadata} {st st' st'' : Installing}
    (h : Installing.Extends E ms st st') (h' : Installing.Extends E ns st' st'') :
    Installing.Extends E (ms ++ ns) st st'' where
  sound := h'.sound
  consistent := h'.consistent
  located := h'.located
  updated := h.updated.trans h'.updated
  size := h'.size.trans h.size
  txid := h'.txid.trans h.txid
  database := h'.database.trans h.database
  lineage := h'.lineage.trans h.lineage

theorem Installing.Extends.self {ms : List FrameMetadata} {st st' : Installing}
    (h : Installing.Extends E ms st st') : Installing.Extends E [] st' st' :=
  ⟨h.sound, h.consistent, h.located, ViewMetadata.UpdatedBy.refl _, rfl, rfl, rfl, rfl⟩

/-- Finishing a pack installs it and inserts its frames. -/
theorem PackWriter.finish_spec {w : PackWriter} {st st' : Installing}
    (hst : Installing.Extends E [] st st) (hw : ∀ f ∈ w.frames, f.WellEncoded E)
    (h : w.finish E st = .ok st') :
    Installing.Extends E (w.frames.map EncodedFrame.metadata) st st' := by
  obtain ⟨_, _, h⟩ := Except.bind_eq_ok.mp h
  obtain ⟨view, hview, h⟩ := Except.bind_eq_ok.mp h
  cases h
  -- The loop inserts the recorded locations one by one.
  have key := Except.foldlM_prefix
    (I := fun (done : List FrameLocation) (v : ViewMetadata) => v.Consistent E ∧
      v.FramesLocated E ∧ ViewMetadata.UpdatedBy (done.map FrameLocation.metadata) st.view v ∧
      v.size = st.view.size ∧ v.txid = st.view.txid ∧ v.database = st.view.database ∧
      v.lineage = st.view.lineage)
    (fun done l v v' hl hI hstep => by
      obtain ⟨hc, hloc, hu, hsize, htxid, hdb, hlin⟩ := hI
      obtain ⟨hc', hu', hsize', htxid', hdb', hlin'⟩ := ViewMetadata.insert_spec hc hstep
      refine ⟨hc', fun id location hf => ?_, ?_, hsize'.trans hsize, htxid'.trans htxid,
        hdb'.trans hdb, hlin'.trans hlin⟩
      · rw [ViewMetadata.frames_of_insert hstep] at hf
        simp only [Std.ExtTreeMap.getElem?_insert] at hf
        split at hf
        · cases hf
          obtain ⟨hid, f, hfind, hmeta⟩ := Pack.find_of_mem_locations hl
          rw [hid, ← hmeta]
          exact Pack.located hfind
        · exact hloc id location hf
      · rw [List.map_append]
        exact hu.trans hu')
    ⟨hst.consistent, hst.located, ViewMetadata.UpdatedBy.refl _, rfl, rfl, rfl, rfl⟩ hview
  obtain ⟨hc, hloc, hu, hsize, htxid, hdb, hlin⟩ := key
  rw [Pack.map_metadata_locations] at hu
  exact ⟨hst.sound.installPack hw, hc, hloc, hu, hsize, htxid, hdb, hlin⟩

/-- **Pack writing.** All frames end up in installed packs and in the view. -/
theorem writePacks_spec {target : Nat} {frames : List EncodedFrame} {st st' : Installing}
    (hst : Installing.Extends E [] st st) (hw : ∀ f ∈ frames, f.WellEncoded E)
    (h : writePacks E target frames st = .ok st') :
    Installing.Extends E (frames.map EncodedFrame.metadata) st st' := by
  obtain ⟨⟨mid, w⟩, hloop, h⟩ := Except.bind_eq_ok.mp h
  have key := Except.foldlM_prefix
    (I := fun (done : List EncodedFrame) (acc : Installing × PackWriter) =>
      (∀ f ∈ acc.2.frames, f.WellEncoded E) ∧
      ∃ ms, ms ++ acc.2.frames.map EncodedFrame.metadata = done.map EncodedFrame.metadata ∧
        Installing.Extends E ms st acc.1)
    (fun done f acc acc' hf hI hstep => by
      obtain ⟨hacc, ms, hms, hext⟩ := hI
      obtain ⟨_, _, hstep⟩ := Except.bind_eq_ok.mp hstep
      obtain ⟨w', happ, hstep⟩ := Except.bind_eq_ok.mp hstep
      have hframes : w'.frames = acc.2.frames ++ [f] := by
        obtain ⟨_, _, happ⟩ := Except.bind_eq_ok.mp happ
        obtain ⟨_, _, happ⟩ := Except.bind_eq_ok.mp happ
        cases happ
        rfl
      have hw' : ∀ g ∈ w'.frames, g.WellEncoded E := by
        intro g hg
        rw [hframes] at hg
        rcases List.mem_append.mp hg with hg | hg
        · exact hacc g hg
        · cases List.mem_singleton.mp hg
          exact hw f hf
      have hms' : ms ++ w'.frames.map EncodedFrame.metadata =
          (done ++ [f]).map EncodedFrame.metadata := by
        rw [hframes, List.map_append, ← List.append_assoc, hms, List.map_append]
      split at hstep
      · obtain ⟨next, hfin, hstep⟩ := Except.bind_eq_ok.mp hstep
        cases hstep
        refine ⟨by simp [PackWriter.new], _, ?_,
          hext.trans (PackWriter.finish_spec hext.self hw' hfin)⟩
        simpa [PackWriter.new] using hms'
      · cases hstep
        exact ⟨hw', ms, hms', hext⟩)
    ⟨by simp [PackWriter.new], [], by simp [PackWriter.new], hst⟩ hloop
  obtain ⟨hw', ms, hms, hext⟩ := key
  dsimp only at hw' hms hext h
  split at h
  · have := hext.trans (PackWriter.finish_spec hext.self hw' h)
    rwa [hms] at this
  · rename_i hempty
    cases h
    rw [not_not.mp hempty, List.map_nil, List.append_nil] at hms
    rwa [hms] at hext

/-! ## Manifests -/

/-- An encoded view has the fields of the view and only its frames. -/
theorem ViewMetadata.encodeRaw_spec {v : ViewMetadata} {r : ViewRecord}
    (h : v.encodeRaw E = .ok r) :
    r.size = v.size.get ∧ r.pageSize = v.size.pageSize.get ∧ r.txid = v.txid ∧
    r.history = v.history ∧ r.parentSeal = v.parentSeal ∧ r.database = v.database ∧
    r.lineage = v.lineage ∧
    ∀ e ∈ r.frames, ∃ (id : Digest) (location : FrameLocation), v.frames[id]? = some location ∧
      e.pack = location.pack ∧ e.offset = location.offset ∧ e.metadata = location.metadata := by
  obtain ⟨_, _, h⟩ := Except.bind_eq_ok.mp h
  obtain ⟨_, _, h⟩ := Except.bind_eq_ok.mp h
  obtain ⟨_, _, h⟩ := Except.bind_eq_ok.mp h
  obtain ⟨_, _, h⟩ := Except.bind_eq_ok.mp h
  cases h
  refine ⟨rfl, rfl, rfl, rfl, rfl, rfl, rfl, fun e he => ?_⟩
  obtain ⟨⟨id, location⟩, hmem, rfl⟩ := List.mem_map.mp he
  exact ⟨id, location, Std.ExtTreeMap.mem_toList_iff_getElem?_eq_some.mp hmem, rfl, rfl, rfl⟩

/-- The patch of a run has the fields of its target and only its frames. -/
theorem MetadataRun.between_spec {source : ValidatedMetadata} {target : ViewMetadata}
    {run : MetadataRun} (h : MetadataRun.between E source target = .ok run) :
    run.patch.view = { target with
      pages := run.patch.view.pages, frames := run.patch.view.frames } ∧
    ∀ (id : Digest) location, run.patch.view.frames[id]? = some location →
      target.frames[id]? = some location := by
  obtain ⟨_, _, h⟩ := Except.bind_eq_ok.mp h
  obtain ⟨patch, hpatch, h⟩ := Except.bind_eq_ok.mp h
  cases h
  obtain ⟨hview, _⟩ := ViewMetadata.validate_spec hpatch
  refine ⟨by rw [hview], fun id location hl => ?_⟩
  rw [hview, Std.ExtTreeMap.getElem?_filter', Option.filter_eq_some_iff] at hl
  exact hl.1

namespace ManifestBuilder

variable {b : ManifestBuilder}

/-- A run is written over the builder's parent only, towards its draft. -/
theorem run_spec {run : MetadataRun} (h : b.run E = .ok (some run)) :
    ∃ source, b.parent = some source ∧ MetadataRun.between E source b.metadata = .ok run := by
  unfold ManifestBuilder.run at h
  split at h
  · cases h
  · rename_i source hsource
    obtain ⟨run', hrun, h⟩ := Except.bind_eq_ok.mp h
    split at h
    · cases h
      exact ⟨source, hsource, hrun⟩
    · cases h

/-- What a finished manifest is: an installed object with the draft's root whose body is the
draft as a checkpoint, or a run from the parent to the draft, and which has been loaded back. -/
theorem finalize_cases {C C' : Catalog} {durable : DurableView}
    (h : b.finalize E C = .ok (C', durable)) :
    ∃ m : ManifestObject, C' = C.installManifest E m ∧ durable.id = E.hash.manifest m ∧
      C'.loadMetadata E durable.id = .ok durable.metadata ∧ m.root = b.metadata.contentRoot E ∧
      ((∃ r, b.metadata.encodeRaw E = .ok r ∧ m.body = .checkpoint r) ∨
        ∃ source run r, b.parent = some source ∧
          MetadataRun.between E source b.metadata = .ok run ∧ run.encode E = .ok r ∧
          m.body = .run r) := by
  obtain ⟨_, _, h⟩ := Except.bind_eq_ok.mp h
  obtain ⟨_, _, h⟩ := Except.bind_eq_ok.mp h
  obtain ⟨run, hrun, h⟩ := Except.bind_eq_ok.mp h
  obtain ⟨_, _, h⟩ := Except.bind_eq_ok.mp h
  obtain ⟨body, hbody, h⟩ := Except.bind_eq_ok.mp h
  obtain ⟨_, _, h⟩ := Except.bind_eq_ok.mp h
  obtain ⟨header, _, h⟩ := Except.bind_eq_ok.mp h
  obtain ⟨_, _, h⟩ := Except.bind_eq_ok.mp h
  obtain ⟨metadata, hload, h⟩ := Except.bind_eq_ok.mp h
  cases h
  refine ⟨⟨header, b.metadata.contentRoot E, body⟩, rfl, rfl, hload, rfl, ?_⟩
  cases run with
  | none =>
      cases hr : b.metadata.encodeRaw E with
      | error e => simp [hr] at hbody
      | ok r => exact .inl ⟨r, rfl, by simpa [hr] using hbody.symm⟩
  | some run =>
      obtain ⟨source, hsource, hbetween⟩ := run_spec hrun
      cases hr : run.encode E with
      | error e => simp [hr] at hbody
      | ok r => exact .inr ⟨source, run, r, hsource, hbetween, hr, by simpa [hr] using hbody.symm⟩

/-- **An installed manifest resolves to its draft.** Run or checkpoint, the loaded view has the
draft's content root, size and transaction. -/
theorem finalize_spec {C C' : Catalog} {durable : DurableView} (hC : C.Sound E)
    (hloc : b.metadata.FramesLocated E) (h : b.finalize E C = .ok (C', durable)) :
    C'.Sound E ∧ C'.loadMetadata E durable.id = .ok durable.metadata ∧
    (∃ m, C' = C.installManifest E m ∧ durable.id = E.hash.manifest m) ∧
    durable.metadata.view.Resolved E ∧
    durable.metadata.view.contentRoot E = b.metadata.contentRoot E ∧
    durable.metadata.view.size = b.metadata.size ∧
    durable.metadata.view.txid = b.metadata.txid ∧
    durable.metadata.view.history = b.metadata.history ∧
    durable.metadata.view.database = b.metadata.database ∧
    durable.metadata.view.lineage = b.metadata.lineage := by
  obtain ⟨m, rfl, hid, hload, hroot, hbody⟩ := finalize_cases h
  -- What the body records comes from the draft, whichever encoding was chosen.
  obtain ⟨hsize, hps, htxid, hhist, hdb, hlin, hframes⟩ :
      m.body.view.size = b.metadata.size.get ∧ m.body.view.pageSize = b.metadata.size.pageSize.get ∧
      m.body.view.txid = b.metadata.txid ∧ m.body.view.history = b.metadata.history ∧
      m.body.view.database = b.metadata.database ∧ m.body.view.lineage = b.metadata.lineage ∧
      ∀ e ∈ m.body.view.frames, Located E e.pack e.offset e.metadata := by
    rcases hbody with ⟨r, hr, hbody⟩ | ⟨source, run, r, _, hbetween, hr, hbody⟩
    · obtain ⟨h₁, h₂, h₃, h₄, _, h₆, h₇, h₈⟩ := ViewMetadata.encodeRaw_spec hr
      rw [hbody]
      refine ⟨h₁, h₂, h₃, h₄, h₆, h₇, fun e he => ?_⟩
      obtain ⟨id, location, hl, hp, ho, hm⟩ := h₈ e he
      rw [hp, ho, hm]
      exact hloc id location hl
    · obtain ⟨hpatch, hsub⟩ := MetadataRun.between_spec hbetween
      obtain ⟨_, _, hr⟩ := Except.bind_eq_ok.mp hr
      obtain ⟨patch, hr', hr⟩ := Except.bind_eq_ok.mp hr
      obtain ⟨_, _, hr⟩ := Except.bind_eq_ok.mp hr
      cases hr
      obtain ⟨h₁, h₂, h₃, h₄, _, h₆, h₇, h₈⟩ := ViewMetadata.encodeRaw_spec hr'
      rw [hpatch] at h₁ h₂ h₃ h₄ h₆ h₇
      rw [hbody]
      refine ⟨h₁, h₂, h₃, h₄, h₆, h₇, fun e he => ?_⟩
      obtain ⟨id, location, hl, hp, ho, hm⟩ := h₈ e he
      rw [hp, ho, hm]
      exact hloc id location (hsub id location hl)
  have hsound := hC.installManifest hframes
  obtain ⟨m', _, hid', hres⟩ := Catalog.loadMetadata_spec hsound hload
  obtain rfl : m' = m := E.hash.manifest_injective (hid'.trans hid)
  refine ⟨hsound, hload, ⟨m', rfl, hid⟩, hres.resolved, hres.describes.root.trans hroot, ?_,
    hres.describes.txid.trans htxid, hres.describes.history.trans hhist,
    hres.describes.database.trans hdb, hres.describes.lineage.trans hlin⟩
  exact LogicalBytes.eq_of_get (hres.describes.size.trans hsize) (hres.describes.pageSize.trans hps)

end ManifestBuilder

/-! ## Installation -/

/-- Holding an image depends only on the version and the page size. -/
theorem ViewMetadata.HoldsAt.congr {v w : ViewMetadata} {image : Nat → Bytes} {p : Nat}
    (h : v.HoldsAt E image p) (hver : w.version p = v.version p)
    (hs : w.size.pageSize = v.size.pageSize) : w.HoldsAt E image p := by
  unfold HoldsAt at h ⊢
  rwa [hver, hs]

namespace PreparedSeal

variable {prepared : PreparedSeal} {image : Nat → Bytes}

theorem Shows.consistent_draft (h : prepared.Shows E image) : prepared.draft.Consistent E := by
  have hframes : prepared.draft.frames = prepared.base.frames := by rw [draft_eq]
  refine ⟨fun id location hl => h.consistent.keyed id location (hframes ▸ hl), fun p s hp => ?_⟩
  rw [pages_draft] at hp
  split at hp
  · cases hp
  · obtain ⟨version, hver, hpage⟩ := h.consistent.paged p s hp
    refine ⟨version, ?_, hpage⟩
    unfold ViewMetadata.versionOf at hver ⊢
    rwa [hframes]

theorem Shows.located_draft (h : prepared.Shows E image) : prepared.draft.FramesLocated E := by
  have hframes : prepared.draft.frames = prepared.base.frames := by rw [draft_eq]
  intro id location hl
  exact h.located id location (hframes ▸ hl)

theorem entitle_eq (prepared : PreparedSeal) (v : ViewMetadata) : ∃ parentSeal history,
    prepared.entitle E v = { v with parentSeal := parentSeal, history := history } := by
  unfold entitle
  split
  · exact ⟨_, _, rfl⟩
  · split
    · exact ⟨_, _, rfl⟩
    · exact ⟨v.parentSeal, v.history, rfl⟩

/-- **Installation keeps the image.** The installed manifest resolves to a view of the sealed
size and transaction that holds the image at every page up to that size. -/
theorem install_spec {C C' : Catalog} {durable : DurableView} (hC : C.Sound E)
    (hs : prepared.Shows E image) (h : prepared.install E C = .ok (C', durable)) :
    C'.Sound E ∧ C'.loadMetadata E durable.id = .ok durable.metadata ∧
    durable.metadata.view.Resolved E ∧
    durable.metadata.view.size = prepared.endpoint.size ∧
    durable.metadata.view.txid = prepared.endpoint.txid ∧
    ∀ p, p ≠ 0 → p ≤ prepared.endpoint.size.pages →
      durable.metadata.view.HoldsAt E image p := by
  obtain ⟨_, _, h⟩ := Except.bind_eq_ok.mp h
  obtain ⟨C₁, hdict, h⟩ := Except.bind_eq_ok.mp h
  obtain ⟨st, hpacks, h⟩ := Except.bind_eq_ok.mp h
  have hC₁ : C₁.Sound E := Except.foldlM_invariant (I := fun C : Catalog => C.Sound E)
    (fun _ _ _ _ hC hstep => hC.installDictionary hstep) hC hdict
  have hstart : Installing.Extends E []
      ⟨C₁, { prepared.draft with preferred := prepared.preferred }, []⟩
      ⟨C₁, { prepared.draft with preferred := prepared.preferred }, []⟩ :=
    ⟨hC₁, ⟨hs.consistent_draft.keyed, hs.consistent_draft.paged⟩, hs.located_draft,
      ViewMetadata.UpdatedBy.refl _, rfl, rfl, rfl, rfl⟩
  have hext := writePacks_spec hstart (fun f hf => (hs.frame f hf).encoded) hpacks
  -- The draft that is finalized: all frames inserted, unused ones dropped, lineage recorded.
  obtain ⟨parentSeal, history, hentitle⟩ := entitle_eq (E := E) prepared
    st.view.retainFrames
  generalize hview : prepared.entitle E st.view.retainFrames = view at h
  rw [hentitle] at hview
  have hcons : view.Consistent E := by
    rw [← hview]
    exact ⟨hext.consistent.retainFrames.keyed, hext.consistent.retainFrames.paged⟩
  have hloc : view.FramesLocated E := by
    intro id location hl
    rw [← hview] at hl
    exact hext.located id location (ViewMetadata.frames_of_retainFrames hl)
  have hsize : view.size = prepared.endpoint.size := by
    rw [← hview]
    refine hext.size.trans ?_
    show prepared.draft.size = _
    rw [draft_eq]
  have htxid : view.txid = prepared.endpoint.txid := by
    rw [← hview]
    refine hext.txid.trans ?_
    show prepared.draft.txid = _
    rw [draft_eq]
  have hhold : ∀ p, p ≠ 0 → p ≤ prepared.endpoint.size.pages → view.HoldsAt E image p := by
    intro p hp0 hp
    have hversion : view.version p = st.view.version p := by
      rw [← hview, ← ViewMetadata.version_retainFrames (v := st.view)]
      rfl
    have hps : view.size.pageSize = prepared.draft.size.pageSize := by
      rw [hsize, draft_eq]
    rcases hext.updated p with ⟨m, hm, version, hver, hpage, hw⟩ | ⟨hnot, hw⟩
    · obtain ⟨f, hf, rfl⟩ := List.mem_map.mp hm
      rw [ViewMetadata.HoldsAt, hversion, hw]
      exact ⟨hpage, (hs.frame f hf).version version hver⟩
    · refine (hs.rest p hp0 hp fun f hf => hnot f.metadata ?_).congr (hversion.trans hw) hps
      exact List.mem_map.mpr ⟨f, hf, rfl⟩
  have hfin : ∀ b : ManifestBuilder, b.metadata = view → b.finalize E st.catalog = .ok (C', durable) →
      C'.Sound E ∧ C'.loadMetadata E durable.id = .ok durable.metadata ∧
      durable.metadata.view.Resolved E ∧
      durable.metadata.view.contentRoot E = view.contentRoot E ∧
      durable.metadata.view.size = view.size ∧ durable.metadata.view.txid = view.txid := by
    intro b hb hb'
    obtain ⟨h₁, h₂, _, h₃, h₄, h₅, h₆, _⟩ :=
      ManifestBuilder.finalize_spec hext.sound (hb ▸ hloc) hb'
    rw [hb] at h₄ h₅ h₆
    exact ⟨h₁, h₂, h₃, h₄, h₅, h₆⟩
  obtain ⟨h₁, h₂, h₃, h₄, h₅, h₆⟩ := hfin _ (by dsimp only; split <;> rfl) h
  refine ⟨h₁, h₂, h₃, h₅.trans hsize, h₆.trans htxid, fun p hp0 hp => ?_⟩
  exact (hhold p hp0 hp).congr
    (ViewMetadata.version_eq_of_contentRoot h₃.toConsistent hcons h₄ p) (by rw [h₅])

end PreparedSeal

/-- A pin of a view that holds an image reads the image. -/
theorem PinnedView.readPage_of_holds {view : PinnedView} (hv : view.Served E)
    {image : Nat → Bytes} {p : Nat} (hp : p ≤ view.size.pages)
    (h : view.metadata.view.HoldsAt E image p) : view.readPage E p = .ok (image p) := by
  obtain ⟨b, hb⟩ := readPage_total hv hp
  obtain ⟨_, _, hnone, hsome⟩ := readPage_spec hv.resolved hb
  rw [hb]
  unfold ViewMetadata.HoldsAt at h
  cases hver : view.metadata.view.version p with
  | none =>
      rw [hver] at h
      rw [hnone hver, h]
      rfl
  | some version =>
      rw [hver] at h
      obtain ⟨hpage, hshow⟩ := h
      have := hsome version hver
      rw [PageVersion.Shows, hpage] at hshow
      rw [hpage] at this
      rw [E.hash.checksum_injective _ _ (this.trans hshow.symm)]

/-- Conversely a served view holds what it reads. -/
theorem PinnedView.holds_of_readPage {view : PinnedView} (hv : view.metadata.view.Resolved E)
    {image : Nat → Bytes} {p : Nat} (h : view.readPage E p = .ok (image p)) :
    view.metadata.view.HoldsAt E image p := by
  obtain ⟨_, _, hnone, hsome⟩ := readPage_spec hv h
  unfold ViewMetadata.HoldsAt
  cases hver : view.metadata.view.version p with
  | none => exact hnone hver
  | some version =>
      have hpage : version.page = p := by
        cases hp : view.metadata.view.pages[p]? with
        | none => simp [ViewMetadata.version, hp] at hver
        | some s =>
            obtain ⟨version', hs, hpage⟩ := hv.paged p s hp
            rw [ViewMetadata.version, hp, Option.bind_some, hs] at hver
            cases hver
            exact hpage
      refine ⟨hpage, ?_⟩
      rw [PageVersion.Shows, hpage]
      simpa [hpage] using hsome version hver

/-! ## New inputs -/

/-- A dictionary under its own name. -/
theorem getElem?_singleton_dictionary {dictionary : Option (Digest × Bytes)}
    (hnamed : ∀ d, dictionary = some d → E.hash.bytes d.2 = d.1) {id : Digest} {bytes : Bytes}
    (h : (dictionary.elim (∅ : Dictionaries) fun d => (∅ : Dictionaries).insert d.1 d.2)[id]? =
      some bytes) : E.hash.bytes bytes = id := by
  cases dictionary with
  | none => simp at h
  | some d =>
      rw [Option.elim_some, Std.ExtTreeMap.getElem?_insert] at h
      split at h
      · rename_i hid
        cases h
        exact (hnamed d rfl).trans (by simpa using hid)
      · simp at h

theorem SealInput.new_eq_ok {C : Catalog} (hC : C.Sound E) {source : Option PinnedView}
    {endpoint : SealEndpoint} {pages : List (Nat × Nat)} {file : Bytes} {layout : LayoutPolicy}
    {input : SealInput} (h : SealInput.new E C source endpoint pages file layout = .ok input) :
    input.endpoint = endpoint ∧ input.pages = pages ∧ input.file = file ∧ input.layout = layout ∧
      input.dictionaryUpdate = false ∧ input.sourcePrefix = false ∧ input.repack = none ∧
      input.source.map PinnedView.id = source.map PinnedView.id ∧
      (∀ v, input.source = some v → v.Genuine E) ∧
      ∀ (id : Digest) bytes, input.dictionaries[id]? = some bytes → E.hash.bytes bytes = id := by
  simp only [SealInput.new, Except.bind_eq_ok] at h
  obtain ⟨source', hsource, h⟩ := h
  cases h
  refine ⟨rfl, rfl, rfl, rfl, rfl, rfl, rfl, ?_⟩
  cases source with
  | none =>
      cases hsource
      refine ⟨rfl, by simp, fun id bytes hb => getElem?_singleton_dictionary (fun d hd => ?_) hb⟩
      obtain ⟨seed, -, rfl⟩ := Option.map_eq_some_iff.mp hd
      rfl
  | some view =>
      obtain ⟨view', hpin, hsource⟩ := Except.bind_eq_ok.mp hsource
      cases hsource
      obtain ⟨hid, hgen⟩ := Catalog.pin_genuine hC hpin
      refine ⟨by simp [hid], fun v hv => by cases hv; exact hgen,
        fun id bytes hb => getElem?_singleton_dictionary (fun d hd => ?_) hb⟩
      obtain ⟨name, -, hd⟩ := Option.bind_eq_some_iff.mp hd
      obtain ⟨b, hb, rfl⟩ := Option.map_eq_some_iff.mp hd
      exact hgen.served.named name b hb

end Zsqlite
