import Zsqlite.Delta

set_option autoImplicit false

/-! # Runs over other parents

A run names its parent by logical hash and transaction, and the lookup may answer with any
manifest of that endpoint: the chain the run was written over, a compacted checkpoint, a
repacked one. `MetadataRun.apply_unique` says that the choice does not show in what the view
stores: the content root of the run fixes the version of every page.
-/

namespace Zsqlite

variable {E : Env}

/-! ## What a view stores -/

/-- Two views of one endpoint: they store the same versions under the same identity. -/
structure ViewMetadata.SameContent (E : Env) (v w : ViewMetadata) : Prop where
  version : ∀ p, v.version p = w.version p
  size : v.size = w.size
  txid : v.txid = w.txid
  history : v.history = w.history
  parentSeal : v.parentSeal = w.parentSeal
  hash : v.logicalHash E = w.logicalHash E

/-- Served views of the same content answer every read alike. -/
theorem PinnedView.readPage_congr {view view' : PinnedView} (h : view.Served E)
    (h' : view'.Served E)
    (hc : ViewMetadata.SameContent E view.metadata.view view'.metadata.view) (p : Nat) :
    view.readPage E p = view'.readPage E p := by
  have hsize : view.size = view'.size := hc.size
  by_cases hp : p ≤ view.size.pages
  · obtain ⟨b, hb⟩ := readPage_total h hp
    obtain ⟨b', hb'⟩ := readPage_total h' (hsize ▸ hp)
    rw [hb, hb', readPage_unique h.resolved h'.resolved (congrArg _ hsize) (hc.version p) hb hb']
  · unfold readPage
    rw [if_pos (by omega), if_pos (by rw [← hsize]; omega)]

/-- **Parent substitution.** Whatever manifests of the parent's endpoint a run is loaded
through, it gives the same content. -/
theorem MetadataRun.apply_unique {C C₁ C₂ : Catalog} (hC : C.Sound E) (hC₁ : C₁.Sound E)
    (hC₂ : C₂.Sound E) {next : Digest} {seen : List Digest} {decoded total : Nat}
    {run : MetadataRun} (hrun : C.fetch E next seen decoded = .ok (.run run, total))
    {id₁ id₂ : Digest} {base₁ base₂ v₁ v₂ : ValidatedMetadata}
    (hbase₁ : C₁.loadMetadata E id₁ = .ok base₁) (hbase₂ : C₂.loadMetadata E id₂ = .ok base₂)
    (h₁ : run.apply E id₁ base₁ = .ok v₁) (h₂ : run.apply E id₂ base₂ = .ok v₂) :
    ViewMetadata.SameContent E v₁.view v₂.view ∧
    ∀ view₁ view₂ : PinnedView, view₁.metadata = v₁ → view₂.metadata = v₂ →
      view₁.Served E → view₂.Served E → ∀ p, view₁.readPage E p = view₂.readPage E p := by
  obtain ⟨_, m, hm, _, hrecord, _⟩ := Catalog.fetch_eq_ok.mp hrun
  obtain ⟨hpatch, _⟩ := ManifestRecord.fromSegment_run
    (hC.manifest _ _ (Catalog.readManifest_eq_ok hm).1) hrecord
  obtain ⟨_, _, _, hb₁⟩ := Catalog.loadMetadata_spec hC₁ hbase₁
  obtain ⟨_, _, _, hb₂⟩ := Catalog.loadMetadata_spec hC₂ hbase₂
  obtain ⟨hres₁, hroot₁, hsize₁, htxid₁, hhist₁, hseal₁, hdb₁, hlin₁, _⟩ :=
    MetadataRun.apply_spec h₁ hb₁.resolved hpatch
  obtain ⟨hres₂, hroot₂, hsize₂, htxid₂, hhist₂, hseal₂, hdb₂, hlin₂, _⟩ :=
    MetadataRun.apply_spec h₂ hb₂.resolved hpatch
  have hroot := hroot₁.trans hroot₂.symm
  have hc : ViewMetadata.SameContent E v₁.view v₂.view := {
    version := ViewMetadata.version_eq_of_contentRoot hres₁.toConsistent hres₂.toConsistent hroot
    size := hsize₁.trans hsize₂.symm
    txid := htxid₁.trans htxid₂.symm
    history := hhist₁.trans hhist₂.symm
    parentSeal := hseal₁.trans hseal₂.symm
    hash := by
      unfold ViewMetadata.logicalHash ViewMetadata.logicalHashFor
      rw [hroot, hsize₁, hsize₂, htxid₁, htxid₂, hhist₁, hhist₂, hseal₁, hseal₂, hdb₁, hdb₂,
        hlin₁, hlin₂] }
  refine ⟨hc, fun view₁ view₂ hv₁ hv₂ hs₁ hs₂ p => ?_⟩
  subst hv₁ hv₂
  exact PinnedView.readPage_congr hs₁ hs₂ hc p

/-! ## Installed manifests and their drafts -/

/-- Where a frame is stored. -/
def FrameLocation.place (l : FrameLocation) : Digest × Nat := (l.pack, l.offset)

namespace ViewMetadata

variable {v w : ViewMetadata}

end ViewMetadata

namespace ManifestBuilder

variable {b : ManifestBuilder} {C C' : Catalog} {durable : DurableView} {m : ManifestObject}

end ManifestBuilder

/-! ### A seal after a repack -/

/-- Three seals: the first and its repack, and for the last the catalog it found, its builder
and what it installed. -/
structure Resealed where
  sealed : DurableView
  repacked : DurableView
  catalog : Catalog
  builder : ManifestBuilder
  after : Catalog
  durable : DurableView

/-- Seal two pages in the pack `old`, repack them into the pack `new`, and seal again over the
repacked view after a commit to the first page. -/
def reseal (old new : Pack) : Except StoreError Resealed := do
  let (C, sealed) ← sealTwoPages old
  let st ← (PackWriter.mk new 0).finish Env.coded ⟨C, sealed.metadata.view, []⟩
  let b := (ManifestBuilder.new st.view (some sealed.metadata)).checkpoint
  let (C, repacked) ← { b with packs := b.packs ++ st.packs }.finalize Env.coded st.catalog
  let view := repacked.metadata.view
  let st ← (PackWriter.mk [filledFrame 1 2 8] 0).finish Env.coded ⟨C, { view with txid := 2 }, []⟩
  let draft := st.view.retainFrames.sealedLineage Env.coded (some (view.logicalHash Env.coded))
  let b := ManifestBuilder.new draft (some repacked.metadata)
  let b := { b with packs := b.packs ++ st.packs }
  let (C', durable) ← b.finalize Env.coded st.catalog
  return ⟨sealed, repacked, st.catalog, b, C', durable⟩

/-- Writing a pack of genuine frames and finishing a manifest over it keeps a catalog sound. -/
theorem finish_finalize {pack : Pack} (hpack : ∀ f ∈ pack, f.WellEncoded E) {C C' : Catalog}
    {v : ViewMetadata} {st : Installing} {b : ManifestBuilder} {durable : DurableView}
    (hC : C.Sound E) (hv : v.Consistent E) (hloc : v.FramesLocated E)
    (hst : (PackWriter.mk pack 0).finish E ⟨C, v, []⟩ = .ok st)
    (hb : st.view.FramesLocated E → b.metadata.FramesLocated E)
    (h : b.finalize E st.catalog = .ok (C', durable)) :
    st.catalog.Sound E ∧ b.metadata.FramesLocated E ∧ C'.Sound E ∧
      C'.loadMetadata E durable.id = .ok durable.metadata ∧ durable.metadata.view.Resolved E ∧
      durable.metadata.view.FramesLocated E := by
  have hext := PackWriter.finish_spec
    ⟨hC, hv, hloc, ViewMetadata.UpdatedBy.refl _, rfl, rfl, rfl, rfl⟩ hpack hst
  obtain ⟨hC', hload, _, hres, _⟩ := ManifestBuilder.finalize_spec hext.sound (hb hext.located) h
  obtain ⟨_, _, _, hto⟩ := Catalog.loadMetadata_spec hC' hload
  exact ⟨hext.sound, hb hext.located, hC', hload, hres, hto.located⟩

/-- What the three seals leave behind, for packs of genuine frames. -/
theorem reseal_spec {old new : Pack} (hold : ∀ f ∈ old, f.WellEncoded Env.coded)
    (hnew : ∀ f ∈ new, f.WellEncoded Env.coded) {r : Resealed} (h : reseal old new = .ok r) :
    r.catalog.Sound Env.coded ∧ r.builder.metadata.FramesLocated Env.coded ∧
    r.builder.parent = some r.repacked.metadata ∧
    r.repacked.metadata.view.Resolved Env.coded ∧
    r.builder.finalize Env.coded r.catalog = .ok (r.after, r.durable) ∧
    r.after.Sound Env.coded := by
  have hempty : Catalog.empty.Sound Env.coded := ⟨by simp [Catalog.empty], by simp [Catalog.empty]⟩
  simp only [reseal, sealTwoPages, Except.bind_eq_ok] at h
  obtain ⟨⟨C₁, sealed⟩, ⟨st₁, hst₁, hb₁⟩, st₂, hst₂, ⟨C₂, repacked⟩, hb₂, st₃, hst₃,
    ⟨C₃, durable⟩, hb₃, h⟩ := h
  cases h
  obtain ⟨_, _, hC₁, _, hres₁, hloc₁⟩ := finish_finalize hold hempty
    ⟨by simp [ViewMetadata.empty], by simp [ViewMetadata.empty]⟩
    (by simp [ViewMetadata.FramesLocated, ViewMetadata.empty]) hst₁ (fun h => h) hb₁
  obtain ⟨_, _, hC₂, _, hres₂, hloc₂⟩ :=
    finish_finalize hnew hC₁ hres₁.toConsistent hloc₁ hst₂ (fun h => h) hb₂
  obtain ⟨hC, hloc, hC₃, _⟩ := finish_finalize
    (fun f hf => by cases List.mem_singleton.mp hf; exact filledFrame_wellEncoded 1 2 8)
    hC₂ (v := { repacked.metadata.view with txid := 2 })
    ⟨hres₂.keyed, hres₂.paged⟩ hloc₂ hst₃
    (fun h id location hl => h id location (ViewMetadata.frames_of_retainFrames hl)) hb₃
  exact ⟨hC, hloc, rfl, hres₂, hb₃, hC₃⟩

section Layouts

/-- The frames of two pages in two orders. -/
def forward : Pack := [filledFrame 1 1 7, filledFrame 2 1 9]

def backward : Pack := [filledFrame 2 1 9, filledFrame 1 1 7]

theorem forward_wellEncoded : ∀ f ∈ forward, f.WellEncoded Env.coded := by
  simp [forward, filledFrame_wellEncoded]

theorem backward_wellEncoded : ∀ f ∈ backward, f.WellEncoded Env.coded := by
  simp [backward, filledFrame_wellEncoded]

theorem MetadataRun.apply_unique_two_layouts :
    ∃ (C : Catalog) (next id₁ id₂ : Digest) (total : Nat) (run : MetadataRun)
      (base₁ base₂ v₁ v₂ : ValidatedMetadata),
      C.fetch Env.coded next [] 0 = .ok (.run run, total) ∧
      C.loadMetadata Env.coded id₁ = .ok base₁ ∧ C.loadMetadata Env.coded id₂ = .ok base₂ ∧
      base₁.view.packs ≠ base₂.view.packs ∧
      run.apply Env.coded id₁ base₁ = .ok v₁ ∧ run.apply Env.coded id₂ base₂ = .ok v₂ ∧
      ViewMetadata.SameContent Env.coded v₁.view v₂.view := by
  have h : ((reseal forward backward).toOption.any fun r =>
      (r.after.loadMetadata Env.coded r.sealed.id).toOption.any fun base₁ =>
      (r.after.loadMetadata Env.coded r.repacked.id).toOption.any fun base₂ =>
      (r.after.fetch Env.coded r.durable.id [] 0).toOption.any fun fetched =>
      fetched.1.anyRun fun run => decide (base₁.view.packs ≠ base₂.view.packs) &&
          ((run.apply Env.coded r.sealed.id base₁).toOption.any fun _ => true) &&
          (run.apply Env.coded r.repacked.id base₂).toOption.any fun _ => true) = true := by
    decide +kernel
  obtain ⟨r, hr, h⟩ := Except.exists_of_any h
  obtain ⟨_, _, _, _, _, hC⟩ := reseal_spec forward_wellEncoded backward_wellEncoded hr
  obtain ⟨base₁, hbase₁, h⟩ := Except.exists_of_any h
  obtain ⟨base₂, hbase₂, h⟩ := Except.exists_of_any h
  obtain ⟨⟨record, total⟩, hfetch, h⟩ := Except.exists_of_any h
  cases record with
  | checkpoint view => cases h
  | run run =>
      dsimp only [ManifestRecord.anyRun] at h
      rw [Bool.and_eq_true, Bool.and_eq_true, decide_eq_true_eq] at h
      obtain ⟨⟨hne, h₁⟩, h₂⟩ := h
      obtain ⟨v₁, h₁, -⟩ := Except.exists_of_any h₁
      obtain ⟨v₂, h₂, -⟩ := Except.exists_of_any h₂
      exact ⟨_, _, _, _, total, run, base₁, base₂, v₁, v₂, hfetch, hbase₁, hbase₂, hne, h₁, h₂,
        (MetadataRun.apply_unique hC hC hC hfetch hbase₁ hbase₂ h₁ h₂).1⟩

end Layouts

end Zsqlite
