import Zsqlite.Store.Bootstrap

set_option autoImplicit false

/-! # The calls of a session on the two images

`Store.pendingImage` and `Store.committedImage` are what a session sees. This module restates what
the calls do in these terms, with and without a page size: a publication commits the pending
image, a rollback and a reopening show the committed one, the checkpoint calls and a refresh change
neither.
-/

namespace Zsqlite

open ByteVec Overlay

section Images

variable {E : Env} {w w' : World} {f f' : PageFile}

theorem World.SameImages.pendingImage (h : w.SameImages E f w' f') :
    w'.store.pendingImage E f' = w.store.pendingImage E f := by
  rw [Store.pendingImage, Store.pendingImage, h.pageSize, h.pending, h.pendingSize, h.bootstrap]

theorem World.SameImages.committedImage (h : w.SameImages E f w' f') :
    w'.store.committedImage E f' = w.store.committedImage E f := by
  rw [Store.committedImage, Store.committedImage, h.pageSize, h.committed, h.logicalSize]

theorem World.SameCommitted.committedImage (h : w.SameCommitted E f w' f') :
    w'.store.committedImage E f' = w.store.committedImage E f := by
  rw [Store.committedImage, Store.committedImage, h.pageSize, h.committed, h.logicalSize]

@[simp] theorem Store.length_pendingImage (s : Store) : (s.pendingImage E f).length = s.pendingSize := by
  unfold Store.pendingImage
  split <;> simp

/-- With nothing pending the two images are one. -/
theorem World.Described.image_of_settled (h : w.Described E f) (hs : w.store.Settled) :
    w.store.pendingImage E f = w.store.committedImage E f := by
  rw [Store.pendingImage, Store.committedImage]
  split
  · rename_i h₀
    rw [hs.bootstrap, hs.size, (h.unknown h₀).logicalSize]
    rfl
  · rw [hs.pendingPage h.records, hs.size]

end Images

section Calls

variable {E : Env} {w w' : World} {f : PageFile}

/-- A rollback shows the committed image. -/
theorem World.Valid.discard_images (h : w.Valid E f) :
    ∃ f', w.discardMutablePending.Valid E f' ∧
      w.discardMutablePending.store.pendingImage E f' = w.store.committedImage E f ∧
      w.discardMutablePending.store.committedImage E f' = w.store.committedImage E f ∧
      (f.Readable → f'.Readable) := by
  obtain ⟨f', h', hsame, hset, -⟩ := h.discardPending
  exact ⟨f', h', (h'.image_of_settled hset).trans hsame.committedImage, hsame.committedImage,
    hsame.readable⟩

/-- A store with nothing pending may give up its lock or hold it for something else. -/
theorem World.Valid.withPhase (h : w.Valid E f) (hs : w.store.hasPending = false)
    (phase : PublicationPhase) (hlock : phase ≠ .unlocked → w.store.publicationOwner ≠ .unlocked)
    (hidle : phase ≠ .maintenance) :
    (w.withPhase phase).Valid E f ∧ w.SameImages E f (w.withPhase phase) f :=
  ⟨⟨h.toDescribed.withPhase phase, fun hne => h.trimmed (hlock hne), fun _ => hs, hidle⟩,
    ⟨rfl, rfl, rfl, rfl, rfl, rfl, rfl, rfl, rfl, id⟩⟩

/-- Ending a publication with nothing pending. -/
theorem World.Valid.endPublication (h : w.Valid E f) (hs : w.store.hasPending = false)
    (retain : Bool) :
    (w.updateStore (Store.endPublication retain)).Valid E f ∧
      w.SameImages E f (w.updateStore (Store.endPublication retain)) f ∧
      (w.updateStore (Store.endPublication retain)).store.hasPending = false := by
  cases retain with
  | true => exact ⟨h, .refl w f, hs⟩
  | false =>
      have heq : w.updateStore (Store.endPublication false) = w.withPhase
          (if w.store.publicationOwner = .transaction then .unlocked
            else w.store.publicationOwner) := by
        simp only [World.updateStore, World.withPhase, Store.endPublication, Bool.false_eq_true,
          if_false, Store.releasePublication_eq]
      rw [heq]
      obtain ⟨h', hsame⟩ := h.withPhase hs (if w.store.publicationOwner = .transaction then .unlocked
        else w.store.publicationOwner) (by split <;> simp) (by
          split
          · simp
          · exact h.idle)
      exact ⟨h', hsame, hs⟩

/-- An empty database without a page size has nothing to publish. -/
theorem World.Valid.forget (h : w.Valid E f) (h₀ : w.store.head.pageSize = 0)
    (hempty : w.store.pendingSize = 0) :
    let w' := w.updateStore fun s => { s with pendingDirty := false, bootstrap := none }
    w'.Valid E f ∧ w'.store.Settled := by
  intro w'
  have hu := h.unknown h₀
  have hs : w'.store.Settled :=
    ⟨hu.raw, hu.originals, hu.mark, rfl, rfl, hempty.trans hu.logicalSize.symm⟩
  obtain ⟨state, hcur, hpub⟩ := h.current
  have hopen : w'.Open E f := ⟨h.file, { h.records with }, { h.based with }⟩
  exact ⟨⟨.of_settled hopen hs h.installed ⟨state, hcur, { hpub with }⟩ h.sound { h.anchored with }
    { h.fresh with } h.numbered h.zeroCommitted h.mark (fun _ => ⟨hu.logicalSize, hu.txid, hu.records⟩)
    (fun b hb => ⟨h.source b hb, h.converted b hb⟩), h.trimmed, fun _ => hs.hasPending, h.idle⟩, hs⟩

/-- **A publication** commits the pending image. -/
theorem World.Valid.publishInner (h : w.Valid E f) {durable retain : Bool}
    (hr : publishInner E durable retain w = .ok () w') :
    ∃ f', w'.Valid E f' ∧ w'.store.pendingImage E f' = w.store.pendingImage E f ∧
      w'.store.committedImage E f' = w.store.pendingImage E f ∧ w'.store.hasPending = false ∧
      (f.Readable → (f'.Readable ↔ w.store.head.pageSize ∣ w.store.pendingSize)) := by
  obtain ⟨_, _, hget, hr⟩ := EStateM.bind_eq_ok.mp hr
  cases hget
  split at hr
  · rename_i hs
    have himage := h.toDescribed.image_of_settled (h.settled hs)
    obtain ⟨_, w₁, hbegin, hr⟩ := EStateM.bind_eq_ok.mp hr
    cases hr
    obtain ⟨f₁, h₁, hsame, hs₁⟩ : ∃ f₁, w₁.Valid E f₁ ∧ w.SameImages E f w₁ f₁ ∧
        w₁.store.hasPending = false := by
      cases durable with
      | true =>
          obtain ⟨f₁, h₁, hsame, -, -, hs₁, -⟩ := h.beginWrite hbegin
          exact ⟨f₁, h₁, hsame, hs₁.trans hs⟩
      | false =>
          cases hbegin
          exact ⟨f, h, .refl w f, hs⟩
    obtain ⟨h₂, hsame', hs₂⟩ := h₁.endPublication hs₁ retain
    have := hsame.trans hsame'
    refine ⟨f₁, h₂, this.pendingImage, this.committedImage.trans himage.symm, hs₂, fun hread => ?_⟩
    rw [(h.settled hs).size]
    exact iff_of_true (this.readable hread) (h.dvd_logicalSize hread)
  · rename_i hpend
    have howner : w.store.publicationOwner ≠ .unlocked := fun h₀ => hpend (h.unlocked h₀)
    split at hr
    · rename_i h₀
      split at hr
      · rename_i hempty
        cases hr
        obtain ⟨h₁, hs₁⟩ := h.forget h₀ hempty
        obtain ⟨h₂, hsame, hs₂⟩ := h₁.endPublication hs₁.hasPending retain
        have himage : w.store.pendingImage E f = [] := by
          rw [Store.pendingImage_unsized h₀, hempty]
          simp [resize, zeros]
        have hcommitted := Store.committedImage_empty (E := E) (f := f) (h₁.unknown h₀).logicalSize
        refine ⟨f, h₂, ?_, ?_, hs₂, fun hread => iff_of_true hread (hempty ▸ Nat.dvd_zero _)⟩
        · exact hsame.pendingImage.trans (((h₁.image_of_settled hs₁).trans hcommitted).trans
            himage.symm)
        · exact hsame.committedImage.trans (hcommitted.trans himage.symm)
      · cases hr
    · rename_i hknown
      obtain ⟨f', h', hps, hsize, hcommitted, hset, hread⟩ := h.publishState hknown howner hr
      have himage : w'.store.committedImage E f' = w.store.pendingImage E f := by
        rw [Store.committedImage, hcommitted, hps, hsize, h.pendingImage_eq hknown]
      exact ⟨f', h', (h'.image_of_settled hset).trans himage, himage, hset.hasPending, hread⟩

/-- Reserving publication for a checkpoint changes no byte. -/
theorem World.Valid.beginCheckpoint (h : w.Valid E f)
    (hr : beginCheckpointPublication E w = .ok () w') :
    ∃ f', w'.Valid E f' ∧ w.SameImages E f w' f' := by
  obtain ⟨_, _, hget, hr⟩ := EStateM.bind_eq_ok.mp hr
  cases hget
  split at hr
  · cases hr
    exact ⟨f, h, .refl w f⟩
  · split at hr
    · cases hr
    · rename_i hfree
      obtain ⟨_, w₁, hbegin, hr⟩ := EStateM.bind_eq_ok.mp hr
      rw [StoreM.updateStore_apply] at hr
      cases hr
      obtain ⟨f₁, h₁, hsame, howner, -, hs₁, -⟩ := h.beginWrite hbegin
      have hs : w₁.store.hasPending = false := by
        rw [hs₁]
        simpa using (not_or.mp hfree).2
      have heq : w₁.updateStore (fun s => s.transition .checkpoint) = w₁.withPhase .checkpoint := by
        simp only [World.updateStore, World.withPhase, Store.transition_eq, if_neg howner]
      obtain ⟨h₂, hsame'⟩ := h₁.withPhase hs .checkpoint (fun _ => howner) (by simp)
      rw [heq]
      exact ⟨f₁, h₂, hsame.trans hsame'⟩

/-- Ending a checkpoint with nothing pending changes no byte. -/
theorem World.Valid.finishCheckpoint (h : w.Valid E f) (hs : w.store.hasPending = false) :
    (w.updateStore Store.endTransaction).Valid E f ∧
      w.SameImages E f (w.updateStore Store.endTransaction) f := by
  have heq : w.updateStore Store.endTransaction = w.withPhase .unlocked := by
    simp only [World.updateStore, World.withPhase, Store.endTransaction_eq, PublicationPhase.ended,
      if_neg h.idle]
  rw [heq]
  exact h.withPhase hs .unlocked (by simp) (by simp)

/-- A refresh of the only process on a database changes no byte. -/
theorem World.Described.refresh (h : w.Described E f) (hr : refresh E w = .ok () w') :
    w'.Described E f ∧ w.SameImages E f w' f ∧ w'.store.publicationOwner = w.store.publicationOwner ∧
      w'.store.hasPending = w.store.hasPending ∧
      w'.store.active.activeRecords = w.store.active.activeRecords := by
  obtain ⟨_, _, hget, hr⟩ := EStateM.bind_eq_ok.mp hr
  cases hget
  split at hr
  · cases hr
    exact ⟨h, .refl w f, rfl, rfl, rfl⟩
  · rename_i hs
    have hs : w.store.hasPending = false := by simpa using hs
    simp only [EStateM.bind_eq_ok, EStateM.liftExcept_eq_ok] at hr
    obtain ⟨_, _, ⟨-, rfl⟩, _, _, ⟨-, rfl⟩, hr⟩ := hr
    split at hr
    · obtain ⟨h₁, hsame, hset, howner, -, hrecords⟩ := h.reload hs hr
      exact ⟨h₁, hsame, howner, hset.hasPending.trans hs.symm, hrecords⟩
    · cases hr
      exact ⟨h, .refl w f, rfl, rfl, rfl⟩

theorem World.Valid.refresh (h : w.Valid E f) (hr : refresh E w = .ok () w') :
    w'.Valid E f ∧ w.SameImages E f w' f ∧ w'.store.hasPending = w.store.hasPending := by
  obtain ⟨h₁, hsame, howner, hs, hrecords⟩ := h.toDescribed.refresh hr
  refine ⟨⟨h₁, fun hne => ?_, fun hu => hs.trans (h.unlocked (howner ▸ hu)),
    by rw [howner]; exact h.idle⟩, hsame, hs⟩
  have := h.trimmed (howner ▸ hne)
  rwa [Store.Trimmed, hrecords]

/-- Dropping a store rolls its transaction back. -/
theorem World.Valid.drop (h : w.Valid E f) :
    ∃ f', w.drop.Valid E f' ∧ w.SameCommitted E f w.drop f' ∧ w.drop.store.hasPending = false := by
  unfold World.drop
  split
  · obtain ⟨f', h', hsame, hset, howner⟩ := h.discardPending
    obtain ⟨h₂, hsame'⟩ := h'.withPhase hset.hasPending .unlocked (by simp) (by simp)
    exact ⟨f', h₂, ⟨hsame'.pageSize.trans hsame.pageSize, hsame'.logicalSize.trans hsame.logicalSize,
      hsame'.committed.trans hsame.committed, hsame'.readable ∘ hsame.readable⟩, hset.hasPending⟩
  · rename_i hs
    have hs : w.store.hasPending = false := by simpa using hs
    obtain ⟨h₂, hsame⟩ := h.withPhase hs .unlocked (by simp) (by simp)
    exact ⟨f, h₂, ⟨hsame.pageSize, hsame.logicalSize, hsame.committed, hsame.readable⟩, hs⟩

/-- Opening the database again shows the committed image. -/
theorem World.Valid.reopen (h : w.Valid E f) {writable : Bool}
    (hr : reopen E writable w = .ok () w') :
    ∃ f', w'.Valid E f' ∧ w'.store.pendingImage E f' = w.store.committedImage E f ∧
      w'.store.committedImage E f' = w.store.committedImage E f ∧ (f.Readable → f'.Readable) := by
  simp only [Zsqlite.reopen, openMode, EStateM.bind_eq_ok, EStateM.liftExcept_eq_ok] at hr
  obtain ⟨_, _, hdrop, _, _, hget, _, _, ⟨-, rfl⟩, header, _, ⟨-, rfl⟩, _, _, hblank, hr⟩ := hr
  cases hdrop
  cases hget
  cases hblank
  obtain ⟨f', h₁, hsame, hs⟩ := h.drop
  obtain ⟨h₂, hsame', hset, howner, -, -⟩ := h₁.toDescribed.reload_from hs hr rfl
    (PageCache.Fits.empty _ _) (by simp [World.updateStore, Store.blank])
  have howner : w'.store.publicationOwner = .unlocked := howner
  have himage := (hsame'.committedImage).trans hsame.committedImage
  exact ⟨f', ⟨h₂, fun hne => absurd howner hne, fun _ => hset.hasPending, by simp [howner]⟩,
    (h₂.image_of_settled hset).trans himage, himage, hsame'.readable ∘ hsame.readable⟩

end Calls

end Zsqlite
