import Zsqlite.Store.Session

set_option autoImplicit false

/-! # The view of a seal

What a seal installs against what the store read before it, page by page: the size and the
transaction are those of the store, a page up to the size is read from the installed view as
`read_page` read it, and there is no page above the size. The records that are copied, the cut of an
earlier truncation and the base view below it make up one image, the committed one, and every phase
of the seal keeps that image (`Sealing`).
-/

namespace Zsqlite

open ByteVec Overlay Machine

section Pages

variable {E : Env} {w w' : World} {f : PageFile}

/-- With nothing pending a page read returns the committed page. -/
theorem World.Described.readPage_committed (h : w.Described E f) (hs : w.store.Settled)
    (hknown : w.store.head.pageSize ≠ 0) {p : Nat} (hp : p ≠ 0) :
    w.Returns (readPage E p) (w.store.committedPage E f p) := by
  rw [← hs.pendingPage h.records]
  exact h.toOpen.readPage_eq hknown hp

/-- Holding an image at a page is a matter of that page only. -/
theorem ViewMetadata.HoldsAt.of_page {v : ViewMetadata} {image image' : Nat → Bytes} {p : Nat}
    (h : v.HoldsAt E image p) (heq : image' p = image p) : v.HoldsAt E image' p := by
  unfold HoldsAt at h ⊢
  split at h
  · exact heq.trans h
  · obtain ⟨hpage, hshows⟩ := h
    refine ⟨hpage, ?_⟩
    unfold PageVersion.Shows at hshows ⊢
    rwa [hpage, heq, ← hpage]

/-- A pin of the manifest, in whatever catalog, reads the image that the loaded view holds. -/
theorem Catalog.readPage_of_load {C C₂ : Catalog} (hC : C.Sound E) {id : Digest}
    {metadata : ValidatedMetadata} (hload : C.loadMetadata E id = .ok metadata) (hC₂ : C₂.Sound E)
    {view : PinnedView} (hview : C₂.pin E id = .ok view) {image : Nat → Bytes} {p : Nat}
    (hp : p ≤ metadata.view.size.pages) (hholds : metadata.view.HoldsAt E image p) :
    view.readPage E p = .ok (image p) := by
  obtain ⟨m, -, hm, hresolves⟩ := Catalog.loadMetadata_spec hC hload
  obtain ⟨hid, hgenuine⟩ := Catalog.pin_genuine hC₂ hview
  obtain ⟨m', hm', hresolves'⟩ := hgenuine.manifest
  cases E.hash.manifest_injective (hm.trans (hid.symm.trans hm'.symm))
  have hagrees := hresolves'.agrees hresolves
  refine PinnedView.readPage_of_holds hgenuine.served ?_ (hholds.congr (hagrees.version p) ?_)
  · rw [PinnedView.size, hagrees.size]
    exact hp
  · rw [hagrees.size]

/-- **A seal keeps the pages.** Whatever the records, the truncation mark and the base, the view that
preparing and installing the seal gives has the store's size and transaction and no page above the
size. Pinned in any catalog, it reads every page up to the size as the store did before. -/
theorem seal_keeps_pages (h : w.Valid E f) (hpend : w.store.hasPending = false)
    (hsource : w.store.source = none) {work : SealWork}
    (hwork : prepareActiveWork E w = .ok (some work) w') (training paused : Bool)
    {prepared : PreparedSeal}
    (hprepared : { work.input with dictionaryTraining := training }.prepare E paused = .ok prepared)
    {C C' : Catalog} (hC : C.Sound E) {durable : DurableView}
    (hinstall : prepared.install E C = .ok (C', durable)) :
    C'.Sound E ∧ durable.metadata.view.size.get = w.store.head.logicalSize ∧
    durable.metadata.view.txid = w.store.head.txid ∧
    (∀ p, durable.metadata.view.size.pages < p → durable.metadata.view.pages[p]? = none) ∧
    ∀ p, p ≠ 0 → p ≤ durable.metadata.view.size.pages → ∃ bytes,
      w.Returns (readPage E p) bytes ∧
      durable.metadata.view.HoldsAt E (fun _ => bytes) p ∧
      ∀ (C₂ : Catalog) view, C₂.Sound E → C₂.pin E durable.id = .ok view → view.readPage E p = .ok bytes := by
  rcases h.prepareActiveWork hwork with ⟨-, hnone, -⟩ | ⟨_, hsome, hsame, h₁, -, hpend₁, hactive⟩
  · cases hnone
  cases hsome
  have hs₁ := h₁.settled (hpend₁.trans hpend)
  have hsource₁ := h.toOpen.source_eq_none h₁.toOpen hsource
  obtain ⟨-, hshows, -, hps, -, hsize, htxid⟩ := h₁.activeWork hs₁ hsource₁ hactive
  -- Training only picks the dictionary of the new frames.
  have htrained : { work.input with dictionaryTraining := training }.Shows E
      (w'.store.committedPage E f) := { hshows with }
  obtain ⟨hshows', hend, -, -⟩ := SealInput.prepare_spec htrained hprepared
  obtain ⟨hC', hload, hresolved, hsize', htxid', hholds⟩ :=
    PreparedSeal.install_spec hC hshows' hinstall
  have hps' : w.store.head.pageSize ≠ 0 := by
    rw [← hsame.pageSize, ← hps]
    exact Nat.ne_of_gt work.input.pageSize.pos
  refine ⟨hC', ?_, ?_, fun p hp => ?_, fun p hp hle => ⟨w.store.committedPage E f p, ?_, ?_, ?_⟩⟩
  · rw [hsize', hend]
    exact hsize.trans hsame.logicalSize
  · rw [htxid', hend]
    exact htxid.trans hsame.txid
  · cases hstored : durable.metadata.view.pages[p]? with
    | none => rfl
    | some stored => exact absurd (hresolved.bounded p stored hstored) (Nat.not_le.mpr hp)
  · exact h.toDescribed.readPage_committed (h.settled hpend) hps' hp
  · exact (hholds p hp (hsize' ▸ hle)).of_page (by rw [hsame.committed])
  · intro C₂ view hC₂ hview
    rw [← hsame.committed]
    exact Catalog.readPage_of_load hC' hload hC₂ hview hle (hholds p hp (hsize' ▸ hle))

/-- Seal what a script has committed and pin the result. -/
def sealing (E : Env) : StoreM (SealWork × PreparedSeal × Catalog × DurableView × PinnedView) := do
  match ← prepareActiveWork E with
  | none => throw .busy
  | some work =>
      let input := { work.input with dictionaryTraining := false }
      let prepared ← EStateM.liftExcept (input.prepare E false)
      let (C, durable) ← EStateM.liftExcept (prepared.install E (← get).disk.catalog)
      let view ← EStateM.liftExcept (C.pin E durable.id)
      return (work, prepared, C, durable, view)

/-- Codes as hashes, with a short one for `page`. -/
def Hashing.short (page : Bytes) : Hashing :=
  { Hashing.coded with
    bytes := fun b => Equiv.swap (pageCode page) 4 (pageCode b)
    checksum := fun _ _ b => Equiv.swap (pageCode page) 4 (pageCode b)
    bytes_injective := (Equiv.injective _).comp pageCode_injective
    checksum_injective := fun _ _ => (Equiv.injective _).comp pageCode_injective }

def Env.short (page : Bytes) : Env := { Env.coded with hash := Hashing.short page }

/-- A database of two pages, the second of them never written. -/
theorem seal_keeps_pages_extended : ∃ (w : World) (C : Catalog) (id : Digest) (view : PinnedView),
    (session (Env.short pageOne) .idle).Reach w ∧ w.store.hasPending = false ∧
    C.pin (Env.short pageOne) id = .ok view ∧ view.size.pages = 2 ∧
    ∀ p, p ≠ 0 → p ≤ 2 → ∃ bytes, w.Returns (readPage (Env.short pageOne) p) bytes ∧
      view.readPage (Env.short pageOne) p = .ok bytes := by
  have hrun : answer (Env.short pageOne) [.write 0 pageOne, .truncate 1024, .publish false] (do
      let s := (← get).store
      let (_, _, _, durable, view) ← sealing (Env.short pageOne)
      return (s.hasPending, s.source.isSome, durable.metadata.view.size.pages,
        view.size.pages)) = some (false, false, 2, 2) := by
    decide +kernel
  obtain ⟨w, _, hw, hrun⟩ := answer_eq_some.mp hrun
  have hreach := reach_script (by decide) hw
  obtain ⟨f, hvalid⟩ := session_valid hreach
  simp only [sealing, EStateM.bind_eq_ok] at hrun
  obtain ⟨_, _, hget, ⟨work', prepared, C, durable, view⟩, _, ⟨found, w₁, hwork, hrun⟩, hret⟩ := hrun
  cases hget
  injection hret with hvalue _
  simp only [Prod.mk.injEq] at hvalue
  obtain ⟨hpend, hsource, hpages, hviewed⟩ := hvalue
  cases found with
  | none => cases hrun
  | some work =>
      have hsound : w₁.disk.catalog.Sound (Env.short pageOne) := by
        rcases hvalid.prepareActiveWork hwork with ⟨-, hnone, -⟩ | ⟨_, -, -, h₁, -⟩
        · cases hnone
        · exact h₁.sound
      simp only [EStateM.bind_eq_ok, EStateM.liftExcept_eq_ok] at hrun
      obtain ⟨_, _, ⟨hprepared, rfl⟩, _, _, hget, ⟨C', durable'⟩, _, ⟨hinstall, rfl⟩, _, _,
        ⟨hpin, rfl⟩, hret⟩ := hrun
      cases hget
      cases hret
      obtain ⟨hC', -, -, -, hsame⟩ := seal_keeps_pages hvalid hpend (by simpa using hsource) hwork
        false false hprepared hsound hinstall
      refine ⟨w, C', durable'.id, view, hreach, hpend, hpin, hviewed, fun p hp hle => ?_⟩
      obtain ⟨bytes, hread, -, hreads⟩ := hsame p hp (hpages ▸ hle)
      exact ⟨bytes, hread, hreads C' view hC' hpin⟩

end Pages

end Zsqlite
