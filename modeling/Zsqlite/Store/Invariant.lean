import Zsqlite.Store.Reload
import Zsqlite.SealImage

set_option autoImplicit false

/-! # The invariant of a store between calls

`World.Valid` is what holds of the only process on a database between two calls: the store is open
on the file at the path and describes its newest state sector, nothing is pending without the
lock, and both images are zero past their sizes. Every call that returns keeps it and changes the
two images as it should; this module has the calls of a transaction.
-/

namespace Zsqlite

open ByteVec Overlay

/-- The image has only zeros from byte `n` on. -/
def ZeroFrom (ps : Nat) (page : Nat → Bytes) (n : Nat) : Prop := ∀ i, n ≤ i → pageByte ps page i = 0

/-- A store without a page size has nothing but the bytes of its bootstrap file. -/
structure Store.Unsized (s : Store) : Prop where
  logicalSize : s.head.logicalSize = 0
  txid : s.head.txid = 0
  records : s.active.activeRecords = ∅
  raw : s.pendingRawPages = ∅
  originals : s.pendingRawOriginals = ∅
  mark : s.pendingTruncatePages = none
  bootstrap : (s.bootstrap.getD []).length ≤ s.pendingSize

/-- The transaction the base of the active file ends with; a native base is the first. -/
def Store.baseTxid (s : Store) : Nat :=
  if s.active.header.sourceBytes = 0 then s.active.header.startTxid - 1 else 1

/-- Before its first commit an active file has no record. -/
structure Store.Fresh (s : Store) : Prop where
  sourced : s.active.header.sourceBytes ≠ 0 → s.head.txid ≠ 0
  empty : s.head.txid ≤ s.baseTxid →
    s.head.activeCommitEnd = activeMetadataEnd ∧ s.active.truncatePages = none

/-- Page `page` of a native base. -/
def sourcePage (pageSize : Nat) (source : Bytes) (page : Nat) : Bytes :=
  window source ((page - 1) * pageSize) pageSize

/-- Every view at the endpoint of the conversion root holds the pages of the native base. -/
def Catalog.Converts (E : Env) (C : Catalog) (pageSize : Nat) (source : Bytes) : Prop :=
  ∀ pin, C.conversion = some pin → ∀ v : PinnedView, v.Genuine E →
    v.metadata.view.logicalHash E = pin.hash → ∀ p, p ≠ 0 → p ≤ v.size.pages →
      v.metadata.view.HoldsAt E (sourcePage pageSize source) p

/-- The store describes the file `f` at the path and its newest state, in whatever phase. -/
structure World.Described (E : Env) (w : World) (f : PageFile) : Prop
    extends World.Open E w f where
  installed : w.store.active.file = w.disk.installed
  current : ∃ state, f.Current state ∧ w.store.Published state
  sound : w.disk.catalog.Sound E
  anchored : w.store.Anchored
  fresh : w.store.Fresh
  settled : w.store.hasPending = false → w.store.Settled
  zeroPending : ZeroFrom w.store.head.pageSize (w.store.pendingPage E f) w.store.pendingSize
  zeroCommitted : ZeroFrom w.store.head.pageSize (w.store.committedPage E f) w.store.head.logicalSize
  numbered : ∀ p : Nat, w.store.active.activeRecords[p]? ≠ none → p ≠ 0 ∧ p ≠ u32Max
  /-- Truncation marks are not above the sizes. -/
  mark : ∀ k, w.store.active.truncatePages = some k →
    k * w.store.head.pageSize ≤ w.store.head.logicalSize
  pendingMark : ∀ k, lower w.store.active.truncatePages w.store.pendingTruncatePages = some k →
    k * w.store.head.pageSize ≤ w.store.pendingSize
  unknown : w.store.head.pageSize = 0 → w.store.Unsized
  known : w.store.head.pageSize ≠ 0 → w.store.bootstrap = none
  source : ∀ b, w.store.source = some b → w.disk.source = some b
  converted : ∀ b, w.store.source = some b →
    w.disk.catalog.Converts E w.store.head.pageSize b

/-- A store between calls, on the file `f`. -/
structure World.Valid (E : Env) (w : World) (f : PageFile) : Prop
    extends World.Described E w f where
  /-- Nothing lies behind the records while the lock is held. -/
  trimmed : w.store.publicationOwner ≠ .unlocked → w.store.Trimmed f
  unlocked : w.store.publicationOwner = .unlocked → w.store.hasPending = false
  idle : w.store.publicationOwner ≠ .maintenance

/-- The two images are the same. -/
structure World.SameImages (E : Env) (w : World) (f : PageFile) (w' : World) (f' : PageFile) :
    Prop where
  pageSize : w'.store.head.pageSize = w.store.head.pageSize
  pendingSize : w'.store.pendingSize = w.store.pendingSize
  logicalSize : w'.store.head.logicalSize = w.store.head.logicalSize
  txid : w'.store.head.txid = w.store.head.txid
  pending : w'.store.pendingPage E f' = w.store.pendingPage E f
  committed : w'.store.committedPage E f' = w.store.committedPage E f
  mark : w'.store.pendingTruncatePages = w.store.pendingTruncatePages
  bootstrap : w'.store.bootstrap = w.store.bootstrap
  source : w'.store.source = w.store.source
  readable : f.Readable → f'.Readable

/-- The committed image is the same. -/
structure World.SameCommitted (E : Env) (w : World) (f : PageFile) (w' : World) (f' : PageFile) :
    Prop where
  pageSize : w'.store.head.pageSize = w.store.head.pageSize
  logicalSize : w'.store.head.logicalSize = w.store.head.logicalSize
  committed : w'.store.committedPage E f' = w.store.committedPage E f
  readable : f.Readable → f'.Readable

section Invariant

variable {E : Env} {w w' w'' : World} {f f' f'' : PageFile}

theorem World.SameImages.refl (w : World) (f : PageFile) : w.SameImages E f w f :=
  ⟨rfl, rfl, rfl, rfl, rfl, rfl, rfl, rfl, rfl, id⟩

theorem World.SameImages.trans (h : w.SameImages E f w' f') (h' : w'.SameImages E f' w'' f'') :
    w.SameImages E f w'' f'' :=
  ⟨h'.pageSize.trans h.pageSize, h'.pendingSize.trans h.pendingSize,
    h'.logicalSize.trans h.logicalSize, h'.txid.trans h.txid, h'.pending.trans h.pending,
    h'.committed.trans h.committed, h'.mark.trans h.mark, h'.bootstrap.trans h.bootstrap,
    h'.source.trans h.source, h'.readable ∘ h.readable⟩

theorem Store.hasPending_eq_false {s : Store} : s.hasPending = false ↔
    s.pendingDirty = false ∧ s.pendingRawPages = ∅ ∧ s.pendingRawOriginals = ∅ ∧
      s.bootstrap = none := by
  simp [Store.hasPending, and_assoc]

theorem Store.Settled.hasPending {s : Store} (h : s.Settled) : s.hasPending = false :=
  Store.hasPending_eq_false.mpr ⟨h.dirty, h.raw, h.originals, h.bootstrap⟩

theorem Store.Settled.unsized {s : Store} (h : s.Settled)
    (h₀ : s.head.logicalSize = 0 ∧ s.head.txid = 0 ∧ s.active.activeRecords = ∅) : s.Unsized :=
  ⟨h₀.1, h₀.2.1, h₀.2.2, h.raw, h.originals, h.mark, by simp [h.bootstrap]⟩

/-- With nothing pending the two images are one. -/
theorem Store.Settled.pendingPage {s : Store} (h : s.Settled) (hrec : s.Records f) :
    s.pendingPage E f = s.committedPage E f := by
  refine pending_eq_committed h.mark ?_
  funext p
  exact (hrec.coherent E).untouched p (by simp [Store.overlay, h.raw])

/-- With nothing pending the committed image is all there is to describe. -/
theorem World.Described.of_settled (hopen : w.Open E f) (hs : w.store.Settled)
    (installed : w.store.active.file = w.disk.installed)
    (current : ∃ state, f.Current state ∧ w.store.Published state)
    (sound : w.disk.catalog.Sound E) (anchored : w.store.Anchored) (fresh : w.store.Fresh)
    (numbered : ∀ p : Nat, w.store.active.activeRecords[p]? ≠ none → p ≠ 0 ∧ p ≠ u32Max)
    (zero : ZeroFrom w.store.head.pageSize (w.store.committedPage E f) w.store.head.logicalSize)
    (mark : ∀ k, w.store.active.truncatePages = some k →
      k * w.store.head.pageSize ≤ w.store.head.logicalSize)
    (empty : w.store.head.pageSize = 0 → w.store.head.logicalSize = 0 ∧ w.store.head.txid = 0 ∧
      w.store.active.activeRecords = ∅)
    (source : ∀ b, w.store.source = some b → w.disk.source = some b ∧
      w.disk.catalog.Converts E w.store.head.pageSize b) : w.Described E f where
  toOpen := hopen
  installed := installed
  current := current
  sound := sound
  anchored := anchored
  fresh := fresh
  settled := fun _ => hs
  zeroPending := by rwa [hs.pendingPage hopen.records, hs.size]
  zeroCommitted := zero
  numbered := numbered
  mark := mark
  pendingMark := by rwa [hs.mark, lower_none, hs.size]
  unknown := fun h₀ => hs.unsized (empty h₀)
  known := fun _ => hs.bootstrap
  source := fun b hb => (source b hb).1
  converted := fun b hb => (source b hb).2

/-- The committed size is aligned when the states of the file can be read. -/
theorem World.Described.dvd_logicalSize (h : w.Described E f) (hread : f.Readable) :
    w.store.head.pageSize ∣ w.store.head.logicalSize := by
  obtain ⟨state, hcur, hpub⟩ := h.current
  obtain ⟨hvalid, -⟩ := readActiveState_valid (hcur.read hread)
  simp only [ActiveState.valid, Bool.and_eq_true, hpub.pageSize, hpub.logicalSize] at hvalid
  by_cases h₀ : w.store.head.pageSize = 0
  · rw [(h.unknown h₀).logicalSize]
    exact Nat.dvd_zero _
  · have := hvalid.1.2
    simp only [beq_eq_false_iff_ne.mpr h₀, Bool.false_or, Bool.and_eq_true, decide_eq_true_eq] at this
    exact this.2

/-- A commit comes after the base. -/
theorem World.Described.baseTxid_le (h : w.Described E f) : w.store.baseTxid ≤ w.store.head.txid := by
  unfold Store.baseTxid
  split
  · have hstart : (sealedEnd w.store.view).2.1 + 1 = w.store.active.header.startTxid :=
      (checkedAdd_eq_ok.mp h.anchored.start).2.symm
    have := h.anchored.txid
    omega
  · rename_i hne
    exact Nat.one_le_iff_ne_zero.mpr (h.fresh.sourced hne)

theorem World.Described.withPhase (h : w.Described E f) (phase : PublicationPhase) :
    (w.withPhase phase).Described E f :=
  { h.toOpen.withPhase phase, h with
    toOpen := h.toOpen.withPhase phase
    fresh := { h.fresh with }
    anchored := ⟨h.anchored.database, h.anchored.start, h.anchored.baseHistory, h.anchored.baseSize,
      h.anchored.history, h.anchored.txid, h.anchored.size⟩
    current := by
      obtain ⟨state, hc, hp⟩ := h.current
      exact ⟨state, hc, { hp with }⟩
    settled := fun hs => { h.settled hs with }
    unknown := fun h₀ => { h.unknown h₀ with } }

/-! ## Reloading and trimming -/

/-- **A reload with nothing pending** changes no byte, whichever store it starts from. -/
theorem World.Described.reload_from (h : w.Described E f) (hs : w.store.hasPending = false)
    {w₀ : World} (hr : reload E w₀ = .ok () w') (hdisk₀ : w₀.disk = w.disk)
    (hcache : w₀.store.pageCache.Fits w₀.store.view)
    (hgenuine : ∀ v, w₀.store.view = some v → v.Genuine E) :
    w'.Described E f ∧ w.SameImages E f w' f ∧ w'.store.Settled ∧
      w'.store.publicationOwner = w₀.store.publicationOwner ∧
      w'.store.writable = w₀.store.writable ∧
      w'.store.active.activeRecords = w.store.active.activeRecords := by
  have hsettled := h.settled hs
  obtain ⟨state, hcur, hpub⟩ := h.current
  have hsized : f.Sized := fun r hr => (h.records.payload r hr).trans h.records.fileSize.symm
  obtain ⟨state', hstate, -, hre⟩ := reload_spec (hdisk₀ ▸ h.sound)
    (hdisk₀ ▸ h.installed ▸ h.file) hsized hcache hgenuine hr
  cases hcur.readActiveState hstate
  have hpub' := hre.published
  -- the header decides whether there is a source
  have hsource : w.store.source = w'.store.source := by
    have hbytes : w.store.active.header.sourceBytes = w'.store.active.header.sourceBytes := by
      rw [← h.records.header, ← hre.opened.records.header]
    cases hw : w.store.source with
    | none =>
        cases hw' : w'.store.source with
        | none => rfl
        | some b =>
            obtain ⟨hlen, hne⟩ := hre.opened.based.source b hw'
            rw [← hbytes, h.based.sourceless hw] at hlen
            exact absurd (List.length_eq_zero_iff.mp hlen) hne
    | some b =>
        cases hw' : w'.store.source with
        | none =>
            obtain ⟨hlen, hne⟩ := h.based.source b hw
            rw [hbytes, hre.opened.based.sourceless hw'] at hlen
            exact absurd (List.length_eq_zero_iff.mp hlen) hne
        | some b' =>
            have := (h.source b hw).symm.trans (hdisk₀ ▸ hre.source b' hw')
            rw [Option.some.inj this]
  have hover := h.toOpen.overlay_eq_of_settled hre.opened hsettled hre.settled hpub hpub' hsource
  have hrecords := h.toOpen.activeRecords_eq_of_settled hre.opened hsettled hre.settled hpub hpub'
  have hps : w'.store.head.pageSize = w.store.head.pageSize :=
    hpub'.pageSize.symm.trans hpub.pageSize
  have hsize : w'.store.head.logicalSize = w.store.head.logicalSize :=
    hpub'.logicalSize.symm.trans hpub.logicalSize
  have hsame : w.SameImages E f w' f := by
    refine ⟨hps, ?_, hsize, hpub'.txid.symm.trans hpub.txid, ?_, ?_, ?_, ?_, hsource.symm, id⟩
    · rw [hre.settled.size, hsettled.size, hsize]
    · rw [Store.pendingPage, Store.pendingPage, hover, hps]
    · rw [Store.committedPage, Store.committedPage, hover, hps]
    · rw [hre.settled.mark, hsettled.mark]
    · rw [hre.settled.bootstrap, hsettled.bootstrap]
  obtain ⟨C, source, hdisk, hobjects, hkeep⟩ := hre.disk
  rw [hdisk₀] at hdisk hobjects hkeep
  have hcut : w'.store.active.truncatePages = w.store.active.truncatePages :=
    hpub'.truncatePages.symm.trans hpub.truncatePages
  refine ⟨.of_settled hre.opened hre.settled ?_ ⟨_, hcur, hpub'⟩ ?_ hre.anchored ?_ ?_ ?_ ?_ ?_ ?_, hsame,
    hre.settled, hre.owner, hre.writable, hrecords.symm⟩
  · rw [hre.file, hdisk, hdisk₀]
  · rw [hdisk]
    exact hobjects.sound h.sound
  · have hheader : w'.store.active.header = w.store.active.header :=
      hre.opened.records.header.symm.trans h.records.header
    have htxid : w'.store.head.txid = w.store.head.txid := hpub'.txid.symm.trans hpub.txid
    have hend : w'.store.head.activeCommitEnd = w.store.head.activeCommitEnd := by
      rw [hpub'.recordCount, hpub.recordCount, hps]
    constructor
    · rw [hheader, htxid]
      exact h.fresh.sourced
    · rw [Store.baseTxid, hheader, htxid, hend, hcut]
      exact h.fresh.empty
  · rw [← hrecords]
    exact h.numbered
  · rw [hps, hsame.committed, hsize]
    exact h.zeroCommitted
  · rw [hcut, hps, hsize]
    exact h.mark
  · intro h₀
    have hu := h.unknown (hps ▸ h₀)
    exact ⟨hsize.trans hu.logicalSize, hsame.txid.trans hu.txid, hrecords.symm.trans hu.records⟩
  · intro b hb
    obtain ⟨hlen, hne⟩ := hre.opened.based.source b hb
    have hne' : f.header.sourceBytes ≠ 0 := by
      rw [hre.opened.records.header, ← hlen]
      exact fun h₀ => hne (List.length_eq_zero_iff.mp h₀)
    rw [hdisk]
    refine ⟨(hkeep hne').1.trans (hdisk₀ ▸ hre.source b hb), fun pin hpin => ?_⟩
    rw [hps]
    exact h.converted b (hsource.trans hb) pin ((hkeep hne').2.symm.trans hpin)

/-- A reload in place. -/
theorem World.Described.reload (h : w.Described E f) (hs : w.store.hasPending = false)
    (hr : reload E w = .ok () w') :
    w'.Described E f ∧ w.SameImages E f w' f ∧ w'.store.Settled ∧
      w'.store.publicationOwner = w.store.publicationOwner ∧
      w'.store.writable = w.store.writable ∧
      w'.store.active.activeRecords = w.store.active.activeRecords :=
  h.reload_from hs hr rfl h.based.cache h.based.genuine

/-- Cutting off the slots behind the records leaves the layers alone. -/
theorem Store.Records.take_live {s : Store} (h : s.Records f) :
    s.Records { f with slots := s.liveSlots f } ∧
      s.overlay E { f with slots := s.liveSlots f } = s.overlay E f := by
  have hread : ∀ q offset : Nat, s.active.activeRecords[q]? = some offset →
      ({ f with slots := s.liveSlots f } : PageFile).readPayload offset = f.readPayload offset := by
    intro q offset hq
    obtain ⟨i, r, hr, -, rfl, hi⟩ := h.slot hq
    simp [PageFile.readPayload, h.fileSize, Store.liveSlots, hi]
  refine ⟨{ h with
    live := ?_
    indexed := ?_
    payload := fun r hr => h.payload r (List.mem_of_mem_take hr) }, ?_⟩
  · simp only [Store.liveSlots, List.length_take]
    exact Nat.le_min.mpr ⟨Nat.le_refl _, h.live⟩
  · simp only [Store.liveSlots, List.take_take, Nat.min_self]
    exact h.indexed
  · apply Overlay.ext
    · rfl
    · funext q
      show (s.committedRecord q).bind _ = (s.committedRecord q).bind _
      cases hq : s.committedRecord q with
      | none => rfl
      | some offset => simp [hread q offset (committedRecord_eq_some.mp hq).1]
    · rfl
    · funext q
      show s.active.activeRecords[q]?.bind _ = s.active.activeRecords[q]?.bind _
      cases hq : s.active.activeRecords[q]? with
      | none => rfl
      | some offset => simp [hread q offset hq]
    · rfl
    · rfl

/-- The file may lose slots behind the records. -/
theorem World.Described.trimmed (h : w.Described E f)
    (hw : w' = w.setActiveFile { f with slots := w.store.liveSlots f }) :
    w'.Described E { f with slots := w.store.liveSlots f } ∧
      w.SameImages E f w' { f with slots := w.store.liveSlots f } ∧
      w'.store.Trimmed { f with slots := w.store.liveSlots f } := by
  subst hw
  obtain ⟨hrec, hover⟩ := h.records.take_live (E := E)
  have hpending : w.store.pendingPage E { f with slots := w.store.liveSlots f } =
      w.store.pendingPage E f := by
    rw [Store.pendingPage, Store.pendingPage, hover]
  have hcommitted : w.store.committedPage E { f with slots := w.store.liveSlots f } =
      w.store.committedPage E f := by
    rw [Store.committedPage, Store.committedPage, hover]
  refine ⟨{ h with
    file := by simp [World.setActiveFile]
    records := hrec
    current := ?_
    zeroPending := ?_
    zeroCommitted := ?_ }, ⟨rfl, rfl, rfl, rfl, hpending, hcommitted, rfl, rfl, rfl, id⟩, ?_⟩
  · obtain ⟨state, hc, hp⟩ := h.current
    exact ⟨state, ⟨hc.here, hc.older⟩, hp⟩
  · exact hpending ▸ h.zeroPending
  · exact hcommitted ▸ h.zeroCommitted
  · have := h.records.live
    simp only [Store.Trimmed, Store.liveSlots, List.length_take, World.setActiveFile]
    omega

theorem World.Described.trimActive (h : w.Described E f) (hs : w.store.hasPending = false)
    (hr : trimActive w = .ok () w') :
    ∃ f', w'.Described E f' ∧ w.SameImages E f w' f' ∧ w'.store.Trimmed f' ∧
      w'.store = w.store := by
  simp only [Zsqlite.trimActive, EStateM.bind_eq_ok, StoreM.ofExcept_eq_ok] at hr
  obtain ⟨file, _, ⟨hfile, rfl⟩, _, _, hget, hr⟩ := hr
  cases hget
  cases h.activeFile.symm.trans hfile
  obtain ⟨n, hn, hend⟩ := h.records.committedEnd
  have hsize : w.store.active.activeRecords.size = n := by
    have := (h.records.indexed_of_settled (h.settled hs) hend).size_eq
    rw [List.length_take] at this
    omega
  have hlive := h.records.live
  split at hr
  · obtain ⟨file, hfile, rfl⟩ := StoreM.onActiveFile_eq_ok.mp hr
    cases h.activeFile.symm.trans hfile
    have hcut : f.setLen w.store.head.activeCommitEnd =
        { f with slots := w.store.liveSlots f } := by
      rw [hend, ← h.records.fileSize, PageFile.setLen_recordOffset _ (by omega), Store.liveSlots,
        hsize]
    obtain ⟨h₁, h₂, h₃⟩ := h.trimmed rfl
    exact ⟨_, hcut ▸ h₁, hcut ▸ h₂, hcut ▸ h₃, rfl⟩
  · rename_i hlen
    cases hr
    refine ⟨f, h, .refl w f, ?_, rfl⟩
    rw [hend, PageFile.len, h.records.fileSize, recordOffset_lt] at hlen
    rw [Store.Trimmed]
    omega

/-- **Entering a transaction** changes no byte. -/
theorem World.Valid.beginWrite (h : w.Valid E f) (hr : beginWrite E w = .ok () w') :
    ∃ f', w'.Valid E f' ∧ w.SameImages E f w' f' ∧ w'.store.publicationOwner ≠ .unlocked ∧
      w'.store.writable = true ∧ w'.store.hasPending = w.store.hasPending ∧
      w'.store.active.activeRecords = w.store.active.activeRecords := by
  obtain ⟨_, _, hget, hr⟩ := EStateM.bind_eq_ok.mp hr
  cases hget
  split at hr
  · cases hr
  · rename_i hwr
    split at hr
    · rename_i howner
      cases hr
      exact ⟨f, h, .refl w f, howner, by simpa using hwr, rfl, rfl⟩
    · rename_i howner
      split at hr
      · cases hr
      · have hs := h.unlocked (by simpa using howner)
        obtain ⟨_, _, hphase, hr⟩ := EStateM.bind_eq_ok.mp hr
        cases hphase
        obtain ⟨w₁, hrun, hw⟩ := EStateM.finish_eq_ok.mp hr
        have hw : w₁ = w' := hw.symm
        subst hw
        obtain ⟨_, w₂, hreload, htrim⟩ := EStateM.bind_eq_ok.mp hrun
        obtain ⟨h₂, hsame, hset, howner₂, hwr₂, hrec₂⟩ :=
          (h.toDescribed.withPhase .transaction).reload hs hreload
        obtain ⟨f', h₃, hsame', ht, hstore⟩ := h₂.trimActive hset.hasPending htrim
        have howner₃ : w₁.store.publicationOwner = .transaction := by rw [hstore, howner₂]; rfl
        have hnone : w₁.store.hasPending = false := by rw [hstore]; exact hset.hasPending
        have hphase : w.SameImages E f (w.withPhase .transaction) f :=
          ⟨rfl, rfl, rfl, rfl, rfl, rfl, rfl, rfl, rfl, id⟩
        refine ⟨f', ⟨h₃, fun _ => ht, fun _ => hnone, by simp [howner₃]⟩,
          hphase.trans (hsame.trans hsame'), by simp [howner₃], ?_, hnone.trans hs.symm,
          (congrArg (·.active.activeRecords) hstore).trans hrec₂⟩
        rw [hstore, hwr₂]
        simpa [World.withPhase, World.updateStore] using hwr

/-! ## Writing and truncating -/

/-- The world with another size and mark, dirty. -/
def World.withSize (w : World) (size : Nat) (mark : Option Nat) : World :=
  w.updateStore fun s =>
    { s with pendingSize := size, pendingTruncatePages := mark, pendingDirty := true }

/-- Page writes, then a new size and mark, keep the description. -/
theorem World.Described.withSize (h : w.Described E f) {w₁ : World} (hw : w.Wrote E f w₁ f')
    {size : Nat} {mark : Option Nat} (hopen : (w₁.withSize size mark).Open E f')
    (hzero : ZeroFrom w.store.head.pageSize ((w₁.withSize size mark).store.pendingPage E f') size)
    (hmark : ∀ k, lower w.store.active.truncatePages mark = some k →
      k * w.store.head.pageSize ≤ size) :
    (w₁.withSize size mark).Described E f' := by
  have hknown := hw.writing.known
  obtain ⟨state, hcur, hpub⟩ := h.current
  have hcur' : f'.Current state := by
    rw [hw.sectors]
    exact ⟨hcur.here, hcur.older⟩
  have hcommitted := hw.committed
  have hnumbered : ∀ q : Nat, w₁.store.active.activeRecords[q]? ≠ none → q ≠ 0 ∧ q ≠ u32Max :=
    fun q hq => (hw.numbered q hq).elim (h.numbered q) id
  obtain ⟨files, cache, records, raw, originals, rfl⟩ := hw.edited
  exact {
    toOpen := hopen
    installed := h.installed
    current := ⟨state, hcur', { hpub with }⟩
    sound := h.sound
    anchored := { h.anchored with }
    fresh := { h.fresh with }
    settled := fun hs => by simp [World.withSize, World.updateStore, Store.hasPending] at hs
    zeroPending := hzero
    zeroCommitted := hcommitted ▸ h.zeroCommitted
    numbered := hnumbered
    mark := h.mark
    pendingMark := hmark
    unknown := fun h₀ => absurd h₀ hknown
    known := h.known
    source := h.source
    converted := h.converted }

/-- Writing a range, byte by byte: bytes that share a page with the range are cleared when the page
is above the transaction's cut. -/
theorem World.Valid.writeAt (h : w.Valid E f) (hknown : w.store.head.pageSize ≠ 0) {offset n : Nat}
    {input : Bytes} (hne : input ≠ []) (hr : writeAt E offset input w = .ok n w') :
    n = input.length ∧ ∃ f', w'.Valid E f' ∧ w.SameCommitted E f w' f' ∧
      w'.store.pendingSize = max w.store.pendingSize (offset + input.length) ∧
      ∀ i, pageByte w.store.head.pageSize (w'.store.pendingPage E f') i =
        patched w.store.head.pageSize (Above w.store.pendingTruncatePages)
          (pageByte w.store.head.pageSize (w.store.pendingPage E f)) offset input i := by
  unfold Zsqlite.writeAt at hr
  rw [if_neg hne] at hr
  simp only [EStateM.bind_eq_ok, EStateM.liftExcept_eq_ok, checkedAdd_eq_ok] at hr
  obtain ⟨_, w₁, hbegin, _, _, ⟨⟨-, rfl⟩, rfl⟩, _, _, hget, _, w₃, hwrite, hr⟩ := hr
  cases hget
  cases hr
  obtain ⟨f₁, h₁, hsame, howner, -, -⟩ := h.beginWrite hbegin
  have hknown₁ : w₁.store.head.pageSize ≠ 0 := hsame.pageSize ▸ hknown
  rw [if_neg hknown₁] at hwrite
  obtain ⟨_, w₂, hpages, hset⟩ := EStateM.bind_eq_ok.mp hwrite
  rw [StoreM.updateStore_apply] at hset
  cases hset
  have hwriting : w₁.Writing E f₁ := ⟨h₁.toOpen, h₁.trimmed howner, hknown₁⟩
  obtain ⟨f', hwrote, hbytes⟩ := hwriting.writeMutablePages (by omega) hpages
  rw [List.drop_zero, Nat.add_zero, hsame.pageSize, hsame.mark, hsame.pending] at hbytes
  -- past the new end nothing was written and the old image is zero
  have hzero : ZeroFrom w₁.store.head.pageSize (w₂.store.pendingPage E f')
      (max w₁.store.pendingSize (offset + input.length)) := by
    intro i hi
    rw [hsame.pageSize, hbytes, patched, if_neg (by omega)]
    split
    · rfl
    · exact h.zeroPending i (by rw [hsame.pendingSize] at hi; omega)
  have hsize : (w₂.updateStore fun s =>
        { s with pendingSize := max s.pendingSize (offset + input.length), pendingDirty := true }) =
      w₂.withSize (max w₁.store.pendingSize (offset + input.length))
        w₁.store.pendingTruncatePages := by
    obtain ⟨_, _, _, _, _, rfl⟩ := hwrote.edited
    rfl
  rw [hsize]
  have hw := hwrote.writing
  have hcommitted := hwrote.committed.trans hsame.committed
  have hreadable : f.Readable → f'.Readable := hwrote.readable ∘ hsame.readable
  have hdesc : (w₂.withSize (max w₁.store.pendingSize (offset + input.length))
      w₁.store.pendingTruncatePages).Described E f' := by
    refine h₁.toDescribed.withSize hwrote ?_ ?_ ?_
    · obtain ⟨_, _, _, _, _, rfl⟩ := hwrote.edited
      exact ⟨hw.file, { hw.records with }, { hw.based with }⟩
    · obtain ⟨_, _, _, _, _, rfl⟩ := hwrote.edited
      exact hzero
    · exact fun k hk => (h₁.pendingMark k hk).trans (Nat.le_max_left _ _)
  obtain ⟨_, _, _, _, _, rfl⟩ := hwrote.edited
  refine ⟨rfl, f', ⟨hdesc, fun _ => hw.trimmed, fun h₀ => absurd h₀ howner, h₁.idle⟩,
    ⟨hsame.pageSize, hsame.logicalSize, hcommitted, hreadable⟩, ?_, hbytes⟩
  show max w₁.store.pendingSize _ = _
  rw [hsame.pendingSize]

/-- Truncating cuts the pending image, or extends it with zeros. -/
theorem World.Valid.truncate (h : w.Valid E f) (hknown : w.store.head.pageSize ≠ 0) {size : Nat}
    (hr : truncate E size w = .ok () w') :
    w.store.head.pageSize ∣ size ∧ ∃ f', w'.Valid E f' ∧ w.SameCommitted E f w' f' ∧
      w'.store.pendingSize = size ∧
      ∀ i, pageByte w.store.head.pageSize (w'.store.pendingPage E f') i =
        if i < size then pageByte w.store.head.pageSize (w.store.pendingPage E f) i else 0 := by
  simp only [Zsqlite.truncate, EStateM.bind_eq_ok] at hr
  obtain ⟨_, w₁, hbegin, _, _, hget, hr⟩ := hr
  cases hget
  obtain ⟨f₁, h₁, hsame, howner, -, -⟩ := h.beginWrite hbegin
  have hknown₁ : w₁.store.head.pageSize ≠ 0 := hsame.pageSize ▸ hknown
  rw [if_neg hknown₁] at hr
  split at hr
  · cases hr
  rename_i hdvd
  rw [not_not, hsame.pageSize] at hdvd
  simp only [EStateM.bind_eq_ok, EStateM.liftExcept_eq_ok] at hr
  obtain ⟨k, _, ⟨hcount, rfl⟩, _, w₂, hshrink, hr⟩ := hr
  rw [StoreM.updateStore_apply] at hr
  cases hr
  refine ⟨hdvd, ?_⟩
  obtain ⟨rfl, -⟩ := pageCount_eq_ok hcount
  have hps : 0 < w.store.head.pageSize := Nat.pos_of_ne_zero hknown
  have hwriting : w₁.Writing E f₁ := ⟨h₁.toOpen, h₁.trimmed howner, hknown₁⟩
  -- the pages written, the new mark and the new pending image
  obtain ⟨w₃, f', mark, hwrote, hw₂, hopen, hmark, hbytes⟩ : ∃ w₃ f' mark, w₁.Wrote E f₁ w₃ f' ∧
      (w₂.updateStore fun s => { s with
        pendingSize := k * w₁.store.head.pageSize, pendingDirty := true }) =
        w₃.withSize (k * w₁.store.head.pageSize) mark ∧
      (w₃.withSize (k * w₁.store.head.pageSize) mark).Writing E f' ∧
      (∀ j, lower w₁.store.active.truncatePages mark = some j →
        j * w₁.store.head.pageSize ≤ k * w₁.store.head.pageSize) ∧
      ∀ i, pageByte w.store.head.pageSize
          ((w₃.withSize (k * w₁.store.head.pageSize) mark).store.pendingPage E f') i =
        if i < k * w₁.store.head.pageSize then
          pageByte w.store.head.pageSize (w.store.pendingPage E f) i else 0 := by
    split at hshrink
    · obtain ⟨w₃, f', hwrote, rfl, hw, hover⟩ := hwriting.shrink hshrink
      refine ⟨w₃, f', lower w₁.store.pendingTruncatePages (some k), hwrote, rfl, ?_, ?_, ?_⟩
      · exact ⟨⟨hw.file, { hw.records with }, { hw.based with }⟩, hw.trimmed, hw.known⟩
      · intro j hj
        obtain ⟨m, hm, hmk⟩ := lower_some w₁.store.pendingTruncatePages k
        obtain ⟨j', hj', hjm⟩ := lower_some w₁.store.active.truncatePages m
        rw [hm, hj'] at hj
        cases hj
        exact Nat.mul_le_mul_right _ (hjm.trans hmk)
      · have hps₃ : (w₃.withMark (lower w₁.store.pendingTruncatePages
            (some k))).store.head.pageSize = w₁.store.head.pageSize := by
          obtain ⟨_, _, _, _, _, rfl⟩ := hwrote.edited
          rfl
        rw [hsame.pageSize, ← hsame.pending]
        refine pageByte_cut hps fun p => ?_
        rw [← hsame.pageSize]
        exact h₁.records.pendingPage_truncate hps₃ hover p
    · cases hshrink
      refine ⟨w₁, f₁, w₁.store.pendingTruncatePages, .refl hwriting, rfl, ?_, ?_, ?_⟩
      · exact ⟨⟨h₁.file, { h₁.records with }, { h₁.based with }⟩, hwriting.trimmed, hknown₁⟩
      · intro j hj
        have := h₁.pendingMark j hj
        omega
      · intro i
        show pageByte _ (w₁.store.pendingPage E f₁) i = _
        rw [hsame.pending]
        split
        · rfl
        · exact h.zeroPending i (by have := hsame.pendingSize; omega)
  rw [hw₂]
  have hcommitted := hwrote.committed.trans hsame.committed
  have hreadable : f.Readable → f'.Readable := hwrote.readable ∘ hsame.readable
  have hzero : ZeroFrom w.store.head.pageSize
      ((w₃.withSize (k * w₁.store.head.pageSize) mark).store.pendingPage E f')
      (k * w₁.store.head.pageSize) := by
    intro i hi
    rw [hbytes, if_neg (by omega)]
  rw [← hsame.pageSize] at hzero
  have hdesc := h₁.toDescribed.withSize hwrote hopen.toOpen hzero hmark
  obtain ⟨_, _, _, _, _, rfl⟩ := hwrote.edited
  exact ⟨f', ⟨hdesc, fun _ => hopen.trimmed, fun h₀ => absurd h₀ howner, h₁.idle⟩,
    ⟨hsame.pageSize, hsame.logicalSize, hcommitted, hreadable⟩, rfl, hbytes⟩

/-! ## Ending a transaction -/

/-- A rollback shows the committed image. -/
theorem World.Valid.discardPending (h : w.Valid E f) :
    ∃ f', w.discardMutablePending.Valid E f' ∧ w.SameCommitted E f w.discardMutablePending f' ∧
      w.discardMutablePending.store.Settled ∧
      w.discardMutablePending.store.publicationOwner = .unlocked := by
  obtain ⟨f', heq, hopen, htrim, hfile, hover⟩ := h.toOpen.discardMutablePending
  obtain ⟨state, hcur, hpub⟩ := h.current
  have hcur' : f'.Current state := by
    rw [hfile]
    exact ⟨hcur.here, hcur.older⟩
  have hsettled : w.discardMutablePending.store.Settled := by
    rw [heq]
    exact ⟨rfl, rfl, rfl, rfl, rfl, rfl⟩
  have hps : w.discardMutablePending.store.head.pageSize = w.store.head.pageSize := by rw [heq]; rfl
  have hsize : w.discardMutablePending.store.head.logicalSize = w.store.head.logicalSize := by
    rw [heq]; rfl
  have hcommitted : w.discardMutablePending.store.committedPage E f' = w.store.committedPage E f := by
    rw [Store.committedPage, hover, hps, committed_discard]
    rfl
  have howner : w.discardMutablePending.store.publicationOwner = .unlocked := by
    rw [heq]
    simp [World.withPhase, World.updateStore, PublicationPhase.ended, h.idle]
  refine ⟨f', ⟨.of_settled hopen hsettled ?_ ⟨state, hcur', ?_⟩ ?_ ?_ ?_ ?_ ?_ ?_ ?_ ?_, fun _ => htrim,
    fun _ => hsettled.hasPending, by simp [howner]⟩, ⟨hps, hsize, hcommitted, ?_⟩, hsettled, howner⟩
  · rw [heq]
    exact h.installed
  · rw [heq]
    exact { hpub with }
  · rw [heq]
    exact h.sound
  · rw [heq]
    exact { h.anchored with }
  · rw [heq]
    exact { h.fresh with }
  · rw [heq]
    intro p hp
    refine h.numbered p fun hnone => hp ?_
    exact (w.store.getElem?_committedRecords p).trans (by rw [Store.committedRecord, hnone]; rfl)
  · rw [hcommitted, hps, hsize]
    exact h.zeroCommitted
  · rw [heq]
    exact h.mark
  · rw [heq]
    intro h₀
    have hu := h.unknown h₀
    refine ⟨hu.logicalSize, hu.txid, Std.ExtTreeMap.ext_getElem? fun q => ?_⟩
    exact (w.store.getElem?_committedRecords q).trans (by simp [Store.committedRecord, hu.records])
  · rw [heq]
    exact fun b hb => ⟨h.source b hb, h.converted b hb⟩
  · rw [hfile]
    exact id

/-- The state a publication writes passes its checks exactly when the size is aligned. -/
theorem World.Described.valid_nextState (h : w.Described E f) (hknown : w.store.head.pageSize ≠ 0)
    (now : Nat) :
    (w.store.nextState now).valid = true ↔ w.store.head.pageSize ∣ w.store.pendingSize := by
  have hmark : ∀ k, lower w.store.active.truncatePages w.store.pendingTruncatePages = some k →
      k ≤ w.store.pendingSize / w.store.head.pageSize := fun k hk =>
    (Nat.le_div_iff_mul_le (Nat.pos_of_ne_zero hknown)).mpr (h.pendingMark k hk)
  have hall : ((lower w.store.active.truncatePages w.store.pendingTruncatePages).all fun pages =>
      decide (pages ≤ w.store.pendingSize / w.store.head.pageSize)) = true := by
    cases hk : lower w.store.active.truncatePages w.store.pendingTruncatePages with
    | none => rfl
    | some k => simp [hmark k hk]
  simp [ActiveState.valid, Store.nextState, h.toOpen.validPageSize hknown, hknown]
  exact ⟨fun hv => of_decide_eq_true hv.1, fun hdvd => ⟨decide_eq_true hdvd, hall⟩⟩

/-- **A publication** makes the pending image the committed one. -/
theorem World.Valid.publishState (h : w.Valid E f) (hknown : w.store.head.pageSize ≠ 0)
    (howner : w.store.publicationOwner ≠ .unlocked) {retain : Bool}
    (hr : publishState retain w = .ok () w') :
    ∃ f', w'.Valid E f' ∧ w'.store.head.pageSize = w.store.head.pageSize ∧
      w'.store.head.logicalSize = w.store.pendingSize ∧
      w'.store.committedPage E f' = w.store.pendingPage E f ∧ w'.store.Settled ∧
      (f.Readable → (f'.Readable ↔ w.store.head.pageSize ∣ w.store.pendingSize)) := by
  obtain ⟨now, f', rfl, heq, hopen, htrim, hover⟩ := h.toOpen.publishState (h.trimmed howner) hr
  obtain ⟨state, hcur, hpub⟩ := h.current
  have hps : w'.store.head.pageSize = w.store.head.pageSize := by rw [heq]; rfl
  have hsize : w'.store.head.logicalSize = w.store.pendingSize := by rw [heq]; rfl
  have hsettled : w'.store.Settled := by
    rw [heq]
    exact ⟨rfl, rfl, rfl, rfl, rfl, rfl⟩
  have hcommitted : w'.store.committedPage E (f.writeState (w.store.nextState now)) =
      w.store.pendingPage E f := by
    rw [Store.committedPage, hover, hps, committed_publish (h.records.coherent E)]
    rfl
  refine ⟨_, ⟨.of_settled hopen hsettled ?_ ⟨w.store.nextState now, hcur.writeState ?_, ?_⟩ ?_ ?_ ?_
    ?_ ?_ ?_ ?_ ?_, fun _ => htrim, fun _ => hsettled.hasPending, ?_⟩, hps, hsize, hcommitted, hsettled,
    fun hread => ?_⟩
  · rw [heq]
    exact h.installed
  · rw [hpub.sequence]
    rfl
  · rw [heq]
    exact { h.records.published (h.trimmed howner) now with }
  · rw [heq]
    exact h.sound
  · rw [heq]
    have htxid := h.anchored.txid
    exact { h.anchored with
      txid := Nat.le_succ_of_le htxid
      size := fun hsucc => absurd hsucc (by
        show w.store.head.txid + 1 ≠ (sealedEnd w.store.view).2.1
        omega) }
  · rw [heq]
    refine ⟨fun _ => Nat.succ_ne_zero _, fun hle => absurd (h.baseTxid_le) ?_⟩
    exact Nat.not_le.mpr hle
  · rw [heq]
    exact h.numbered
  · rw [hcommitted, hps, hsize]
    exact h.zeroPending
  · rw [heq]
    exact h.pendingMark
  · exact fun h₀ => absurd (hps ▸ h₀) hknown
  · rw [heq]
    exact fun b hb => ⟨h.source b hb, h.converted b hb⟩
  · rw [heq]
    exact PublicationPhase.published_ne_maintenance h.idle retain
  · rw [hcur.readable_writeState hread (by rw [hpub.sequence]; rfl) (by rw [h.records.header]; rfl)]
    exact h.valid_nextState hknown now

end Invariant

end Zsqlite
