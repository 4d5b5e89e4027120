import Zsqlite.Store.Calls
import Zsqlite.Store.Maintenance
import Zsqlite.Install

set_option autoImplicit false

/-! # Seals keep the image

A seal copies the committed records, encodes them over the base view and makes the result the base
of a new active file without records. This module follows the committed image through the three
phases: the copy shows it (`World.Described.activeWork`), preparation and installation keep it
(`prepare_spec`, `install_spec`), and the store that adopts the new file reads it again
(`World.Described.publishView`).
-/

namespace Zsqlite

open ByteVec Overlay

/-! ## The copy -/

section Snapshot

variable {E : Env} {w w' : World} {f : PageFile}

/-- The committed page of a record, with nothing pending. -/
theorem World.Open.readMutablePage_settled (h : w.Open E f) (hs : w.store.Settled) {page : Nat}
    {bytes : Bytes} (hr : w.readMutablePage page = .ok bytes) :
    bytes = w.store.committedPage E f page ∧ bytes.length = w.store.head.pageSize := by
  cases hp : w.store.active.activeRecords[page]? with
  | none => simp [World.readMutablePage, World.activeRecordOffset, hp] at hr; cases hr
  | some offset =>
      obtain ⟨bytes', hr', hpay⟩ := h.readMutablePage hp
      cases hr'.symm.trans hr
      obtain ⟨b, hb, hlen⟩ := h.records.readPayload hp
      cases hpay.symm.trans hb
      refine ⟨?_, hlen⟩
      rw [← hs.pendingPage h.records]
      simp [Store.pendingPage, Overlay.pending, Store.overlay, hs.mark, hp, hpay]

/-- Numbering pages changes none of them. -/
theorem mapM_pageNumber {l : List Nat} {txid : Nat} {pages : List (Nat × Nat)}
    (h : (l.mapM fun page => do return (← PageNumber.new page, txid)) = .ok pages) :
    pages = l.map (·, txid) ∧ ∀ p ∈ l, p ≠ 0 := by
  rw [Except.mapM_eq_ok] at h
  induction h with
  | nil => exact ⟨rfl, by simp⟩
  | cons ha _ ih =>
      obtain ⟨m, hn, ha⟩ := Except.bind_eq_ok.mp ha
      cases ha
      obtain ⟨-, hp, rfl⟩ := PageNumber.new_eq_ok.mp hn
      exact ⟨by rw [ih.1]; rfl, by simpa [hp] using ih.2⟩

/-- **The snapshot** holds the committed page of every record up to the size. -/
theorem World.Open.snapshot (h : w.Open E f) (hs : w.store.Settled)
    (hknown : w.store.head.pageSize ≠ 0) {size : LogicalBytes} {pages : List (Nat × Nat)}
    {file : Bytes} (hr : w.snapshot size = .ok (pages, file)) :
    (∀ p t, (p, t) ∈ pages → p ≠ 0 ∧
      readExactAt file ((p - 1) * w.store.head.pageSize) w.store.head.pageSize =
        .ok (w.store.committedPage E f p)) ∧
    ∀ p : Nat, w.store.active.activeRecords.contains p = true → p ≤ size.pages →
      (p, w.store.head.txid) ∈ pages := by
  simp only [World.snapshot, Except.bind_eq_ok] at hr
  obtain ⟨pages', hpages, file', hfile, hr⟩ := hr
  cases hr
  obtain ⟨rfl, hnonzero⟩ := mapM_pageNumber hpages
  set l := w.store.active.activeRecords.keys.filter fun page => page ≤ size.pages with hl
  have hne : ∀ e ∈ l.map (·, w.store.head.txid), e.1 ≠ 0 := by
    intro e he
    obtain ⟨p, hp, rfl⟩ := List.mem_map.mp he
    exact hnonzero p hp
  refine ⟨?_, fun p hp hle => List.mem_map.mpr ⟨p, ?_, rfl⟩⟩
  · have hread := Except.foldlM_prefix (I := fun done file => ∀ e ∈ done, e.1 ≠ 0 ∧
        readExactAt file ((e.1 - 1) * w.store.head.pageSize) w.store.head.pageSize =
          .ok (w.store.committedPage E f e.1)) (fun done e file file' he hdone hstep => ?_)
      (by simp) hfile
    · exact fun p t hpt => hread (p, t) hpt
    · -- one more page goes to its own place in the file
      obtain ⟨bytes, hbytes, hstep⟩ := Except.bind_eq_ok.mp hstep
      cases hstep
      obtain ⟨rfl, hlen⟩ := h.readMutablePage_settled hs hbytes
      have hnil : w.store.committedPage E f e.1 ≠ [] := by
        intro hnil
        rw [hnil] at hlen
        exact hknown hlen.symm
      intro q hq
      by_cases hqe : q.1 = e.1
      · rw [hqe]
        exact ⟨hne e he, SealInput.readExactAt_overwrite_self hnil hlen⟩
      · have hq : q ∈ done := by
          rcases List.mem_append.mp hq with h | h
          · exact h
          · exact absurd (congrArg Prod.fst (List.mem_singleton.mp h)) hqe
        obtain ⟨hq0, hread⟩ := hdone q hq
        exact ⟨hq0, SealInput.readExactAt_overwrite_page (hne e he) hq0 hqe hnil hlen hread⟩
  · rw [hl, List.mem_filter, Std.ExtTreeMap.mem_keys]
    exact ⟨by simpa using hp, by simpa using hle⟩

/-- A page without a record shows what lies under the records. -/
theorem World.Open.committedPage_of_no_record (h : w.Open E f) (hs : w.store.Settled) {p : Nat}
    (hnone : w.store.active.activeRecords[p]? = none) :
    w.store.committedPage E f p = (w.store.overlay E f).floor (zeros w.store.head.pageSize) p := by
  rw [← hs.pendingPage h.records]
  simp [Store.pendingPage, Overlay.pending, Store.overlay, hs.mark, hnone]

/-- Where neither a record nor a cut hides it, the base view holds the committed page. -/
theorem World.Open.holds_base (h : w.Open E f) (hs : w.store.Settled) {view : PinnedView}
    (hgen : view.Genuine E) (hid : w.store.view.map PinnedView.id = some view.id) {p : Nat}
    (hnone : w.store.active.activeRecords[p]? = none)
    (hcut : ¬ Above w.store.active.truncatePages p) :
    view.metadata.view.HoldsAt E (w.store.committedPage E f) p := by
  obtain ⟨v, hv, hvid⟩ := Option.map_eq_some_iff.mp hid
  have hvgen := h.based.genuine v hv
  have hagree := hgen.agrees hvgen hvid.symm
  have hsize : view.size = v.size := hagree.size
  have hps : view.size.pageSize.get = w.store.head.pageSize := by
    rw [hsize]
    exact h.based.viewSize v hv
  have himage : w.store.committedPage E f p =
      basePage E w.store.head.pageSize (some v) w.store.source p := by
    rw [h.committedPage_of_no_record hs hnone, floor_of_not_above hcut, ← hv]
    rfl
  rcases Nat.lt_or_ge v.size.pages p with hp | hp
  · have hversion : view.metadata.view.version p = none := by
      cases hstored : view.metadata.view.pages[p]? with
      | none => simp [ViewMetadata.version, hstored]
      | some stored =>
          have := hgen.served.resolved.bounded p stored hstored
          rw [hagree.size] at this
          exact absurd this (Nat.not_le.mpr hp)
    rw [ViewMetadata.HoldsAt, hversion, himage, basePage_above hp]
    exact congrArg zeros hps.symm
  · refine PinnedView.holds_of_readPage hgen.served.resolved ?_
    obtain ⟨b, hb⟩ := PinnedView.readPage_total hvgen.served hp
    rw [PinnedView.readPage_agrees hgen.served hvgen.served hagree (hsize ▸ hp), hb, himage,
      basePage_of_readPage hb]

/-- **The input of a seal shows the committed image**: its pages are the records, its source is
the base view, and it cuts the base where the store does. -/
theorem World.Open.shows (h : w.Open E f) (hs : w.store.Settled) (hsource : w.store.source = none)
    {input : SealInput} (hps : input.pageSize.get = w.store.head.pageSize)
    (hcut : input.endpoint.truncate = w.store.active.truncatePages)
    (hid : input.source.map PinnedView.id = w.store.view.map PinnedView.id)
    (hgen : ∀ v, input.source = some v → v.Genuine E)
    (hnamed : ∀ (id : Digest) bytes, input.dictionaries[id]? = some bytes → E.hash.bytes bytes = id)
    (hreads : input.Reads (w.store.committedPage E f))
    (hpages : ∀ p : Nat, w.store.active.activeRecords[p]? ≠ none → p ≤ input.endpoint.size.pages →
      ∃ t, (p, t) ∈ input.pages)
    (hrepack : input.repack.isSome → w.store.active.activeRecords = ∅ ∧
      w.store.active.truncatePages = none) :
    input.Shows E (w.store.committedPage E f) := by
  have hrecord : ∀ p, p ≤ input.endpoint.size.pages → (∀ t, (p, t) ∉ input.pages) →
      w.store.active.activeRecords[p]? = none := by
    intro p hp hfresh
    by_contra hne
    obtain ⟨t, ht⟩ := hpages p hne hp
    exact hfresh t ht
  refine ⟨hreads, fun v hv => ⟨(hgen v hv).served, ?_⟩, fun v hv p _ hp hk hfresh => ?_,
    fun p _ hp hblank hfresh => ?_, fun hrep v hv p _ _ => ?_, hnamed⟩
  · rw [hv] at hid
    obtain ⟨u, hu, huid⟩ := Option.map_eq_some_iff.mp hid.symm
    have hagree := (hgen v hv).agrees (h.based.genuine u hu) huid.symm
    apply PageSize.eq_of_get
    rw [hps, ← h.based.viewSize u hu]
    exact congrArg (fun s : LogicalBytes => s.pageSize.get) hagree.size
  · refine h.holds_base hs (hgen v hv) (by rw [← hid, hv]; rfl) (hrecord p hp hfresh) ?_
    rintro ⟨k, hk', hlt⟩
    exact absurd (hk k (hcut.trans hk')) (Nat.not_le.mpr hlt)
  · rw [h.committedPage_of_no_record hs (hrecord p hp hfresh), hps]
    rcases hblank with hnone | ⟨k, hk, hlt⟩
    · have hview : w.store.view = none := by
        rw [hnone] at hid
        simpa using hid.symm
      by_cases hc : Above w.store.active.truncatePages p
      · exact floor_of_above hc
      · rw [floor_of_not_above hc]
        show basePage E _ w.store.view w.store.source p = _
        rw [hview, hsource]
        rfl
    · exact floor_of_above ⟨k, hcut.symm.trans hk, hlt⟩
  · obtain ⟨hempty, huncut⟩ := hrepack hrep
    exact h.holds_base hs (hgen v hv) (by rw [← hid, hv]; rfl) (by rw [hempty]; rfl) (by simp [huncut])

end Snapshot

/-! ## The new base -/

/-- The committed image is the same, on whatever file. -/
structure World.SameDatabase (E : Env) (w : World) (f : PageFile) (w' : World) (f' : PageFile) :
    Prop where
  pageSize : w'.store.head.pageSize = w.store.head.pageSize
  logicalSize : w'.store.head.logicalSize = w.store.head.logicalSize
  txid : w'.store.head.txid = w.store.head.txid
  image : w'.store.committedImage E f' = w.store.committedImage E f
  readable : f.Readable → f'.Readable

/-- The header of the active file over a new base. -/
def Store.sealedHeader (s : Store) (durable : DurableView) : ActiveHeader :=
  s.nextHeader (.installed durable) (some durable.id) s.active.header.policy

section Publish

variable {E : Env} {w w' : World} {f : PageFile} {durable : DurableView}

theorem createOrReload_eq_ok {base : ActiveBase} {policy : StoragePolicyRecord} {active : ActiveFile}
    (hr : createOrReload E base policy w = .ok active w') :
    createActive base policy true w = .ok active w' := by
  unfold createOrReload at hr
  split at hr
  · cases hr
    assumption
  · split at hr <;> cases hr

/-- Everything a successful publication of a view does. -/
theorem publishView_eq_ok (hr : publishView E durable w = .ok () w') :
    ∃ view C C', w.disk.catalog.pin E durable.id = .ok view ∧
      durable.metadata.view.database = w.store.active.header.databaseId ∧
      durable.metadata.view.size.get = w.store.head.logicalSize ∧
      durable.metadata.view.txid = w.store.head.txid ∧ w.store.head.txid + 1 ≤ u64Max ∧
      w.disk.catalog.prepareSeal (w.store.sealedHeader durable) = .ok C ∧
      C.finishSeal (w.store.sealedHeader durable) = .ok C' ∧
      w' = ((w.setCatalog C).adopt (some view) (w.store.sealedHeader durable)).setCatalog C' := by
  simp only [publishView, guardPublication, EStateM.bind_eq_ok, StoreM.ofExcept_eq_ok,
    StoreM.onCatalog_eq_ok] at hr
  obtain ⟨view, _, ⟨hpin, rfl⟩, _, _, hguard, _, _, hget, active, w₁, hcreate, _, _, hset, C', hC', rfl⟩ := hr
  obtain ⟨_, _, hget', hguard⟩ := hguard
  cases hget'
  split at hguard
  · cases hguard
  cases hguard
  cases hget
  obtain ⟨parent, C, hparent, hfit, hC, rfl, rfl⟩ := createActive_eq_ok (createOrReload_eq_ok hcreate)
  simp only [ActiveBase.validate, Except.bind_eq_ok, Except.ensure_eq_ok] at hparent
  obtain ⟨_, ⟨hdb, hsize, htxid⟩, hparent⟩ := hparent
  cases hparent
  cases hset
  rw [if_pos rfl] at hC
  exact ⟨view, C, C', hpin, hdb, hsize, htxid, hfit, hC, hC', rfl⟩

/-- With a view there is no native base. -/
theorem Store.Based.header_of_view {s : Store} (h : s.Based E) (hs : s.source = none) :
    s.active.header.sourceBytes = 0 ∧ s.active.header.sourceHeaderDigest = none := by
  have hbytes := h.sourceless hs
  have hvalid := h.valid
  simp only [ActiveHeader.valid, Bool.and_eq_true, hbytes] at hvalid
  exact ⟨hbytes, by simpa using hvalid.1.2⟩

/-- **Publishing a view that holds the committed image** changes no byte. -/
theorem World.Described.publishView (h : w.Described E f) (hs : w.store.Settled)
    (hsource : w.store.source = none) (htxid : w.store.head.txid ≠ 0)
    (hload : w.disk.catalog.loadMetadata E durable.id = .ok durable.metadata)
    (hps : durable.metadata.view.size.pageSize.get = w.store.head.pageSize)
    (hhold : ∀ p, p ≠ 0 → p ≤ durable.metadata.view.size.pages →
      durable.metadata.view.HoldsAt E (w.store.committedPage E f) p)
    (hr : publishView E durable w = .ok () w') :
    ∃ f', w'.Described E f' ∧ w'.store.Settled ∧ w'.store.Trimmed f' ∧ w.SameDatabase E f w' f' ∧
      w'.store.source = none ∧ w'.store.publicationOwner = w.store.publicationOwner := by
  obtain ⟨view, C, C', hpin, hdb, hsize, hvtxid, hfit, hC, hC', rfl⟩ := publishView_eq_ok hr
  obtain ⟨hid, hload', -⟩ := Catalog.pin_spec h.sound hpin
  obtain ⟨-, hgen⟩ := Catalog.pin_genuine h.sound hpin
  have hmeta : view.metadata = durable.metadata := Except.ok.inj (hload'.symm.trans hload)
  have hvsize : view.size = durable.metadata.view.size := by rw [PinnedView.size, hmeta]
  obtain ⟨hbytes, hdigest⟩ := h.based.header_of_view hsource
  have hvps : view.size.pageSize.get = w.store.head.pageSize := by rw [hvsize, hps]
  have hknown : w.store.head.pageSize ≠ 0 := by
    have := view.size.pageSize.pos
    omega
  have hsized : validPageSize w.store.head.pageSize = true := hvps ▸ view.size.pageSize.valid
  have hdvd : w.store.head.pageSize ∣ w.store.head.logicalSize := by
    rw [← hsize, ← hps]
    exact durable.metadata.view.size.aligned
  have hvalid : (w.store.sealedHeader durable).valid = true := by
    simp [ActiveHeader.valid, Store.sealedHeader, Store.nextHeader, hsized, hdvd, htxid, hbytes,
      hdigest, hknown]
  have hopen : ((w.setCatalog C).adopt (some view) (w.store.sealedHeader durable)).Open E
      ((w.store.sealedHeader durable).emptyFile w.store.head) := by
    refine World.Open.adopt hvalid rfl hs.raw hs.originals (by simp [hid]; rfl) ?_ ?_ ?_ ?_ ?_
      h.based.cache h.based.genuine
    · exact fun v hv => by cases hv; exact hgen
    · exact fun v hv => by cases hv; exact hvps
    · exact fun b hb => absurd (hsource.symm.trans hb) (by simp)
    · exact fun _ => hbytes
    · exact fun b hb => absurd (hsource.symm.trans hb) (by simp)
  have hpage : ∀ p, p ≠ 0 → p ≤ view.size.pages →
      basePage E w.store.head.pageSize (some view) w.store.source p = w.store.committedPage E f p := by
    intro p hp0 hp
    refine basePage_of_readPage (PinnedView.readPage_of_holds hgen.served hp ?_)
    rw [hmeta]
    exact hhold p hp0 (hvsize ▸ hp)
  have hpages : w.store.head.logicalSize = view.size.pages * w.store.head.pageSize := by
    rw [← hsize, ← hvsize, ← hvps]
    exact (Nat.div_mul_cancel view.size.aligned).symm
  have hzero : ∀ i, w.store.head.logicalSize ≤ i → pageByte w.store.head.pageSize
      (basePage E w.store.head.pageSize (some view) w.store.source) i = 0 := by
    intro i hi
    have hlt : view.size.pages < i / w.store.head.pageSize + 1 := by
      rw [Nat.lt_succ_iff, Nat.le_div_iff_mul_le (Nat.pos_of_ne_zero hknown), ← hpages]
      exact hi
    rw [pageByte, basePage_above hlt, getD_zeros]
  have hsettled : (((w.setCatalog C).adopt (some view)
      (w.store.sealedHeader durable)).setCatalog C').store.Settled := { hs with }
  have hsound : C'.Sound E := (((Catalog.prepareSeal_same hC).1.trans
    (Catalog.finishSeal_same hC').1)).sound h.sound
  refine ⟨(w.store.sealedHeader durable).emptyFile w.store.head,
    .of_settled ⟨hopen.file, hopen.records, hopen.based⟩ hsettled rfl
      ⟨_, ActiveHeader.current_emptyFile _ _, { World.published_adopt (w.setCatalog C) with }⟩ hsound
      ?_ ⟨fun hne => absurd hbytes hne, fun _ => ⟨rfl, rfl⟩⟩ (fun p hp => absurd rfl hp) hzero
      (fun k hk => by cases hk) (fun h₀ => absurd h₀ hknown)
      (fun b hb => absurd (hsource.symm.trans hb) (by simp)),
    hsettled, rfl, ⟨rfl, rfl, rfl, ?_, fun _ => ActiveHeader.readable_emptyFile hsized hdvd⟩, hsource,
    rfl⟩
  · have hvtxid' : view.metadata.view.txid = w.store.head.txid := by rw [hmeta, hvtxid]
    have hhistory : durable.metadata.view.history = view.metadata.view.history := by rw [hmeta]
    have hlogical : w.store.head.logicalSize = view.size.get := by rw [hvsize, hsize]
    exact {
      database := fun v hv => by cases hv; rw [hmeta]; exact hdb
      start := by
        show checkedAdd view.metadata.view.txid 1 = .ok (w.store.head.txid + 1)
        rw [hvtxid']
        exact checkedAdd_eq_ok.mpr ⟨hfit, rfl⟩
      baseHistory := hhistory
      baseSize := hlogical
      history := hhistory
      txid := Nat.le_of_eq hvtxid'
      size := fun _ => hlogical }
  · show paged _ (basePage E w.store.head.pageSize (some view) w.store.source) _ = _
    refine paged_congr fun i hi => hpage _ (Nat.succ_ne_zero _) ?_
    exact (Nat.div_lt_iff_lt_mul (Nat.pos_of_ne_zero hknown)).mpr (hpages ▸ hi)

end Publish

/-! ## The maintenance lock -/

section Maintenance

variable {E : Env} {w w' : World} {f : PageFile}

/-- Entering maintenance changes no byte. -/
theorem World.Valid.acquireMaintenance (h : w.Valid E f)
    (hr : acquireMaintenance E w = .ok () w') :
    w'.Described E f ∧ w.SameImages E f w' f ∧ w'.store.publicationOwner = .maintenance ∧
      w'.store.hasPending = w.store.hasPending := by
  obtain ⟨_, _, hget, hr⟩ := EStateM.bind_eq_ok.mp hr
  cases hget
  -- the lock is taken over, or taken as a transaction's first
  obtain ⟨w₀, w₁, h₀, hsame₀, hpend₀, howner₀, hrefresh, rfl⟩ : ∃ w₀ w₁, w₀.Described E f ∧
      w.SameImages E f w₀ f ∧ w₀.store.hasPending = w.store.hasPending ∧
      w₀.store.publicationOwner = .transaction ∧ Zsqlite.refresh E w₀ = .ok () w₁ ∧
      w' = w₁.updateStore fun s => s.transition .maintenance := by
    cases howner : w.store.publicationOwner with
    | maintenance => exact absurd howner h.idle
    | checkpoint =>
        rw [howner] at hr
        cases hr
    | transaction =>
        rw [howner] at hr
        obtain ⟨_, w₁, hrefresh, hset⟩ := EStateM.bind_eq_ok.mp hr
        cases hset
        exact ⟨w, w₁, h.toDescribed, .refl w f, rfl, howner, hrefresh, rfl⟩
    | unlocked =>
        simp only [howner] at hr
        split at hr
        · cases hr
        · simp only [EStateM.bind_eq_ok, EStateM.finish_eq_ok] at hr
          obtain ⟨_, _, hphase, _, w₁, ⟨w₂, hrefresh, hw⟩, hset⟩ := hr
          cases hphase
          have hw : w₁ = w₂ := hw
          subst hw
          cases hset
          exact ⟨w.withPhase .transaction, w₁, h.toDescribed.withPhase _,
            ⟨rfl, rfl, rfl, rfl, rfl, rfl, rfl, rfl, rfl, id⟩, rfl, rfl, hrefresh, rfl⟩
  obtain ⟨h₁, hsame, howner, hpend, -⟩ := h₀.refresh hrefresh
  have heq : (w₁.updateStore fun s => s.transition .maintenance) = w₁.withPhase .maintenance := by
    simp only [World.updateStore, World.withPhase, Store.transition_eq, howner, howner₀]
    rfl
  rw [heq]
  exact ⟨h₁.withPhase _, (hsame₀.trans hsame).trans ⟨rfl, rfl, rfl, rfl, rfl, rfl, rfl, rfl, rfl, id⟩, rfl,
    hpend.trans hpend₀⟩

/-- A store with nothing pending that gives up the lock. -/
theorem World.Described.unlock (h : w.Described E f) (hs : w.store.hasPending = false) :
    (w.withPhase .unlocked).Valid E f :=
  ⟨h.withPhase _, fun hne => absurd rfl hne, fun _ => hs, by simp [World.withPhase, World.updateStore]⟩

theorem World.releaseMaintenance_eq (howner : w.store.publicationOwner = .maintenance) :
    w.updateStore Store.releaseMaintenance = w.withPhase .unlocked := by
  simp [World.updateStore, World.withPhase, Store.releaseMaintenance, howner, Store.transition,
    Store.releasePublication]

/-- An active file with a sealed base has no native base, and its base has a transaction. -/
theorem World.Described.of_view (h : w.Described E f) {view : PinnedView}
    (hv : w.store.view = some view) : w.store.source = none ∧ w.store.head.txid ≠ 0 := by
  have hparent : w.store.active.header.parentPhysicalDigest = some view.id := by
    rw [← h.based.view, hv]
    rfl
  have hvalid := h.based.valid
  simp only [ActiveHeader.valid, Bool.and_eq_true, hparent] at hvalid
  have hstart : w.store.active.header.startTxid ≠ 1 := by
    have := hvalid.1.1.1.2
    simpa using this
  constructor
  · cases hs : w.store.source with
    | none => rfl
    | some b =>
        obtain ⟨hlen, hne⟩ := h.based.source b hs
        have hbytes : w.store.active.header.sourceBytes ≠ 0 := fun h => hne (by simp_all)
        have := hvalid.2
        simp [hbytes, hstart] at this
  · have hsealed : (sealedEnd w.store.view).2.1 + 1 = w.store.active.header.startTxid :=
      (checkedAdd_eq_ok.mp h.anchored.start).2.symm
    have := h.anchored.txid
    omega

/-- Before the first commit on an active file its records are empty. -/
theorem World.Described.records_fresh (h : w.Described E f) (hs : w.store.Settled)
    (hfresh : w.store.head.txid < w.store.active.header.startTxid) :
    w.store.active.activeRecords = ∅ ∧ w.store.active.truncatePages = none := by
  have hsourceless : w.store.active.header.sourceBytes = 0 := by
    by_contra hne
    have := h.fresh.sourced hne
    have := ActiveHeader.startTxid_of_source h.based.valid hne
    omega
  obtain ⟨hend, hcut⟩ := h.fresh.empty (by
    rw [Store.baseTxid, if_pos hsourceless]
    omega)
  have hindexed := h.records.indexed_of_settled hs (n := 0) (by rw [hend, recordOffset_zero])
  exact ⟨hindexed.unique .nil, hcut⟩

/-- Objects may be added to the catalog, or dropped from it. -/
theorem World.Described.withCatalog (h : w.Described E f) {C : Catalog} (hC : C.Sound E)
    (hconv : ∀ b, w.store.source = some b → C.Converts E w.store.head.pageSize b) :
    (w.setCatalog C).Described E f :=
  { h with
    toOpen := ⟨h.file, h.records, h.based⟩
    sound := hC
    converted := hconv }

/-- The checkpoint of a base view holds what the view holds. -/
theorem checkpointManifest_spec {C C' : Catalog} (hC : C.Sound E) {view : PinnedView}
    (hgen : view.Genuine E) {durable : DurableView}
    (h : checkpointManifest E C view = .ok (C', durable)) :
    C'.Sound E ∧ C'.loadMetadata E durable.id = .ok durable.metadata ∧
      durable.metadata.view.size = view.size ∧
      ∀ (image : Nat → Bytes) p, view.metadata.view.HoldsAt E image p →
        durable.metadata.view.HoldsAt E image p := by
  obtain ⟨hsound, hload, -, hres, hroot, hsize, -⟩ :=
    ManifestBuilder.finalize_spec hC hgen.served.located h
  refine ⟨hsound, hload, hsize, fun image p hp => hp.congr ?_ (congrArg LogicalBytes.pageSize hsize)⟩
  exact ViewMetadata.version_eq_of_contentRoot hres.toConsistent
    hgen.served.resolved.toConsistent hroot p

/-- Compacting rewrites the base as one checkpoint. -/
theorem World.Described.compactInner (h : w.Described E f) (hr : compactInner E w = .ok () w') :
    ∃ f', w'.Described E f' ∧ w'.store.Settled ∧ w.SameDatabase E f w' f' ∧ w.store.Settled ∧
      w'.store.publicationOwner = w.store.publicationOwner := by
  obtain ⟨_, _, hget, hr⟩ := EStateM.bind_eq_ok.mp hr
  cases hget
  split at hr
  · cases hr
  rename_i hidle
  obtain ⟨hpend, hfresh⟩ := not_or.mp hidle
  have hs := h.settled (by simpa using hpend)
  cases hv : w.store.view with
  | none =>
      rw [hv] at hr
      cases hr
      exact ⟨f, h, hs, ⟨rfl, rfl, rfl, rfl, id⟩, hs, rfl⟩
  | some view =>
      simp only [hv] at hr
      split at hr
      · cases hr
        exact ⟨f, h, hs, ⟨rfl, rfl, rfl, rfl, id⟩, hs, rfl⟩
      · simp only [EStateM.bind_eq_ok, EStateM.liftExcept_eq_ok] at hr
        obtain ⟨⟨C, durable⟩, _, ⟨hdurable, rfl⟩, _, _, hset, hr⟩ := hr
        cases hset
        obtain ⟨hsource, htxid⟩ := h.of_view hv
        have hgen := h.based.genuine view hv
        obtain ⟨hC, hload, hsize, hholds⟩ := checkpointManifest_spec h.sound hgen hdurable
        obtain ⟨hempty, huncut⟩ := h.records_fresh hs (Nat.lt_of_not_le hfresh)
        obtain ⟨f', h', hs', -, hsame, -, howner⟩ := (h.withCatalog hC (by simp [hsource])).publishView hs
          hsource htxid hload (by rw [hsize]; exact h.based.viewSize view hv) (fun p _ _ => hholds _ p
            (h.holds_base hs hgen (by rw [hv]; rfl) (by rw [hempty]; rfl) (by simp [huncut]))) hr
        exact ⟨f', h', hs', ⟨hsame.pageSize, hsame.logicalSize, hsame.txid, hsame.image, hsame.readable⟩,
          hs, howner⟩

/-- **Compaction** changes no byte. -/
theorem World.Valid.compact (h : w.Valid E f) (hr : compact E w = .ok () w') :
    ∃ f', w'.Valid E f' ∧ w'.store.pendingImage E f' = w.store.pendingImage E f ∧
      w'.store.committedImage E f' = w.store.committedImage E f ∧ (f.Readable → f'.Readable) := by
  obtain ⟨_, w₁, hlock, hr⟩ := EStateM.bind_eq_ok.mp hr
  obtain ⟨h₁, hsame, howner, -⟩ := h.acquireMaintenance hlock
  obtain ⟨w₂, hinner, rfl⟩ := EStateM.finish_eq_ok.mp hr
  obtain ⟨f', h₂, hs₂, hsame₂, hs₁, howner₂⟩ := h₁.compactInner hinner
  rw [World.releaseMaintenance_eq (howner₂.trans howner)]
  refine ⟨f', h₂.unlock hs₂.hasPending, ?_, hsame₂.image.trans hsame.committedImage,
    hsame₂.readable ∘ hsame.readable⟩
  rw [← hsame.pendingImage, h₁.image_of_settled hs₁, ← hsame₂.image]
  exact h₂.image_of_settled hs₂

/-! ## Sealing the records -/

theorem Catalog.Shrinks.sound {C C' : Catalog} (h : C.Shrinks C') (hC : C.Sound E) : C'.Sound E :=
  ⟨fun id p hp => hC.pack id p (h.packs id p hp),
    fun id m hm => hC.manifest id m (h.manifests id m hm)⟩

/-- **The work of a seal** shows the committed image. -/
theorem World.Described.activeWork (h : w.Described E f) (hs : w.store.Settled)
    (hsource : w.store.source = none) {restore : PublicationPhase} {work : SealWork}
    (hr : w.activeWork E restore = .ok work) :
    work.kind = .active w.store.active.header w.store.head restore ∧
      work.input.Shows E (w.store.committedPage E f) ∧ work.input.sourcePrefix = false ∧
      work.input.pageSize.get = w.store.head.pageSize ∧ w.store.head.txid ≠ 0 ∧
      work.input.endpoint.size.get = w.store.head.logicalSize ∧
      work.input.endpoint.txid = w.store.head.txid := by
  simp only [World.activeWork, Except.bind_eq_ok, Except.ensure_eq_ok, exists_const] at hr
  obtain ⟨pageSize, hps, size, hsize, htxid, ⟨pages, file⟩, hsnap, input, hinput, hr⟩ := hr
  cases hr
  have hget := PageSize.new_eq_ok hps
  obtain ⟨hsz, hszps⟩ := LogicalBytes.new_eq_ok hsize
  obtain ⟨hend, hpages, hfile, -, -, hprefix, hrepack, hid, hgen, hnamed⟩ :=
    SealInput.new_eq_ok h.sound hinput
  have hinput_ps : input.pageSize.get = w.store.head.pageSize := by
    rw [SealInput.pageSize, hend]
    show size.pageSize.get = _
    rw [hszps, hget]
  have hknown : w.store.head.pageSize ≠ 0 := by
    have := input.pageSize.pos
    omega
  obtain ⟨hread, hall⟩ := h.toOpen.snapshot hs hknown hsnap
  refine ⟨rfl, h.toOpen.shows hs hsource hinput_ps (by rw [hend]; rfl) hid hgen hnamed ?_ ?_ ?_,
    hprefix, hinput_ps, htxid, by rw [hend]; exact hsz, by rw [hend]; rfl⟩
  · intro p t hpt
    rw [hpages] at hpt
    rw [SealInput.read, hfile, hinput_ps]
    exact hread p t hpt
  · intro p hp hle
    rw [hpages]
    rw [hend] at hle
    exact ⟨_, hall p (by simpa using Option.isSome_iff_ne_none.mpr hp) hle⟩
  · intro hrep
    rw [hrepack] at hrep
    cases hrep

variable {G : Collector} {prepared : PreparedSeal} {header : ActiveHeader} {head : HeadState}

/-- **Publishing prepared work** that shows the committed image changes no byte. -/
theorem World.Described.publishWork (h : w.Described E f) (hs : w.store.Settled)
    (hsource : w.store.source = none) (htxid : w.store.head.txid ≠ 0)
    (hshows : prepared.Shows E (w.store.committedPage E f))
    (hps : prepared.endpoint.size.pageSize.get = w.store.head.pageSize)
    (hr : publishWork E G prepared header head w = .ok () w') :
    ∃ f', w'.Described E f' ∧ w'.store.Settled ∧ w'.store.Trimmed f' ∧ w.SameDatabase E f w' f' ∧
      w'.store.source = none ∧ w'.store.publicationOwner = w.store.publicationOwner := by
  simp only [Zsqlite.publishWork, EStateM.bind_eq_ok, EStateM.liftExcept_eq_ok] at hr
  obtain ⟨_, _, hget, _, _, ⟨-, rfl⟩, ⟨C, durable⟩, _, ⟨hinstall, rfl⟩, _, _, hset, _, w₁, hpublish,
    hr⟩ := hr
  cases hget
  cases hset
  obtain ⟨hC, hload, -, hsize, -, hhold⟩ := PreparedSeal.install_spec h.sound hshows hinstall
  obtain ⟨f', h₁, hs₁, ht₁, hsame, hsource₁, howner₁⟩ := (h.withCatalog hC (by simp [hsource])).publishView
    hs hsource htxid hload (by rw [hsize]; exact hps) (by rw [hsize]; exact hhold) hpublish
  have hsame' : w.SameDatabase E f w₁ f' :=
    ⟨hsame.pageSize, hsame.logicalSize, hsame.txid, hsame.image, hsame.readable⟩
  split at hr
  · cases hr
    exact ⟨f', h₁, hs₁, ht₁, hsame', hsource₁, howner₁⟩
  · -- the collector drops objects of the catalog only
    obtain ⟨_, _, hget, hr⟩ := EStateM.bind_eq_ok.mp hr
    cases hget
    obtain ⟨C₂, hcollect, rfl⟩ := StoreM.onCatalog_eq_ok.mp hr
    exact ⟨f', h₁.withCatalog ((G.shrinks hcollect).sound h₁.sound) (by simp [hsource₁]), hs₁, ht₁,
      ⟨hsame'.pageSize, hsame'.logicalSize, hsame'.txid, hsame'.image, hsame'.readable⟩, hsource₁,
      howner₁⟩

/-- Preparing the seal gives the lock up and changes no byte. -/
theorem World.Valid.prepareActiveWork (h : w.Valid E f) {work : Option SealWork}
    (hr : prepareActiveWork E w = .ok work w') :
    w.store.head.txid < w.store.active.header.startTxid ∧ work = none ∧ w' = w ∨
    ∃ work', work = some work' ∧ w.SameImages E f w' f ∧ w'.Described E f ∧
      w'.store.publicationOwner = .unlocked ∧ w'.store.hasPending = w.store.hasPending ∧
      w'.activeWork E w.store.publicationOwner = .ok work' := by
  obtain ⟨_, _, hget, hr⟩ := EStateM.bind_eq_ok.mp hr
  cases hget
  split at hr
  · cases hr
    exact .inl ⟨‹_›, rfl, rfl⟩
  · right
    obtain ⟨_, w₁, hlock, hr⟩ := EStateM.bind_eq_ok.mp hr
    obtain ⟨h₁, hsame, howner, hpend⟩ := h.acquireMaintenance hlock
    obtain ⟨w₂, hwork, rfl⟩ := EStateM.finish_eq_ok.mp hr
    obtain ⟨work', hof, rfl⟩ := EStateM.map_eq_ok.mp hwork
    obtain ⟨hwork', rfl⟩ := StoreM.ofExcept_eq_ok.mp hof
    exact ⟨work', rfl, hsame.trans ⟨rfl, rfl, rfl, rfl, rfl, rfl, rfl, rfl, rfl, id⟩, h₁.withPhase .unlocked, rfl,
      hpend, hwork'⟩

/-- The header decides whether there is a native base. -/
theorem World.Open.source_eq_none (h : w.Open E f) (h' : w'.Open E f) (hs : w.store.source = none) :
    w'.store.source = none := by
  cases hs' : w'.store.source with
  | none => rfl
  | some b =>
      obtain ⟨hlen, hne⟩ := h'.based.source b hs'
      rw [← h'.records.header, h.records.header, h.based.sourceless hs] at hlen
      exact absurd (List.length_eq_zero_iff.mp hlen) hne

/-- Finishing a seal whose work shows the committed image. -/
theorem World.Valid.finishWork (h : w.Valid E f) {restore : PublicationPhase}
    (hsource : w.store.source = none) (htxid : w.store.head.txid ≠ 0)
    (hshows : prepared.Shows E (w.store.committedPage E f))
    (hps : prepared.endpoint.size.pageSize.get = w.store.head.pageSize)
    (hrestore : restore ≠ .maintenance)
    (hr : finishWork E G ⟨prepared, .active header head restore, none⟩ w = .ok () w') :
    ∃ f', w'.Valid E f' ∧ w'.store.Settled ∧ w.SameDatabase E f w' f' ∧ w'.store.source = none ∧
      w'.store.publicationOwner = restore := by
  obtain ⟨_, _, hget, hr⟩ := EStateM.bind_eq_ok.mp hr
  cases hget
  split at hr
  · cases hr
  rename_i hpend
  obtain ⟨_, w₁, hlock, hr⟩ := EStateM.bind_eq_ok.mp hr
  obtain ⟨h₁, hsame, howner, hpend₁⟩ := h.acquireMaintenance hlock
  have hs₁ := h₁.settled (hpend₁.trans (by simpa using hpend))
  obtain ⟨w₂, hpublish, rfl⟩ := EStateM.finish_eq_ok.mp hr
  obtain ⟨f', h₂, hs₂, ht₂, hsame₂, hsource₂, howner₂⟩ := h₁.publishWork hs₁
    (h.toOpen.source_eq_none h₁.toOpen hsource) (hsame.txid ▸ htxid) (hsame.committed ▸ hshows)
    (hps.trans hsame.pageSize.symm) hpublish
  have heq : (w₂.updateStore fun s => if restore = .unlocked then s.releaseMaintenance
      else s.transition restore) = w₂.withPhase restore := by
    split
    · rename_i hu
      rw [hu]
      exact World.releaseMaintenance_eq (howner₂.trans howner)
    · simp only [World.updateStore, World.withPhase, Store.transition_eq, howner₂.trans howner]
      rfl
  rw [heq]
  exact ⟨f', ⟨h₂.withPhase _, fun _ => ht₂, fun _ => hs₂.hasPending, hrestore⟩, { hs₂ with },
    ⟨hsame₂.pageSize.trans hsame.pageSize, hsame₂.logicalSize.trans hsame.logicalSize,
      hsame₂.txid.trans hsame.txid, hsame₂.image.trans hsame.committedImage,
      hsame₂.readable ∘ hsame.readable⟩, hsource₂, rfl⟩

/-- **Sealing the records** changes no byte. -/
theorem World.Valid.sealActive (h : w.Valid E f) (hpend : w.store.hasPending = false)
    (hr : sealActive E G w = .ok () w') :
    ∃ f', w'.Valid E f' ∧ w'.store.Settled ∧ w.SameDatabase E f w' f' ∧
      w'.store.publicationOwner = w.store.publicationOwner := by
  obtain ⟨_, _, hget, hr⟩ := EStateM.bind_eq_ok.mp hr
  cases hget
  split at hr
  · cases hr
  rename_i hsource
  have hsource : w.store.source = none := not_not.mp hsource
  obtain ⟨work, w₁, hprepare, hrest⟩ := EStateM.bind_eq_ok.mp hr
  rcases h.prepareActiveWork hprepare with ⟨-, rfl, rfl⟩ |
    ⟨work, rfl, hsame, h₁, howner₁, hpend₁, hwork⟩
  · cases hrest
    exact ⟨f, h, h.settled hpend, ⟨rfl, rfl, rfl, rfl, id⟩, rfl⟩
  · have hs₁ := h₁.settled (hpend₁.trans hpend)
    have hsource₁ := h.toOpen.source_eq_none h₁.toOpen hsource
    obtain ⟨hkind, hshows, -, hps, htxid, -⟩ := h₁.activeWork hs₁ hsource₁ hwork
    simp only [SealWork.prepare, hkind, EStateM.bind_eq_ok, StoreM.ofExcept_eq_ok] at hrest
    obtain ⟨_, _, ⟨prepared, _, ⟨hprep, rfl⟩, hret⟩, hfinish⟩ := hrest
    cases hret
    obtain ⟨hshows', hend, -, -⟩ := SealInput.prepare_spec hshows hprep
    have h₁' : w₁.Valid E f :=
      ⟨h₁, fun hne => absurd howner₁ hne, fun _ => hs₁.hasPending, by simp [howner₁]⟩
    obtain ⟨f', h₂, hs₂, hsame₂, -, howner₂⟩ := h₁'.finishWork hsource₁ htxid hshows'
      (by rw [hend]; exact hps) h.idle hfinish
    exact ⟨f', h₂, hs₂, ⟨hsame₂.pageSize.trans hsame.pageSize,
      hsame₂.logicalSize.trans hsame.logicalSize, hsame₂.txid.trans hsame.txid,
      hsame₂.image.trans hsame.committedImage, hsame₂.readable ∘ hsame.readable⟩, howner₂⟩

end Maintenance

end Zsqlite
