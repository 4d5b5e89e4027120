import Zsqlite.Store.Sealing

set_option autoImplicit false

/-! # Attaching a native base

A store over a native base seals the base chunk by chunk. Each chunk is a seal whose image is the
base itself (`Described.sourceWork`), so every prefix it installs holds the pages of the base; the
last one replaces the base under the committed records (`Described.installSourceBase`) and no byte
changes. The conversion root moves by one chunk a round, which bounds the rounds of a flush.
-/

namespace Zsqlite

open ByteVec Overlay

section Source

variable {E : Env} {w w' : World} {f f' : PageFile} {b : Bytes}

/-- The view holds the pages of a native base, up to its size. -/
structure PinnedView.HoldsSource (E : Env) (view : PinnedView) (ps : Nat) (b : Bytes) : Prop where
  genuine : view.Genuine E
  pageSize : view.size.pageSize.get = ps
  holds : ∀ p, p ≠ 0 → p ≤ view.size.pages → view.metadata.view.HoldsAt E (sourcePage ps b) p

/-! ## The work of a chunk -/

theorem mapM_sourcePage {l : List Nat} {pages : List (Nat × Nat)}
    (h : (l.mapM fun page => do return (← PageNumber.new (← toU32 page), 1)) = .ok pages) :
    pages = l.map (·, 1) := by
  rw [Except.mapM_eq_ok] at h
  induction h with
  | nil => rfl
  | cons ha _ ih =>
      simp only [Except.bind_eq_ok, toU32_eq_ok, PageNumber.new_eq_ok] at ha
      obtain ⟨_, ⟨-, rfl⟩, _, ⟨-, -, rfl⟩, ha⟩ := ha
      cases ha
      rw [ih]
      rfl

/-- What a lookup of the conversion root finds. -/
theorem World.Described.convertedPrefix (h : w.Described E f) (hb : w.store.source = some b)
    {done : Option PinnedView} (hr : w.disk.catalog.convertedPrefix E = .ok done)
    {view : PinnedView} (hv : done = some view)
    (hps : view.size.pageSize.get = w.store.head.pageSize) :
    view.HoldsSource E w.store.head.pageSize b := by
  rcases Catalog.convertedPrefix_eq_ok h.sound hr with ⟨-, hnone⟩ | ⟨pin, v, hpin, hdone, hgen, hhash⟩
  · rw [hnone] at hv
    cases hv
  · cases hdone.symm.trans hv
    exact ⟨hgen, hps, h.converted b hb pin hpin view hgen hhash⟩

/-- **The work of a chunk** shows the native base. -/
theorem World.Described.sourceWork (h : w.Described E f) (hb : w.store.source = some b)
    {work : SealWork} (hr : w.sourceWork E b = .ok work) :
    ∃ done before after, w.disk.catalog.convertedPrefix E = .ok done ∧
      before = (done.elim 0 fun view => view.size.get) ∧
      before ≤ w.store.active.header.sourceBytes ∧
      after = min (before + chunkBytes) w.store.active.header.sourceBytes ∧
      work.kind = .source before after ∧ work.input.Shows E (sourcePage w.store.head.pageSize b) ∧
      work.input.pageSize.get = w.store.head.pageSize ∧ work.input.endpoint.size.get = after := by
  simp only [World.sourceWork, Except.bind_eq_ok, Except.ensure_eq_ok, exists_const] at hr
  obtain ⟨done, hdone, hsame, hle, pageSize, hps, pages, hpages, size, hsize, input, hinput, hr⟩ := hr
  cases hr
  have hget := PageSize.new_eq_ok hps
  obtain ⟨-, hszps⟩ := LogicalBytes.new_eq_ok hsize
  obtain ⟨hend, hpg, hfile, -, -, -, hrepack, hid, hgen, hnamed⟩ := SealInput.new_eq_ok h.sound hinput
  have hpage := mapM_sourcePage hpages
  obtain ⟨hlen, -⟩ := h.based.source b hb
  have hinput_ps : input.pageSize = pageSize := by
    rw [SealInput.pageSize, hend]
    exact hszps
  have hpos := pageSize.pos
  have hdone_ps : ∀ v, done = some v → v.size.pageSize.get = w.store.head.pageSize := by
    rintro v rfl
    simp only [Option.all_some, decide_eq_true_eq] at hsame
    exact hsame.2.2
  obtain ⟨before, hbefore⟩ : ∃ before, (done.elim 0 fun view => view.size.get) = before := ⟨_, rfl⟩
  obtain ⟨after, hafter⟩ : ∃ after, min (before + chunkBytes) w.store.active.header.sourceBytes =
    after := ⟨_, rfl⟩
  rw [hbefore] at hle
  rw [hbefore, hafter] at hsize hpage
  obtain ⟨hsz, -⟩ := LogicalBytes.new_eq_ok hsize
  have hlast : input.endpoint.size.pages = after / pageSize.get := by
    rw [hend]
    show size.get / size.pageSize.get = _
    rw [hsz, hszps]
  -- the pages of the chunk are copied, the others lie in the prefix
  have hcopied : ∀ p t, (p, t) ∈ input.pages → before / pageSize.get + 1 ≤ p ∧
      p ≤ after / pageSize.get := by
    intro p t hpt
    rw [hpg, hpage, List.mem_map] at hpt
    obtain ⟨q, hq, he⟩ := hpt
    cases he
    obtain ⟨hq₁, hq₂⟩ := List.mem_range'_1.mp hq
    exact ⟨hq₁, Nat.lt_succ_iff.mp (by omega)⟩
  have hold : ∀ p, p ≤ after / pageSize.get → (∀ t, (p, t) ∉ input.pages) →
      p ≤ before / pageSize.get := by
    intro p hp hnone
    by_contra hlt
    refine hnone 1 ?_
    rw [hpg, hpage, List.mem_map]
    exact ⟨p, List.mem_range'_1.mpr ⟨by omega, by omega⟩, rfl⟩
  have hprefix : ∀ v, input.source = some v → ∃ u, done = some u ∧
      u.HoldsSource E w.store.head.pageSize b ∧ v.metadata.view.Agrees u.metadata.view := by
    intro v hv
    rw [hv] at hid
    obtain ⟨u, hu, huid⟩ := Option.map_eq_some_iff.mp hid.symm
    have hhold := h.convertedPrefix hb hdone hu (hdone_ps u hu)
    exact ⟨u, hu, hhold, (hgen v hv).agrees hhold.genuine huid.symm⟩
  refine ⟨done, before, after, hdone, hbefore.symm, hle, hafter.symm, by rw [hbefore, hafter],
    ⟨?_, ?_, ?_, ?_, ?_, hnamed⟩, hinput_ps ▸ hget, by rw [hend]; exact hsz⟩
  · intro p t hpt
    obtain ⟨hp₁, hp₂⟩ := hcopied p t hpt
    have hp : p ≠ 0 := Nat.ne_of_gt (Nat.lt_of_lt_of_le (Nat.succ_pos _) hp₁)
    refine ⟨hp, ?_⟩
    show readExactAt input.file ((p - 1) * input.pageSize.get) input.pageSize.get = _
    rw [hfile, hinput_ps, hget]
    refine readExactAt_eq_ok.mpr ⟨rfl, ?_⟩
    have hfit : p * pageSize.get ≤ after := (Nat.le_div_iff_mul_le hpos).mp hp₂
    rw [← hget, ← Nat.succ_mul, Nat.succ_eq_add_one, Nat.sub_add_cancel (Nat.pos_of_ne_zero hp)]
    omega
  · intro v hv
    obtain ⟨u, hu, hhold, hagree⟩ := hprefix v hv
    refine ⟨(hgen v hv).served, PageSize.eq_of_get ?_⟩
    show v.size.pageSize.get = input.pageSize.get
    rw [hinput_ps, hget, ← hhold.pageSize]
    exact congrArg (fun s : LogicalBytes => s.pageSize.get) hagree.size
  · intro v hv p hp0 hp _ hnone
    obtain ⟨u, hu, hhold, hagree⟩ := hprefix v hv
    refine (hhold.holds p hp0 ?_).congr (hagree.version p) (congrArg LogicalBytes.pageSize hagree.size)
    have hle := hold p (hlast ▸ hp) hnone
    rw [← hbefore, hu] at hle
    rw [LogicalBytes.pages, hhold.pageSize, ← hget]
    exact hle
  · rintro p hp0 hp (hnone | ⟨k, hk, -⟩) hfresh
    · have hdone_none : done = none := by
        rw [show input.source = none from hnone] at hid
        simpa using hid.symm
      have := hold p (hlast ▸ hp) hfresh
      rw [← hbefore, hdone_none] at this
      simp at this
      exact absurd this hp0
    · rw [show ({ input with sourcePrefix := true } : SealInput).endpoint = input.endpoint from rfl,
        hend] at hk
      cases hk
  · intro hrep
    rw [show ({ input with sourcePrefix := true } : SealInput).repack = input.repack from rfl,
      hrepack] at hrep
    cases hrep

/-- Installing a chunk records it as the new prefix. -/
theorem World.Described.prepareSource (h : w.Described E f) (hb : w.store.source = some b)
    {work : SealWork} {before after : Nat} (hkind : work.kind = .source before after)
    (hshows : work.input.Shows E (sourcePage w.store.head.pageSize b))
    (hps : work.input.pageSize.get = w.store.head.pageSize)
    (hsize : work.input.endpoint.size.get = after) {out : PreparedWork}
    (hr : work.prepare E w = .ok out w') :
    ∃ prepared view C, out = ⟨prepared, .source before after, some view⟩ ∧ w' = w.setCatalog C ∧
      view.HoldsSource E w.store.head.pageSize b ∧ view.size.get = after ∧
      (w.setCatalog C).Described E f ∧
      ∀ done, C.convertedPrefix E = .ok done → (done.elim 0 fun v => v.size.get) = after := by
  simp only [SealWork.prepare, hkind, EStateM.bind_eq_ok, StoreM.ofExcept_eq_ok] at hr
  obtain ⟨prepared, _, ⟨hprep, rfl⟩, _, _, hget, hr⟩ := hr
  cases hget
  split at hr
  · cases hr
  simp only [EStateM.bind_eq_ok, EStateM.liftExcept_eq_ok, StoreM.ofExcept_eq_ok,
    StoreM.onCatalog_eq_ok] at hr
  obtain ⟨_, _, ⟨-, rfl⟩, _, _, ⟨-, rfl⟩, ⟨C, durable⟩, _, ⟨hinstall, rfl⟩, _, _, hset, view, _,
    ⟨hpin, rfl⟩, _, _, ⟨C', hretain, rfl⟩, hr⟩ := hr
  cases hset
  cases hr
  obtain ⟨hshows', hend, -, -⟩ := SealInput.prepare_spec hshows hprep
  obtain ⟨hC, hload, -, hvsize, -, hhold⟩ := PreparedSeal.install_spec h.sound hshows' hinstall
  obtain ⟨hid, hload', -⟩ := Catalog.pin_spec hC hpin
  have hgen := (Catalog.pin_genuine hC hpin).2
  have hmeta : view.metadata = durable.metadata := Except.ok.inj (hload'.symm.trans hload)
  have hview : view.size = work.input.endpoint.size := by rw [PinnedView.size, hmeta, hvsize, hend]
  have hsource : view.HoldsSource E w.store.head.pageSize b := by
    refine ⟨hgen, by rw [hview]; exact hps, fun p hp0 hp => ?_⟩
    rw [hmeta]
    exact hhold p hp0 (by rw [hend, ← hview]; exact hp)
  -- the new root names the endpoint of the view just installed
  simp only [Catalog.retainConversion, Except.bind_eq_ok, Except.ensure_eq_ok, exists_const] at hretain
  obtain ⟨validated, hvalidated, -, -, -, hretain⟩ := hretain
  cases hretain
  obtain ⟨hvid, hvgen⟩ := Catalog.pin_genuine hC hvalidated
  have hagree := hvgen.agrees hgen hvid
  have hroot : ∀ v : PinnedView, v.Genuine E →
      v.metadata.view.logicalHash E = validated.metadata.view.logicalHash E →
      v.metadata.view.Agrees view.metadata.view := by
    intro v hv hhash
    have := ViewMetadata.agrees_of_logicalHash hv.served.resolved.toConsistent
      hvgen.served.resolved.toConsistent hhash
    exact ⟨this.size.trans hagree.size, this.txid.trans hagree.txid, this.history.trans hagree.history,
      this.database.trans hagree.database, fun p => (this.version p).trans (hagree.version p)⟩
  refine ⟨prepared, view, _, rfl, rfl, hsource, by rw [hview, hsize], h.withCatalog ⟨hC.pack, hC.manifest⟩ ?_, ?_⟩
  · intro b' hb' pin hpin v hv hhash p hp0 hp
    cases hb.symm.trans hb'
    cases hpin
    have := hroot v hv hhash
    refine (hsource.holds p hp0 ?_).congr (this.version p) (congrArg LogicalBytes.pageSize this.size)
    have hsz : v.size = view.size := this.size
    exact hsz ▸ hp
  · intro done hdone
    rcases Catalog.convertedPrefix_eq_ok (by exact ⟨hC.pack, hC.manifest⟩) hdone with ⟨hnone, -⟩ |
      ⟨pin, v, hpin, rfl, hv, hhash⟩
    · cases hnone
    · cases hpin
      exact (congrArg LogicalBytes.get (hroot v hv hhash).size).trans (by rw [← hsize, ← hview]; rfl)

/-! ## Replacing the base -/

/-- Stores with nothing pending and the same records read the same page where their bases do. -/
theorem World.Open.committedPage_eq_of_base (h : w.Open E f) (h' : w'.Open E f')
    (hs : w.store.Settled) (hs' : w'.store.Settled) (hslots : f'.slots = w.store.liveSlots f)
    (hrecords : w'.store.active.activeRecords = w.store.active.activeRecords)
    (hps : w'.store.head.pageSize = w.store.head.pageSize)
    (hcut : w'.store.active.truncatePages = w.store.active.truncatePages) {p : Nat}
    (hbase : basePage E w'.store.head.pageSize w'.store.view w'.store.source p =
      basePage E w.store.head.pageSize w.store.view w.store.source p) :
    w'.store.committedPage E f' p = w.store.committedPage E f p := by
  rw [← hs.pendingPage h.records, ← hs'.pendingPage h'.records]
  have hread : w'.store.active.activeRecords[p]?.bind f'.readPayload =
      w.store.active.activeRecords[p]?.bind f.readPayload := by
    rw [hrecords]
    cases hp : w.store.active.activeRecords[p]? with
    | none => rfl
    | some offset =>
        obtain ⟨i, r, hr, -, rfl, hi⟩ := h.records.slot hp
        simp [PageFile.readPayload, h.records.fileSize, h'.records.fileSize, hps, hslots,
          Store.liveSlots, hi]
  rw [hps] at hbase
  simp only [Store.pendingPage, Overlay.pending, Overlay.floor, Store.overlay, hs.mark, hs'.mark, hread,
    hbase, hcut, hps, hs.raw, hs'.raw]

/-- The pages of the native base are those of a view that holds all of it. -/
theorem PinnedView.HoldsSource.basePage {view : PinnedView} {ps p : Nat}
    (h : view.HoldsSource E ps b) (hsize : view.size.get = b.length) (hp : p ≠ 0) :
    Zsqlite.basePage E ps (some view) none p = Zsqlite.basePage E ps none (some b) p := by
  rcases Nat.lt_or_ge view.size.pages p with hlt | hle
  · rw [basePage_above hlt]
    refine (window_eq_zeros ?_).symm
    rw [← hsize, ← view.size.pages_mul, h.pageSize]
    exact Nat.mul_le_mul_right ps (by omega)
  · exact basePage_of_readPage (PinnedView.readPage_of_holds h.genuine.served hle (h.holds p hp hle))

theorem installSourceBase_eq_ok {view : PinnedView} (hf : w.activeFile = .ok f)
    (hr : installSourceBase E view w = .ok () w') :
    ∃ C C' w₁, w.disk.catalog.prepareSeal (w.store.attachedHeader view) = .ok C ∧
      loadLocal E w.disk.nextInode (w.store.attachedHeader view) (some view)
        ((w.setCatalog C).install (w.store.attachedFile view
          (f.slots.take (slotIndex f.header.pageSize w.store.head.activeCommitEnd)))) = .ok () w₁ ∧
      w₁.disk.catalog.finishSeal (w.store.attachedHeader view) = .ok C' ∧ w' = w₁.setCatalog C' := by
  simp only [Zsqlite.installSourceBase, EStateM.bind_eq_ok, EStateM.liftExcept_eq_ok,
    StoreM.ofExcept_eq_ok, StoreM.onCatalog_eq_ok] at hr
  obtain ⟨_, _, hget, _, _, ⟨hfile, rfl⟩, _, _, ⟨-, rfl⟩, _, _, ⟨C, hC, rfl⟩, _, _, hget', _, _, hset, _,
    w₁, hload, C', hC', rfl⟩ := hr
  cases hget
  cases hf.symm.trans hfile
  cases hget'
  cases hset
  exact ⟨C, C', w₁, hC, hload, hC', rfl⟩

theorem Store.Records.slots_committed {s : Store} (h : s.Records f) (hs : s.Settled) :
    f.slots.take (slotIndex f.header.pageSize s.head.activeCommitEnd) = s.liveSlots f := by
  obtain ⟨n, hn, hend⟩ := h.committedEnd
  have hcount : s.active.activeRecords.size = n := by
    have hsize := (h.indexed_of_settled hs hend).size_eq
    have := h.live
    rw [List.length_take] at hsize
    omega
  rw [h.fileSize, hend, slotIndex_recordOffset, Store.liveSlots, hcount]

/-- The header over an attached base passes its check. -/
theorem Store.valid_attachedHeader {s : Store} {view : PinnedView}
    (h : view.size.pageSize.get = s.active.header.pageSize) :
    (s.attachedHeader view).valid = true := by
  have hvalid := view.size.pageSize.valid
  have hdvd := view.size.aligned
  have hpos := view.size.pageSize.pos
  rw [h] at hvalid hdvd hpos
  simp [ActiveHeader.valid, Store.attachedHeader, hvalid, hdvd, Nat.ne_of_gt hpos]

theorem Store.current_attachedFile (s : Store) (view : PinnedView) (slots : List RawRecord) :
    (s.attachedFile view slots).Current (s.attachedState view) :=
  ⟨rfl, fun _ h => by simp [PageFile.sector, Store.attachedFile, Store.attachedState] at h⟩

/-- **Attaching the native base** as a view changes no byte. -/
theorem World.Described.installSourceBase (h : w.Described E f) (hs : w.store.Settled)
    (hb : w.store.source = some b) {view : PinnedView}
    (hview : view.HoldsSource E w.store.head.pageSize b) (hsize : view.size.get = b.length)
    (hr : installSourceBase E view w = .ok () w') :
    ∃ f', w'.Described E f' ∧ w'.store.Settled ∧ w'.store.Trimmed f' ∧ w.SameDatabase E f w' f' ∧
      w'.store.source = none ∧ w'.store.publicationOwner = w.store.publicationOwner := by
  obtain ⟨C, C', w₁, hC, hload, hC', rfl⟩ := installSourceBase_eq_ok h.activeFile hr
  rw [h.records.slots_committed hs] at hload
  have hvalid := Store.valid_attachedHeader (hview.pageSize.trans h.records.pageSize.symm)
  have hcur := w.store.current_attachedFile view (w.store.liveSlots f)
  obtain ⟨state, hstate, hopen, hinode, hpub, hset, hanch, hdisk, hview', -, -, howner⟩ :=
    loadLocal_spec (w := (w.setCatalog C).install (w.store.attachedFile view (w.store.liveSlots f)))
      (f := w.store.attachedFile view (w.store.liveSlots f)) (by simp [World.install, World.setCatalog, Disk.install]) rfl hvalid
      (fun r hr => (h.records.payload r (List.mem_of_mem_take hr)).trans h.records.pageSize.symm) rfl
      (fun v hv => by cases hv; exact hview.genuine) h.based.cache h.based.genuine hload
  cases hcur.readActiveState hstate
  have hps : w₁.store.head.pageSize = w.store.head.pageSize := hpub.pageSize.symm
  have hlogical : w₁.store.head.logicalSize = w.store.head.logicalSize := hpub.logicalSize.symm
  have htxid : w₁.store.head.txid = w.store.head.txid := hpub.txid.symm
  have hcut : w₁.store.active.truncatePages = w.store.active.truncatePages := hpub.truncatePages.symm
  have hheader : w₁.store.active.header = w.store.attachedHeader view := hopen.records.header.symm
  have hsource : w₁.store.source = none := by
    cases hs₁ : w₁.store.source with
    | none => rfl
    | some b' =>
        obtain ⟨hlen, hne⟩ := hopen.based.source b' hs₁
        rw [hheader] at hlen
        exact absurd (List.length_eq_zero_iff.mp hlen) hne
  have hviewless : w.store.view = none := by
    cases hv : w.store.view with
    | none => rfl
    | some v => exact absurd (hb.symm.trans (h.of_view hv).1) (by simp)
  have hrecords : w₁.store.active.activeRecords = w.store.active.activeRecords := by
    have hindexed := hopen.records.indexed_of_settled hset hpub.recordCount
    rw [show (w.store.attachedFile view (w.store.liveSlots f)).slots.take
        (w.store.attachedState view).recordCount = w.store.liveSlots f from by
      simp [Store.attachedFile, Store.attachedState, Store.liveSlots], hps] at hindexed
    exact hindexed.unique h.records.indexed
  have hpage : ∀ p, p ≠ 0 →
      w₁.store.committedPage E (w.store.attachedFile view (w.store.liveSlots f)) p =
        w.store.committedPage E f p := by
    intro p hp
    refine h.toOpen.committedPage_eq_of_base hopen hs hset rfl hrecords hps hcut ?_
    rw [hview', hsource, hps, hviewless, hb]
    exact hview.basePage hsize hp
  have hset' : (w₁.setCatalog C').store.Settled := hset
  refine ⟨_, .of_settled ⟨hopen.file, hopen.records, hopen.based⟩ hset' ?_ ⟨_, hcur, hpub⟩ ?_ hanch ?_
    (hrecords ▸ h.numbered) ?_ ?_ ?_ ?_, hset', ?_,
    ⟨hps, hlogical, htxid, ?_, fun _ => ⟨_, hstate⟩⟩, hsource, howner⟩
  · rw [show (w₁.setCatalog C').store.active.file = w.disk.nextInode from hinode]
    show _ = w₁.disk.installed
    rw [hdisk]
    rfl
  · refine (Catalog.finishSeal_same hC').1.sound ?_
    rw [hdisk]
    exact (Catalog.prepareSeal_same hC).1.sound h.sound
  · -- an attached base that no commit follows had none before
    have hbytes : w.store.active.header.sourceBytes ≠ 0 := by
      obtain ⟨hlen, hne⟩ := h.based.source b hb
      exact fun h₀ => hne (List.length_eq_zero_iff.mp (hlen.trans h₀))
    refine ⟨fun hne => absurd (by rw [show (w₁.setCatalog C').store = w₁.store from rfl, hheader]; rfl) hne,
      fun hle => ?_⟩
    have hle : w.store.head.txid ≤ w.store.baseTxid := by
      have : w₁.store.head.txid ≤ w₁.store.baseTxid := hle
      rw [htxid, Store.baseTxid, hheader] at this
      rw [Store.baseTxid, if_neg hbytes]
      exact this
    obtain ⟨hend, hnone⟩ := h.fresh.empty hle
    have hempty := h.records.indexed_of_settled hs (n := 0) (by rw [hend, recordOffset_zero])
    refine ⟨?_, hcut.trans hnone⟩
    show w₁.store.head.activeCommitEnd = _
    rw [hpub.recordCount, ← recordOffset_zero w₁.store.head.pageSize]
    congr 1
    exact hempty.size_eq
  · intro i hi
    have := h.zeroCommitted i (by rw [← hlogical]; exact hi)
    show pageByte w₁.store.head.pageSize (w₁.store.committedPage E _) i = 0
    rw [pageByte, hpage _ (Nat.succ_ne_zero _), hps]
    exact this
  · show ∀ k, w₁.store.active.truncatePages = some k → k * w₁.store.head.pageSize ≤ w₁.store.head.logicalSize
    rw [hcut, hps, hlogical]
    exact h.mark
  · intro h₀
    have hu := h.unknown (hps ▸ h₀)
    exact ⟨hlogical.trans hu.logicalSize, htxid.trans hu.txid, hrecords.trans hu.records⟩
  · exact fun b' hb' => absurd (hsource.symm.trans hb') (by simp)
  · show w₁.store.active.activeRecords.size = (w.store.liveSlots f).length
    rw [hrecords]
    exact h.records.indexed.size_eq
  · show paged w₁.store.head.pageSize (w₁.store.committedPage E _) w₁.store.head.logicalSize = _
    rw [hps, hlogical]
    exact paged_congr fun i _ => hpage _ (Nat.succ_ne_zero _)

/-! ## Rounds of a flush -/

/-- The world after the native base is unlinked. -/
def World.withoutSource (w : World) : World := { w with disk := { w.disk with source := none } }

theorem World.Described.withoutSource (h : w.Described E f) (hs : w.store.source = none) :
    w.withoutSource.Described E f :=
  { h with
    toOpen := ⟨h.file, h.records, h.based⟩
    source := fun b hb => absurd (hs.symm.trans hb) (by simp) }

/-- Finishing a chunk attaches the base when the chunk was the last, and changes no byte. -/
theorem World.Valid.finishSourceWork (h : w.Valid E f) (hpend : w.store.hasPending = false)
    (hb : w.store.source = some b) {view : PinnedView} {after : Nat}
    (hview : view.HoldsSource E w.store.head.pageSize b) (hsize : view.size.get = after)
    (hle : after ≤ w.store.active.header.sourceBytes)
    (hr : finishSourceWork E view after w = .ok () w') :
    after < w.store.active.header.sourceBytes ∧ w' = w ∨
    ∃ f', w'.Valid E f' ∧ w'.store.Settled ∧ w.SameDatabase E f w' f' ∧ w'.store.source = none ∧
      w'.store.publicationOwner = .unlocked := by
  obtain ⟨_, _, hget, hr⟩ := EStateM.bind_eq_ok.mp hr
  cases hget
  split at hr
  · cases hr
    exact .inl ⟨‹_›, rfl⟩
  rename_i hlast
  split at hr
  · cases hr
  right
  obtain ⟨_, w₁, hlock, hr⟩ := EStateM.bind_eq_ok.mp hr
  obtain ⟨h₁, hsame, howner, hpend₁⟩ := h.acquireMaintenance hlock
  have hs₁ := h₁.settled (hpend₁.trans hpend)
  obtain ⟨w₂, hattach, rfl⟩ := EStateM.finish_eq_ok.mp hr
  have hheader : w₁.store.active.header = w.store.active.header :=
    h₁.records.header.symm.trans h.records.header
  have hb₁ : w₁.store.source = some b := hsame.source.trans hb
  have hlen : after = b.length := by
    have := (h.based.source b hb).1
    omega
  -- the last chunk is attached
  obtain ⟨w₃, C, hinstall, hrelease, rfl⟩ : ∃ w₃ C, Zsqlite.installSourceBase E view w₁ = .ok () w₃ ∧
      w₃.disk.catalog.releaseConversion = .ok C ∧
      w₂ = (w₃.setCatalog C).withoutSource := by
    obtain ⟨_, _, hget, hattach⟩ := EStateM.bind_eq_ok.mp hattach
    cases hget
    rw [if_neg (by simp [hb₁])] at hattach
    obtain ⟨done, _, hdone, hattach⟩ := EStateM.bind_eq_ok.mp hattach
    obtain ⟨-, rfl⟩ := EStateM.liftExcept_eq_ok.mp hdone
    cases done with
    | none => cases hattach
    | some current =>
        simp only [EStateM.bind_eq_ok, EStateM.liftExcept_eq_ok] at hattach
        obtain ⟨_, _, ⟨-, rfl⟩, hattach⟩ := hattach
        rw [if_pos (by rw [hheader]; omega)] at hattach
        simp only [EStateM.bind_eq_ok, StoreM.onCatalog_eq_ok] at hattach
        obtain ⟨_, w₃, hinstall, _, _, ⟨C, hC, rfl⟩, hset⟩ := hattach
        cases hset
        exact ⟨w₃, C, hinstall, hC, rfl⟩
  obtain ⟨f', h₃, hs₃, ht₃, hsame₃, hsource₃, howner₃⟩ := h₁.installSourceBase hs₁ hb₁
    (hsame.pageSize ▸ hview) (hsize.trans hlen) hinstall
  have h₄ := (h₃.withCatalog ((Catalog.releaseConversion_same hrelease).sound h₃.sound)
    (by simp [hsource₃])).withoutSource hsource₃
  rw [World.releaseMaintenance_eq (w := (w₃.setCatalog C).withoutSource) (howner₃.trans howner)]
  exact ⟨f', ⟨h₄.withPhase .unlocked, fun hne => absurd rfl hne, fun _ => hs₃.hasPending,
    by simp [World.withPhase, World.updateStore]⟩, { hs₃ with },
    ⟨hsame₃.pageSize.trans hsame.pageSize, hsame₃.logicalSize.trans hsame.logicalSize,
      hsame₃.txid.trans hsame.txid, hsame₃.image.trans hsame.committedImage,
      hsame₃.readable ∘ hsame.readable⟩, hsource₃, rfl⟩

theorem prepareSourceWork_eq_ok (hb : w.store.source = some b) {work : Option SealWork}
    (hr : prepareSourceWork E w = .ok work w') :
    work = none ∨ w.store.hasPending = false ∧ w' = w ∧
      ∃ work', work = some work' ∧ w.sourceWork E b = .ok work' := by
  obtain ⟨_, _, hget, hr⟩ := EStateM.bind_eq_ok.mp hr
  cases hget
  simp only [hb] at hr
  split at hr
  · cases hr
    exact .inl rfl
  · split at hr
    · cases hr
    · rename_i hbusy
      obtain ⟨work', hof, rfl⟩ := EStateM.map_eq_ok.mp hr
      obtain ⟨hwork, rfl⟩ := EStateM.liftExcept_eq_ok.mp hof
      exact .inr ⟨by simpa using (not_or.mp hbusy).1, rfl, work', rfl, hwork⟩

variable {G : Collector}

theorem flushSource_done {fuel : Nat} (h : w.store.source = none) :
    flushSource E G fuel w = .ok () w := by
  cases fuel with
  | zero => rfl
  | succ fuel => exact (congrFun (if_pos h) w :)

/-- **Flushing the native base** ends with the base attached and changes no byte. Each round that
does not attach it moves the conversion root by a chunk, so the rounds suffice. -/
theorem World.Valid.flushSource (h : w.Valid E f) {fuel n : Nat}
    (hprogress : ∀ done, w.disk.catalog.convertedPrefix E = .ok done →
      n ≤ done.elim 0 fun view => view.size.get)
    (hn : n ≤ w.store.active.header.sourceBytes)
    (hfuel : w.store.active.header.sourceBytes < n + fuel * chunkBytes)
    (hr : flushSource E G fuel w = .ok () w') :
    ∃ f', w'.Valid E f' ∧ w'.store.source = none ∧
      w'.store.pendingImage E f' = w.store.pendingImage E f ∧
      w'.store.committedImage E f' = w.store.committedImage E f ∧
      w'.store.head.pageSize = w.store.head.pageSize ∧ (f.Readable → f'.Readable) := by
  induction fuel generalizing w f n with
  | zero => omega
  | succ fuel ih =>
      obtain ⟨_, _, hget, hr⟩ := EStateM.bind_eq_ok.mp hr
      cases hget
      split at hr
      · rename_i hsource
        cases hr
        exact ⟨f, h, hsource, rfl, rfl, rfl, id⟩
      rename_i hsource
      obtain ⟨b, hb⟩ := Option.ne_none_iff_exists'.mp hsource
      obtain ⟨work, w₁, hprepare, hrest⟩ := EStateM.bind_eq_ok.mp hr
      rcases prepareSourceWork_eq_ok hb hprepare with rfl | ⟨hpend, rfl, work, rfl, hwork⟩
      · cases hrest
      obtain ⟨done, before, after, hdone, hbefore, hle, hafter, hkind, hshows, hps, hsize⟩ :=
        h.sourceWork hb hwork
      obtain ⟨out, w₂, hprep, hrest⟩ := EStateM.bind_eq_ok.mp hrest
      obtain ⟨_, w₃, hfinish, hloop⟩ := EStateM.bind_eq_ok.mp hrest
      obtain ⟨prepared, view, C, rfl, rfl, hview, hvsize, h₂, hprogress₂⟩ :=
        h.toDescribed.prepareSource hb hkind hshows hps hsize hprep
      have h₂' : (w₁.setCatalog C).Valid E f := ⟨h₂, h.trimmed, h.unlocked, h.idle⟩
      have hlower := hbefore ▸ hprogress done hdone
      rcases h₂'.finishSourceWork hpend hb hview hvsize (hafter ▸ Nat.min_le_right _ _) hfinish with
        ⟨hlt, rfl⟩ | ⟨f₃, h₃, hs₃, hsame, hsource₃, -⟩
      · -- the root has moved by a whole chunk
        have hlt : after < w₁.store.active.header.sourceBytes := hlt
        have hchunk : after = before + chunkBytes := by omega
        exact ih (w := w₁.setCatalog C) h₂' (n := n + chunkBytes) (fun done hdone => by rw [hprogress₂ done hdone]; omega)
          (show n + chunkBytes ≤ w₁.store.active.header.sourceBytes by omega)
          (show w₁.store.active.header.sourceBytes < n + chunkBytes + fuel * chunkBytes by
            rw [Nat.succ_mul] at hfuel
            omega) hloop
      · cases (flushSource_done hsource₃).symm.trans hloop
        have himage : w'.store.committedImage E f₃ = w₁.store.committedImage E f := hsame.image
        refine ⟨f₃, h₃, hsource₃, ?_, himage, hsame.pageSize, hsame.readable⟩
        rw [h₃.image_of_settled hs₃, himage, h.image_of_settled (h.settled hpend)]

/-- **A flush** publishes the pending image and changes no byte of it. -/
theorem World.Valid.flushSidecars (h : w.Valid E f) (hr : flushSidecars E G w = .ok () w') :
    ∃ f', w'.Valid E f' ∧ w'.store.pendingImage E f' = w.store.pendingImage E f ∧
      w'.store.committedImage E f' = w.store.pendingImage E f ∧
      (w.store.head.pageSize ∣ w.store.pendingSize → f.Readable → f'.Readable) := by
  obtain ⟨_, _, hget, hr⟩ := EStateM.bind_eq_ok.mp hr
  cases hget
  obtain ⟨_, w₁, hsource, hr⟩ := EStateM.bind_eq_ok.mp hr
  obtain ⟨f₁, h₁, -, hpending₁, -, hps₁, hread₁⟩ := h.flushSource (n := 0) (fun _ _ => Nat.zero_le _)
    (Nat.zero_le _) (by
      have := Nat.lt_div_mul_add (a := w.store.active.header.sourceBytes) (b := chunkBytes) (by decide)
      rw [Store.sourceChunks, Nat.add_mul]
      omega) hsource
  obtain ⟨_, w₂, hbegin, hr⟩ := EStateM.bind_eq_ok.mp hr
  obtain ⟨f₂, h₂, hsame₂, -, -, -⟩ := h₁.beginWrite hbegin
  obtain ⟨_, _, hget, hr⟩ := EStateM.bind_eq_ok.mp hr
  cases hget
  obtain ⟨_, w₃, hpublish, hr⟩ := EStateM.bind_eq_ok.mp hr
  -- what was pending is published first
  obtain ⟨f₃, h₃, hpend₃, himage₃, hread₃⟩ : ∃ f₃, w₃.Valid E f₃ ∧ w₃.store.hasPending = false ∧
      w₃.store.committedImage E f₃ = w.store.pendingImage E f ∧
      (w.store.head.pageSize ∣ w.store.pendingSize → f.Readable → f₃.Readable) := by
    have himage := hsame₂.pendingImage.trans hpending₁
    have hsize : w₂.store.pendingSize = w.store.pendingSize := by
      simpa using congrArg List.length himage
    split at hpublish
    · obtain ⟨_, w₄, hpublish, hbegin⟩ := EStateM.bind_eq_ok.mp hpublish
      obtain ⟨f₄, h₄, -, hcommitted, hs₄, hread₄⟩ := h₂.publishInner hpublish
      obtain ⟨f₃, h₃, hsame₃, -, -, hs₃, -⟩ := h₄.beginWrite hbegin
      refine ⟨f₃, h₃, hs₃.trans hs₄, (hsame₃.committedImage.trans hcommitted).trans himage,
        fun hdvd hread => hsame₃.readable ((hread₄ (hsame₂.readable (hread₁ hread))).mpr ?_)⟩
      rwa [hsame₂.pageSize, hps₁, hsize]
    · rename_i hs₂
      have hs₂ : w₂.store.hasPending = false := by simpa using hs₂
      cases hpublish
      exact ⟨f₂, h₂, hs₂, (h₂.image_of_settled (h₂.settled hs₂)).symm.trans himage,
        fun _ hread => hsame₂.readable (hread₁ hread)⟩
  have hend : ∀ {w₄ : World} {f₄ : PageFile}, w₄.Valid E f₄ → w₄.store.hasPending = false →
      w₄.store.committedImage E f₄ = w.store.pendingImage E f →
      (w.store.head.pageSize ∣ w.store.pendingSize → f.Readable → f₄.Readable) → ∃ f', (w₄.updateStore Store.releasePublication).Valid E f' ∧
        (w₄.updateStore Store.releasePublication).store.pendingImage E f' = w.store.pendingImage E f ∧
        (w₄.updateStore Store.releasePublication).store.committedImage E f' =
          w.store.pendingImage E f ∧
        (w.store.head.pageSize ∣ w.store.pendingSize → f.Readable → f'.Readable) := by
    intro w₄ f₄ h₄ hs₄ himage hread
    obtain ⟨h₅, hsame₅, -⟩ := h₄.endPublication hs₄ false
    exact ⟨f₄, h₅, (hsame₅.pendingImage.trans (h₄.image_of_settled (h₄.settled hs₄))).trans himage,
      hsame₅.committedImage.trans himage, fun hdvd hf => hsame₅.readable (hread hdvd hf)⟩
  obtain ⟨_, _, hget, hr⟩ := EStateM.bind_eq_ok.mp hr
  cases hget
  split at hr
  · cases hr
    exact hend h₃ hpend₃ himage₃ hread₃
  · obtain ⟨_, w₄, hseal, hr⟩ := EStateM.bind_eq_ok.mp hr
    cases hr
    obtain ⟨f₄, h₄, hs₄, hsame₄, -⟩ := h₃.sealActive hpend₃ hseal
    exact hend h₄ hs₄.hasPending (hsame₄.image.trans himage₃)
      fun hdvd hread => hsame₄.readable (hread₃ hdvd hread)

end Source

end Zsqlite
