import Zsqlite.Store.Invariant

set_option autoImplicit false

/-! # The first transaction

A new database has no page size. Its bytes are collected in a bootstrap file until a write brings
the SQLite header; the active file is then replaced by one with the page size the header declares
and the bootstrap file is moved into records. This module has what replacing the active file does
(`createActive_eq_ok`, `World.Open.adopted`) and the calls of a first transaction.
-/

namespace Zsqlite

open ByteVec Overlay

/-- The world with a new file at the database path. -/
def World.install (w : World) (f : PageFile) : World := { w with disk := w.disk.install f }

section Replace

variable {E : Env} {w w' : World} {f : PageFile} {base : ActiveBase} {policy : StoragePolicyRecord}
  {announce : Bool} {active : ActiveFile}

/-- Everything a successful replacement of the active file does. -/
theorem createActive_eq_ok (hr : createActive base policy announce w = .ok active w') :
    ∃ parent C, base.validate w.store.active.header.databaseId w.store.head = .ok parent ∧
      w.store.head.txid + 1 ≤ u64Max ∧
      (if announce then w.disk.catalog.prepareSeal (w.store.nextHeader base parent policy) = .ok C
        else C = w.disk.catalog) ∧
      active = ⟨w.disk.nextInode, w.store.nextHeader base parent policy, 1, ∅, none⟩ ∧
      w' = (w.setCatalog C).install
        ((w.store.nextHeader base parent policy).emptyFile w.store.head) := by
  simp only [createActive, EStateM.bind_eq_ok, EStateM.liftExcept_eq_ok, checkedAdd_eq_ok] at hr
  obtain ⟨_, _, hget, parent, _, ⟨hparent, rfl⟩, _, _, ⟨⟨hfit, -⟩, rfl⟩, _, w₁, hannounce, _, _, hget',
    _, _, hinstall, hr⟩ := hr
  cases hget
  cases hget'
  cases hinstall
  cases hr
  cases announce with
  | true =>
      rw [if_pos rfl] at hannounce
      obtain ⟨C, hC, rfl⟩ := StoreM.onCatalog_eq_ok.mp hannounce
      exact ⟨parent, C, hparent, hfit, hC, rfl, rfl⟩
  | false =>
      cases hannounce
      exact ⟨parent, _, hparent, hfit, rfl, rfl, rfl⟩

/-- The world after a store has replaced its active file and moved to the base `view`. -/
def World.adopt (w : World) (view : Option PinnedView) (header : ActiveHeader) : World :=
  (w.install (header.emptyFile w.store.head)).updateStore fun s =>
    { s with view }.adoptActive ⟨w.disk.nextInode, header, 1, ∅, none⟩

variable {view : Option PinnedView} {header : ActiveHeader}

/-- A store on a new file has no record, so it shows its base. -/
theorem World.Open.adopt (hvalid : header.valid = true)
    (hps : header.pageSize = w.store.head.pageSize) (hraw : w.store.pendingRawPages = ∅)
    (horiginals : w.store.pendingRawOriginals = ∅)
    (hview : view.map PinnedView.id = header.parentPhysicalDigest)
    (hgenuine : ∀ v, view = some v → v.Genuine E)
    (hsize : ∀ v, view = some v → v.size.pageSize.get = w.store.head.pageSize)
    (hsource : ∀ b, w.store.source = some b → b.length = header.sourceBytes ∧ b ≠ [])
    (hsourceless : w.store.source = none → header.sourceBytes = 0)
    (hidentified : ∀ b, w.store.source = some b → header.Identifies E b)
    (hcache : w.store.pageCache.Fits w.store.view)
    (hold : ∀ v, w.store.view = some v → v.Genuine E) :
    (w.adopt view header).Open E (header.emptyFile w.store.head) where
  file := by simp [World.adopt, World.install, Disk.install, World.updateStore, Store.adoptActive,
    Store.synchronizeReadCache]
  records := by
    constructor
    · rfl
    · exact hps
    · exact Nat.zero_le _
    · exact .nil
    · exact ⟨0, Nat.le_refl 0, (recordOffset_zero _).symm⟩
    · simp [ActiveHeader.emptyFile]
    · simp [World.adopt, World.updateStore, Store.adoptActive, Store.synchronizeReadCache,
        World.install, horiginals]
    · simp [World.adopt, World.updateStore, Store.adoptActive, Store.synchronizeReadCache,
        World.install, hraw]
    · simp [World.adopt, World.updateStore, Store.adoptActive, Store.synchronizeReadCache,
        World.install, hraw]
    · simp [World.adopt, World.updateStore, Store.adoptActive, Store.synchronizeReadCache]
    · simp [World.adopt, World.updateStore, Store.adoptActive, Store.synchronizeReadCache]
  based := by
    refine ⟨hvalid, hview, hgenuine, hsize, hsource, hsourceless, hidentified, ?_⟩
    refine hcache.synchronize (fun a b ha hb hid => ?_) _
    exact funext ((hold a ha).agrees (hgenuine b hb) hid).version

/-- The first state of the new file. -/
theorem ActiveHeader.current_emptyFile (header : ActiveHeader) (head : HeadState) :
    (header.emptyFile head).Current (initialState header head) :=
  ⟨rfl, fun _ h => by simp [PageFile.sector, initialState, ActiveHeader.emptyFile] at h⟩

/-- The first state of an aligned size can be read. -/
theorem ActiveHeader.readable_emptyFile {header : ActiveHeader} {head : HeadState}
    (hps : validPageSize head.pageSize = true) (hdvd : head.pageSize ∣ head.logicalSize) :
    (header.emptyFile head).Readable := by
  have hne : head.pageSize ≠ 0 := by
    have := le_of_validPageSize hps
    omega
  refine ⟨initialState header head, ?_⟩
  simp [readActiveState, readSector, ActiveHeader.emptyFile, initialState, ActiveState.valid, hps, hdvd,
    hne]

/-- The first state describes the store that adopts the new file. -/
theorem World.published_adopt (w : World) :
    (w.adopt view header).store.Published (initialState header w.store.head) :=
  ⟨rfl, rfl, rfl, rfl, rfl, rfl, (recordOffset_zero _).symm, rfl⟩

end Replace

/-! ## Collecting bytes before the header is known -/

section Unsized

variable {E : Env} {w w' : World} {f : PageFile} {offset : Nat} {input : Bytes}

/-- Without a page size there is no base. -/
theorem World.Open.baseless (h : w.Open E f) (h₀ : w.store.head.pageSize = 0) :
    w.store.view = none ∧ w.store.source = none := by
  constructor
  · cases hv : w.store.view with
    | none => rfl
    | some v =>
        have := h.based.viewSize v hv
        have hpos := v.size.pageSize.pos
        omega
  · cases hs : w.store.source with
    | none => rfl
    | some b =>
        obtain ⟨hlen, hne⟩ := h.based.source b hs
        have hbytes : w.store.active.header.sourceBytes ≠ 0 := fun h => hne (by simp_all)
        have := (ActiveHeader.source_aligned h.based.valid hbytes).1
        exact absurd (h.records.pageSize.trans h₀) this

/-- The world with another bootstrap file and size, dirty. -/
def World.withBootstrap (w : World) (file : Option Bytes) (size : Nat) : World :=
  w.updateStore fun s => { s with bootstrap := file, pendingSize := size, pendingDirty := true }

/-- Changing the bootstrap file changes no layer. -/
theorem World.Valid.withBootstrap (h : w.Valid E f) (h₀ : w.store.head.pageSize = 0)
    (howner : w.store.publicationOwner ≠ .unlocked) {file : Option Bytes} {size : Nat}
    (hfit : (file.getD []).length ≤ size) : (w.withBootstrap file size).Valid E f := by
  have hu := h.unknown h₀
  exact {
    toOpen := ⟨h.file, { h.records with }, { h.based with }⟩
    installed := h.installed
    current := by
      obtain ⟨state, hc, hp⟩ := h.current
      exact ⟨state, hc, { hp with }⟩
    sound := h.sound
    anchored := { h.anchored with }
    fresh := { h.fresh with }
    numbered := h.numbered
    settled := fun hs => by simp [World.withBootstrap, World.updateStore, Store.hasPending] at hs
    zeroPending := fun i _ => by
      show (w.store.pendingPage E f _).getD _ 0 = 0
      rw [List.eq_nil_of_length_eq_zero ((h.length_pendingPage _).trans h₀)]
      rfl
    zeroCommitted := h.zeroCommitted
    mark := h.mark
    pendingMark := fun k _ => by
      show k * w.store.head.pageSize ≤ size
      simp [h₀]
    unknown := fun _ => { hu with bootstrap := hfit }
    known := fun h₁ => absurd h₀ h₁
    source := h.source
    converted := h.converted
    trimmed := h.trimmed
    unlocked := fun h => absurd h howner
    idle := h.idle }

/-- The image of a store without a page size. -/
theorem Store.pendingImage_unsized {s : Store} (h₀ : s.head.pageSize = 0) :
    s.pendingImage E f = resize (s.bootstrap.getD []) s.pendingSize := if_pos h₀

theorem Store.committedImage_empty {s : Store} (h₀ : s.head.logicalSize = 0) :
    s.committedImage E f = [] := by
  rw [Store.committedImage, h₀]
  rfl

/-- Truncating a database without a page size. -/
theorem World.Valid.truncate_unsized (h : w.Valid E f) (h₀ : w.store.head.pageSize = 0) {size : Nat}
    (hr : Zsqlite.truncate E size w = .ok () w') :
    ∃ f', w'.Valid E f' ∧ w'.store.head.logicalSize = 0 ∧ w'.store.head.pageSize = 0 ∧
      w'.store.pendingImage E f' = resize (w.store.pendingImage E f) size ∧
      (f.Readable → f'.Readable) := by
  simp only [Zsqlite.truncate, EStateM.bind_eq_ok] at hr
  obtain ⟨_, w₁, hbegin, _, _, hget, hr⟩ := hr
  cases hget
  obtain ⟨f₁, h₁, hsame, howner, -, -⟩ := h.beginWrite hbegin
  have hps : w₁.store.head.pageSize = 0 := hsame.pageSize.trans h₀
  rw [if_pos hps, StoreM.updateStore_apply] at hr
  cases hr
  have hu := h₁.unknown hps
  have hvalid : (w₁.withBootstrap (w₁.store.bootstrap.map fun file => resize file size) size).Valid E
      f₁ := by
    refine h₁.withBootstrap hps howner ?_
    cases w₁.store.bootstrap <;> simp
  refine ⟨f₁, hvalid, hu.logicalSize, hps, ?_, hsame.readable⟩
  rw [Store.pendingImage_unsized h₀, ← hsame.bootstrap, ← hsame.pendingSize,
    resize_resize hu.bootstrap]
  refine Eq.trans (if_pos hps) ?_
  show resize ((w₁.store.bootstrap.map fun file => resize file size).getD []) size = _
  cases w₁.store.bootstrap with
  | none => rfl
  | some file => exact resize_of_length_eq (length_resize _ _)

/-! ## The header arrives -/

/-- The world with another page size. -/
def World.withPageSize (w : World) (size : Nat) : World :=
  w.updateStore fun s => { s with head := { s.head with pageSize := size } }

/-- A store whose page size the active file does not have yet gets a new file. -/
theorem ensureActive_eq_ok (hps : w.store.head.pageSize ≠ 0)
    (hdiffer : w.store.active.header.pageSize ≠ w.store.head.pageSize) (hview : w.store.view = none)
    (hr : ensureActive w = .ok () w') :
    w' = w.adopt none (w.store.nextHeader .genesis none w.store.active.header.policy) ∧
      w.store.head.txid = 0 ∧ w.store.head.logicalSize = 0 ∧
      w.store.head.history = genesisHistory := by
  simp only [ensureActive, EStateM.bind_eq_ok] at hr
  obtain ⟨_, _, hget, hr⟩ := hr
  cases hget
  rw [if_neg hps, if_neg hdiffer] at hr
  split at hr
  · cases hr
  simp only [installActive, guardPublication, EStateM.bind_eq_ok] at hr
  obtain ⟨_, _, hget, _, _, hguard, active, w₁, hcreate, hadopt⟩ := hr
  cases hget
  obtain ⟨_, _, hget, hguard⟩ := hguard
  cases hget
  split at hguard
  · cases hguard
  cases hguard
  rw [hview, Option.elim_none] at hcreate
  obtain ⟨parent, C, hparent, -, hC, rfl, rfl⟩ := createActive_eq_ok hcreate
  rw [StoreM.updateStore_apply] at hadopt
  cases hadopt
  simp only [Bool.false_eq_true, if_false] at hC
  simp only [ActiveBase.validate, Except.bind_eq_ok, Except.ensure_eq_ok] at hparent
  obtain ⟨_, hgenesis, hparent⟩ := hparent
  cases hparent
  subst hC
  refine ⟨?_, hgenesis⟩
  rw [World.adopt, ← hview]
  rfl

/-- The file of a first transaction with pages of `size` bytes. -/
def World.firstHeader (w : World) (size : Nat) : ActiveHeader :=
  (w.withPageSize size).store.nextHeader .genesis none w.store.active.header.policy

/-- **Fixing the page size** moves an empty database to a new file that declares it. -/
theorem World.Valid.ensureActive (h : w.Valid E f) (h₀ : w.store.head.pageSize = 0)
    {size : Nat} (hsize : validPageSize size = true)
    (hr : ensureActive (w.withPageSize size) = .ok () w') :
    w' = (w.withPageSize size).adopt none (w.firstHeader size) ∧ w.store.head.txid = 0 ∧
      w.store.head.history = genesisHistory ∧
      w'.Open E ((w.firstHeader size).emptyFile (w.withPageSize size).store.head) := by
  have hpos : size ≠ 0 := by
    have := le_of_validPageSize hsize
    omega
  obtain ⟨hview, hsource⟩ := h.toOpen.baseless h₀
  have hu := h.unknown h₀
  have hheader : w.store.active.header.pageSize = 0 := h.records.pageSize.trans h₀
  obtain ⟨rfl, htxid, hlogical, hhistory⟩ :=
    ensureActive_eq_ok (w := w.withPageSize size) hpos (hheader ▸ Ne.symm hpos) hview hr
  have hbytes := h.based.sourceless hsource
  have hdigest : w.store.active.header.sourceHeaderDigest = none := by
    have := h.based.valid
    simp only [ActiveHeader.valid, Bool.and_eq_true, hbytes] at this
    simpa using this.1.2
  refine ⟨rfl, htxid, hhistory, World.Open.adopt ?_ rfl hu.raw hu.originals rfl (by simp) (by simp) ?_ ?_ ?_ ?_ ?_⟩
  · have htxid : w.store.head.txid = 0 := htxid
    have hhistory : w.store.head.history = genesisHistory := hhistory
    have hlogical : w.store.head.logicalSize = 0 := hlogical
    simp [ActiveHeader.valid, Store.nextHeader, World.withPageSize, World.updateStore,
      ActiveBase.history, htxid, hhistory, hlogical, hbytes, hdigest, hsize]
  · exact fun b hb => absurd (hsource.symm.trans hb) (by simp)
  · exact fun _ => hbytes
  · exact fun b hb => absurd (hsource.symm.trans hb) (by simp)
  · exact h.based.cache
  · exact fun v hv => absurd (hview.symm.trans hv) (by simp)

/-- Moving the bootstrap file into records. -/
theorem World.Writing.drainBootstrap (h : w.Writing E f) {file : Bytes}
    (hfile : w.store.bootstrap = some file) (hr : drainBootstrap E w.store.head.pageSize w = .ok () w') :
    ∃ f', (w.updateStore fun s => { s with bootstrap := none }).Wrote E f w' f' ∧
      ∀ p, w'.store.pendingPage E f' p =
        if 1 ≤ p ∧ p ≤ (file.length + w.store.head.pageSize - 1) / w.store.head.pageSize then
          window file ((p - 1) * w.store.head.pageSize) w.store.head.pageSize
        else w.store.pendingPage E f p := by
  simp only [Zsqlite.drainBootstrap, EStateM.bind_eq_ok] at hr
  obtain ⟨_, _, hget, hr⟩ := hr
  cases hget
  rw [hfile] at hr
  obtain ⟨_, _, hset, hloop⟩ := EStateM.bind_eq_ok.mp hr
  cases hset
  have hw : (w.updateStore fun s => { s with bootstrap := none }).Writing E f :=
    ⟨⟨h.file, { h.records with }, { h.based with }⟩, h.trimmed, h.known⟩
  obtain ⟨f', hwrote, hover⟩ := hw.forM_writeMutablePage (p := (· + 1))
    (a := fun p => window file ((p - 1) * w.store.head.pageSize) w.store.head.pageSize)
    (fun i w₁ w₂ hi => by
      simp only [EStateM.bind_eq_ok, EStateM.liftExcept_eq_ok, toU32_eq_ok] at hi
      obtain ⟨_, _, ⟨⟨-, rfl⟩, rfl⟩, hi⟩ := hi
      exact hi) hloop
  refine ⟨f', hwrote, fun p => ?_⟩
  have hps : w'.store.head.pageSize = w.store.head.pageSize := by
    obtain ⟨_, _, _, _, _, rfl⟩ := hwrote.edited
    rfl
  have hmem : p ∈ (List.range ((file.length + w.store.head.pageSize - 1) /
      w.store.head.pageSize)).map (· + 1) ↔
      1 ≤ p ∧ p ≤ (file.length + w.store.head.pageSize - 1) / w.store.head.pageSize := by
    simp only [List.mem_map, List.mem_range]
    exact ⟨by rintro ⟨i, hi, rfl⟩; omega, fun h => ⟨p - 1, by omega, by omega⟩⟩
  rw [Store.pendingPage, hover, pending_fill, hps]
  simp only [hmem]
  rfl

theorem writeBootstrap_eq_ok {last : Nat} (hr : writeBootstrap E offset input last w = .ok () w') :
    let w₁ := w.withBootstrap (some (overwrite (w.store.bootstrap.getD []) offset input))
      (max w.store.pendingSize last)
    w' = w₁ ∨ ∃ size w₂, validPageSize size = true ∧
      ensureActive (w₁.withPageSize size) = .ok () w₂ ∧ drainBootstrap E size w₂ = .ok () w' := by
  simp only [writeBootstrap, EStateM.bind_eq_ok, StoreM.updateStore_apply] at hr
  obtain ⟨_, _, hget, _, _, hset, hr⟩ := hr
  cases hget
  cases hset
  split at hr
  · cases hsize : parsePageSize (bootstrapHeader
        (overwrite (w.store.bootstrap.getD []) offset input)) with
    | none =>
        rw [hsize] at hr
        cases hr
    | some size =>
        rw [hsize] at hr
        obtain ⟨_, _, hset, hr⟩ := EStateM.bind_eq_ok.mp hr
        cases hset
        obtain ⟨_, w₂, hactive, hdrain⟩ := EStateM.bind_eq_ok.mp hr
        exact .inr ⟨size, w₂, validPageSize_of_parsePageSize hsize, hactive, hdrain⟩
  · cases hr
    exact .inl rfl

/-- The pages of the empty database on its new file. -/
theorem World.Valid.pages_firstFile (h : w.Valid E f) (h₀ : w.store.head.pageSize = 0) (size : Nat) :
    let w' := (w.withPageSize size).adopt none (w.firstHeader size)
    let f' := (w.firstHeader size).emptyFile (w.withPageSize size).store.head
    w'.store.committedPage E f' = (fun _ => zeros size) ∧
      w'.store.pendingPage E f' = fun _ => zeros size := by
  intro w' f'
  have hcommitted : w'.store.committedPage E f' = fun _ => zeros size := by
    show basePage E size none w.store.source = _
    rw [(h.toOpen.baseless h₀).2]
    rfl
  exact ⟨hcommitted, hcommitted ▸ pending_eq_committed (h.unknown h₀).mark rfl⟩

/-- The empty database on its new file, before the bootstrap file is moved. -/
theorem World.Valid.described_firstFile (h : w.Valid E f) (h₀ : w.store.head.pageSize = 0)
    {size : Nat} (hsize : validPageSize size = true) (hdirty : w.store.pendingDirty = true)
    (htxid : w.store.head.txid = 0) (hhistory : w.store.head.history = genesisHistory)
    (hopen : ((w.withPageSize size).adopt none (w.firstHeader size)).Open E
      ((w.firstHeader size).emptyFile (w.withPageSize size).store.head)) :
    (((w.withPageSize size).adopt none (w.firstHeader size)).updateStore fun s =>
      { s with bootstrap := none }).Described E
      ((w.firstHeader size).emptyFile (w.withPageSize size).store.head) := by
  have hu := h.unknown h₀
  obtain ⟨hview, hsource⟩ := h.toOpen.baseless h₀
  have hknown : size ≠ 0 := by
    have := le_of_validPageSize hsize
    omega
  obtain ⟨hcommitted, hpending⟩ := h.pages_firstFile h₀ size
  exact {
    toOpen := ⟨hopen.file, { hopen.records with }, { hopen.based with }⟩
    installed := rfl
    current := ⟨_, ActiveHeader.current_emptyFile _ _, { World.published_adopt _ with }⟩
    sound := h.sound
    anchored := {
      database := fun v hv => by cases hv
      start := by
        show checkedAdd 0 1 = .ok (w.store.head.txid + 1)
        rw [htxid]
        rfl
      baseHistory := hhistory
      baseSize := hu.logicalSize
      history := hhistory
      txid := Nat.zero_le _
      size := fun _ => hu.logicalSize }
    fresh := ⟨fun hne => absurd (h.based.sourceless hsource) hne, fun _ => ⟨rfl, rfl⟩⟩
    numbered := fun p hp => absurd (show (∅ : BTreeMap Nat Nat)[p]? = none by simp) hp
    settled := fun hs => by
      simp [World.updateStore, World.adopt, World.withPageSize, World.install, Store.adoptActive,
        Store.synchronizeReadCache, Store.hasPending, hdirty] at hs
    zeroPending := fun i _ => (congrArg (pageByte size · i) hpending).trans (getD_zeros _ _)
    zeroCommitted := fun i _ => (congrArg (pageByte size · i) hcommitted).trans (getD_zeros _ _)
    mark := fun k hk => by cases hk
    pendingMark := fun k hk => absurd ((congrArg (lower none) hu.mark).symm.trans hk) (by simp)
    unknown := fun h₀ => absurd h₀ hknown
    known := fun _ => rfl
    source := fun b hb => absurd (hsource.symm.trans hb) (by simp)
    converted := fun b hb => absurd (hsource.symm.trans hb) (by simp) }

/-- Writing to a database without a page size: the bytes go to the bootstrap file, or to the
records of a new file when the header has arrived. -/
theorem World.Valid.writeAt_unsized (h : w.Valid E f) (h₀ : w.store.head.pageSize = 0) {n : Nat}
    (hne : input ≠ []) (hr : Zsqlite.writeAt E offset input w = .ok n w') :
    n = input.length ∧ ∃ f', w'.Valid E f' ∧ w'.store.head.logicalSize = 0 ∧
      w'.store.pendingImage E f' = overwrite (w.store.pendingImage E f) offset input ∧
      (f.Readable → f'.Readable) := by
  unfold Zsqlite.writeAt at hr
  rw [if_neg hne] at hr
  simp only [EStateM.bind_eq_ok, EStateM.liftExcept_eq_ok, checkedAdd_eq_ok] at hr
  obtain ⟨_, w₁, hbegin, _, _, ⟨⟨-, rfl⟩, rfl⟩, _, _, hget, _, w₃, hwrite, hr⟩ := hr
  cases hget
  cases hr
  obtain ⟨f₁, h₁, hsame, howner, -, -⟩ := h.beginWrite hbegin
  have hps : w₁.store.head.pageSize = 0 := hsame.pageSize.trans h₀
  have hu := h₁.unknown hps
  rw [if_pos hps] at hwrite
  refine ⟨rfl, ?_⟩
  rw [Store.pendingImage_unsized h₀, ← hsame.bootstrap, ← hsame.pendingSize,
    overwrite_resize hu.bootstrap hne]
  have hlen : (overwrite (w₁.store.bootstrap.getD []) offset input).length ≤
      max w₁.store.pendingSize (offset + input.length) := by
    have := hu.bootstrap
    rw [length_overwrite hne]
    omega
  have hcases := writeBootstrap_eq_ok hwrite
  set file := overwrite (w₁.store.bootstrap.getD []) offset input
  have hboot : (w₁.withBootstrap (some file) (max w₁.store.pendingSize
      (offset + input.length))).Valid E f₁ := h₁.withBootstrap hps howner hlen
  rcases hcases with rfl | ⟨size, w₂, hsize, hactive, hdrain⟩
  · exact ⟨f₁, hboot, hu.logicalSize, if_pos hps, hsame.readable⟩
  · obtain ⟨rfl, htxid, hhistory, hopen⟩ := hboot.ensureActive hps hsize hactive
    have hdesc := hboot.described_firstFile hps hsize rfl htxid hhistory hopen
    have hpos : size ≠ 0 := by
      have := le_of_validPageSize hsize
      omega
    obtain ⟨f', hwrote, hpages⟩ := World.Writing.drainBootstrap ⟨hopen, rfl, hpos⟩ rfl hdrain
    have hbytes : ∀ i, pageByte size (w'.store.pendingPage E f') i = file.getD i 0 := by
      refine pageByte_window (Nat.pos_of_ne_zero hpos) fun p => ?_
      rw [hpages, (hboot.pages_firstFile hps size).2]
      rfl
    have hself : w'.withSize (max w₁.store.pendingSize (offset + input.length))
        w₁.store.pendingTruncatePages = w' := by
      obtain ⟨_, _, _, _, _, rfl⟩ := hwrote.edited
      rfl
    have hw := hwrote.writing
    have hdvd : size ∣ w₁.store.head.logicalSize := hu.logicalSize ▸ Nat.dvd_zero size
    have hread : f'.Readable := hwrote.readable (ActiveHeader.readable_emptyFile hsize hdvd)
    have hdesc' := hdesc.withSize hwrote (hself.symm ▸ hw.toOpen) (fun i hi => by
      rw [hself]
      refine (hbytes i).trans (List.getD_eq_default _ _ ?_)
      omega) (fun k hk => by
        rw [hu.mark] at hk
        cases hk)
    rw [hself] at hdesc'
    obtain ⟨_, _, _, _, _, rfl⟩ := hwrote.edited
    refine ⟨f', ⟨hdesc', fun _ => hw.trimmed, fun h₀ => absurd h₀ howner, h₁.idle⟩, hu.logicalSize, ?_,
      fun _ => hread⟩
    refine Eq.trans (if_neg hpos) (Eq.symm (eq_paged (length_resize _ _) fun i hi => ?_))
    exact ((getD_resize _ _ _).trans (if_pos hi)).trans (hbytes i).symm

end Unsized

end Zsqlite
