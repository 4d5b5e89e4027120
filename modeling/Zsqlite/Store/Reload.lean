import Zsqlite.Store.Commit

set_option autoImplicit false

/-! # What a reload finds

A reload that succeeds leaves a store on the file at the database path: its records are those of
the newest state sector, its view is the one the header names, and nothing is pending
(`reload_spec`). A store with nothing pending that describes the same file and the same sector
reads through the same layers (`overlay_eq_of_settled`), so a reload changes no byte.
-/

namespace Zsqlite

open ByteVec Overlay

/-! ## Catalog edits -/

/-- The two catalogs differ only in the head descriptors and the conversion root. -/
def Catalog.SameObjects (C C' : Catalog) : Prop :=
  C' = { C with finalized := C'.finalized, pending := C'.pending, conversion := C'.conversion }

section Catalog

variable {E : Env} {C C' C'' : Catalog} {header : ActiveHeader}

theorem Catalog.SameObjects.refl (C : Catalog) : C.SameObjects C := rfl

theorem Catalog.SameObjects.trans (h : C.SameObjects C') (h' : C'.SameObjects C'') :
    C.SameObjects C'' := by
  unfold Catalog.SameObjects at *
  rw [h', h]

theorem Catalog.SameObjects.sound (h : C.SameObjects C') (hC : C.Sound E) : C'.Sound E := by
  unfold Catalog.SameObjects at h
  rw [h]
  exact ⟨hC.pack, hC.manifest⟩

theorem Catalog.prepareSeal_eq_ok (h : C.prepareSeal header = .ok C') :
    C' = { C with pending := some header } := by
  simp only [Catalog.prepareSeal, Except.bind_eq_ok] at h
  obtain ⟨_, -, h⟩ := h
  cases h
  rfl

theorem Catalog.finishSeal_eq_ok (h : C.finishSeal header = .ok C') :
    C.pending = none ∧ C' = C ∨
    C.pending = some header ∧ C' = { C with finalized := some header, pending := none } := by
  simp only [Catalog.finishSeal, Except.bind_eq_ok] at h
  obtain ⟨_, -, h⟩ := h
  split at h
  · rename_i hp
    cases h
    exact .inl ⟨hp, rfl⟩
  · rename_i pending hp
    simp only [Except.bind_eq_ok, Except.ensure_eq_ok, exists_const] at h
    obtain ⟨rfl, h⟩ := h
    cases h
    exact .inr ⟨hp, rfl⟩

theorem Catalog.recoverSeal_eq_ok (h : C.recoverSeal header = .ok C') :
    C.pending = some header ∧ C' = { C with finalized := some header, pending := none } ∨
    C.pending ≠ some header ∧ C' = { C with pending := none } ∨
    C.pending ≠ some header ∧ C' = C := by
  simp only [Catalog.recoverSeal, Except.bind_eq_ok] at h
  obtain ⟨_, -, h⟩ := h
  split at h
  · rename_i hp
    rcases Catalog.finishSeal_eq_ok h with ⟨hn, -⟩ | ⟨-, h⟩
    · simp [hp] at hn
    · exact .inl ⟨hp, h⟩
  · rename_i hp
    split at h
    · cases h
      exact .inr (.inl ⟨hp, rfl⟩)
    · cases h
      exact .inr (.inr ⟨hp, rfl⟩)

theorem Catalog.recoverSeal_same (h : C.recoverSeal header = .ok C') :
    C.SameObjects C' ∧ C'.conversion = C.conversion := by
  rcases Catalog.recoverSeal_eq_ok h with ⟨-, rfl⟩ | ⟨-, rfl⟩ | ⟨-, rfl⟩ <;> exact ⟨rfl, rfl⟩

theorem Catalog.finishSeal_same (h : C.finishSeal header = .ok C') :
    C.SameObjects C' ∧ C'.conversion = C.conversion := by
  rcases Catalog.finishSeal_eq_ok h with ⟨-, rfl⟩ | ⟨-, rfl⟩ <;> exact ⟨rfl, rfl⟩

theorem Catalog.prepareSeal_same (h : C.prepareSeal header = .ok C') :
    C.SameObjects C' ∧ C'.conversion = C.conversion := by
  rw [Catalog.prepareSeal_eq_ok h]
  exact ⟨rfl, rfl⟩

theorem Catalog.releaseConversion_same (h : C.releaseConversion = .ok C') : C.SameObjects C' := by
  unfold Catalog.releaseConversion at h
  split at h
  · cases h
  · cases h
    rfl

end Catalog

/-! ## Loading a file -/

/-- Nothing is pending. -/
structure Store.Settled (s : Store) : Prop where
  raw : s.pendingRawPages = ∅
  originals : s.pendingRawOriginals = ∅
  mark : s.pendingTruncatePages = none
  dirty : s.pendingDirty = false
  bootstrap : s.bootstrap = none
  size : s.pendingSize = s.head.logicalSize

/-- The committed state continues the sealed base. -/
structure Store.Anchored (s : Store) : Prop where
  database : ∀ v, s.view = some v → v.metadata.view.database = s.active.header.databaseId
  start : checkedAdd (sealedEnd s.view).2.1 1 = .ok s.active.header.startTxid
  baseHistory : s.active.header.baseHistory = (sealedEnd s.view).2.2
  baseSize : s.active.header.baseLogicalSize = (sealedEnd s.view).1
  history : s.head.history = (sealedEnd s.view).2.2
  txid : (sealedEnd s.view).2.1 ≤ s.head.txid
  size : s.head.txid = (sealedEnd s.view).2.1 → s.head.logicalSize = (sealedEnd s.view).1

/-- Every slot of the file holds one page. -/
def PageFile.Sized (f : PageFile) : Prop := ∀ r ∈ f.slots, r.payload.length = f.header.pageSize

section Load

variable {E : Env} {w w' : World} {f : PageFile} {header : ActiveHeader} {inode : Nat}
  {view : Option PinnedView}

/-- The header continues the sealed base. -/
def ActiveHeader.Follows (header : ActiveHeader) (view : Option PinnedView) : Prop :=
  (∀ v, view = some v → v.metadata.view.database = header.databaseId) ∧
  checkedAdd (sealedEnd view).2.1 1 = .ok header.startTxid ∧
  header.baseHistory = (sealedEnd view).2.2 ∧ header.baseLogicalSize = (sealedEnd view).1 ∧
  ∀ v, view = some v → v.size.pageSize.get = header.pageSize

/-- The state continues the sealed base. -/
def ActiveState.Follows (state : ActiveState) (view : Option PinnedView) : Prop :=
  state.history = (sealedEnd view).2.2 ∧ (sealedEnd view).2.1 ≤ state.txid ∧
  (state.txid = (sealedEnd view).2.1 → state.logicalSize = (sealedEnd view).1)

theorem Disk.loadActive_eq_ok {d : Disk} {state : ActiveState} {records : BTreeMap Nat Nat}
    {committedEnd : Nat} (hf : d.files[inode]? = some f) :
    d.loadActive inode header view = .ok (state, records, committedEnd) ↔
      header.Follows view ∧ state.Follows view ∧
      readActiveState f header.databaseId = .ok state ∧ state.pageSize = header.pageSize ∧
      loadActiveRecords f activeMetadataEnd header.pageSize state.recordCount =
        .ok (records, committedEnd) ∧ committedEnd ≤ f.len := by
  simp only [Disk.loadActive, Disk.openFile, hf, Except.bind_eq_ok, Except.ensure_eq_ok,
    exists_const]
  have hall : ∀ p : PinnedView → Prop, ∀ [DecidablePred p],
      (view.all fun v => p v) = true ↔ ∀ v, view = some v → p v := by
    intro p _
    cases view <;> simp
  constructor
  · rintro ⟨hdb, start, hstart, ⟨rfl, hhist, hsize, hps⟩, _, hfile, state', hstate,
      ⟨hps', hhist', htx, hsz, -⟩, ⟨records', e⟩, hload, hlen, h⟩
    cases hfile
    cases h
    rw [hps'] at hload
    exact ⟨⟨(hall _).mp hdb, hstart, hhist, hsize, (hall _).mp hps⟩, ⟨hhist', htx, hsz⟩, hstate, hps',
      hload, hlen⟩
  · rintro ⟨⟨hdb, hstart, hhist, hsize, hps⟩, ⟨hhist', htx, hsz⟩, hstate, hps', hload, hlen⟩
    have hgap : ¬ ((sealedEnd view).2.1 < state.txid ∧ state.txid < header.startTxid) := by
      have hnext : header.startTxid = (sealedEnd view).2.1 + 1 := (checkedAdd_eq_ok.mp hstart).2
      rintro ⟨h₁, h₂⟩
      rw [hnext] at h₂
      omega
    rw [← hps'] at hload
    exact ⟨(hall _).mpr hdb, _, hstart, ⟨rfl, hhist, hsize, (hall _).mpr hps⟩, f, rfl, state, hstate,
      ⟨hps', hhist', htx, hsz, hgap⟩, (records, committedEnd), hload, hlen, rfl⟩

theorem Disk.openSource_eq_ok {d : Disk} {source : Option Bytes}
    (h : d.openSource E header = .ok source) :
    (∀ b, source = some b → b.length = header.sourceBytes ∧ b ≠ []) ∧
      (source = none → header.sourceBytes = 0) ∧ (∀ b, source = some b → d.source = some b) ∧
      ∀ b, source = some b → header.Identifies E b := by
  unfold Disk.openSource at h
  split at h
  · rename_i h₀
    cases h
    exact ⟨by simp, fun _ => h₀, by simp, by simp⟩
  · rename_i h₀
    split at h
    · cases h
    · rename_i bytes hb
      simp only [Except.bind_eq_ok, Except.ensure_eq_ok, exists_const] at h
      obtain ⟨sqliteHeader, hread, ⟨hlen, hdigest, hparse⟩, h⟩ := h
      cases h
      refine ⟨fun b e => ?_, by simp, fun b e => by rw [← e, hb], fun b e => ?_⟩
      rotate_left
      · cases e
        exact ⟨sqliteHeader, hread, hdigest, hparse⟩
      cases e
      refine ⟨hlen, ?_⟩
      rintro rfl
      exact h₀ hlen.symm

/-- **A load** leaves a store that describes the newest state of the file. -/
theorem loadLocal_spec (hf : w.disk.files[inode]? = some f) (hheader : f.header = header)
    (hvalid : header.valid = true) (hsized : f.Sized)
    (hid : view.map PinnedView.id = header.parentPhysicalDigest)
    (hgen : ∀ v, view = some v → v.Genuine E)
    (hcache : w.store.pageCache.Fits w.store.view) (hold : ∀ v, w.store.view = some v → v.Genuine E)
    (hr : loadLocal E inode header view w = .ok () w') :
    ∃ state, readActiveState f header.databaseId = .ok state ∧ w'.Open E f ∧
      w'.store.active.file = inode ∧ w'.store.Published state ∧ w'.store.Settled ∧
      w'.store.Anchored ∧ w'.disk = w.disk ∧ w'.store.view = view ∧
      (∀ b, w'.store.source = some b → w.disk.source = some b) ∧
      w'.store.writable = w.store.writable ∧
      w'.store.publicationOwner = w.store.publicationOwner := by
  simp only [loadLocal, EStateM.bind_eq_ok, StoreM.ofExcept_eq_ok] at hr
  obtain ⟨⟨state, records, committedEnd⟩, _, ⟨hload, rfl⟩, hr⟩ := hr
  obtain ⟨_, _, hset, source, _, ⟨hsource, rfl⟩, hr⟩ := hr
  cases hset
  cases hr
  obtain ⟨⟨hbdb, hstart, hbhist, hbsize, hvs⟩, ⟨hhist, htx, hsz⟩, hstate, hps, hrec, -⟩ :=
    (Disk.loadActive_eq_ok hf).mp hload
  obtain ⟨hlen, hsourceless, hsrc, hidentified⟩ := Disk.openSource_eq_ok hsource
  obtain ⟨hcount, hend, hindexed, hsize⟩ := loadActiveRecords_eq_ok hrec
  obtain ⟨-, hdb⟩ := readActiveState_valid hstate
  rw [← hps] at hindexed hend
  refine ⟨state, hstate, ⟨hf, ?_, ?_⟩, rfl, ⟨hdb, rfl, rfl, rfl, rfl, rfl, hend, rfl⟩,
    ⟨rfl, rfl, rfl, rfl, rfl, rfl⟩, ⟨hbdb, hstart, hbhist, hbsize, hhist, htx, hsz⟩, rfl, rfl, hsrc,
    rfl, rfl⟩
  · have hcommitted : ∀ q : Nat, records[q]? ≠ none →
        (records[q]?.filter fun offset => offset < committedEnd) ≠ none := by
      intro q hq
      obtain ⟨offset, ho⟩ := Option.ne_none_iff_exists'.mp hq
      obtain ⟨i, r, hr, -, rfl⟩ := hindexed.slot q offset ho
      have hi := (List.getElem?_eq_some_iff.mp hr).1
      rw [List.length_take] at hi
      have hlt : recordOffset state.pageSize i < committedEnd := by
        rw [hend, recordOffset_lt]
        omega
      simp [ho, hlt]
    constructor
    · exact hheader
    · exact hps.symm
    · exact hsize ▸ hcount
    · exact (congrArg (fun n => Indexed state.pageSize (f.slots.take n) records) hsize).mpr hindexed
    · exact ⟨state.recordCount, Nat.le_of_eq hsize.symm, hend⟩
    · intro r hr
      exact (hsized r hr).trans (hheader ▸ hps.symm)
    · exact fun q b hb => absurd hb (by simp [World.updateStore, Store.loaded, Store.synchronizeReadCache])
    · exact fun q hq => absurd hq (by simp [World.updateStore, Store.loaded, Store.synchronizeReadCache])
    · exact fun q hq => absurd hq (by simp [World.updateStore, Store.loaded, Store.synchronizeReadCache])
    · exact fun q hq hnone => absurd hnone (hcommitted q hq)
    · exact fun q hq => absurd hq (not_above_none q)
  · refine ⟨hvalid, hid, hgen, fun v hv => (hvs v hv).trans hps.symm, hlen, hsourceless,
      hidentified, ?_⟩
    -- views of one manifest store the same versions, so kept pages still fit
    refine (hcache.setBudget _).synchronize ?_ _
    intro a b ha hb he
    exact funext ((hold a ha).agrees (hgen b hb) he).version

theorem Catalog.pinBase_eq_ok {C : Catalog} (hC : C.Sound E)
    (h : C.pinBase E header = .ok view) :
    view.map PinnedView.id = header.parentPhysicalDigest ∧ ∀ v, view = some v → v.Genuine E := by
  unfold Catalog.pinBase at h
  split at h
  · rename_i hp
    cases h
    exact ⟨hp.symm, by simp⟩
  · rename_i id hp
    cases hv : C.pin E id with
    | error e =>
        rw [hv] at h
        cases h
    | ok v =>
        rw [hv] at h
        cases h
        obtain ⟨hid, hgen⟩ := Catalog.pin_genuine hC hv
        exact ⟨by rw [hp, ← hid]; rfl, fun v' e => by cases e; exact hgen⟩

theorem retireSource_eq_ok {u : Unit} (hr : retireSource E w = .ok u w') :
    ∃ C, w.disk.catalog.SameObjects C ∧
      w' = { w with disk := { w.disk with catalog := C, source := none } } := by
  simp only [retireSource, EStateM.bind_eq_ok, StoreM.ofExcept_eq_ok] at hr
  obtain ⟨done, _, ⟨-, rfl⟩, _, w₁, hrel, hr⟩ := hr
  cases hr
  split at hrel
  · obtain ⟨C, hC, rfl⟩ := StoreM.onCatalog_eq_ok.mp hrel
    exact ⟨C, Catalog.releaseConversion_same hC, rfl⟩
  · cases hrel
    exact ⟨_, Catalog.SameObjects.refl _, rfl⟩

/-- What a reload leaves: the store on the file at the path, with nothing pending, and the shared
state up to descriptors, the conversion root and a retired source. -/
structure World.Reloaded (E : Env) (w w' : World) (f : PageFile) (state : ActiveState) : Prop where
  opened : w'.Open E f
  file : w'.store.active.file = w.disk.installed
  published : w'.store.Published state
  settled : w'.store.Settled
  anchored : w'.store.Anchored
  disk : ∃ C source, w'.disk = { w.disk with catalog := C, source := source } ∧
    w.disk.catalog.SameObjects C ∧ (f.header.sourceBytes ≠ 0 →
      source = w.disk.source ∧ C.conversion = w.disk.catalog.conversion)
  source : ∀ b, w'.store.source = some b → w.disk.source = some b
  writable : w'.store.writable = w.store.writable
  owner : w'.store.publicationOwner = w.store.publicationOwner

/-- **A reload** finds the newest state of the file at the path. -/
theorem reload_spec (hC : w.disk.catalog.Sound E)
    (hf : w.disk.files[w.disk.installed]? = some f) (hsized : f.Sized)
    (hcache : w.store.pageCache.Fits w.store.view) (hold : ∀ v, w.store.view = some v → v.Genuine E)
    (hr : reload E w = .ok () w') :
    ∃ state, readActiveState f f.header.databaseId = .ok state ∧
      f.header.databaseId = w.store.active.header.databaseId ∧ w.Reloaded E w' f state := by
  simp only [reload, EStateM.bind_eq_ok, EStateM.liftExcept_eq_ok, StoreM.ofExcept_eq_ok,
    Except.ensure_eq_ok, Disk.openFile] at hr
  obtain ⟨_, _, hget, _, _, ⟨hfile, rfl⟩, header, _, ⟨hheader, rfl⟩, _, _, ⟨hdb, rfl⟩, _, _,
    ⟨-, rfl⟩, _, w₁, hrecover, view, _, ⟨hpin, rfl⟩, _, w₂, hload, _, _, hget', hr⟩ := hr
  cases hget
  cases hget'
  rw [hf] at hfile
  cases hfile
  have hvalid : f.header.valid = true ∧ header = f.header := by
    unfold readActiveHeader at hheader
    split at hheader
    · cases hheader
      exact ⟨‹_›, rfl⟩
    · cases hheader
  obtain ⟨hvalid, rfl⟩ := hvalid
  -- recovery edits descriptors only
  obtain ⟨C, hsame, hconv, rfl⟩ : ∃ C, w.disk.catalog.SameObjects C ∧
      C.conversion = w.disk.catalog.conversion ∧ w₁ = w.setCatalog C := by
    split at hrecover
    · obtain ⟨C, hC', rfl⟩ := StoreM.onCatalog_eq_ok.mp hrecover
      exact ⟨C, (Catalog.recoverSeal_same hC').1, (Catalog.recoverSeal_same hC').2, rfl⟩
    · cases hrecover
      exact ⟨_, Catalog.SameObjects.refl _, rfl, rfl⟩
  obtain ⟨hid, hgen⟩ := Catalog.pinBase_eq_ok (hsame.sound hC) hpin
  obtain ⟨state, hstate, hopen, hinode, hpub, hsettled, hanchor, hdisk, -, hsource, hwr, howner⟩ :=
    loadLocal_spec (w := w.setCatalog C) hf rfl hvalid hsized hid hgen hcache hold hload
  refine ⟨state, hstate, hdb, ?_⟩
  split at hr
  · rename_i hretire
    obtain ⟨C', hsame', rfl⟩ := retireSource_eq_ok hr
    have hcat : w₂.disk.catalog = C := by rw [hdisk]; rfl
    rw [hcat] at hsame'
    refine ⟨⟨hopen.file, hopen.records, hopen.based⟩, hinode, hpub, hsettled, hanchor,
      ⟨C', none, by rw [hdisk]; rfl, hsame.trans hsame', fun h => absurd hretire.2.1 h⟩, hsource,
      hwr, howner⟩
  · cases hr
    exact ⟨hopen, hinode, hpub, hsettled, hanchor,
      ⟨C, w.disk.source, by rw [hdisk]; rfl, hsame, fun _ => ⟨rfl, hconv⟩⟩, hsource, hwr, howner⟩

theorem loadLocal_eq {state : ActiveState} {records : BTreeMap Nat Nat} {committedEnd : Nat}
    {source : Option Bytes}
    (hload : w.disk.loadActive inode header view = .ok (state, records, committedEnd))
    (hsource : w.disk.openSource E header = .ok source) :
    loadLocal E inode header view w = .ok () ((w.updateStore fun s =>
      { s with active := ⟨inode, header, state.sequence, records, state.truncatePages⟩ }).updateStore
        fun s => s.loaded header view source state committedEnd) := by
  let w₁ := w.updateStore fun s =>
    { s with active := ⟨inode, header, state.sequence, records, state.truncatePages⟩ }
  rw [loadLocal, EStateM.bind_of_ok _ (StoreM.ofExcept_eq_ok.mpr ⟨hload, rfl⟩)]
  have hopen : StoreM.ofExcept (fun w => w.disk.openSource E header) w₁ = .ok source w₁ :=
    StoreM.ofExcept_eq_ok.mpr ⟨hsource, rfl⟩
  exact EStateM.bind_of_ok _ hopen

end Load

/-! ## A reload changes no byte -/

section Same

variable {E : Env} {w w' : World} {s : Store} {f : PageFile} {state : ActiveState}

/-- Views of one manifest are the same base. -/
theorem basePage_eq_of_id {ps : Nat} {a b : Option PinnedView} (source : Option Bytes)
    (ha : ∀ v, a = some v → v.Genuine E) (hb : ∀ v, b = some v → v.Genuine E)
    (h : a.map PinnedView.id = b.map PinnedView.id) :
    basePage E ps a source = basePage E ps b source := by
  cases a with
  | none =>
      cases b with
      | none => rfl
      | some v => cases h
  | some u =>
      cases b with
      | none => cases h
      | some v =>
          have hu := ha u rfl
          have hv := hb v rfl
          have hagree := hu.agrees hv (by simpa using h)
          have hsize : u.size = v.size := hagree.size
          funext p
          rcases Nat.lt_or_ge u.size.pages p with hp | hp
          · rw [basePage_above hp, basePage_above (hsize ▸ hp)]
          · simp only [basePage, PinnedView.readPage_agrees hu.served hv.served hagree hp]

/-- With nothing pending every record is committed. -/
theorem Store.Records.indexed_of_settled (h : s.Records f) (hs : s.Settled) {n : Nat}
    (hend : s.head.activeCommitEnd = recordOffset s.head.pageSize n) :
    Indexed s.head.pageSize (f.slots.take n) s.active.activeRecords := by
  obtain ⟨m, hm, hend'⟩ := h.committedEnd
  cases recordOffset_inj.mp (hend.symm.trans hend')
  have hall : (s.active.activeRecords.filter fun _ offset => offset < s.head.activeCommitEnd) =
      s.active.activeRecords := by
    refine Std.ExtTreeMap.ext_getElem? fun q => ?_
    rw [s.getElem?_committedRecords]
    cases hq : s.active.activeRecords[q]? with
    | none => simp [Store.committedRecord, hq]
    | some offset =>
        by_contra hne
        have hnone : s.committedRecord q = none := by
          cases hc : s.committedRecord q with
          | none => rfl
          | some o =>
              obtain ⟨ho, -⟩ := committedRecord_eq_some.mp hc
              exact absurd (hc.trans (ho.symm.trans hq)) hne
        have := h.appended q (by simp [hq]) hnone
        simp [hs.raw] at this
  exact hall ▸ h.take_committed hm hend

/-- The file and its newest sector determine the records of a store with nothing pending. -/
theorem World.Open.activeRecords_eq_of_settled (h : w.Open E f) (h' : w'.Open E f)
    (hs : w.store.Settled) (hs' : w'.store.Settled) (hp : w.store.Published state)
    (hp' : w'.store.Published state) :
    w.store.active.activeRecords = w'.store.active.activeRecords := by
  have hps : w.store.head.pageSize = w'.store.head.pageSize := hp.pageSize.symm.trans hp'.pageSize
  exact (h.records.indexed_of_settled hs hp.recordCount).unique
    (hps ▸ h'.records.indexed_of_settled hs' hp'.recordCount)

/-- **The file and its newest sector determine the layers** of a store with nothing pending. -/
theorem World.Open.overlay_eq_of_settled (h : w.Open E f) (h' : w'.Open E f)
    (hs : w.store.Settled) (hs' : w'.store.Settled) (hp : w.store.Published state)
    (hp' : w'.store.Published state) (hsource : w.store.source = w'.store.source) :
    w.store.overlay E f = w'.store.overlay E f := by
  have hps : w.store.head.pageSize = w'.store.head.pageSize := hp.pageSize.symm.trans hp'.pageSize
  have hrec := h.activeRecords_eq_of_settled h' hs hs' hp hp'
  have hend : w.store.head.activeCommitEnd = w'.store.head.activeCommitEnd := by
    rw [hp.recordCount, hp'.recordCount, hps]
  have hid : w.store.view.map PinnedView.id = w'.store.view.map PinnedView.id := by
    rw [h.based.view, h'.based.view, ← h.records.header, ← h'.records.header]
  have hcut : w.store.active.truncatePages = w'.store.active.truncatePages :=
    hp.truncatePages.symm.trans hp'.truncatePages
  unfold Store.overlay
  simp only [Store.committedRecord, hrec, hend, hs.originals, hs'.originals, hs.raw, hs'.raw,
    hs.mark, hs'.mark, hcut, hps, hsource,
    basePage_eq_of_id w'.store.source h.based.genuine h'.based.genuine hid]

end Same

end Zsqlite
