import Zsqlite.Store.State

set_option autoImplicit false

/-! # The layers of an open store

A store reads a page through the layers of an `Overlay`: the records of the active file, the two
truncation marks and the base below them (`Store.overlay`). `Records` relates the record map, the
undo copies and the write set of the store to the slots of its file; from it the overlay is
coherent. `Based` says that the view and the native source are the ones the active header names
and that every page of them can be read.

Under both, a page read succeeds and returns the pending page of the overlay (`readPage_eq`), and
a read of any range returns the bytes of the pending image (`readAt_eq`).
-/

namespace Zsqlite

open ByteVec Overlay

/-! ## The overlay of a store -/

/-- Page `page` of the view or the native source; zeros past their end. -/
def basePage (E : Env) (pageSize : Nat) (view : Option PinnedView) (source : Option Bytes)
    (page : Nat) : Bytes :=
  match view, source with
  | some view, _ =>
      match view.readPage E page with
      | .ok bytes => bytes
      | .error _ => zeros pageSize
  | none, some source => window source ((page - 1) * pageSize) pageSize
  | none, none => zeros pageSize

/-- The offset of the committed record of a page. -/
def Store.committedRecord (s : Store) (page : Nat) : Option Nat :=
  s.active.activeRecords[page]?.filter fun offset => offset < s.head.activeCommitEnd

/-- The layers the store reads through, over the slots of its file. -/
def Store.overlay (E : Env) (s : Store) (f : PageFile) : Overlay Bytes where
  base := basePage E s.head.pageSize s.view s.source
  saved page := (s.committedRecord page).bind fun offset =>
    s.pendingRawOriginals[page]?.or (f.readPayload offset)
  cut := s.active.truncatePages
  record page := s.active.activeRecords[page]?.bind f.readPayload
  pendingCut := s.pendingTruncatePages
  touched page := decide (page ∈ s.pendingRawPages)

/-- The page a store reads inside its transaction. -/
def Store.pendingPage (E : Env) (s : Store) (f : PageFile) : Nat → Bytes :=
  (s.overlay E f).pending (zeros s.head.pageSize)

/-- The page a store reads after a rollback. -/
def Store.committedPage (E : Env) (s : Store) (f : PageFile) : Nat → Bytes :=
  (s.overlay E f).committed (zeros s.head.pageSize)

/-- The slots that the record map indexes; a crashed writer may have left more behind them. -/
def Store.liveSlots (s : Store) (f : PageFile) : List RawRecord :=
  f.slots.take s.active.activeRecords.size

/-- The record map, the undo copies and the write set describe the slots of the file. -/
structure Store.Records (s : Store) (f : PageFile) : Prop where
  header : f.header = s.active.header
  pageSize : s.active.header.pageSize = s.head.pageSize
  live : s.active.activeRecords.size ≤ f.slots.length
  indexed : Indexed s.head.pageSize (s.liveSlots f) s.active.activeRecords
  committedEnd : ∃ n ≤ s.active.activeRecords.size,
    s.head.activeCommitEnd = recordOffset s.head.pageSize n
  payload : ∀ r ∈ f.slots, r.payload.length = s.head.pageSize
  /-- Undo copies are of committed records in the write set. -/
  undo : ∀ (page : Nat) bytes, s.pendingRawOriginals[page]? = some bytes →
    page ∈ s.pendingRawPages ∧ s.committedRecord page ≠ none ∧ bytes.length = s.head.pageSize
  /-- A committed record in the write set has an undo copy. -/
  saved : ∀ page ∈ s.pendingRawPages, s.committedRecord page ≠ none →
    s.pendingRawOriginals[page]? ≠ none
  written : ∀ page ∈ s.pendingRawPages, s.active.activeRecords[page]? ≠ none
  appended : ∀ page : Nat, s.active.activeRecords[page]? ≠ none → s.committedRecord page = none →
    page ∈ s.pendingRawPages
  /-- A truncation zeroes the records above it. -/
  rewritten : ∀ page : Nat, Above s.pendingTruncatePages page →
    s.active.activeRecords[page]? ≠ none → page ∈ s.pendingRawPages

/-- The header identifies a native base by the digest of its SQLite header. -/
def ActiveHeader.Identifies (E : Env) (header : ActiveHeader) (b : Bytes) : Prop :=
  ∃ sqliteHeader, readExactAt b 0 100 = .ok sqliteHeader ∧
    some (E.hash.bytes sqliteHeader) = header.sourceHeaderDigest ∧
    parsePageSize sqliteHeader = some header.pageSize

/-- The view and the source are those the active header names, and can be read. -/
structure Store.Based (E : Env) (s : Store) : Prop where
  valid : s.active.header.valid = true
  view : s.view.map PinnedView.id = s.active.header.parentPhysicalDigest
  genuine : ∀ v, s.view = some v → v.Genuine E
  viewSize : ∀ v, s.view = some v → v.size.pageSize.get = s.head.pageSize
  source : ∀ b, s.source = some b → b.length = s.active.header.sourceBytes ∧ b ≠ []
  sourceless : s.source = none → s.active.header.sourceBytes = 0
  identified : ∀ b, s.source = some b → s.active.header.Identifies E b
  cache : s.pageCache.Fits s.view

/-- A store whose open file is `f`. -/
structure World.Open (E : Env) (w : World) (f : PageFile) : Prop where
  file : w.disk.files[w.store.active.file]? = some f
  records : w.store.Records f
  based : w.store.Based E

/-! ## Records -/

namespace Store.Records

variable {E : Env} {s : Store} {f : PageFile}

/-- The slot of a record. -/
theorem slot (h : s.Records f) {page offset : Nat}
    (hp : s.active.activeRecords[page]? = some offset) :
    ∃ i r, f.slots[i]? = some r ∧ r.pageNo = some page ∧
      offset = recordOffset s.head.pageSize i ∧ i < s.active.activeRecords.size := by
  obtain ⟨i, r, hr, hrp, hoff⟩ := h.indexed.slot page offset hp
  rw [liveSlots, List.getElem?_take] at hr
  split at hr
  · exact ⟨i, r, hr, hrp, hoff, ‹_›⟩
  · cases hr

theorem fileSize (h : s.Records f) : f.header.pageSize = s.head.pageSize := by
  rw [h.header, h.pageSize]

/-- A record can be read. -/
theorem readPayload (h : s.Records f) {page offset : Nat}
    (hp : s.active.activeRecords[page]? = some offset) :
    ∃ bytes, f.readPayload offset = some bytes ∧ bytes.length = s.head.pageSize := by
  obtain ⟨i, r, hr, -, rfl, -⟩ := h.slot hp
  exact ⟨r.payload, by simp [PageFile.readPayload, h.fileSize, hr],
    h.payload r (List.mem_of_getElem? hr)⟩

theorem record_eq_none (h : s.Records f) {page : Nat} :
    (s.overlay E f).record page = none ↔ s.active.activeRecords[page]? = none := by
  show s.active.activeRecords[page]?.bind f.readPayload = none ↔ _
  cases hp : s.active.activeRecords[page]? with
  | none => simp
  | some offset =>
      obtain ⟨bytes, hb, -⟩ := h.readPayload hp
      simp [hb]

theorem committedRecord_eq_some {page offset : Nat} :
    s.committedRecord page = some offset ↔
      s.active.activeRecords[page]? = some offset ∧ offset < s.head.activeCommitEnd := by
  simp [committedRecord, Option.filter_eq_some_iff]

theorem undo_eq_none (h : s.Records f) {page : Nat} (hp : page ∉ s.pendingRawPages) :
    s.pendingRawOriginals[page]? = none := by
  by_contra hne
  obtain ⟨bytes, hb⟩ := Option.ne_none_iff_exists'.mp hne
  exact hp (h.undo page bytes hb).1

/-- **The layers of a store obey the precedence invariant.** -/
theorem coherent (h : s.Records f) (E : Env) : (s.overlay E f).Coherent where
  untouched := by
    intro page hp
    have hp : page ∉ s.pendingRawPages := by simpa [overlay] using hp
    show s.active.activeRecords[page]?.bind f.readPayload = (s.committedRecord page).bind _
    rw [h.undo_eq_none hp]
    cases hr : s.active.activeRecords[page]? with
    | none => simp [committedRecord, hr]
    | some offset =>
        -- outside the write set a record is a committed one
        obtain ⟨offset', ho⟩ := Option.ne_none_iff_exists'.mp
          fun hc => hp (h.appended page (by simp [hr]) hc)
        rw [ho]
        rw [committedRecord_eq_some, hr] at ho
        cases ho.1
        simp
  written := by
    intro page hp
    rw [Ne, h.record_eq_none]
    exact h.written page (by simpa [overlay] using hp)
  kept := by
    intro page hp
    rw [Ne, h.record_eq_none]
    intro hr
    exact hp (by simp [overlay, committedRecord, hr])
  rewritten := by
    intro page hc hr
    rw [Ne, h.record_eq_none] at hr
    simpa [overlay] using h.rewritten page hc hr

end Store.Records

/-! ## Reading a page -/

section Base

variable {E : Env}

theorem basePage_of_readPage {ps page : Nat} {v : PinnedView} {source : Option Bytes} {b : Bytes}
    (h : v.readPage E page = .ok b) : basePage E ps (some v) source page = b := by
  simp [basePage, h]

theorem basePage_above {ps page : Nat} {v : PinnedView} {source : Option Bytes}
    (h : v.size.pages < page) : basePage E ps (some v) source page = zeros ps := by
  simp [basePage, PinnedView.readPage, h]

end Base

section Read

variable {E : Env} {w : World} {f : PageFile}

/-- The world with another page cache. -/
def World.withCache (w : World) (cache : PageCache) : World :=
  w.updateStore fun s => { s with pageCache := cache }

theorem World.Open.withCache (h : w.Open E f) {cache : PageCache}
    (hc : cache.Fits w.store.view) : (w.withCache cache).Open E f where
  file := h.file
  records := ⟨h.records.header, h.records.pageSize, h.records.live, h.records.indexed,
    h.records.committedEnd, h.records.payload, h.records.undo, h.records.saved, h.records.written,
    h.records.appended, h.records.rewritten⟩
  based := { h.based with cache := hc }

theorem World.Open.activeFile (h : w.Open E f) : w.activeFile = .ok f := by
  simp [World.activeFile, h.file]

theorem World.Open.validPageSize (h : w.Open E f) (hps : w.store.head.pageSize ≠ 0) :
    validPageSize w.store.head.pageSize = true := by
  rw [← h.records.pageSize] at hps ⊢
  exact ActiveHeader.validPageSize_of_valid h.based.valid hps

theorem World.Open.readMutablePage (h : w.Open E f) {page offset : Nat}
    (hp : w.store.active.activeRecords[page]? = some offset) :
    ∃ bytes, w.readMutablePage page = .ok bytes ∧ f.readPayload offset = some bytes := by
  obtain ⟨i, r, hr, hrp, rfl, -⟩ := h.records.slot hp
  refine ⟨r.payload, ?_, by simp [PageFile.readPayload, h.records.fileSize, hr]⟩
  simp [World.readMutablePage, World.activeRecordOffset, hp, h.activeFile, h.records.fileSize, hr,
    hrp, Except.ensure_of]

/-- The base answers for every page: from the source, with zeros, or from the view. -/
theorem World.Open.readBasePage (h : w.Open E f) {size : PageSize}
    (hsize : size.get = w.store.head.pageSize) (page : Nat) :
    let base := basePage E w.store.head.pageSize w.store.view w.store.source page
    w.readBasePage size page = .ok (some base) ∨
    w.readBasePage size page = .ok none ∧ ∃ v, w.store.view = some v ∧
      v.readPage E page = .ok base ∧ page ≤ v.size.pages := by
  unfold World.readBasePage
  rw [hsize]
  cases hv : w.store.view with
  | some v =>
      simp only
      by_cases hp : v.size.pages < page
      · rw [if_pos hp, basePage_above hp]
        exact .inl rfl
      · obtain ⟨b, hb⟩ := PinnedView.readPage_total (h.based.genuine v hv).served
          (Nat.le_of_not_lt hp)
        rw [if_neg hp, basePage_of_readPage hb]
        exact .inr ⟨rfl, v, rfl, hb, Nat.le_of_not_lt hp⟩
  | none =>
      left
      cases hs : w.store.source with
      | none => rfl
      | some source =>
          have hlen := (h.based.source source hs).1
          simp only [← hlen]
          split
          · rename_i hoff
            -- the source is a whole number of pages
            obtain ⟨-, k, hk⟩ := ActiveHeader.source_aligned h.based.valid (by omega)
            rw [h.records.pageSize, ← hlen] at hk
            have hfit : (page - 1) * w.store.head.pageSize + w.store.head.pageSize ≤
                source.length := by
              rw [hk, Nat.mul_comm w.store.head.pageSize] at hoff ⊢
              have := Nat.lt_of_mul_lt_mul_right hoff
              rw [← Nat.succ_mul]
              exact Nat.mul_le_mul_right _ this
            simp [readExactAt, hfit, basePage, take_drop_eq_window hfit]
          · rename_i hoff
            simp only [basePage]
            rw [window_eq_zeros (Nat.le_of_not_lt hoff)]
            rfl

/-- The layers above the view answer for every page but the view's own. -/
theorem World.Open.readLocalPage (h : w.Open E f) (hps : w.store.head.pageSize ≠ 0) (page : Nat) :
    w.readLocalPage page = .ok (some (w.store.pendingPage E f page)) ∨
    w.readLocalPage page = .ok none ∧ ∃ v, w.store.view = some v ∧
      v.readPage E page = .ok (w.store.pendingPage E f page) ∧ page ≤ v.size.pages := by
  have hsize : PageSize.new w.store.head.pageSize = .ok ⟨_, h.validPageSize hps⟩ :=
    PageSize.new_get ⟨_, h.validPageSize hps⟩
  have hcut : ∀ cut : Option Nat, (cut.any fun last => last < page) = true ↔ Above cut page := by
    intro cut
    cases cut <;> simp
  simp only [World.readLocalPage, hsize, Except.ok_bind, hcut]
  have htouched : (w.store.overlay E f).touched page = false ↔ page ∉ w.store.pendingRawPages := by
    simp [Store.overlay]
  by_cases hpend : Above w.store.pendingTruncatePages page ∧ page ∉ w.store.pendingRawPages
  · left
    rw [if_pos hpend, Store.pendingPage, pending_of_hidden ⟨hpend.1, htouched.mpr hpend.2⟩]
    rfl
  rw [if_neg hpend, Store.pendingPage, pending_of_shown (by rwa [htouched])]
  cases hr : w.store.active.activeRecords[page]? with
  | some offset =>
      obtain ⟨bytes, hread, hb⟩ := h.readMutablePage hr
      left
      have hc : w.store.active.activeRecords.contains page = true := by
        simp [Std.ExtTreeMap.contains_eq_isSome_getElem?, hr]
      simp [hc, hread, Store.overlay, hr, hb]
  | none =>
      have hc : w.store.active.activeRecords.contains page = false := by
        simp [Std.ExtTreeMap.contains_eq_isSome_getElem?, hr]
      rw [if_neg (by simp [hc]), h.records.record_eq_none.mpr hr, Option.getD_none]
      by_cases hcut : Above w.store.active.truncatePages page
      · left
        rw [if_pos hcut, floor_of_above hcut]
        rfl
      · rw [if_neg hcut, floor_of_not_above hcut]
        exact h.readBasePage rfl page

theorem World.Open.length_pendingPage (h : w.Open E f) (page : Nat) :
    (w.store.pendingPage E f page).length = w.store.head.pageSize := by
  have hbase : (basePage E w.store.head.pageSize w.store.view w.store.source page).length =
      w.store.head.pageSize := by
    unfold basePage
    split
    · rename_i v hv
      split
      · rename_i b hb
        have hsize := (PinnedView.readPage_spec (h.based.genuine v hv).served.resolved hb).2.1
        rw [hsize, h.based.viewSize v hv]
      · simp
    · simp
    · simp
  unfold Store.pendingPage Overlay.pending
  split
  · simp
  · cases hr : w.store.active.activeRecords[page]? with
    | none =>
        rw [h.records.record_eq_none.mpr hr, Option.getD_none, floor]
        split
        · simp
        · exact hbase
    | some offset =>
        obtain ⟨bytes, hb, hlen⟩ := h.records.readPayload hr
        simpa [Store.overlay, hr, hb] using hlen

/-- `m` returns `a` and changes nothing but the cache. -/
def World.Returns {α : Type} (w : World) (m : StoreM α) (a : α) : Prop :=
  ∃ cache : PageCache, m w = .ok a (w.withCache cache) ∧ cache.Fits w.store.view

namespace World.Returns

variable {α β : Type}

theorem of_ok (h : w.Open E f) {m : StoreM α} {a : α} (hm : m w = .ok a w) : w.Returns m a :=
  ⟨w.store.pageCache, hm, h.based.cache⟩

theorem bind (h : w.Open E f) {m : StoreM α} {a : α} {k : α → StoreM β} {b : β}
    (hm : w.Returns m a)
    (hk : ∀ cache, (w.withCache cache).Open E f → (w.withCache cache).Returns (k a) b) :
    w.Returns (m >>= k) b := by
  obtain ⟨cache, hm, hc⟩ := hm
  obtain ⟨cache', hk, hc'⟩ := hk cache (h.withCache hc)
  exact ⟨cache', (EStateM.bind_of_ok _ hm).trans hk, hc'⟩

/-- A part that reads the state and leaves it as it is. -/
theorem step {m : StoreM α} {a : α} {k : α → StoreM β} {b : β} (hm : m w = .ok a w)
    (hk : w.Returns (k a) b) : w.Returns (m >>= k) b := by
  obtain ⟨cache, hk, hc⟩ := hk
  exact ⟨cache, (EStateM.bind_of_ok _ hm).trans hk, hc⟩

theorem lift {x : Except StoreError α} {a : α} {k : α → StoreM β} {b : β} (hx : x = .ok a)
    (hk : w.Returns (k a) b) : w.Returns (EStateM.liftExcept x >>= k) b :=
  step (EStateM.liftExcept_eq_ok.mpr ⟨hx, rfl⟩) hk

theorem mapM (h : w.Open E f) {l : List α} {m : α → StoreM β} {g : α → β}
    (hm : ∀ a ∈ l, ∀ cache, (w.withCache cache).Open E f →
      (w.withCache cache).Returns (m a) (g a)) :
    w.Returns (l.mapM m) (l.map g) := by
  induction l generalizing w with
  | nil => exact of_ok h rfl
  | cons a l ih =>
      rw [List.mapM_cons]
      refine bind h (hm a (by simp) w.store.pageCache h) fun cache hopen => ?_
      refine bind hopen (ih hopen fun a' ha' cache' => ?_) fun cache' hopen' => of_ok hopen' rfl
      exact hm a' (by simp [ha']) cache'

end World.Returns

theorem World.Open.readSealedPage (h : w.Open E f) {page : Nat} (hp : page ≠ 0) {v : PinnedView}
    (hv : w.store.view = some v) {bytes : Bytes} (hb : v.readPage E page = .ok bytes) :
    w.Returns (Zsqlite.readSealedPage E page) bytes := by
  have hle := (PinnedView.readPage_spec (h.based.genuine v hv).served.resolved hb).1
  have hnum : PageNumber.new page = .ok page :=
    PageNumber.new_eq_ok.mpr ⟨by have := v.size.bounded; unfold LogicalBytes.pages at hle; omega, hp, rfl⟩
  refine World.Returns.step (EStateM.get_apply w) ?_
  simp only [hv]
  refine World.Returns.lift hnum (World.Returns.step (EStateM.get_apply w) ?_)
  have hfits : w.store.pageCache.Fits (some v) := hv ▸ h.based.cache
  obtain ⟨cache', hread, hc⟩ := PageCache.read_eq hfits (h.based.genuine v hv).served _ hb
  refine ⟨cache', ?_, hv ▸ hc⟩
  rw [StoreM.onCache, hread]
  rfl

/-- **A page read returns the pending page.** -/
theorem World.Open.readPage_eq (h : w.Open E f) (hps : w.store.head.pageSize ≠ 0) {page : Nat}
    (hp : page ≠ 0) : w.Returns (readPage E page) (w.store.pendingPage E f page) := by
  rcases h.readLocalPage hps page with hl | ⟨hl, v, hv, hb, -⟩
  · exact .step (StoreM.ofExcept_eq_ok.mpr ⟨hl, rfl⟩) (.of_ok h rfl)
  · exact .step (StoreM.ofExcept_eq_ok.mpr ⟨hl, rfl⟩) (h.readSealedPage hp hv hb)

/-! ## Reading a range -/

/-- The bytes of the database inside the transaction. -/
def Store.pendingImage (E : Env) (s : Store) (f : PageFile) : Bytes :=
  if s.head.pageSize = 0 then resize (s.bootstrap.getD []) s.pendingSize
  else paged s.head.pageSize (s.pendingPage E f) s.pendingSize

/-- The bytes of the database after a rollback. -/
def Store.committedImage (E : Env) (s : Store) (f : PageFile) : Bytes :=
  paged s.head.pageSize (s.committedPage E f) s.head.logicalSize

/-- Every page of the pending image has a number that reads accept. -/
def Store.Addressable (s : Store) : Prop :=
  s.head.pageSize = 0 ∨ s.pendingSize ≤ (u32Max - 1) * s.head.pageSize

theorem World.Open.pendingImage_eq (_ : w.Open E f) (hps : w.store.head.pageSize ≠ 0) :
    w.store.pendingImage E f =
      paged w.store.head.pageSize (w.store.pendingPage E f) w.store.pendingSize :=
  if_neg hps

/-- Within the image, offsets and page numbers stay in their machine types. -/
theorem World.Open.offset_bounds (h : w.Open E f) (hps : w.store.head.pageSize ≠ 0)
    (ha : w.store.Addressable) {i : Nat} (hi : i < w.store.pendingSize) :
    i / w.store.head.pageSize + 1 < u32Max ∧ w.store.pendingSize ≤ u64Max := by
  have hle := ha.resolve_left hps
  have hbound := le_of_validPageSize (h.validPageSize hps)
  have hdiv : i / w.store.head.pageSize < u32Max - 1 :=
    (Nat.div_lt_iff_lt_mul (Nat.pos_of_ne_zero hps)).mpr (Nat.lt_of_lt_of_le hi hle)
  refine ⟨by unfold u32Max at hdiv ⊢; omega, hle.trans ?_⟩
  calc (u32Max - 1) * w.store.head.pageSize ≤ (u32Max - 1) * 65536 :=
        Nat.mul_le_mul_left _ hbound.2
    _ ≤ u64Max := by decide

/-- The page loop copies what is left of the range. -/
theorem World.Open.readPages_eq (h : w.Open E f) (hps : w.store.head.pageSize ≠ 0)
    (ha : w.store.Addressable) {offset actual : Nat} (hfit : offset + actual ≤ w.store.pendingSize)
    {fuel k : Nat} (hk : k ≤ actual) (hfuel : actual - k ≤ fuel) :
    w.Returns (readPages E offset actual fuel (window (w.store.pendingImage E f) offset k))
      (window (w.store.pendingImage E f) offset actual) := by
  induction fuel generalizing w k with
  | zero =>
      have : k = actual := by omega
      subst this
      exact .of_ok h rfl
  | succ fuel ih =>
      unfold readPages
      rw [length_window]
      split
      · rename_i hlt
        have hmod := Nat.mod_lt (offset + k) (Nat.pos_of_ne_zero hps)
        obtain ⟨hpage, hsize⟩ := h.offset_bounds hps ha (i := offset + k) (by omega)
        set amount := min (actual - k)
          (w.store.head.pageSize - (offset + k) % w.store.head.pageSize) with hamount
        -- the piece of this page continues the window
        have hfit' : (offset + k) % w.store.head.pageSize + amount ≤ w.store.head.pageSize := by omega
        have hpiece := window_paged (n := w.store.pendingSize) (h.length_pendingPage _) hfit' (by omega)
        rw [← h.pendingImage_eq hps] at hpiece
        refine .step (EStateM.get_apply w) (.lift (checkedAdd_eq_ok.mpr ⟨by omega, rfl⟩)
          (.lift (toU32_eq_ok.mpr ⟨by omega, rfl⟩)
            (.bind h (h.readPage_eq hps (Nat.succ_ne_zero _)) fun cache h' => ?_)))
        rw [hpiece, window_append]
        exact ih h' hps ha hfit (by omega) (by omega)
      · have : k = actual := by omega
        subst this
        exact .of_ok h rfl

/-- What the layers above the view answer for a page. -/
def World.localPage (w : World) (page : Nat) : Option Bytes :=
  match w.readLocalPage page with
  | .ok bytes => bytes
  | .error _ => none

theorem World.Open.readGroup_eq (h : w.Open E f) (hps : w.store.head.pageSize ≠ 0)
    {numbers : List Nat} (hn : ∀ n ∈ numbers, n ≠ 0 ∧ n < u32Max) :
    w.Returns (readGroup E numbers) (numbers.map (w.store.pendingPage E f)) := by
  have hlocal : ∀ n, w.readLocalPage n = .ok (w.localPage n) := by
    intro n
    rcases h.readLocalPage hps n with hl | ⟨hl, -⟩ <;> simp [World.localPage, hl]
  refine .bind h (.mapM (g := fun n => (n, w.localPage n)) h fun n hmem cache h' => ?_)
    fun cache h => ?_
  · obtain ⟨h₀, hmax⟩ := hn n hmem
    have hnum : (do PageNumber.new (← toU32 n)) = Except.ok n := by
      rw [toU32_eq_ok.mpr ⟨Nat.le_of_lt hmax, rfl⟩]
      exact PageNumber.new_eq_ok.mpr ⟨by omega, h₀, rfl⟩
    exact .lift hnum (.step (StoreM.ofExcept_eq_ok.mpr ⟨hlocal n, rfl⟩) (.of_ok h' rfl))
  · rw [List.mapM_map]
    refine .mapM h fun n hmem cache h => ?_
    rcases h.readLocalPage hps n with hl | ⟨hl, v, hv, hb, -⟩
    · have : w.localPage n = some (w.store.pendingPage E f n) :=
        Except.ok.inj ((hlocal n).symm.trans hl)
      simp only [Function.comp_apply, this]
      exact .of_ok h rfl
    · have : w.localPage n = none := Except.ok.inj ((hlocal n).symm.trans hl)
      simp only [Function.comp_apply, this]
      exact h.readSealedPage (hn n hmem).1 hv hb

/-- Copying consecutive pages continues the window, up to the end of the range or of the last
page. -/
theorem copyPages_window {ps offset length n k first : Nat} (count : Nat)
    {page : Nat → Bytes} (hps : 0 < ps) (hlen : ∀ p, (page p).length = ps) (hfit : offset + length ≤ n)
    (hk : k ≤ length) (hfirst : k = length ∨ (offset + k) / ps + 1 = first) :
    ∃ k', k ≤ k' ∧ k' ≤ length ∧ (k' = length ∨ (offset + k') / ps + 1 = first + count) ∧
      copyPages ps offset length (window (paged ps page n) offset k)
        ((List.range' first count).map page) = window (paged ps page n) offset k' := by
  induction count generalizing k first with
  | zero => exact ⟨k, Nat.le_refl _, hk, by simpa using hfirst, rfl⟩
  | succ count ih =>
      set amount := min (length - k) (ps - (offset + k) % ps) with hamount
      have hmod := Nat.mod_lt (offset + k) hps
      have hstep : copyPages ps offset length (window (paged ps page n) offset k)
          ((List.range' first (count + 1)).map page) =
        copyPages ps offset length (window (paged ps page n) offset (k + amount))
          ((List.range' (first + 1) count).map page) := by
        rw [List.range'_succ, List.map_cons]
        simp only [copyPages, List.foldl_cons, length_window, hlen, ← hamount]
        congr 1
        rw [← window_append]
        rcases hfirst with rfl | rfl
        · simp [hamount]
          rfl
        · rw [window_paged (n := n) (hlen _) (by omega) (by omega)]
      have hnext : k + amount = length ∨ (offset + (k + amount)) / ps + 1 = first + 1 := by
        rcases hfirst with rfl | rfl
        · left
          omega
        · by_cases hend : k + amount = length
          · exact .inl hend
          · -- the page is used up: the next byte starts the next page
            right
            have : offset + (k + amount) = offset + k + (ps - (offset + k) % ps) := by omega
            rw [this]
            have hdiv := Nat.div_add_mod (offset + k) ps
            have : offset + k + (ps - (offset + k) % ps) = ps * ((offset + k) / ps + 1) := by
              rw [Nat.mul_succ]
              omega
            rw [this, Nat.mul_div_cancel_left _ hps]
      obtain ⟨k', h₁, h₂, h₃, h₄⟩ := ih (by omega) hnext
      exact ⟨k', by omega, h₂, by rcases h₃ with h₃ | h₃ <;> omega, hstep.trans h₄⟩

theorem World.Open.readBatched_eq (h : w.Open E f) (hps : w.store.head.pageSize ≠ 0)
    (ha : w.store.Addressable) {offset actual : Nat} (hfit : offset + actual ≤ w.store.pendingSize)
    {fuel k : Nat} (hk : k ≤ actual) (hfuel : actual - k ≤ fuel) :
    w.Returns (readBatched E offset actual fuel (window (w.store.pendingImage E f) offset k))
      (window (w.store.pendingImage E f) offset actual) := by
  induction fuel generalizing w k with
  | zero =>
      have : k = actual := by omega
      subst this
      exact .of_ok h rfl
  | succ fuel ih =>
      unfold readBatched
      rw [length_window]
      split
      · rename_i hlt
        set ps := w.store.head.pageSize with hsize
        set first := (offset + k) / ps + 1 with hfirst
        set last := min ((offset + actual - 1) / ps + 1) (first + 255) with hlast
        obtain ⟨hmax, hbound⟩ := h.offset_bounds hps ha (i := offset + actual - 1) (by omega)
        rw [← hsize] at hmax
        have hle : first ≤ last := by
          have : (offset + k) / ps ≤ (offset + actual - 1) / ps := Nat.div_le_div_right (by omega)
          omega
        have hgroup : ∀ n ∈ List.range' first (last + 1 - first), n ≠ 0 ∧ n < u32Max := by
          intro n hn
          rw [List.mem_range'_1] at hn
          have : 0 < first := Nat.succ_pos _
          omega
        obtain ⟨k', h₁, h₂, h₃, h₄⟩ := copyPages_window (last + 1 - first) (Nat.pos_of_ne_zero hps)
          h.length_pendingPage hfit hk (.inr hfirst.symm)
        -- a group has at least one page, so the loop makes progress
        have hprogress : k < k' := by
          rcases h₃ with h₃ | h₃
          · omega
          · by_contra hge
            have : k' = k := by omega
            subst this
            omega
        refine .step (EStateM.get_apply w) (.lift (checkedAdd_eq_ok.mpr ⟨by omega, rfl⟩)
          (.lift (checkedAdd_eq_ok.mpr ⟨by omega, rfl⟩)
            (.bind h (h.readGroup_eq hps hgroup) fun cache h' => ?_)))
        rw [← h.pendingImage_eq hps] at h₄
        rw [h₄]
        exact ih h' hps ha hfit h₂ (by omega)
      · have : k = actual := by omega
        subst this
        exact .of_ok h rfl

/-- **Reads return the pending image.** A read of any range returns how much of it lies in the
database, and the bytes of the image with zeros past its end. -/
theorem World.Open.readAt_eq (h : w.Open E f) (ha : w.store.Addressable) (offset length : Nat) :
    w.Returns (readAt E offset length) (min (w.store.pendingSize - offset) length,
      window (w.store.pendingImage E f) offset length) := by
  have himage : (w.store.pendingImage E f).length = w.store.pendingSize := by
    unfold Store.pendingImage
    split <;> simp
  refine .step (EStateM.get_apply w) ?_
  simp only
  split
  · rename_i hout
    refine .of_ok h ?_
    rw [show min (w.store.pendingSize - offset) length = 0 by omega]
    rcases hout with rfl | hout
    · rfl
    · rw [window_eq_zeros (by omega)]
      rfl
  · rename_i hin
    simp only [not_or, Nat.not_le] at hin
    set actual := min (w.store.pendingSize - offset) length with hactual
    have hresult : resize (window (w.store.pendingImage E f) offset actual) length =
        window (w.store.pendingImage E f) offset length := by
      by_cases hl : actual = length
      · rw [hl, resize_of_length_eq (by simp)]
      · exact resize_window (by omega)
    rw [← hresult]
    have hzero : window (w.store.pendingImage E f) offset 0 = [] := rfl
    by_cases hps : w.store.head.pageSize = 0
    · rw [if_pos hps]
      have hfile : ∀ file : Bytes,
          resize (window file offset (min actual (file.length - offset))) length =
            resize (window (resize file w.store.pendingSize) offset actual) length := by
        intro file
        rw [window_resize _ _ _ _ (by omega)]
        refine ext_getD (by simp) fun i _ => ?_
        simp only [getD_resize, getD_window]
        grind [List.getD_eq_default]
      have hpending : w.store.pendingImage E f =
          resize (w.store.bootstrap.getD []) w.store.pendingSize := if_pos hps
      rw [hpending]
      cases hb : w.store.bootstrap with
      | none =>
          rw [Option.getD_none, ← hfile [], List.length_nil, Nat.zero_sub, Nat.min_zero]
          exact .of_ok h rfl
      | some file =>
          rw [Option.getD_some, ← hfile file]
          simp only
          split
          · rename_i hcopied
            rw [hcopied]
            exact .of_ok h rfl
          · have hexact : readExactAt file offset (min actual (file.length - offset)) =
                .ok (window file offset (min actual (file.length - offset))) := by
              rw [readExactAt, if_pos (by omega), take_drop_eq_window (by omega)]
            exact .lift hexact (.of_ok h rfl)
    · rw [if_neg hps]
      split
      · refine .bind h (hzero ▸ h.readBatched_eq hps ha (by omega) (Nat.zero_le _) (by omega))
          fun cache h => .of_ok h rfl
      · refine .bind h (hzero ▸ h.readPages_eq hps ha (by omega) (Nat.zero_le _) (by omega))
          fun cache h => .of_ok h rfl

end Read

end Zsqlite
