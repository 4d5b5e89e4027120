import Zsqlite.Store.Conversion
import Zsqlite.Lib.Machine

set_option autoImplicit false

/-! # Sessions

A session is the run of one process's calls on a database, all of which return. What a session
reads is one image (`World.Reads`), the pending one; the calls act on it and on the committed image
as the calls of a pair of byte vectors do (`Call.apply`), sub-page writes after a truncation of the
same transaction apart (`Store.Clears`).
-/

namespace Zsqlite

open ByteVec Overlay Machine

/-! ## Reading -/

/-- The store reads as `image`: it has the size of `image`, and a read of any range returns what
`image` has there and changes the page cache only. -/
structure World.Reads (E : Env) (w : World) (image : Bytes) : Prop where
  size : w.store.logicalSize = image.length
  bytes : ∀ offset length, w.Returns (readAt E offset length)
    (min (image.length - offset) length, window image offset length)

section Reads

variable {E : Env} {w w' : World} {f : PageFile} {image : Bytes}

theorem World.Reads.readAt (h : w.Reads E image) {offset length : Nat} {r : Nat × Bytes}
    (hr : readAt E offset length w = .ok r w') : r.2 = window image offset length := by
  obtain ⟨cache, hread, -⟩ := h.bytes offset length
  rw [hread] at hr
  cases hr
  rfl

theorem World.Reads.unique {image' : Bytes} (h : w.Reads E image) (h' : w.Reads E image') :
    image = image' := by
  have hlen := h.size.symm.trans h'.size
  obtain ⟨cache, hread, -⟩ := h.bytes 0 image.length
  have := h'.readAt hread
  refine ext_getD hlen fun i hi => ?_
  have := congrArg (List.getD · i 0) this
  simpa only [getD_window, hi, if_true, Nat.zero_add] using this

/-- A batch with the reserved page number fails. -/
theorem readGroup_reserved {numbers : List Nat} (hmem : u32Max ∈ numbers) {pages : List Bytes} :
    readGroup E numbers w ≠ .ok pages w' := by
  intro hr
  obtain ⟨found, w₁, hfound, -⟩ := EStateM.bind_eq_ok.mp hr
  obtain ⟨_, _, _, hpage⟩ := EStateM.exists_of_mapM_eq_ok hfound hmem
  obtain ⟨number, _, hnumber, -⟩ := EStateM.bind_eq_ok.mp hpage
  obtain ⟨hnumber, -⟩ := EStateM.liftExcept_eq_ok.mp hnumber
  obtain ⟨_, hfit, hnumber⟩ := Except.bind_eq_ok.mp hnumber
  obtain ⟨-, rfl⟩ := toU32_eq_ok.mp hfit
  exact (PageNumber.new_eq_ok.mp hnumber).1 rfl

/-- A read over the last two page numbers fails. -/
theorem readBatched_reserved {fuel : Nat} {bytes : Bytes} (hps : 0 < w.store.head.pageSize) :
    readBatched E ((u32Max - 2) * w.store.head.pageSize) (w.store.head.pageSize + 1) (fuel + 1) [] w ≠
      .ok bytes w' := by
  intro hr
  rw [readBatched, if_pos (by simp)] at hr
  simp only [EStateM.bind_eq_ok, EStateM.liftExcept_eq_ok, checkedAdd_eq_ok] at hr
  obtain ⟨_, _, hget, _, _, ⟨⟨-, rfl⟩, rfl⟩, _, _, ⟨⟨-, rfl⟩, rfl⟩, pages, _, hgroup, -⟩ := hr
  cases hget
  refine readGroup_reserved (List.mem_range'_1.mpr ?_) hgroup
  have hfirst : ((u32Max - 2) * w.store.head.pageSize + ([] : Bytes).length) / w.store.head.pageSize =
      u32Max - 2 := by
    rw [List.length_nil, Nat.add_zero, Nat.mul_div_cancel _ hps]
  have hlast : ((u32Max - 2) * w.store.head.pageSize + (w.store.head.pageSize + 1) - 1) /
      w.store.head.pageSize = u32Max - 1 := by
    rw [show (u32Max - 2) * w.store.head.pageSize + (w.store.head.pageSize + 1) - 1 =
      (u32Max - 2 + 1) * w.store.head.pageSize by rw [Nat.succ_mul]; omega, Nat.mul_div_cancel _ hps]
    rfl
  rw [hfirst, hlast]
  decide

/-- What can be read has no page with the reserved number. -/
theorem World.Reads.addressable (h : w.Reads E image) : w.store.Addressable := by
  by_contra hfar
  obtain ⟨hknown, hfar⟩ := not_or.mp hfar
  have hpos := Nat.pos_of_ne_zero hknown
  have hlast : (u32Max - 2) * w.store.head.pageSize + w.store.head.pageSize =
      (u32Max - 1) * w.store.head.pageSize := (Nat.succ_mul _ _).symm
  -- the last two pages are read in one batch
  obtain ⟨cache, hr, -⟩ := h.bytes ((u32Max - 2) * w.store.head.pageSize) (w.store.head.pageSize + 1)
  obtain ⟨_, _, hget, hr⟩ := EStateM.bind_eq_ok.mp hr
  cases hget
  rw [if_neg (by omega)] at hr
  obtain ⟨bytes, _, hbytes, -⟩ := EStateM.bind_eq_ok.mp hr
  rw [if_neg hknown, Nat.min_eq_right (by omega), if_pos (by omega)] at hbytes
  exact readBatched_reserved hpos hbytes

/-- **What a store reads** is its pending image, exactly when no page of it has the reserved
number. -/
theorem World.Open.reads_iff (h : w.Open E f) :
    w.Reads E (w.store.pendingImage E f) ↔ w.store.Addressable :=
  ⟨World.Reads.addressable, fun ha => ⟨by simp [Store.logicalSize], fun offset length => by
    simpa using h.readAt_eq ha offset length⟩⟩

/-- Nothing else is read. -/
theorem World.Open.image_eq (h : w.Open E f) (hread : w.Reads E image) :
    image = w.store.pendingImage E f :=
  hread.unique (h.reads_iff.mpr hread.addressable)

end Reads

/-! ## Calls -/

inductive Call where
  | write (offset : Nat) (input : Bytes)
  | truncate (size : Nat)
  | publish (durable : Bool)
  | discard
  | reopen (writable : Bool)
  | flush
  | compact
  | refresh
  | beginCheckpoint
  | publishCheckpoint (durable : Bool)
  | finishCheckpoint
  deriving DecidableEq

def Call.run (E : Env) (G : Collector) : Call → StoreM Unit
  | .write offset input => do let _ ← writeAt E offset input
  | .truncate size => Zsqlite.truncate E size
  | .publish durable => Zsqlite.publish E durable
  | .discard => discardPending
  | .reopen writable => Zsqlite.reopen E writable
  | .flush => flushSidecars E G
  | .compact => Zsqlite.compact E
  | .refresh => Zsqlite.refresh E
  | .beginCheckpoint => beginCheckpointPublication E
  | .publishCheckpoint durable => Zsqlite.publishCheckpoint E durable
  | .finishCheckpoint => finishCheckpointPublication

/-- A checkpoint is finished only after what it wrote is published or rolled back. -/
def Call.Legal (w : World) : Call → Prop
  | .finishCheckpoint => w.store.hasPending = false
  | _ => True

/-- Publications are of whole pages. -/
def Call.Aligned (w : World) : Call → Prop
  | .publish _ | .publishCheckpoint _ | .flush => w.store.head.pageSize ∣ w.store.pendingSize
  | _ => True

/-- The store of one process whose calls all return, from any committed state that can be opened
on. -/
def session (E : Env) (G : Collector) : System World Call where
  init w := ∃ f, w.Valid E f ∧ f.Readable ∧ w.store.hasPending = false
  step w call w' := call.Legal w ∧ call.run E G w = .ok () w'

/-- Two byte vectors. -/
@[ext] structure Images where
  committed : Bytes
  pending : Bytes

/-- What a call does to two byte vectors. -/
def Call.apply (m : Images) : Call → Images
  | .write offset input => { m with pending := overwrite m.pending offset input }
  | .truncate size => { m with pending := resize m.pending size }
  | .publish _ | .publishCheckpoint _ | .flush => { m with committed := m.pending }
  | .discard | .reopen _ => { m with pending := m.committed }
  | .compact | .refresh | .beginCheckpoint | .finishCheckpoint => m

/-- Writes are of whole pages, once the page size is known. -/
def Call.Whole (w : World) : Call → Prop
  | .write offset input => w.store.head.pageSize ≠ 0 →
      w.store.head.pageSize ∣ offset ∧ w.store.head.pageSize ∣ input.length
  | _ => True

/-- The two images of a store. -/
def Store.images (E : Env) (s : Store) (f : PageFile) : Images :=
  ⟨s.committedImage E f, s.pendingImage E f⟩

/-- A write of `input` at `offset` zeroes byte `i` beside its range: the byte shares a page with the
range, and the running transaction has cut that page off. -/
def Store.Clears (s : Store) (offset : Nat) (input : Bytes) (i : Nat) : Prop :=
  ¬ (offset ≤ i ∧ i < offset + input.length) ∧
    Above s.pendingTruncatePages (i / s.head.pageSize + 1) ∧ input ≠ [] ∧
    offset / s.head.pageSize ≤ i / s.head.pageSize ∧
    i / s.head.pageSize ≤ (offset + input.length - 1) / s.head.pageSize

section Calls

variable {E : Env} {G : Collector} {w w' : World} {f f' : PageFile}

/-- **A write** replaces its range, and no other byte exactly when the bytes it clears are zero. -/
theorem World.Valid.write_images (h : w.Valid E f) (hknown : w.store.head.pageSize ≠ 0)
    {offset n : Nat} {input : Bytes} (hr : Zsqlite.writeAt E offset input w = .ok n w') :
    ∃ f', w'.Valid E f' ∧ w'.store.committedImage E f' = w.store.committedImage E f ∧
      (f.Readable → f'.Readable) ∧
      (w'.store.pendingImage E f' = overwrite (w.store.pendingImage E f) offset input ↔
        ∀ i, w.store.Clears offset input i → (w.store.pendingImage E f).getD i 0 = 0) := by
  by_cases hne : input = []
  · subst hne
    cases hr
    exact ⟨f, h, rfl, id, by simp [Store.Clears]⟩
  obtain ⟨-, f', h', hsame, hsize, hbytes⟩ := h.writeAt hknown hne hr
  refine ⟨f', h', hsame.committedImage, hsame.readable, ?_⟩
  have hold : ∀ i, (w.store.pendingImage E f).getD i 0 =
      pageByte w.store.head.pageSize (w.store.pendingPage E f) i := by
    intro i
    rw [h.pendingImage_eq hknown, getD_paged]
    split
    · rfl
    · exact (h.zeroPending i (by omega)).symm
  have hnew : ∀ i, (w'.store.pendingImage E f').getD i 0 =
      pageByte w.store.head.pageSize (w'.store.pendingPage E f') i := by
    intro i
    rw [h'.pendingImage_eq (hsame.pageSize ▸ hknown), getD_paged, hsame.pageSize]
    split
    · rfl
    · exact (hsame.pageSize ▸ h'.zeroPending i (by omega)).symm
  have hlen : (w'.store.pendingImage E f').length =
      (overwrite (w.store.pendingImage E f) offset input).length := by
    rw [length_overwrite hne]
    simpa using hsize
  constructor
  · intro heq i hi
    have := congrArg (List.getD · i 0) heq
    simp only [hnew, hbytes, getD_overwrite, if_neg hi.1, patched] at this
    rw [← this, if_pos ⟨hi.2.1, hi.2.2.1, hi.2.2.2⟩]
  · intro hzero
    refine ext_getD hlen fun i _ => ?_
    rw [hnew, hbytes, getD_overwrite, patched]
    split
    · rfl
    · rename_i hout
      split
      · rename_i hclear
        exact (hzero i ⟨hout, hclear.1, hclear.2.1, hclear.2.2⟩).symm
      · exact (hold i).symm

/-- A write of whole pages clears nothing. -/
theorem Store.not_clears {s : Store} {offset i : Nat} {input : Bytes} (ho : s.head.pageSize ∣ offset)
    (hl : s.head.pageSize ∣ input.length) : ¬ s.Clears offset input i := by
  rintro ⟨hout, -, hne, hfirst, hlast⟩
  have hpos : 0 < input.length := List.length_pos_iff.mpr hne
  have hps : 0 < s.head.pageSize := Nat.pos_of_dvd_of_pos hl hpos
  obtain ⟨a, rfl⟩ := ho
  obtain ⟨b, hb⟩ := hl
  rw [Nat.mul_div_cancel_left _ hps] at hfirst
  have hend : (s.head.pageSize * a + input.length - 1) / s.head.pageSize < a + b := by
    rw [Nat.div_lt_iff_lt_mul hps, Nat.add_mul, Nat.mul_comm a, Nat.mul_comm b, ← hb]
    omega
  refine hout ⟨?_, ?_⟩
  · rw [Nat.mul_comm]
    exact (Nat.le_div_iff_mul_le hps).mp hfirst
  · have hi : i / s.head.pageSize < a + b := Nat.lt_of_le_of_lt hlast hend
    rw [Nat.div_lt_iff_lt_mul hps, Nat.add_mul, Nat.mul_comm a, Nat.mul_comm b] at hi
    omega

/-- **A truncation** cuts the pending image, or extends it with zeros. -/
theorem World.Valid.truncate_images (h : w.Valid E f) {size : Nat}
    (hr : Zsqlite.truncate E size w = .ok () w') :
    ∃ f', w'.Valid E f' ∧ w'.store.committedImage E f' = w.store.committedImage E f ∧
      w'.store.pendingImage E f' = resize (w.store.pendingImage E f) size ∧
      (f.Readable → f'.Readable) := by
  by_cases hknown : w.store.head.pageSize = 0
  · obtain ⟨f', h', hlogical, -, himage⟩ := h.truncate_unsized hknown hr
    exact ⟨f', h', by rw [Store.committedImage_empty hlogical,
      Store.committedImage_empty (h.unknown hknown).logicalSize], himage⟩
  · obtain ⟨-, f', h', hsame, hsize, hbytes⟩ := h.truncate hknown hr
    refine ⟨f', h', hsame.committedImage, ext_getD (by simp [hsize]) fun i hi => ?_, hsame.readable⟩
    have hi : i < size := by simpa [hsize] using hi
    rw [h'.pendingImage_eq (hsame.pageSize ▸ hknown), getD_paged, hsize, if_pos hi, hsame.pageSize,
      hbytes, if_pos hi, getD_resize, if_pos hi, h.pendingImage_eq hknown, getD_paged]
    split
    · rfl
    · exact h.zeroPending i (by omega)

/-- **A call** acts on the two images as on two byte vectors, when its writes are of whole pages. -/
theorem Call.images (h : w.Valid E f) {call : Call} (hlegal : call.Legal w)
    (hr : call.run E G w = .ok () w') :
    ∃ f', w'.Valid E f' ∧
      (call.Whole w → w'.store.images E f' = call.apply (w.store.images E f)) ∧
      (call.Aligned w → f.Readable → f'.Readable) := by
  cases call with
  | write offset input =>
      obtain ⟨n, w₁, hwrite, hr⟩ := EStateM.bind_eq_ok.mp hr
      cases hr
      by_cases hknown : w.store.head.pageSize = 0
      · by_cases hne : input = []
        · subst hne
          cases hwrite
          exact ⟨f, h, fun _ => rfl, fun _ => id⟩
        · obtain ⟨-, f', h', hlogical, himage, hread⟩ := h.writeAt_unsized hknown hne hwrite
          refine ⟨f', h', fun _ => Images.ext ?_ himage, fun _ => hread⟩
          exact (Store.committedImage_empty hlogical).trans
            (Store.committedImage_empty (h.unknown hknown).logicalSize).symm
      · obtain ⟨f', h', hcommitted, hread, hiff⟩ := h.write_images hknown hwrite
        refine ⟨f', h', fun hwhole => Images.ext hcommitted (hiff.mpr fun i hi => ?_), fun _ => hread⟩
        exact absurd hi (Store.not_clears (hwhole hknown).1 (hwhole hknown).2)
  | truncate size =>
      obtain ⟨f', h', hcommitted, hpending, hread⟩ := h.truncate_images hr
      exact ⟨f', h', fun _ => Images.ext hcommitted hpending, fun _ => hread⟩
  | publish durable =>
      obtain ⟨f', h', hpending, hcommitted, -, hread⟩ := h.publishInner hr
      exact ⟨f', h', fun _ => Images.ext hcommitted hpending, fun hdvd hf => (hread hf).mpr hdvd⟩
  | discard =>
      cases hr
      obtain ⟨f', h', hpending, hcommitted, hread⟩ := h.discard_images
      exact ⟨f', h', fun _ => Images.ext hcommitted hpending, fun _ => hread⟩
  | reopen writable =>
      obtain ⟨f', h', hpending, hcommitted, hread⟩ := h.reopen hr
      exact ⟨f', h', fun _ => Images.ext hcommitted hpending, fun _ => hread⟩
  | flush =>
      obtain ⟨f', h', hpending, hcommitted, hread⟩ := h.flushSidecars hr
      exact ⟨f', h', fun _ => Images.ext hcommitted hpending, hread⟩
  | compact =>
      obtain ⟨f', h', hpending, hcommitted, hread⟩ := h.compact hr
      exact ⟨f', h', fun _ => Images.ext hcommitted hpending, fun _ => hread⟩
  | refresh =>
      obtain ⟨h', hsame, -⟩ := h.refresh hr
      exact ⟨f, h', fun _ => Images.ext hsame.committedImage hsame.pendingImage, fun _ => hsame.readable⟩
  | beginCheckpoint =>
      obtain ⟨f', h', hsame⟩ := h.beginCheckpoint hr
      exact ⟨f', h', fun _ => Images.ext hsame.committedImage hsame.pendingImage, fun _ => hsame.readable⟩
  | publishCheckpoint durable =>
      obtain ⟨f', h', hpending, hcommitted, -, hread⟩ := h.publishInner hr
      exact ⟨f', h', fun _ => Images.ext hcommitted hpending, fun hdvd hf => (hread hf).mpr hdvd⟩
  | finishCheckpoint =>
      cases hr
      obtain ⟨h', hsame⟩ := h.finishCheckpoint hlegal
      exact ⟨f, h', fun _ => Images.ext hsame.committedImage hsame.pendingImage, fun _ => hsame.readable⟩

/-- Every state of a session is valid. -/
theorem session_valid (h : (session E G).Reach w) : ∃ f, w.Valid E f := by
  refine System.ReachWhen.invariant (I := fun w => ∃ f, w.Valid E f) ?_ ?_ h
  · rintro w ⟨f, hf, -⟩
    exact ⟨f, hf⟩
  · rintro w call w' ⟨f, hf⟩ - ⟨hlegal, hr⟩
    obtain ⟨f', h', -⟩ := Call.images hf hlegal hr
    exact ⟨f', h'⟩

/-- In a session that publishes whole pages the file can be opened at any time. -/
theorem session_readable (h : (session E G).ReachWhen (fun w call => call.Aligned w) w) :
    ∃ f, w.Valid E f ∧ f.Readable := by
  refine System.ReachWhen.invariant (I := fun w => ∃ f, w.Valid E f ∧ f.Readable) ?_ ?_ h
  · rintro w ⟨f, hf, hread, -⟩
    exact ⟨f, hf, hread⟩
  · rintro w call w' ⟨f, hf, hread⟩ haligned ⟨hlegal, hr⟩
    obtain ⟨f', h', -, hread'⟩ := Call.images hf hlegal hr
    exact ⟨f', h', hread' haligned hread⟩

end Calls

/-! ## A new database -/

section New

variable {E : Env} {w : World} {database attachment : Digest} {clock : Nat}

/-- **A new database** is a committed store, and reads as empty. -/
theorem World.valid_initialized
    (hr : reload E (World.initialized database attachment clock) = .ok () w) :
    ∃ f, w.Valid E f ∧ f.Readable ∧ w.store.Settled ∧ w.store.head.pageSize = 0 ∧ w.store.head.txid = 0 ∧
      w.store.writable = true ∧ w.disk.publicationHeld = false := by
  have hsound : (World.initialized database attachment clock).disk.catalog.Sound E :=
    ⟨by simp [World.initialized, Catalog.initialized], by simp [World.initialized, Catalog.initialized]⟩
  obtain ⟨state, hstate, -, hre⟩ := reload_spec hsound
    (f := (ActiveHeader.genesis database attachment).emptyFile ⟨0, 0, 0, genesisHistory, 0, 0, 0, 0⟩)
    (by simp [World.initialized]) (by simp [PageFile.Sized, ActiveHeader.emptyFile])
    (PageCache.Fits.empty _ _) (by simp [World.initialized, Store.blank]) hr
  cases (ActiveHeader.current_emptyFile _ _).readActiveState hstate
  have hps : w.store.head.pageSize = 0 := hre.published.pageSize.symm
  have hlogical : w.store.head.logicalSize = 0 := hre.published.logicalSize.symm
  have htxid : w.store.head.txid = 0 := hre.published.txid.symm
  have howner : w.store.publicationOwner = .unlocked := hre.owner
  have hcut : w.store.active.truncatePages = none := hre.published.truncatePages.symm
  have hheader : w.store.active.header = .genesis database attachment := hre.opened.records.header.symm
  obtain ⟨C, source, hdisk, hobjects, -⟩ := hre.disk
  have hsourceless : w.store.source = none := (hre.opened.baseless hps).2
  have hrecords : w.store.active.activeRecords = ∅ := by
    refine Std.ExtTreeMap.ext_getElem? fun p => ?_
    cases hp : w.store.active.activeRecords[p]? with
    | none => simp
    | some offset =>
        obtain ⟨i, r, hr, -⟩ := hre.opened.records.indexed.slot p offset hp
        rw [Store.liveSlots, ActiveHeader.emptyFile, List.take_nil] at hr
        simp at hr
  refine ⟨_, ⟨.of_settled hre.opened hre.settled ?_ ⟨_, ActiveHeader.current_emptyFile _ _, hre.published⟩
    ?_ hre.anchored ?_ (by simp [hrecords]) ?_ ?_ (fun _ => ⟨hlogical, htxid, hrecords⟩) ?_,
    fun hne => absurd howner hne, fun _ => hre.settled.hasPending, by simp [howner]⟩, ⟨_, hstate⟩,
    hre.settled, hps, htxid, hre.writable, ?_⟩
  · rw [hre.file, hdisk]
  · rw [hdisk]
    exact hobjects.sound hsound
  · refine ⟨fun hne => absurd (by rw [hheader]; rfl) hne, fun _ => ⟨?_, hcut⟩⟩
    rw [hre.published.recordCount]
    exact recordOffset_zero _
  · intro i _
    have hlen := hre.opened.length_pendingPage (i / w.store.head.pageSize + 1)
    rw [hre.settled.pendingPage hre.opened.records, hps] at hlen
    rw [hps, pageByte, List.length_eq_zero_iff.mp hlen, List.getD_nil]
  · simp [hcut]
  · exact fun b hb => absurd (hsourceless.symm.trans hb) (by simp)
  · rw [hdisk]
    rfl

end New

/-! ## Scripts

A script is a list of calls on a new database, made by a process that never collects; what it
returns can be computed.
-/

/-- The collector that drops nothing. -/
def Collector.idle : Collector where
  collect _ C := .ok C
  shrinks h := by
    cases h
    exact ⟨fun _ _ h => h, fun _ _ h => h, rfl, rfl, rfl, rfl, rfl⟩

/-- Run calls on a new database. -/
def script (E : Env) (calls : List Call) : EStateM.Result StoreError World Unit :=
  (do reload E; calls.forM (Call.run E .idle)) (.initialized 1 1 1)

/-- Run calls on a new database, then ask for something. -/
def answer {α : Type} (E : Env) (calls : List Call) (query : StoreM α) : Option α :=
  match (do reload E; calls.forM (Call.run E .idle); query) (.initialized 1 1 1) with
  | .ok a _ => some a
  | .error _ _ => none

section Scripts

variable {E : Env} {w w' : World} {calls : List Call} {α : Type} {query : StoreM α} {a : α}

theorem reach_calls {G : Collector} {guard : World → Call → Prop}
    (hw : (session E G).ReachWhen guard w) (hlegal : ∀ call ∈ calls, call ≠ .finishCheckpoint)
    (hguard : ∀ call ∈ calls, ∀ w, guard w call) (h : calls.forM (Call.run E G) w = .ok () w') :
    (session E G).ReachWhen guard w' := by
  induction calls generalizing w with
  | nil =>
      cases h
      exact hw
  | cons call calls ih =>
      obtain ⟨_, w₁, hcall, hcalls⟩ := EStateM.bind_eq_ok.mp h
      have hne := hlegal call List.mem_cons_self
      have hstep : call.Legal w := by
        cases call <;> trivial
      exact ih (hw.step (hguard call List.mem_cons_self w) ⟨hstep, hcall⟩)
        (fun c hc => hlegal c (List.mem_cons_of_mem _ hc))
        (fun c hc => hguard c (List.mem_cons_of_mem _ hc)) hcalls

/-- A script without the end of a checkpoint is a session. -/
theorem reachWhen_script {guard : World → Call → Prop}
    (hlegal : ∀ call ∈ calls, call ≠ .finishCheckpoint)
    (hguard : ∀ call ∈ calls, ∀ w, guard w call) (h : script E calls = .ok () w) :
    (session E .idle).ReachWhen guard w := by
  obtain ⟨_, w₀, hopen, hcalls⟩ := EStateM.bind_eq_ok.mp h
  obtain ⟨f, hvalid, hread, hset, -⟩ := World.valid_initialized hopen
  exact reach_calls (.init ⟨f, hvalid, hread, hset.hasPending⟩) hlegal hguard hcalls

theorem reach_script (hlegal : ∀ call ∈ calls, call ≠ .finishCheckpoint)
    (h : script E calls = .ok () w) : (session E .idle).Reach w :=
  reachWhen_script hlegal (fun _ _ _ => trivial) h

theorem answer_eq_some :
    answer E calls query = some a ↔ ∃ w w', script E calls = .ok () w ∧ query w = .ok a w' := by
  have hsplit : (do reload E; calls.forM (Call.run E .idle); query : StoreM α) =
      ((do reload E; calls.forM (Call.run E .idle)) >>= fun _ => query) := by
    simp [bind_assoc]
  unfold answer
  rw [hsplit]
  constructor
  · intro h
    split at h
    · rename_i b w' hr
      cases h
      obtain ⟨_, w, hw, hq⟩ := EStateM.bind_eq_ok.mp hr
      exact ⟨w, w', hw, hq⟩
    · cases h
  · rintro ⟨w, w', hw, hq⟩
    rw [EStateM.bind_of_ok _ hw, hq]

/-- What a script reads at the end. -/
def lookAt (E : Env) (offset length : Nat) : StoreM (Nat × Nat × Bytes) := do
  let s := (← get).store
  return (s.head.pageSize, s.pendingSize, (← readAt E offset length).2)

theorem lookAt_eq_ok {offset length ps size : Nat} {bytes : Bytes}
    (h : lookAt E offset length w = .ok (ps, size, bytes) w') :
    w.store.head.pageSize = ps ∧ w.store.pendingSize = size ∧
      ∃ r, readAt E offset length w = .ok r w' ∧ r.2 = bytes := by
  obtain ⟨_, _, hget, h⟩ := EStateM.bind_eq_ok.mp h
  cases hget
  obtain ⟨r, _, hread, h⟩ := EStateM.bind_eq_ok.mp h
  rw [EStateM.pure_apply] at h
  injection h with hvalue hstate
  cases hstate
  simp only [Prod.mk.injEq] at hvalue
  exact ⟨hvalue.1, hvalue.2.1, r, hread, hvalue.2.2⟩

/-- The store of a script, as a transaction finds it. -/
def sizes (E : Env) : StoreM (Nat × Nat × Bool) := do
  beginWrite E
  let s := (← get).store
  return (s.head.pageSize, s.pendingSize, s.active.activeRecords.contains 1)

/-- The sizes before a publication. -/
def publishing (E : Env) : StoreM (Nat × Nat) := do
  let s := (← get).store
  publish E false
  return (s.head.pageSize, s.pendingSize)

theorem publishing_eq_ok {ps size : Nat} (h : publishing E w = .ok (ps, size) w') :
    publish E false w = .ok () w' ∧ w.store.head.pageSize = ps ∧ w.store.pendingSize = size := by
  obtain ⟨_, _, hget, h⟩ := EStateM.bind_eq_ok.mp h
  cases hget
  obtain ⟨_, w₁, hpublish, h⟩ := EStateM.bind_eq_ok.mp h
  rw [EStateM.pure_apply] at h
  injection h with hvalue hstate
  cases hstate
  simp only [Prod.mk.injEq] at hvalue
  exact ⟨hpublish, hvalue⟩

/-- A first page of 512 bytes with a SQLite header. -/
def pageOne : Bytes := sqliteMagic ++ [2, 0] ++ List.replicate 494 7

def pageTwo : Bytes := List.replicate 512 9

/-- A transaction of a database with two pages that cuts the second off and writes it again. -/
def rewriteSecond : List Call :=
  [.write 0 (pageOne ++ pageTwo), .publish false, .truncate 512, .write 512 pageTwo]

/-- The runs on which results about sessions are witnessed, evaluated once. -/
theorem answers :
    (∀ size ∈ [u32Max * 512, 3 * 512], answer Env.any [.write 0 pageOne, .truncate size]
      (do return ((← get).store.head.pageSize, (← get).store.pendingSize)) = some (512, size)) ∧
    answer Env.any [.write 0 (pageOne ++ pageTwo), .publish false, .truncate 512] (do
      let s := (← get).store
      let _ ← writeAt Env.any 512 pageTwo
      return (s.head.pageSize, s.pendingSize, s.pendingTruncatePages,
        (← get).store.head.pageSize, (← get).store.pendingSize)) =
      some (512, 512, some 1, 512, 1024) ∧
    answer Env.any rewriteSecond (lookAt Env.any 512 4) = some (512, 1024, [9, 9, 9, 9]) ∧
    answer Env.any rewriteSecond (do
      let _ ← writeAt Env.any 512 [1]
      lookAt Env.any 512 4) = some (512, 1024, [1, 0, 0, 0]) ∧
    answer Env.any [.write 0 pageOne] (sizes Env.any) = some (512, 512, true) ∧
    answer Env.any [.write 0 pageOne] (publishing Env.any) = some (512, 512) ∧
    answer Env.any [.write 0 pageOne, .write 512 [1]] (publishing Env.any) = some (512, 513) ∧
    answer Env.any [.write 0 pageOne, .write 512 [1]] (do
      publish Env.any false
      let w ← get
      return (w.disk.loadActive w.store.active.file w.store.active.header w.store.view).isOk) =
        some false := by
  decide +kernel

end Scripts

/-! ## A store is two byte vectors -/

/-- A session next to two byte vectors, from any committed state on. -/
def twin (E : Env) (G : Collector) : System (World × Images) Call where
  init s := (∃ f, s.1.Valid E f) ∧ s.1.store.hasPending = false ∧ s.1.Reads E s.2.pending ∧
    s.2.committed = s.2.pending
  step s call s' := (session E G).step s.1 call s'.1 ∧ s'.2 = call.apply s.2

section Twin

variable {E : Env} {G : Collector} {w : World} {m : Images}

/-- The two byte vectors stay the images of the store. -/
theorem twin_images (h : (twin E G).ReachWhen (fun s call => call.Whole s.1) (w, m)) :
    ∃ f, w.Valid E f ∧ m = w.store.images E f := by
  refine System.ReachWhen.invariant (I := fun s : World × Images =>
    ∃ f, s.1.Valid E f ∧ s.2 = s.1.store.images E f) ?_ ?_ h
  · rintro ⟨w, m⟩ ⟨⟨f, hf⟩, hpend, hread, hcommitted⟩
    have hpending := hf.toOpen.image_eq hread
    refine ⟨f, hf, Images.ext ?_ hpending⟩
    exact (hcommitted.trans hpending).trans (hf.image_of_settled (hf.settled hpend))
  · rintro ⟨w, m⟩ call ⟨w', m'⟩ ⟨f, hf, hm⟩ hwhole ⟨⟨hlegal, hr⟩, hm'⟩
    obtain ⟨f', h', himages, -⟩ := Call.images hf hlegal hr
    exact ⟨f', h', (hm'.trans (congrArg (Call.apply · call) hm)).trans (himages hwhole).symm⟩

/-- **A store reads as two byte vectors do**, in every state of a run of whole-page calls in which
its pages have numbers below the reserved one. -/
theorem twin_reads_iff (h : (twin E G).ReachWhen (fun s call => call.Whole s.1) (w, m)) :
    w.Reads E m.pending ↔ w.store.Addressable := by
  obtain ⟨f, hf, rfl⟩ := twin_images h
  exact hf.toOpen.reads_iff

/-- A new database next to two empty vectors. -/
theorem twin_initialized {database attachment : Digest} {clock : Nat}
    (hr : reload E (World.initialized database attachment clock) = .ok () w) :
    (twin E G).init (w, ⟨[], []⟩) ∧ w.store.head.pageSize = 0 := by
  obtain ⟨f, hf, -, hset, hps, -⟩ := World.valid_initialized hr
  have himage : w.store.pendingImage E f = [] := by
    rw [hf.image_of_settled hset, Store.committedImage_empty (hf.unknown hps).logicalSize]
  exact ⟨⟨⟨f, hf⟩, hset.hasPending, himage ▸ hf.toOpen.reads_iff.mpr (.inl hps), rfl⟩, hps⟩

/-- A run: the first page is written, then the database is extended. -/
theorem twin_extended (size : Nat) (hmem : size ∈ [u32Max * 512, 3 * 512]) :
    ∃ w m, (twin Env.any .idle).ReachWhen (fun s call => call.Whole s.1) (w, m) ∧
      w.store.head.pageSize = 512 ∧ w.store.pendingSize = size := by
  obtain ⟨w, _, hw, hq⟩ := answer_eq_some.mp (answers.1 size hmem)
  obtain ⟨_, w₀, hopen, hcalls⟩ := EStateM.bind_eq_ok.mp hw
  obtain ⟨_, w₁, hwrite, hcalls⟩ := EStateM.bind_eq_ok.mp hcalls
  obtain ⟨_, w₂, htruncate, hcalls⟩ := EStateM.bind_eq_ok.mp hcalls
  cases hcalls
  obtain ⟨hinit, hps⟩ := twin_initialized hopen
  injection hq with hvalue _
  simp only [Prod.mk.injEq] at hvalue
  have hfirst : (twin Env.any .idle).ReachWhen (fun s call => call.Whole s.1) (w₁, _) :=
    .step (a := .write 0 pageOne) (.init hinit) (fun hne => absurd hps hne) ⟨⟨trivial, hwrite⟩, rfl⟩
  exact ⟨w, _, .step (a := .truncate size) hfirst trivial ⟨⟨trivial, htruncate⟩, rfl⟩, hvalue⟩

/-- At 2³² − 1 pages the last page has the reserved number. -/
theorem twin_reserved_page : ∃ w m,
    (twin Env.any .idle).ReachWhen (fun s call => call.Whole s.1) (w, m) ∧
      ¬ w.Reads Env.any m.pending := by
  obtain ⟨w, m, hreach, hps, hsize⟩ := twin_extended _ (.head _)
  refine ⟨w, m, hreach, fun hread => ?_⟩
  rcases hread.addressable with h₀ | hle
  · rw [hps] at h₀
    cases h₀
  · rw [hps, hsize] at hle
    exact absurd hle (by decide)

/-- At three pages it is readable. -/
theorem twin_reads_three_pages : ∃ w m,
    (twin Env.any .idle).ReachWhen (fun s call => call.Whole s.1) (w, m) ∧
      w.store.pendingSize = 3 * 512 ∧ w.Reads Env.any m.pending := by
  obtain ⟨w, m, hreach, hps, hsize⟩ := twin_extended _ (.tail _ (.head _))
  exact ⟨w, m, hreach, hsize, (twin_reads_iff hreach).mpr (.inr (by rw [hps, hsize]; decide))⟩

end Twin

/-! ## Sub-page writes -/

section Write

variable {E : Env} {G : Collector} {w w' : World} {image input : Bytes} {offset n : Nat}

/-- **A write replaces its range and no other byte** exactly when every byte it clears beside the
range was zero. -/
theorem writeAt_replaces_iff (hw : (session E G).Reach w) (hknown : w.store.head.pageSize ≠ 0)
    (hread : w.Reads E image) (hr : writeAt E offset input w = .ok n w')
    (ha : w'.store.Addressable) :
    w'.Reads E (overwrite image offset input) ↔
      ∀ i, w.store.Clears offset input i → image.getD i 0 = 0 := by
  obtain ⟨f, h⟩ := session_valid hw
  obtain ⟨f', h', -, -, hiff⟩ := h.write_images hknown hr
  have himage := h'.toOpen.reads_iff.mpr ha
  rw [h.toOpen.image_eq hread, ← hiff]
  exact ⟨fun hnew => himage.unique hnew, fun heq => heq ▸ himage⟩

/-- Rewriting the second page of a database after cutting it off. -/
theorem writeAt_replaces_second_page : ∃ w w' : World, ∃ image : Bytes, ∃ n : Nat,
    (session Env.any .idle).Reach w ∧ w.store.pendingTruncatePages = some 1 ∧
    w.Reads Env.any image ∧ writeAt Env.any 512 pageTwo w = .ok n w' ∧
    w'.Reads Env.any (overwrite image 512 pageTwo) := by
  obtain ⟨w, _, hw, hafter⟩ := answer_eq_some.mp answers.2.1
  simp only [EStateM.bind_eq_ok] at hafter
  obtain ⟨_, _, hget, n, w', hwrite, _, _, hget', _, _, hget'', hafter⟩ := hafter
  cases hget
  cases hget'
  cases hget''
  injection hafter with hvalue _
  simp only [Prod.mk.injEq] at hvalue
  obtain ⟨hps, hsize, hmark, hps', hsize'⟩ := hvalue
  have hreach := reach_script (by decide) hw
  obtain ⟨f, hvalid⟩ := session_valid hreach
  have himage := hvalid.toOpen.reads_iff.mpr (.inr (by rw [hps, hsize]; decide))
  refine ⟨w, w', _, n, hreach, hmark, himage, hwrite, ?_⟩
  refine (writeAt_replaces_iff hreach (by rw [hps]; decide) himage hwrite
    (.inr (by rw [hps', hsize']; decide))).mpr fun i hi => absurd hi (Store.not_clears ?_ ?_)
  · rw [hps]
  · rw [hps, pageTwo, List.length_replicate]

/-- After it a write of one byte clears the rest of the page. -/
theorem writeAt_clears_rewritten_page : ∃ w w' : World, ∃ image : Bytes, ∃ n : Nat,
    (session Env.any .idle).Reach w ∧ w.store.head.pageSize ≠ 0 ∧ w.Reads Env.any image ∧
    writeAt Env.any 512 [1] w = .ok n w' ∧ w'.store.Addressable ∧
    ¬ w'.Reads Env.any (overwrite image 512 [1]) := by
  obtain ⟨-, -, hbefore, hafter, -⟩ := answers
  obtain ⟨w, _, hw, hbefore⟩ := answer_eq_some.mp hbefore
  obtain ⟨_, _, hw₂, hafter⟩ := answer_eq_some.mp hafter
  cases hw.symm.trans hw₂
  obtain ⟨n, w', hwrite, hafter⟩ := EStateM.bind_eq_ok.mp hafter
  obtain ⟨hps, hsize, r, hread, hold⟩ := lookAt_eq_ok hbefore
  obtain ⟨hps', hsize', r', hread', hnew⟩ := lookAt_eq_ok hafter
  have hreach := reach_script (by decide) hw
  obtain ⟨f, hvalid⟩ := session_valid hreach
  have himage := hvalid.toOpen.reads_iff.mpr (.inr (by rw [hps, hsize]; decide))
  refine ⟨w, w', _, n, hreach, by rw [hps]; decide, himage, hwrite,
    .inr (by rw [hps', hsize']; decide), fun hwrong => ?_⟩
  have hold := (himage.readAt hread).symm.trans hold
  have hnew := (hwrong.readAt hread').symm.trans hnew
  have h₁ := congrArg (List.getD · 1 0) hold
  have h₂ := congrArg (List.getD · 1 0) hnew
  simp only [getD_window, getD_overwrite] at h₁ h₂
  rw [if_pos (by decide)] at h₁
  rw [if_pos (by decide), if_neg (by decide), h₁] at h₂
  exact absurd h₂ (by decide)

end Write

end Zsqlite
