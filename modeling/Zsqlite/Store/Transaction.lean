import Zsqlite.Store.Layers
import Zsqlite.Store.Write

set_option autoImplicit false

/-! # What writes do to the layers

Writing a page is `Overlay.write` and shrinking is `Overlay.truncate`, whether a record is
overwritten in place or appended; the relation between the store and its file (`Records`) is kept
by both. A write of a range is then described byte by byte (`writeMutablePages`).
-/

namespace Zsqlite

open ByteVec Overlay

/-! ## Writing a page -/

/-- The file after page `page` is written. -/
def PageFile.logPage (f : PageFile) (records : BTreeMap Nat Nat) (page : Nat) (bytes : Bytes) :
    PageFile :=
  match records[page]? with
  | some offset => f.writePayload offset bytes
  | none => { f with slots := f.slots ++ [⟨some page, bytes⟩] }

/-- The store after page `page`, which read as `original`, is written to a file of length
`len`. -/
def Store.logPage (s : Store) (len page : Nat) (original : Bytes) (cache : PageCache) : Store :=
  { s with
    pageCache := cache
    active := { s.active with
      activeRecords :=
        if s.active.activeRecords.contains page then s.active.activeRecords
        else s.active.activeRecords.insert page len }
    pendingRawPages := insert page s.pendingRawPages
    pendingRawOriginals :=
      if s.needsOriginal page then s.pendingRawOriginals.insert page original
      else s.pendingRawOriginals }

/-- No slots lie behind the records. -/
def Store.Trimmed (s : Store) (f : PageFile) : Prop :=
  s.active.activeRecords.size = f.slots.length

theorem Store.checkPage_eq_ok {s : Store} {page : Nat} {bytes : Bytes} {u : Unit} :
    s.checkPage page bytes = .ok u ↔ bytes.length = s.head.pageSize ∧
      (page = 1 → parsePageSize bytes = some s.head.pageSize) := by
  simp [Store.checkPage, Except.bind_eq_ok]

section Write

variable {E : Env} {w w' : World} {f : PageFile} {page : Nat} {bytes : Bytes}

theorem World.Open.saveOriginal_eq (h : w.Open E f) (hps : w.store.head.pageSize ≠ 0)
    (hp : page ≠ 0) :
    ∃ cache : PageCache, cache.Fits w.store.view ∧ saveOriginal E page w = .ok () (w.updateStore fun s =>
      { s with
        pageCache := cache
        pendingRawOriginals :=
          if s.needsOriginal page then s.pendingRawOriginals.insert page (s.pendingPage E f page)
          else s.pendingRawOriginals }) := by
  by_cases hneed : w.store.needsOriginal page = true
  · obtain ⟨cache, hread, hc⟩ := h.readPage_eq hps hp
    refine ⟨cache, hc, (EStateM.bind_of_ok _ (EStateM.get_apply w)).trans ?_⟩
    rw [if_pos hneed, EStateM.bind_of_ok _ hread, StoreM.updateStore_apply]
    simp [World.updateStore, World.withCache, hneed]
  · refine ⟨w.store.pageCache, h.based.cache, (EStateM.bind_of_ok _ (EStateM.get_apply w)).trans ?_⟩
    rw [if_neg hneed, EStateM.pure_apply]
    simp [World.updateStore, hneed]

theorem overwriteActiveRecord_eq (hf : w.activeFile = .ok f) {offset : Nat}
    (hoff : w.store.active.activeRecords[page]? = some offset) :
    overwriteActiveRecord page bytes w = .ok () (w.setActiveFile (f.writePayload offset bytes)) := by
  simp only [overwriteActiveRecord, EStateM.bind_eq_ok, StoreM.ofExcept_eq_ok,
    StoreM.onActiveFile_eq_ok, World.activeRecordOffset, hoff]
  exact ⟨offset, w, ⟨rfl, rfl⟩, f, hf, rfl⟩

theorem appendActiveRecord_eq_ok (hf : w.activeFile = .ok f)
    (hps : f.header.pageSize = w.store.head.pageSize) :
    appendActiveRecord page bytes w = .ok () w' ↔ f.len + recordLen w.store.head.pageSize ≤ u64Max ∧
    w' = (w.setActiveFile { f with slots := f.slots ++ [⟨some page, bytes⟩] }).updateStore fun s =>
      { s with active := { s.active with
        activeRecords := s.active.activeRecords.insert page f.len } } := by
  simp only [appendActiveRecord, EStateM.bind_eq_ok, StoreM.ofExcept_eq_ok,
    StoreM.onActiveFile_eq_ok, EStateM.liftExcept_eq_ok, checkedAdd_eq_ok]
  constructor
  · rintro ⟨file, _, ⟨hfile, rfl⟩, _, _, hget, _, _, ⟨⟨hfit, rfl⟩, rfl⟩, _, _, ⟨file', hfile', rfl⟩, hr⟩
    cases hget
    cases hf.symm.trans hfile
    cases hf.symm.trans hfile'
    cases hr
    refine ⟨hfit, ?_⟩
    rw [← hps, PageFile.append_record]
  · rintro ⟨hfit, rfl⟩
    refine ⟨f, w, ⟨hf, rfl⟩, w, w, EStateM.get_apply w, _, w, ⟨⟨hfit, rfl⟩, rfl⟩, (), _, ⟨f, hf, rfl⟩, ?_⟩
    rw [← hps, PageFile.append_record, StoreM.updateStore_apply]

/-- The world after page `page` is written. -/
def World.logPage (E : Env) (w : World) (f : PageFile) (page : Nat) (bytes : Bytes)
    (cache : PageCache) : World :=
  { w.setActiveFile (f.logPage w.store.active.activeRecords page bytes) with
    store := w.store.logPage f.len page (w.store.pendingPage E f page) cache }

/-- **Writing a page** logs it, when the page has a record or the file can take another. -/
theorem World.Open.writeMutablePage_eq (h : w.Open E f) (hps : w.store.head.pageSize ≠ 0)
    (hlen : bytes.length = w.store.head.pageSize)
    (hone : page = 1 → parsePageSize bytes = some w.store.head.pageSize) (hp : page ≠ 0)
    (hmax : page ≠ u32Max) (hfit : w.store.active.activeRecords[page]? ≠ none ∨
      f.len + recordLen w.store.head.pageSize ≤ u64Max) :
    ∃ cache : PageCache, cache.Fits w.store.view ∧
      writeMutablePage E page bytes w = .ok () (w.logPage E f page bytes cache) := by
  obtain ⟨cache, hc, hsave⟩ := h.saveOriginal_eq hps hp
  refine ⟨cache.invalidate page, hc.invalidateWhere _, ?_⟩
  have hnum : PageNumber.new page = .ok page := PageNumber.new_eq_ok.mpr ⟨hmax, hp, rfl⟩
  rw [writeMutablePage, EStateM.bind_of_ok _ (StoreM.ofExcept_eq_ok.mpr
    ⟨Store.checkPage_eq_ok (u := ()) |>.mpr ⟨hlen, hone⟩, rfl⟩), EStateM.bind_of_ok _ hsave,
    EStateM.bind_of_ok _ (EStateM.liftExcept_eq_ok.mpr ⟨hnum, rfl⟩),
    EStateM.bind_of_ok _ (StoreM.updateStore_apply _ _), EStateM.bind_of_ok _ (EStateM.get_apply _)]
  cases hoff : w.store.active.activeRecords[page]? with
  | some offset =>
      have hcon : w.store.active.activeRecords.contains page = true := by
        simp [Std.ExtTreeMap.contains_eq_isSome_getElem?, hoff]
      rw [if_pos (by exact hcon), EStateM.bind_of_ok _ (overwriteActiveRecord_eq (f := f)
        (by exact h.activeFile) (by exact hoff)), StoreM.updateStore_apply]
      simp only [World.logPage, PageFile.logPage, Store.logPage, hoff, hcon, if_true]
      rfl
  | none =>
      have hcon : ¬ w.store.active.activeRecords.contains page = true := by
        simp [Std.ExtTreeMap.contains_eq_isSome_getElem?, hoff]
      rw [if_neg (by exact hcon), EStateM.bind_of_ok _ ((appendActiveRecord_eq_ok (f := f)
        (by exact h.activeFile) (by exact h.records.fileSize)).mpr
          ⟨by exact hfit.resolve_left (not_not.mpr hoff), rfl⟩), StoreM.updateStore_apply]
      simp only [World.logPage, PageFile.logPage, Store.logPage, hoff, if_neg hcon]
      rfl

theorem World.Open.writeMutablePage_eq_ok (h : w.Open E f) (hps : w.store.head.pageSize ≠ 0)
    (hr : writeMutablePage E page bytes w = .ok () w') :
    bytes.length = w.store.head.pageSize ∧
    (page = 1 → parsePageSize bytes = some w.store.head.pageSize) ∧ page ≠ 0 ∧ page ≠ u32Max ∧
    ∃ cache, cache.Fits w.store.view ∧ w' = w.logPage E f page bytes cache := by
  have hrun := hr
  simp only [writeMutablePage, EStateM.bind_eq_ok, StoreM.ofExcept_eq_ok,
    EStateM.liftExcept_eq_ok] at hrun
  obtain ⟨_, _, ⟨hcheck, rfl⟩, _, w₁, hsave, number, _, ⟨hnum, rfl⟩, hrun⟩ := hrun
  obtain ⟨hlen, hone⟩ := Store.checkPage_eq_ok.mp hcheck
  obtain ⟨hmax, hp, rfl⟩ := PageNumber.new_eq_ok.mp hnum
  obtain ⟨cache, hc, hsave'⟩ := h.saveOriginal_eq hps hp
  cases hsave'.symm.trans hsave
  obtain ⟨_, _, hget, _, _, hget', _, w₂, hwrite, -⟩ := hrun
  cases hget
  cases hget'
  have hfit : w.store.active.activeRecords[number]? ≠ none ∨
      f.len + recordLen w.store.head.pageSize ≤ u64Max := by
    split at hwrite
    · rename_i hcon
      refine .inl fun hnone => ?_
      have hcon' : w.store.active.activeRecords.contains number = true := hcon
      simp [Std.ExtTreeMap.contains_eq_isSome_getElem?, hnone] at hcon'
    · exact .inr ((appendActiveRecord_eq_ok (f := f) (by exact h.activeFile)
        (by exact h.records.fileSize)).mp hwrite).1
  obtain ⟨cache, hc, heq⟩ := h.writeMutablePage_eq hps hlen hone hp hmax hfit
  cases heq.symm.trans hr
  exact ⟨hlen, hone, hp, hmax, cache, hc, rfl⟩

end Write

section LogPage

variable {E : Env} {s : Store} {f : PageFile} {page : Nat} {bytes original : Bytes}
  {cache : PageCache}

theorem Store.Trimmed.liveSlots (ht : s.Trimmed f) : s.liveSlots f = f.slots := by
  rw [Store.liveSlots, ht, List.take_length]

theorem PageFile.header_logPage (f : PageFile) (records : BTreeMap Nat Nat) :
    (f.logPage records page bytes).header = f.header := by
  unfold PageFile.logPage PageFile.writePayload
  split <;> rfl

/-- The map and the slots grow together, or a slot gets another payload. -/
theorem Store.Records.logPage_cases (h : s.Records f) (original : Bytes) (cache : PageCache)
    (page : Nat) (bytes : Bytes) :
    (∃ i r, f.slots[i]? = some r ∧ r.pageNo = some page ∧
      s.active.activeRecords[page]? = some (recordOffset s.head.pageSize i) ∧
      (s.logPage f.len page original cache).active.activeRecords = s.active.activeRecords ∧
      f.logPage s.active.activeRecords page bytes =
        f.writePayload (recordOffset f.header.pageSize i) bytes) ∨
    s.active.activeRecords[page]? = none ∧
      (s.logPage f.len page original cache).active.activeRecords =
        s.active.activeRecords.insert page (recordOffset s.head.pageSize f.slots.length) ∧
      f.logPage s.active.activeRecords page bytes =
        { f with slots := f.slots ++ [⟨some page, bytes⟩] } := by
  cases hp : s.active.activeRecords[page]? with
  | some offset =>
      obtain ⟨i, r, hr, hrp, rfl, -⟩ := h.slot hp
      have hc : s.active.activeRecords.contains page = true := by
        simp [Std.ExtTreeMap.contains_eq_isSome_getElem?, hp]
      exact .inl ⟨i, r, hr, hrp, rfl, by simp only [Store.logPage, if_pos hc],
        by simp only [PageFile.logPage, hp, h.fileSize]⟩
  | none =>
      have hc : ¬ s.active.activeRecords.contains page = true := by
        simp [Std.ExtTreeMap.contains_eq_isSome_getElem?, hp]
      exact .inr ⟨rfl, by simp only [Store.logPage, if_neg hc, PageFile.len, h.fileSize],
        by simp only [PageFile.logPage, hp]⟩

/-- An appended record is not committed. -/
theorem Store.Records.committedRecord_logPage (h : s.Records f) (q : Nat) :
    (s.logPage f.len page original cache).committedRecord q = s.committedRecord q := by
  show Option.filter _ _ = Option.filter _ _
  rcases h.logPage_cases original cache page [] with
    ⟨_, _, _, _, _, hrec, -⟩ | ⟨hnone, hrec, -⟩
  · rw [hrec]
    rfl
  · obtain ⟨n, hn, hend⟩ := h.committedEnd
    have hlive := h.live
    rw [hrec, Std.ExtTreeMap.getElem?_insert]
    by_cases e : page = q
    · subst e
      have : recordOffset s.head.pageSize n ≤ recordOffset s.head.pageSize f.slots.length := by
        rw [← Nat.not_lt, recordOffset_lt]
        omega
      simp [Store.logPage, hnone, hend, this]
    · simp [e, Store.logPage]

theorem Store.needsOriginal_iff : s.needsOriginal page = true ↔
    s.committedRecord page ≠ none ∧ s.pendingRawOriginals[page]? = none := by
  cases hp : s.active.activeRecords[page]? with
  | none => simp [Store.needsOriginal, Store.committedRecord, hp]
  | some offset =>
      simp only [Store.needsOriginal, Store.committedRecord, hp, Bool.and_eq_true,
        Option.any_some, decide_eq_true_eq, Bool.not_eq_true', Ne, Option.filter_eq_none_iff]
      simp [← Bool.not_eq_true]

/-- The undo copies after a write. -/
theorem Store.getElem?_originals_logPage (len q : Nat) :
    (s.logPage len page original cache).pendingRawOriginals[q]? =
      if q = page ∧ s.needsOriginal page = true then some original
      else s.pendingRawOriginals[q]? := by
  by_cases hn : s.needsOriginal page = true
  · by_cases e : q = page
    · simp [Store.logPage, hn, e]
    · simp [Store.logPage, hn, e, Std.ExtTreeMap.getElem?_insert, Ne.symm e]
  · simp [Store.logPage, hn]

theorem Store.Records.getElem?_logPage (h : s.Records f) (q : Nat) :
    (s.logPage f.len page original cache).active.activeRecords[q]? = none ↔
      q ≠ page ∧ s.active.activeRecords[q]? = none := by
  rcases h.logPage_cases original cache page [] with
    ⟨i, _, _, _, hp, hrec, -⟩ | ⟨hnone, hrec, -⟩
  · rw [hrec]
    constructor
    · intro hq
      refine ⟨?_, hq⟩
      rintro rfl
      simp [hp] at hq
    · exact And.right
  · rw [hrec, Std.ExtTreeMap.getElem?_insert]
    by_cases e : page = q
    · simp [e]
    · simp [e, Ne.symm e]

theorem Store.Records.logPage (h : s.Records f) (page : Nat) (cache : PageCache) (ht : s.Trimmed f)
    (hb : bytes.length = s.head.pageSize) (ho : original.length = s.head.pageSize) :
    (s.logPage f.len page original cache).Records
      (f.logPage s.active.activeRecords page bytes) ∧
    (s.logPage f.len page original cache).Trimmed
      (f.logPage s.active.activeRecords page bytes) := by
  have hindexed : Indexed s.head.pageSize f.slots s.active.activeRecords :=
    ht.liveSlots ▸ h.indexed
  -- the slots: either one payload changes or one record is appended
  have hslots : (s.logPage f.len page original cache).Trimmed
        (f.logPage s.active.activeRecords page bytes) ∧
      Indexed s.head.pageSize (f.logPage s.active.activeRecords page bytes).slots
        (s.logPage f.len page original cache).active.activeRecords ∧
      s.active.activeRecords.size ≤ (s.logPage f.len page original cache).active.activeRecords.size ∧
      ∀ r ∈ (f.logPage s.active.activeRecords page bytes).slots,
        r.payload.length = s.head.pageSize := by
    unfold Store.Trimmed
    rcases h.logPage_cases original cache page bytes with
      ⟨i, r, _, _, _, hrec, hfile⟩ | ⟨hnone, hrec, hfile⟩
    · rw [hrec, hfile]
      simp only [PageFile.writePayload, slotIndex_recordOffset, List.length_modify]
      refine ⟨ht, hindexed.modify i bytes, Nat.le_refl _, fun r hr => ?_⟩
      obtain ⟨j, hj⟩ := List.mem_iff_getElem?.mp hr
      rw [List.getElem?_modify] at hj
      obtain ⟨r', hr', rfl⟩ := Option.map_eq_some_iff.mp hj
      have := h.payload r' (List.mem_of_getElem? hr')
      split
      · exact hb
      · exact this
    · rw [hrec, hfile]
      have hsize : (s.active.activeRecords.insert page
          (recordOffset s.head.pageSize f.slots.length)).size = s.active.activeRecords.size + 1 := by
        rw [Std.ExtTreeMap.size_insert, if_neg (by simpa using hnone)]
      refine ⟨?_, hindexed.append hnone bytes, by omega, fun r hr => ?_⟩
      · rw [hsize, ht]
        simp
      · rcases List.mem_append.mp hr with hr | hr
        · exact h.payload r hr
        · rw [List.mem_singleton.mp hr]
          exact hb
  obtain ⟨ht', hindexed', hle, hpayload⟩ := hslots
  refine ⟨?_, ht'⟩
  constructor
  · exact (PageFile.header_logPage f _).trans h.header
  · exact h.pageSize
  · exact Nat.le_of_eq ht'
  · rw [ht'.liveSlots]
    exact hindexed'
  · obtain ⟨n, hn, hend⟩ := h.committedEnd
    exact ⟨n, hn.trans hle, hend⟩
  · exact hpayload
  · intro q b hq
    rw [getElem?_originals_logPage] at hq
    rw [h.committedRecord_logPage]
    split at hq
    · rename_i hneed
      cases hq
      rw [hneed.1]
      exact ⟨Finset.mem_insert_self _ _, (needsOriginal_iff.mp hneed.2).1, ho⟩
    · obtain ⟨hraw, hcom, hlen⟩ := h.undo q b hq
      exact ⟨Finset.mem_insert_of_mem hraw, hcom, hlen⟩
  · intro q hq hcom
    rw [h.committedRecord_logPage] at hcom
    rw [getElem?_originals_logPage]
    split
    · simp
    · rename_i hneed
      rcases Finset.mem_insert.mp hq with rfl | hq
      · -- a committed page that needs no copy has one already
        intro hnone
        exact hneed ⟨rfl, needsOriginal_iff.mpr ⟨hcom, hnone⟩⟩
      · exact h.saved q hq hcom
  · intro q hq
    rw [Ne, h.getElem?_logPage]
    rintro ⟨hne, hnone⟩
    exact h.written q ((Finset.mem_insert.mp hq).resolve_left hne) hnone
  · intro q hq hcom
    rw [Ne, h.getElem?_logPage] at hq
    rw [h.committedRecord_logPage] at hcom
    by_cases e : q = page
    · exact Finset.mem_insert.mpr (.inl e)
    · exact Finset.mem_insert_of_mem (h.appended q (fun hn => hq ⟨e, hn⟩) hcom)
  · intro q hcut hq
    rw [Ne, h.getElem?_logPage] at hq
    by_cases e : q = page
    · exact Finset.mem_insert.mpr (.inl e)
    · exact Finset.mem_insert_of_mem (h.rewritten q hcut fun hn => hq ⟨e, hn⟩)

/-- A committed record without an undo copy is what the page reads as. -/
theorem Store.Records.pendingPage_of_needsOriginal (h : s.Records f) {offset : Nat}
    (hcom : s.committedRecord page = some offset) (hnone : s.pendingRawOriginals[page]? = none) :
    f.readPayload offset = some (s.pendingPage E f page) := by
  have hraw : page ∉ s.pendingRawPages := by
    intro hraw
    exact h.saved page hraw (by simp [hcom]) hnone
  obtain ⟨hp, -⟩ := committedRecord_eq_some.mp hcom
  have hshown : ¬ (Above (s.overlay E f).pendingCut page ∧
      (s.overlay E f).touched page = false) := by
    rintro ⟨hcut, -⟩
    exact hraw (h.rewritten page hcut (by simp [hp]))
  obtain ⟨b, hb, -⟩ := h.readPayload hp
  rw [Store.pendingPage, pending_of_shown hshown]
  simp [Store.overlay, hp, hb]

theorem Store.Records.readPayload_logPage (h : s.Records f) (page : Nat) (bytes : Bytes)
    {q offset : Nat}
    (hq : s.active.activeRecords[q]? = some offset) :
    (f.logPage s.active.activeRecords page bytes).readPayload offset =
      if q = page then some bytes else f.readPayload offset := by
  obtain ⟨j, r, hr, hrq, rfl, hj⟩ := h.slot hq
  rcases h.logPage_cases [] ⟨.empty, .automatic⟩ page bytes with
    ⟨i, r', hr', hrp, hp, -, hfile⟩ | ⟨hnone, -, hfile⟩
  · rw [hfile, ← h.fileSize, PageFile.readPayload_writePayload]
    have hij : i = j ↔ q = page := by
      constructor
      · rintro rfl
        rw [hr] at hr'
        cases hr'
        simpa using hrq.symm.trans hrp
      · rintro rfl
        rw [hp] at hq
        exact recordOffset_inj.mp (Option.some.inj hq)
    simp only [hij]
    split
    · simp [PageFile.readPayload, hr]
    · rfl
  · have hne : q ≠ page := by
      rintro rfl
      simp [hnone] at hq
    have hlt : j < f.slots.length := by
      have := h.live
      omega
    rw [hfile, if_neg hne, PageFile.readPayload, PageFile.readPayload]
    simp only
    rw [h.fileSize, slotIndex_recordOffset, List.getElem?_append_left hlt]

/-- The layers after a page is written. -/
theorem Store.Records.overlay_logPage (h : s.Records f) (page : Nat) (bytes : Bytes)
    (cache : PageCache) :
    (s.logPage f.len page (s.pendingPage E f page) cache).overlay E
      (f.logPage s.active.activeRecords page bytes) = (s.overlay E f).write page bytes := by
  have hrecord : ∀ q, ((s.logPage f.len page (s.pendingPage E f page) cache).active.activeRecords[q]?).bind
      (f.logPage s.active.activeRecords page bytes).readPayload =
      if q = page then some bytes else s.active.activeRecords[q]?.bind f.readPayload := by
    intro q
    have hold : ∀ offset, s.active.activeRecords[q]? = some offset →
        (f.logPage s.active.activeRecords page bytes).readPayload offset =
          if q = page then some bytes else f.readPayload offset :=
      fun offset hq => h.readPayload_logPage page bytes hq
    rcases h.logPage_cases (s.pendingPage E f page) cache page bytes with
      ⟨i, -, -, -, hp, hrec, -⟩ | ⟨hnone, hrec, hfile⟩
    · rw [hrec]
      cases hq : s.active.activeRecords[q]? with
      | none =>
          have hne : q ≠ page := by
            rintro rfl
            simp [hp] at hq
          simp [hne]
      | some offset => simp [hold offset hq]
    · rw [hrec, Std.ExtTreeMap.getElem?_insert]
      by_cases e : page = q
      · subst e
        simp [hfile, PageFile.readPayload, h.fileSize]
      · cases hq : s.active.activeRecords[q]? with
        | none => simp [e, Ne.symm e]
        | some offset => simp [e, Ne.symm e, hold offset hq]
  apply Overlay.ext
  · rfl
  · funext q
    show ((s.logPage f.len page _ cache).committedRecord q).bind _ = (s.committedRecord q).bind _
    rw [h.committedRecord_logPage, getElem?_originals_logPage]
    cases hcom : s.committedRecord q with
    | none => rfl
    | some offset =>
        simp only [Option.bind_some]
        rw [h.readPayload_logPage page bytes (committedRecord_eq_some.mp hcom).1]
        by_cases e : q = page
        · subst e
          cases hundo : s.pendingRawOriginals[q]? with
          | some b =>
              have hneed : ¬ s.needsOriginal q = true := by simp [needsOriginal_iff, hundo]
              simp [hneed]
          | none =>
              have hneed : s.needsOriginal q = true := by simp [needsOriginal_iff, hundo, hcom]
              simp [hneed, h.pendingPage_of_needsOriginal (E := E) hcom hundo]
        · simp [e]
  · rfl
  · funext q
    exact hrecord q
  · rfl
  · funext q
    by_cases e : q = page <;> simp [overlay, Overlay.write, Store.logPage, e]

end LogPage

/-! ## Writing a range -/

/-- A store that may write: nothing lies behind its records. -/
structure World.Writing (E : Env) (w : World) (f : PageFile) : Prop extends World.Open E w f where
  trimmed : w.store.Trimmed f
  known : w.store.head.pageSize ≠ 0

/-- Only the records, the write set, the undo copies and the cache of the store and the content
of files differ. -/
def World.Edited (w w' : World) : Prop :=
  ∃ files cache records raw originals, w' =
    ⟨{ w.disk with files := files },
      { w.store with
        pageCache := cache
        active := { w.store.active with activeRecords := records }
        pendingRawPages := raw
        pendingRawOriginals := originals }⟩

/-- Writes of pages: the file keeps its sectors and the committed image stays. -/
structure World.Wrote (E : Env) (w : World) (f : PageFile) (w' : World) (f' : PageFile) : Prop where
  writing : w'.Writing E f'
  edited : w.Edited w'
  sectors : f' = { f with slots := f'.slots }
  committed : w'.store.committedPage E f' = w.store.committedPage E f
  /-- New records are of pages. -/
  numbered : ∀ q : Nat, w'.store.active.activeRecords[q]? ≠ none →
    w.store.active.activeRecords[q]? ≠ none ∨ q ≠ 0 ∧ q ≠ u32Max

section Range

variable {E : Env} {w w' w'' : World} {f f' f'' : PageFile} {page : Nat} {bytes : Bytes}

theorem World.Edited.trans (h : w.Edited w') (h' : w'.Edited w'') : w.Edited w'' := by
  obtain ⟨_, _, _, _, _, rfl⟩ := h
  obtain ⟨files, cache, records, raw, originals, rfl⟩ := h'
  exact ⟨files, cache, records, raw, originals, rfl⟩

theorem World.Wrote.refl (h : w.Writing E f) : w.Wrote E f w f :=
  ⟨h, ⟨_, _, _, _, _, rfl⟩, rfl, rfl, fun _ => .inl⟩

theorem World.Wrote.trans (h : w.Wrote E f w' f') (h' : w'.Wrote E f' w'' f'') :
    w.Wrote E f w'' f'' :=
  ⟨h'.writing, h.edited.trans h'.edited, by rw [h'.sectors, h.sectors],
    h'.committed.trans h.committed, fun q hq => (h'.numbered q hq).elim (h.numbered q) .inr⟩

/-- Page writes leave the state sectors alone. -/
theorem World.Wrote.readable (h : w.Wrote E f w' f') : f.Readable → f'.Readable := by
  rw [h.sectors]
  exact id

theorem World.Writing.withCache (h : w.Writing E f) {cache : PageCache}
    (hc : cache.Fits w.store.view) : w.Wrote E f (w.withCache cache) f :=
  ⟨⟨h.toOpen.withCache hc, h.trimmed, h.known⟩, ⟨_, _, _, _, _, rfl⟩, rfl, rfl, fun _ => .inl⟩

/-- **Writing a page** is a write of the overlay. -/
theorem World.Writing.writeMutablePage (h : w.Writing E f)
    (hr : writeMutablePage E page bytes w = .ok () w') :
    page ≠ 0 ∧ bytes.length = w.store.head.pageSize ∧ ∃ f', w.Wrote E f w' f' ∧
      w'.store.overlay E f' = (w.store.overlay E f).write page bytes := by
  obtain ⟨hlen, -, hp, hmax, cache, hc, rfl⟩ := h.toOpen.writeMutablePage_eq_ok h.known hr
  obtain ⟨hrec, ht⟩ := h.records.logPage page cache h.trimmed hlen
    (h.length_pendingPage page)
  have hover := h.records.overlay_logPage (E := E) page bytes cache
  refine ⟨hp, hlen, f.logPage w.store.active.activeRecords page bytes,
    ⟨⟨⟨?_, hrec, ?_⟩, ht, h.known⟩, ⟨_, _, _, _, _, rfl⟩, ?_, ?_, fun q hq => ?_⟩, hover⟩
  · simp [World.logPage, World.setActiveFile, Store.logPage]
  · exact { h.based with cache := hc }
  · unfold PageFile.logPage PageFile.writePayload
    split <;> rfl
  · show ((w.store.logPage _ _ _ _).overlay E _).committed _ = _
    rw [hover, committed_write]
    rfl
  · by_cases e : q = page
    · exact .inr (e ▸ ⟨hp, hmax⟩)
    · exact .inl fun hnone => hq (h.records.getElem?_logPage q |>.mpr ⟨e, hnone⟩)

/-- In the pending image, one page is replaced. -/
theorem World.Wrote.pendingPage (h : w.Wrote E f w' f')
    (hover : w'.store.overlay E f' = (w.store.overlay E f).write page bytes) (q : Nat) :
    w'.store.pendingPage E f' q = if q = page then bytes else w.store.pendingPage E f q := by
  rw [Store.pendingPage, hover, pending_write]
  obtain ⟨_, _, _, _, _, rfl⟩ := h.edited
  rfl

theorem World.Open.partialBase_eq (h : w.Open E f) (hps : w.store.head.pageSize ≠ 0)
    (hp : page ≠ 0) : w.Returns (partialBase E page)
      (if Above w.store.pendingTruncatePages page then zeros w.store.head.pageSize
        else w.store.pendingPage E f page) := by
  have hcut : (w.store.pendingTruncatePages.any fun last => last < page) = true ↔
      Above w.store.pendingTruncatePages page := by
    cases w.store.pendingTruncatePages <;> simp
  refine .step (EStateM.get_apply w) ?_
  simp only [hcut]
  split
  · exact .of_ok h rfl
  · exact h.readPage_eq hps hp

/-- **Writing a range** writes its bytes, and clears what else is on a partly covered page above
the transaction's cut. -/
theorem World.Writing.writeMutablePages (h : w.Writing E f) {offset : Nat} {input : Bytes}
    {fuel consumed : Nat} (hfuel : input.length - consumed ≤ fuel)
    (hr : writeMutablePages E offset input fuel consumed w = .ok () w') :
    ∃ f', w.Wrote E f w' f' ∧ ∀ i,
      pageByte w.store.head.pageSize (w'.store.pendingPage E f') i =
        patched w.store.head.pageSize (Above w.store.pendingTruncatePages)
          (pageByte w.store.head.pageSize (w.store.pendingPage E f)) (offset + consumed)
          (input.drop consumed) i := by
  induction fuel generalizing w f consumed with
  | zero =>
      cases hr
      exact ⟨f, .refl h, fun i => by rw [List.drop_eq_nil_of_le (by omega), patched_nil]⟩
  | succ fuel ih =>
      unfold Zsqlite.writeMutablePages at hr
      split at hr
      · rename_i hlt
        simp only [EStateM.bind_eq_ok, EStateM.liftExcept_eq_ok, checkedAdd_eq_ok,
          toU32_eq_ok] at hr
        obtain ⟨_, _, hget, _, _, ⟨⟨-, rfl⟩, rfl⟩, _, _, ⟨⟨-, rfl⟩, rfl⟩, base, w₁, hbase, _, w₂,
          hwrite, hr⟩ := hr
        cases hget
        set ps := w.store.head.pageSize with hps
        set start := offset + consumed with hstart
        set amount := min (input.length - consumed) (ps - start % ps) with hamount
        set piece := (input.drop consumed).take amount with hpiece
        have hpos : 0 < ps := Nat.pos_of_ne_zero h.known
        have hmod := Nat.mod_lt start hpos
        have hlen : piece.length = amount := by simp [hpiece]; omega
        have hne : piece ≠ [] := List.length_pos_iff.mp (by omega)
        -- the content the page starts from
        obtain ⟨cache, hc, rfl, hcontent⟩ : ∃ cache, cache.Fits w.store.view ∧
            w₁ = w.withCache cache ∧ (piece.length < ps → base =
              if Above w.store.pendingTruncatePages (start / ps + 1) then zeros ps
              else w.store.pendingPage E f (start / ps + 1)) := by
          split at hbase
          · rename_i hfull
            rw [EStateM.pure_apply, EStateM.Result.ok.injEq] at hbase
            exact ⟨w.store.pageCache, h.based.cache, hbase.2.symm, fun hlt => by omega⟩
          · obtain ⟨cache, hret, hc⟩ := h.partialBase_eq h.known (Nat.succ_ne_zero (start / ps))
            cases hret.symm.trans hbase
            exact ⟨cache, hc, rfl, fun _ => rfl⟩
        have hcached := h.withCache hc
        obtain ⟨-, -, f₁, hwrote, hover⟩ := hcached.writing.writeMutablePage hwrite
        have hstep := pageByte_overwrite (Above w.store.pendingTruncatePages) hne
          (by omega) hcontent (hwrote.pendingPage hover)
        have hwrote' := hcached.trans hwrote
        have hfuel' : input.length - (consumed + amount) ≤ fuel := by omega
        obtain ⟨f', hrest, hbytes⟩ := ih hwrote'.writing hfuel' hr
        refine ⟨f', hwrote'.trans hrest, fun i => ?_⟩
        obtain ⟨_, _, _, _, _, rfl⟩ := hwrote'.edited
        refine (hbytes i).trans ?_
        have hsplit : input.drop consumed = piece ++ input.drop (consumed + amount) := by
          rw [hpiece, ← List.drop_drop, List.take_append_drop]
        rw [hsplit, ← patched_append hpos hne ?_ i, hlen, ← Nat.add_assoc]
        · congr 1
          funext j
          exact hstep j
        · -- a piece that does not end the input ends its page
          rw [hlen]
          by_cases hend : input.length ≤ consumed + amount
          · exact .inl (List.drop_eq_nil_of_le hend)
          · have hdm := Nat.div_add_mod start ps
            refine .inr ⟨start / ps + 1, ?_⟩
            rw [Nat.mul_succ]
            omega
      · cases hr
        exact ⟨f, .refl h, fun i => by rw [List.drop_eq_nil_of_le (by omega), patched_nil]⟩

/-! ## Shrinking -/

/-- A loop that writes to every page it visits the bytes `a` has for it. -/
theorem World.Writing.forM_writeMutablePage (h : w.Writing E f) {ι : Type} {l : List ι}
    {p : ι → Nat} {a : Nat → Bytes} {m : ι → StoreM Unit}
    (hm : ∀ i w w', m i w = .ok () w' →
      Zsqlite.writeMutablePage E (p i) (a (p i)) w = .ok () w')
    (hr : l.forM m w = .ok () w') :
    ∃ f', w.Wrote E f w' f' ∧
      w'.store.overlay E f' = (w.store.overlay E f).fill (l.map p) a := by
  induction l generalizing w f with
  | nil =>
      cases hr
      exact ⟨f, .refl h, (fill_nil _ _).symm⟩
  | cons i l ih =>
      obtain ⟨_, w₁, hwrite, hr⟩ := EStateM.bind_eq_ok.mp hr
      obtain ⟨-, -, f₁, hwrote, hover⟩ := h.writeMutablePage (hm i w w₁ hwrite)
      obtain ⟨f', hrest, hfill⟩ := ih hwrote.writing hr
      exact ⟨f', hwrote.trans hrest, by rw [hfill, hover, fill_write, List.map_cons]⟩

/-- The pages of a truncated overlay. -/
theorem Store.Records.pendingPage_truncate {s s' : Store} (h : s.Records f)
    (hps : s'.head.pageSize = s.head.pageSize) {k : Nat}
    (hover : s'.overlay E f' = (s.overlay E f).truncate (zeros s.head.pageSize) k) (p : Nat) :
    s'.pendingPage E f' p =
      if k < p then zeros s.head.pageSize else s.pendingPage E f p := by
  rw [Store.pendingPage, hover, hps, pending_truncate (h.coherent E)]
  rfl

/-- The world with another truncation mark. -/
def World.withMark (w : World) (mark : Option Nat) : World :=
  w.updateStore fun s => { s with pendingTruncatePages := mark }

/-- **Shrinking** is a truncation of the overlay. -/
theorem World.Writing.shrink (h : w.Writing E f) {maxPage : Nat}
    (hr : Zsqlite.shrink E maxPage w = .ok () w') :
    ∃ w₁ f', w.Wrote E f w₁ f' ∧
      w' = w₁.withMark (lower w.store.pendingTruncatePages (some maxPage)) ∧ w'.Writing E f' ∧
      w'.store.overlay E f' =
        (w.store.overlay E f).truncate (zeros w.store.head.pageSize) maxPage := by
  simp only [Zsqlite.shrink, EStateM.bind_eq_ok] at hr
  obtain ⟨_, _, hcache, _, _, hget, _, w₁, hloop, hr⟩ := hr
  cases hcache
  cases hget
  cases hr
  have hcached := h.withCache (h.based.cache.invalidateWhere fun page => maxPage < page)
  obtain ⟨f', hwrote, hfill⟩ := hcached.writing.forM_writeMutablePage (p := id)
    (a := fun _ => zeros w.store.head.pageSize) (fun _ _ _ h => h) hloop
  rw [List.map_id] at hfill
  have hmem : ∀ q, q ∈ w.store.active.activeRecords.keys.filter (fun page => maxPage < page) ↔
      maxPage < q ∧ (w.store.overlay E f).record q ≠ none := by
    intro q
    rw [Ne, h.records.record_eq_none, List.mem_filter, Std.ExtTreeMap.mem_keys]
    simp [and_comm]
  have hover : (w₁.withMark (lower w.store.pendingTruncatePages (some maxPage))).store.overlay E f' =
      (w.store.overlay E f).truncate (zeros w.store.head.pageSize) maxPage := by
    rw [truncate_eq_fill hmem]
    exact congrArg (withCut · _) hfill
  have hwrote' := hcached.trans hwrote
  have hcoherent : ((w₁.withMark (lower w.store.pendingTruncatePages (some maxPage))).store.overlay
      E f').Coherent := hover ▸ (h.records.coherent E).truncate maxPage
  have hmark : (w₁.withMark (lower w.store.pendingTruncatePages (some maxPage))).Writing E f' := by
    have hw := hwrote'.writing
    refine ⟨⟨hw.file, { hw.records with rewritten := fun q hq hne => ?_ }, { hw.based with }⟩,
      hw.trimmed, hw.known⟩
    have hrecord : (w₁.store.overlay E f').record q ≠ none := by
      rwa [Ne, hw.records.record_eq_none]
    exact of_decide_eq_true (hcoherent.rewritten q hq hrecord)
  refine ⟨w₁, f', hwrote', ?_, ?_, ?_⟩
  all_goals
    have hcut : w₁.store.pendingTruncatePages = w.store.pendingTruncatePages := by
      obtain ⟨_, _, _, _, _, rfl⟩ := hwrote'.edited
      rfl
  · rw [World.withMark, ← hcut]
    rfl
  · rw [← hcut] at hmark
    exact hmark
  · rw [← hcut] at hover
    exact hover

end Range

end Zsqlite
