import Zsqlite.Store.Transaction

set_option autoImplicit false

/-! # What a rollback and a publication do to the layers

A rollback writes the undo copies back and cuts the file after the committed records: it is
`Overlay.discard`. A publication writes one state sector: it is `Overlay.publish`.
-/

namespace Zsqlite

open ByteVec Overlay

/-! ## Rolling back -/

section Discard

variable {E : Env} {w : World} {s : Store} {f f' : PageFile}

/-- Another payload in a slot. -/
theorem Store.Records.writePayload (h : s.Records f) {i : Nat} {bytes : Bytes}
    (hb : bytes.length = s.head.pageSize) :
    s.Records (f.writePayload (recordOffset s.head.pageSize i) bytes) := by
  refine { h with header := ?_, live := ?_, indexed := ?_, payload := fun r hr => ?_ }
  · rw [PageFile.header_writePayload, h.header]
  · simpa [PageFile.writePayload] using h.live
  · exact h.indexed.take_modify _ bytes
  · obtain ⟨j, hj⟩ := List.mem_iff_getElem?.mp hr
    simp only [PageFile.writePayload, List.getElem?_modify] at hj
    obtain ⟨r', hr', rfl⟩ := Option.map_eq_some_iff.mp hj
    have := h.payload r' (List.mem_of_getElem? hr')
    split
    · exact hb
    · exact this

/-- **Undo copies come back.** Restoring leaves every committed record with its committed
content. -/
theorem Store.Records.restore (h : s.Records f) :
    s.Records (s.restore f) ∧ s.restore f = { f with slots := (s.restore f).slots } ∧
    ∀ page offset, s.committedRecord page = some offset →
      (s.restore f).readPayload offset =
        s.pendingRawOriginals[page]?.or (f.readPayload offset) := by
  -- along the list: the pages done have their copy back, the others are untouched
  have key : ∀ (l : List (Nat × Bytes)) (f : PageFile), s.Records f →
      (∀ e ∈ l, s.pendingRawOriginals[e.1]? = some e.2) →
      s.Records (l.foldl s.undoRecord f) ∧
      l.foldl s.undoRecord f = { f with slots := (l.foldl s.undoRecord f).slots } ∧
      ∀ page offset, s.committedRecord page = some offset →
        (l.foldl s.undoRecord f).readPayload offset =
          if page ∈ l.map Prod.fst then s.pendingRawOriginals[page]?
          else f.readPayload offset := by
    intro l
    induction l with
    | nil => exact fun f h _ => ⟨h, rfl, by simp⟩
    | cons e l ih =>
        intro f h hl
        have hundo := hl e (by simp)
        obtain ⟨-, hcom, hlen⟩ := h.undo e.1 e.2 hundo
        obtain ⟨offset, hcom⟩ := Option.ne_none_iff_exists'.mp hcom
        obtain ⟨hrec, hoff⟩ := committedRecord_eq_some.mp hcom
        obtain ⟨i, r, hr, hrp, rfl, -⟩ := h.slot hrec
        have hstep : s.undoRecord f e = f.writePayload (recordOffset s.head.pageSize i) e.2 := by
          rw [undoRecord, hrec]
          exact if_pos hoff
        obtain ⟨h₁, h₂, h₃⟩ := ih _ (h.writePayload (i := i) hlen) fun e he => hl e (by simp [he])
        rw [List.foldl_cons, hstep]
        refine ⟨h₁, ?_, fun q offset hq => ?_⟩
        · rw [h₂, PageFile.writePayload_eq]
        · have hlog := h.readPayload_logPage e.1 e.2
            (committedRecord_eq_some.mp hq).1
          rw [PageFile.logPage, hrec] at hlog
          simp only at hlog
          rw [h₃ q offset hq, hlog]
          by_cases hmem : q ∈ l.map Prod.fst
          · simp [hmem]
          · by_cases he : q = e.1
            · simp [he, hundo]
            · rw [if_neg hmem, if_neg he, if_neg (by simpa [he] using hmem)]
  obtain ⟨h₁, h₂, h₃⟩ := key s.pendingRawOriginals.toList f h fun e he =>
    Std.ExtTreeMap.mem_toList_iff_getElem?_eq_some.mp he
  refine ⟨h₁, h₂, fun page offset hp => (h₃ page offset hp).trans ?_⟩
  cases hb : s.pendingRawOriginals[page]? with
  | some b =>
      rw [if_pos, Option.some_or]
      exact List.mem_map.mpr ⟨(page, b), Std.ExtTreeMap.mem_toList_iff_getElem?_eq_some.mpr hb, rfl⟩
  | none =>
      rw [if_neg, Option.none_or]
      intro hmem
      obtain ⟨e, he, rfl⟩ := List.mem_map.mp hmem
      rw [Std.ExtTreeMap.mem_toList_iff_getElem?_eq_some.mp he] at hb
      cases hb

theorem Store.Records.take_committed (h : s.Records f) {n : Nat}
    (hn : n ≤ s.active.activeRecords.size)
    (hend : s.head.activeCommitEnd = recordOffset s.head.pageSize n) :
    Indexed s.head.pageSize (f.slots.take n)
      (s.active.activeRecords.filter fun _ offset => offset < s.head.activeCommitEnd) := by
  have := h.indexed.take n
  rwa [Store.liveSlots, List.take_take, Nat.min_eq_left hn, ← hend] at this

theorem Store.getElem?_committedRecords (s : Store) (page : Nat) :
    (s.active.activeRecords.filter fun _ offset => offset < s.head.activeCommitEnd)[page]? =
      s.committedRecord page := by
  rw [Std.ExtTreeMap.getElem?_filter']
  rfl

/-- The records and the layers after a rollback. -/
theorem Store.Records.rolledBack (h : s.Records f) (E : Env) :
    let f' := (s.restore f).setLen s.head.activeCommitEnd
    s.rolledBack.Records f' ∧ s.rolledBack.Trimmed f' ∧ f' = { f with slots := f'.slots } ∧
      s.rolledBack.overlay E f' = (s.overlay E f).discard := by
  obtain ⟨hres, hmeta, hread⟩ := h.restore
  obtain ⟨n, hn, hend⟩ := h.committedEnd
  have hlive := hres.live
  have hindexed := hres.take_committed hn hend
  have hsize := hindexed.size_eq
  rw [List.length_take, Nat.min_eq_left (by omega)] at hsize
  have hfile : (s.restore f).setLen s.head.activeCommitEnd =
      { s.restore f with slots := (s.restore f).slots.take n } := by
    rw [hend, ← hres.fileSize, PageFile.setLen_recordOffset _ (by omega)]
  have hrecords : ∀ q : Nat, s.rolledBack.active.activeRecords[q]? = s.committedRecord q :=
    s.getElem?_committedRecords
  have hcommitted : ∀ q : Nat, s.rolledBack.committedRecord q = s.committedRecord q := by
    intro q
    rw [Store.committedRecord, hrecords]
    cases hq : s.committedRecord q with
    | none => rfl
    | some offset =>
        exact Option.filter_eq_some_iff.mpr ⟨rfl, decide_eq_true (committedRecord_eq_some.mp hq).2⟩
  have hpayload : ∀ q offset, s.committedRecord q = some offset →
      ({ s.restore f with slots := (s.restore f).slots.take n } : PageFile).readPayload offset =
        s.pendingRawOriginals[q]?.or (f.readPayload offset) := by
    intro q offset hq
    rw [← hread q offset hq]
    obtain ⟨hq, hlt⟩ := committedRecord_eq_some.mp hq
    obtain ⟨i, r, -, -, rfl, -⟩ := hres.slot hq
    rw [hend, recordOffset_lt] at hlt
    simp [PageFile.readPayload, hres.fileSize, hlt]
  rw [hfile]
  refine ⟨?_, ?_, ?_, ?_⟩
  · constructor
    · exact hres.header
    · exact hres.pageSize
    · simp [Store.rolledBack, hsize]
      omega
    · simp only [Store.liveSlots, Store.rolledBack, hsize, List.take_take, Nat.min_self]
      exact hindexed
    · exact ⟨n, by simp [Store.rolledBack, hsize], hend⟩
    · exact fun r hr => hres.payload r (List.mem_of_mem_take hr)
    · simp [Store.rolledBack]
    · simp [Store.rolledBack]
    · simp [Store.rolledBack]
    · intro q hq hnone
      rw [hrecords] at hq
      rw [hcommitted] at hnone
      exact absurd hnone hq
    · exact fun q hq => absurd hq (not_above_none q)
  · simp [Store.Trimmed, Store.rolledBack, hsize]
    omega
  · rw [hmeta]
  · apply Overlay.ext
    · rfl
    · funext q
      show (s.rolledBack.committedRecord q).bind _ = (s.committedRecord q).bind _
      rw [hcommitted]
      cases hq : s.committedRecord q with
      | none => rfl
      | some offset => simpa [Store.rolledBack] using hpayload q offset hq
    · rfl
    · funext q
      show s.rolledBack.active.activeRecords[q]?.bind _ = (s.committedRecord q).bind _
      rw [hrecords]
      cases hq : s.committedRecord q with
      | none => rfl
      | some offset => simpa using hpayload q offset hq
    · rfl
    · funext q
      simp [Store.overlay, Overlay.discard, Store.rolledBack]

/-- The world in another phase. -/
def World.withPhase (w : World) (phase : PublicationPhase) : World :=
  w.updateStore fun s => { s with publicationOwner := phase }

theorem World.Open.withPhase (h : w.Open E f) (phase : PublicationPhase) :
    (w.withPhase phase).Open E f :=
  ⟨h.file, { h.records with }, { h.based with }⟩

theorem Store.releasePublication_eq (s : Store) : s.releasePublication = { s with
    publicationOwner :=
      if s.publicationOwner = .transaction then .unlocked else s.publicationOwner } := by
  obtain ⟨_, phase, _, _, _, _, _, _, _, _, _, _, _, _⟩ := s
  cases phase <;> rfl

theorem Store.transition_eq (s : Store) (phase : PublicationPhase) : s.transition phase = { s with
    publicationOwner := if s.publicationOwner = .unlocked then .unlocked else phase } := by
  obtain ⟨_, phase, _, _, _, _, _, _, _, _, _, _, _, _⟩ := s
  cases phase <;> rfl

/-- The phase after a transaction or a checkpoint. -/
def PublicationPhase.ended (phase : PublicationPhase) : PublicationPhase :=
  if phase = .maintenance then .maintenance else .unlocked

theorem Store.endTransaction_eq (s : Store) : s.endTransaction = { s with
    publicationOwner := s.publicationOwner.ended } := by
  obtain ⟨_, phase, _, _, _, _, _, _, _, _, _, _, _, _⟩ := s
  cases phase <;> rfl

/-- **A rollback** discards the transaction's layers. -/
theorem World.Open.discardMutablePending (h : w.Open E f) :
    ∃ f', w.discardMutablePending = ((w.setActiveFile f').updateStore Store.rolledBack).withPhase
        w.store.publicationOwner.ended ∧
      w.discardMutablePending.Open E f' ∧ w.discardMutablePending.store.Trimmed f' ∧
      f' = { f with slots := f'.slots } ∧
      w.discardMutablePending.store.overlay E f' = (w.store.overlay E f).discard := by
  obtain ⟨hrec, ht, hmeta, hover⟩ := h.records.rolledBack E
  have heq : w.discardMutablePending =
      ((w.setActiveFile ((w.store.restore f).setLen w.store.head.activeCommitEnd)).updateStore
        Store.rolledBack).withPhase w.store.publicationOwner.ended := by
    simp only [World.discardMutablePending, h.activeFile, World.updateStore,
      Store.endTransaction_eq]
    rfl
  refine ⟨_, heq, ?_, ?_, hmeta, ?_⟩ <;> rw [heq]
  · exact ⟨by simp [World.withPhase, World.updateStore, World.setActiveFile, Store.rolledBack],
      { hrec with }, { h.based with }⟩
  · exact ht
  · exact hover

end Discard

/-! ## Publishing -/

/-- The state sector that describes the store's committed image. -/
structure Store.Published (s : Store) (t : ActiveState) : Prop where
  databaseId : t.databaseId = s.active.header.databaseId
  sequence : t.sequence = s.active.stateSequence
  txid : t.txid = s.head.txid
  logicalSize : t.logicalSize = s.head.logicalSize
  pageSize : t.pageSize = s.head.pageSize
  history : t.history = s.head.history
  recordCount : s.head.activeCommitEnd = recordOffset s.head.pageSize t.recordCount
  truncatePages : t.truncatePages = s.active.truncatePages

section Publish

variable {E : Env} {w w' : World} {s : Store} {f : PageFile}

theorem PageFile.writeState_eq (f : PageFile) (t : ActiveState) :
    f.writeState t = { f with stateA := (f.writeState t).stateA, stateB := (f.writeState t).stateB } := by
  unfold PageFile.writeState
  split <;> rfl

/-- The records and the layers after a publication. -/
theorem Store.Records.committed (h : s.Records f) (ht : s.Trimmed f) (E : Env) (now : Nat) :
    let f' := f.writeState (s.nextState now)
    (s.committed now f.len).Records f' ∧ (s.committed now f.len).Trimmed f' ∧
      (s.committed now f.len).overlay E f' = (s.overlay E f).publish := by
  have hlen : f.len = recordOffset s.head.pageSize f.slots.length := by
    rw [PageFile.len, h.fileSize]
  have hfile := PageFile.writeState_eq f (s.nextState now)
  set f' := f.writeState (s.nextState now)
  have hheader : f'.header = f.header := by rw [hfile]
  have hslots : f'.slots = f.slots := by rw [hfile]
  have hread : f'.readPayload = f.readPayload := by
    funext offset
    rw [PageFile.readPayload, hheader, hslots]
    rfl
  -- every record is committed now
  have hcommitted : ∀ q : Nat, (s.committed now f.len).committedRecord q =
      s.active.activeRecords[q]? := by
    intro q
    cases hq : s.active.activeRecords[q]? with
    | none => simp [Store.committedRecord, Store.committed, hq]
    | some offset =>
        obtain ⟨i, r, hr, -, rfl, -⟩ := h.slot hq
        have hi := (List.getElem?_eq_some_iff.mp hr).1
        rw [committedRecord_eq_some]
        exact ⟨hq, by simp only [Store.committed]; rw [hlen, recordOffset_lt]; exact hi⟩
  refine ⟨?_, ?_, ?_⟩
  · constructor
    · exact hheader.trans h.header
    · exact h.pageSize
    · rw [hslots]
      exact h.live
    · rw [Store.liveSlots, hslots]
      exact h.indexed
    · exact ⟨f.slots.length, Nat.le_of_eq ht.symm, hlen⟩
    · rw [hslots]
      exact h.payload
    · simp [Store.committed]
    · simp [Store.committed]
    · simp [Store.committed]
    · intro q hq hnone
      rw [hcommitted] at hnone
      exact absurd hnone hq
    · exact fun q hq => absurd hq (not_above_none q)
  · rw [Store.Trimmed, hslots]
    exact ht
  · apply Overlay.ext
    · rfl
    · funext q
      show ((s.committed now f.len).committedRecord q).bind _ = s.active.activeRecords[q]?.bind _
      rw [hcommitted, hread]
      simp [Store.committed]
    · rfl
    · show (fun q : Nat => s.active.activeRecords[q]?.bind f'.readPayload) = _
      rw [hread]
      rfl
    · rfl
    · funext q
      simp [Store.overlay, Overlay.publish, Store.committed]

/-- The phase after a publication. -/
def PublicationPhase.published (phase : PublicationPhase) (retain : Bool) : PublicationPhase :=
  if retain then if phase = .unlocked then .unlocked else .checkpoint
  else if phase = .transaction then .unlocked else phase

theorem PublicationPhase.published_ne_maintenance {phase : PublicationPhase} (h : phase ≠ .maintenance)
    (retain : Bool) : phase.published retain ≠ .maintenance := by
  cases phase <;> cases retain <;> simp_all [published]

/-- **A publication** commits the transaction's layers in one step. -/
theorem World.Open.publishState (h : w.Open E f) (ht : w.store.Trimmed f) {retain : Bool}
    (hr : publishState retain w = .ok () w') :
    ∃ now f', f' = f.writeState (w.store.nextState now) ∧
      w' = ((w.setActiveFile f').updateStore fun s => s.committed now f.len).withPhase
        (w.store.publicationOwner.published retain) ∧
      w'.Open E f' ∧ w'.store.Trimmed f' ∧
      w'.store.overlay E f' = (w.store.overlay E f).publish := by
  simp only [Zsqlite.publishState, EStateM.bind_eq_ok, EStateM.liftExcept_eq_ok,
    StoreM.ofExcept_eq_ok, StoreM.onActiveFile_eq_ok] at hr
  obtain ⟨_, _, hget, _, _, ⟨-, rfl⟩, file, _, ⟨hfile, rfl⟩, _, _, ⟨-, rfl⟩, _, _, hget', _, _,
    ⟨file', hfile', rfl⟩, hr⟩ := hr
  cases hget
  cases hget'
  cases h.activeFile.symm.trans hfile
  cases h.activeFile.symm.trans hfile'
  obtain ⟨hrec, ht', hover⟩ := h.records.committed ht E w.disk.clock
  have heq : w' = ((w.setActiveFile (f.writeState (w.store.nextState w.disk.clock))).updateStore
      fun s => s.committed w.disk.clock f.len).withPhase
        (w.store.publicationOwner.published retain) := by
    cases retain
    · simp only [StoreM.updateStore_apply, Bool.false_eq_true, if_false,
        Store.releasePublication_eq] at hr
      cases hr
      rfl
    · simp only [StoreM.updateStore_apply, if_true, Store.transition_eq] at hr
      cases hr
      rfl
  refine ⟨w.disk.clock, _, rfl, heq, ?_, ?_, ?_⟩ <;> rw [heq]
  · exact ⟨by simp [World.withPhase, World.updateStore, World.setActiveFile, Store.committed],
      { hrec with }, { h.based with }⟩
  · exact ht'
  · exact hover

/-- The new state sector describes the new committed image. -/
theorem Store.Records.published (h : s.Records f) (ht : s.Trimmed f) (now : Nat) :
    (s.committed now f.len).Published (s.nextState now) where
  databaseId := rfl
  sequence := rfl
  txid := rfl
  logicalSize := rfl
  pageSize := rfl
  history := rfl
  recordCount := by
    show f.len = recordOffset s.head.pageSize s.active.activeRecords.size
    rw [PageFile.len, h.fileSize, ht]
  truncatePages := rfl

end Publish

end Zsqlite
