import Zsqlite.Pack
import Zsqlite.Placement

set_option autoImplicit false

/-! # Read-ahead for maintenance

Maintenance visits frame records that lie close to each other (`maintenance_read.rs`). `plan`
groups the records into windows, greedily and within three bounds; a `MaintenanceReads` fetches
whole windows, keeps the last one, and cuts every record it is asked for out of the window that
holds it, which it finds again by a search on start positions.

* `plan_returns`: records that do not overlap are cut into consecutive parts, one window for
  each, with the bounds of `Window.Holds`.
* `MaintenanceReads.read_planned`: the search finds the window of every planned record.
-/

namespace Zsqlite

open ByteVec

def windowBytes : Nat := 8 * 1024 * 1024

def singleFrameBytes : Nat := 16 * 1024 * 1024

def gapBytes : Nat := 64 * 1024

def readAmplification : Nat := 4

/-! ## Spans -/

/-- A range of a pack. -/
structure Span where
  pack : Digest
  start : Nat
  stop : Nat
  deriving DecidableEq, Repr

/-- The whole record of a frame: length and id, metadata, frame header, payload. -/
def Span.frame (location : FrameLocation) : Except StoreError Span := do
  Except.ensure (location.length = location.metadata.payloadBytes) .range
  let lead ← checkedAdd (← checkedAdd location.metadata.encodedLen 36) frameHeaderSize
  Except.ensure (lead ≤ location.offset) .range
  let start := location.offset - lead
  Except.ensure (segmentHeaderSize ≤ start) .range
  let stop ← checkedAdd location.offset location.length
  return ⟨location.pack, start, stop⟩

namespace Span

def length (s : Span) : Nat := s.stop - s.start

/-- The sort key of the plan. -/
def sortKey (s : Span) : Nat ×ₗ Nat ×ₗ Nat := toLex (s.pack, toLex (s.start, s.stop))

/-- `a` ends where `b` starts or before, or lies in an earlier pack. -/
def Before (a b : Span) : Prop := a.pack < b.pack ∨ a.pack = b.pack ∧ a.stop ≤ b.start

/-- Two spans are the same or share no byte. -/
def Apart (a b : Span) : Prop := a = b ∨ a.pack ≠ b.pack ∨ a.stop ≤ b.start ∨ b.stop ≤ a.start

/-- `frame_bytes` of the plan: the length of an admissible record. -/
def frameBytes (s : Span) : Except StoreError Nat := do
  Except.ensure (s.start ≤ s.stop ∧ s.length ≠ 0 ∧ s.length ≤ singleFrameBytes) .range
  return s.length

theorem frameBytes_eq_ok {s : Span} {n : Nat} :
    s.frameBytes = .ok n ↔ s.start < s.stop ∧ s.length ≤ singleFrameBytes ∧ n = s.length := by
  simp only [frameBytes, Except.bind_eq_ok, Except.ensure_eq_ok, exists_const, pure, Except.pure,
    Except.ok.injEq]
  unfold length
  omega

end Span

/-! ## The plan -/

structure Window where
  span : Span
  frameBytes : Nat
  deriving DecidableEq, Repr

namespace Window

/-- The window a record opens. -/
def single (frame : Span) : Except StoreError Window := do
  return ⟨frame, ← frame.frameBytes⟩

/-- Extend the last window by a record when the gap, the length and the share of record bytes
allow it. -/
def join (last : Window) (frame : Span) : Except StoreError (Option Window) := do
  let frameBytes ← frame.frameBytes
  if last.span.pack = frame.pack then
    Except.ensure (last.span.stop ≤ frame.start) (.corrupt frame.start)
    let gap := frame.start - last.span.stop
    let length := frame.stop - last.span.start
    let included ← checkedAdd last.frameBytes frameBytes
    let amplified := included * readAmplification
    Except.ensure (amplified ≤ u64Max) .range
    if gap ≤ gapBytes ∧ length ≤ windowBytes ∧ length ≤ amplified then
      return some ⟨{ last.span with stop := frame.stop }, included⟩
    else return none
  else return none

end Window

/-- The records in the order of the pass, each once. -/
def sortedFrames (frames : List Span) : List Span :=
  (frames.insertionSort fun a b => a.sortKey ≤ b.sortKey).destutter (· ≠ ·)

def plan (frames : List Span) : Except StoreError (List Window) :=
  (sortedFrames frames).foldlM (Greedy.absorb Window.single Window.join) []

/-! ## Reads -/

/-- One bounded range in memory, and the windows asked from the backend so far. -/
structure ReadState where
  cached : Option (Nat × Bytes)
  fetched : List Nat

structure MaintenanceReads where
  placement : PlacementPin
  windows : List Window

namespace MaintenanceReads

def new (placement : PlacementPin) (locations : List FrameLocation) :
    Except StoreError MaintenanceReads := do
  let frames ← locations.mapM fun location => do
    let frame ← Span.frame location
    Except.ensure (frame.stop ≤ (← placement.length frame.pack)) .range
    return frame
  return ⟨placement, ← plan frames⟩

variable (reads : MaintenanceReads)
  (backend : List ObjectRange → Except StoreError (List Bytes))

/-- The last window that starts at or before the record. -/
def search (frame : Span) : Except StoreError (Nat × Span) := do
  let point := reads.windows.findIdx fun window =>
    decide (¬ (toLex (window.span.pack, window.span.start) : Nat ×ₗ Nat) ≤
      toLex (frame.pack, frame.start))
  Except.ensure (point ≠ 0) .range
  match reads.windows[point - 1]? with
  | none => .error .range
  | some window =>
      Except.ensure (window.span.pack = frame.pack ∧ frame.stop ≤ window.span.stop) .range
      return (point - 1, window.span)

/-- Ask the backend for a window unless it is the cached one. -/
def fetch (index : Nat) (window : Span) : EStateM StoreError ReadState Bytes := fun s =>
  match s.cached with
  | some (slot, bytes) =>
      if slot = index then .ok bytes s else load s
  | none => load s
where
  load (s : ReadState) : EStateM.Result StoreError ReadState Bytes :=
    -- The previous buffer is released before the backend is asked.
    let s := { cached := none, fetched := s.fetched ++ [index] }
    match StoredRange.new window.start (window.stop - window.start) >>=
        reads.placement.read backend window.pack with
    | .error e => .error e s
    | .ok bytes => .ok bytes { s with cached := some (index, bytes) }

/-- The frame header and the payload of a record, without its metadata. -/
def read (location : FrameLocation) : EStateM StoreError ReadState Bytes := do
  let frame ← EStateM.liftExcept (Span.frame location)
  let (index, window) ← EStateM.liftExcept (reads.search frame)
  let bytes ← reads.fetch backend index window
  EStateM.liftExcept (Except.ensure (frameHeaderSize ≤ location.offset ∧
    window.start ≤ location.offset - frameHeaderSize) .range)
  let start := location.offset - frameHeaderSize - window.start
  EStateM.liftExcept ((cut bytes start (frame.stop - window.start)).elim (.error .range) .ok)

/-- Read records one after the other. -/
def readAll (locations : List FrameLocation) : EStateM StoreError ReadState (List Bytes) :=
  locations.mapM (reads.read backend)

end MaintenanceReads

/-! ## Windows and their records -/

namespace Span

theorem sortKey_le {a b : Span} : a.sortKey ≤ b.sortKey ↔ a.pack < b.pack ∨
    a.pack = b.pack ∧ (a.start < b.start ∨ a.start = b.start ∧ a.stop ≤ b.stop) := by
  simp only [sortKey, Prod.Lex.le_iff, ofLex_toLex]

instance : Std.Total fun a b : Span => a.sortKey ≤ b.sortKey where
  total a b := le_total a.sortKey b.sortKey

instance : IsTrans Span fun a b => a.sortKey ≤ b.sortKey where
  trans _ _ _ := le_trans

instance : Std.Antisymm fun a b : Span => a.sortKey ≤ b.sortKey where
  antisymm a b hab hba := by
    have := le_antisymm hab hba
    cases a
    cases b
    simpa [sortKey] using this

/-- A record the plan admits. -/
def Admissible (s : Span) : Prop := s.start < s.stop ∧ s.length ≤ singleFrameBytes

end Span

theorem mem_sortedFrames {frames : List Span} {s : Span} :
    s ∈ sortedFrames frames ↔ s ∈ frames :=
  List.mem_destutter_ne.trans (List.mem_insertionSort _)

/-- In the order of the pass, records that do not overlap lie one after the other. -/
theorem pairwise_sortedFrames {frames : List Span} (hsize : ∀ s ∈ frames, s.Admissible)
    (hapart : ∀ a ∈ frames, ∀ b ∈ frames, a.Apart b) :
    (sortedFrames frames).Pairwise Span.Before := by
  refine (List.pairwise_insertionSort (fun a b : Span => a.sortKey ≤ b.sortKey)
    frames).destutter_ne.imp_of_mem ?_
  rintro a b ha hb ⟨hle, hne⟩
  have ha := mem_sortedFrames.mp ha
  have hb := mem_sortedFrames.mp hb
  rcases Span.sortKey_le.mp hle with hlt | ⟨heq, hle⟩
  · exact .inl hlt
  · have := (hsize a ha).1
    have := (hsize b hb).1
    rcases hapart a ha b hb with h | h | h | h
    · exact absurd h hne
    · exact absurd heq h
    · exact .inr ⟨heq, h⟩
    · omega

namespace Window

/-- The record lies wholly in the window. -/
def Contains (w : Window) (s : Span) : Prop :=
  w.span.pack = s.pack ∧ w.span.start ≤ s.start ∧ s.stop ≤ w.span.stop

/-- A window against the records it was made from, in their order: it reaches from the first to
the last of them over small gaps, counts their bytes, and with several records it is short and
not much longer than they are. -/
structure Holds (part : List Span) (w : Window) : Prop where
  contains : ∀ s ∈ part, w.Contains s
  first : ∃ s, part.head? = some s ∧ w.span.start = s.start
  last : ∃ s, part.getLast? = some s ∧ w.span.stop = s.stop
  gaps : part.IsChain fun a b => a.stop ≤ b.start ∧ b.start ≤ a.stop + gapBytes
  bytes : w.frameBytes = (part.map Span.length).sum
  several : 2 ≤ part.length →
    w.span.length ≤ windowBytes ∧ w.span.length ≤ readAmplification * w.frameBytes
  admissible : w.span.Admissible
  total : w.frameBytes ≤ w.span.length

theorem single_eq_ok {s : Span} {w : Window} :
    single s = .ok w ↔ s.Admissible ∧ w.span = s ∧ w.frameBytes = s.length := by
  simp only [single, Except.bind_eq_ok, Span.frameBytes_eq_ok, pure, Except.pure,
    Except.ok.injEq]
  obtain ⟨span, bytes⟩ := w
  simp only [mk.injEq]
  constructor
  · rintro ⟨n, ⟨hlt, hle, rfl⟩, rfl, rfl⟩
    exact ⟨⟨hlt, hle⟩, rfl, rfl⟩
  · rintro ⟨⟨hlt, hle⟩, rfl, rfl⟩
    exact ⟨_, ⟨hlt, hle, rfl⟩, rfl, rfl⟩

theorem Holds.singleton (s : Span) (w : Window) (h : single s = .ok w) : Holds [s] w := by
  obtain ⟨hs, hspan, hbytes⟩ := single_eq_ok.mp h
  subst hspan
  exact ⟨by simp [Contains], by simp, by simp, .singleton _, by simpa using hbytes, by simp, hs,
    hbytes.le⟩

/-- Whether a later record of the same pack extends the window. -/
def Extends (last : Window) (s : Span) : Prop :=
  s.start ≤ last.span.stop + gapBytes ∧ s.stop - last.span.start ≤ windowBytes ∧
    s.stop - last.span.start ≤ readAmplification * (last.frameBytes + s.length)

/-- A record that follows the records of the last window joins it or is refused; the arithmetic
never overflows, because a window has at most 16 MiB of records. -/
theorem Holds.join {part : List Span} {w : Window} (h : Holds part w) {s : Span}
    (hs : s.Admissible) (hbefore : ∀ x ∈ part, x.Before s) :
    Window.join w s = .ok none ∧ w.span.Before s ∨
    Window.join w s = .ok (some ⟨{ w.span with stop := s.stop }, w.frameBytes + s.length⟩) ∧
      w.span.pack = s.pack ∧ w.span.stop ≤ s.start ∧ w.Extends s := by
  have hbytes : s.frameBytes = .ok s.length := Span.frameBytes_eq_ok.mpr ⟨hs.1, hs.2, rfl⟩
  have hlast : w.span.Before s := by
    obtain ⟨x, hx, hstop⟩ := h.last
    have hx := List.mem_of_getLast? hx
    have := hbefore x hx
    rw [Span.Before, (h.contains x hx).1, hstop]
    exact this
  rw [Window.join, Except.bind_of_ok hbytes]
  by_cases hpack : w.span.pack = s.pack
  · have hstop : w.span.stop ≤ s.start := by
      rcases hlast with hlt | ⟨_, hle⟩
      · exact absurd hpack (Nat.ne_of_lt hlt)
      · exact hle
    have hsum : w.frameBytes + s.length ≤ 32 * 1024 * 1024 := by
      have hw := h.total.trans h.admissible.2
      have hs := hs.2
      simp only [singleFrameBytes] at hw hs
      omega
    have hincluded : checkedAdd w.frameBytes s.length = .ok (w.frameBytes + s.length) :=
      checkedAdd_eq_ok.mpr ⟨hsum.trans (by decide), rfl⟩
    have hamplified : (w.frameBytes + s.length) * readAmplification ≤ u64Max :=
      (Nat.mul_le_mul_right _ hsum).trans (by decide)
    rw [if_pos hpack, Except.bind_of_ok (Except.ensure_of hstop _), Except.bind_of_ok hincluded,
      Except.bind_of_ok (Except.ensure_of hamplified _)]
    by_cases hext : w.Extends s
    · rw [if_pos ⟨by have := hext.1; omega, hext.2.1, by rw [Nat.mul_comm]; exact hext.2.2⟩]
      exact .inr ⟨rfl, hpack, hstop, hext⟩
    · rw [if_neg fun hif => hext ⟨by omega, hif.2.1, by rw [Nat.mul_comm]; exact hif.2.2⟩]
      exact .inl ⟨rfl, hlast⟩
  · rw [if_neg hpack]
    exact .inl ⟨rfl, hlast⟩

theorem admissible_of_join {w : Window} {s : Span} {outcome : Option Window}
    (h : Window.join w s = .ok outcome) : s.Admissible := by
  obtain ⟨n, hn, _⟩ := Except.bind_eq_ok.mp h
  obtain ⟨hlt, hle, _⟩ := Span.frameBytes_eq_ok.mp hn
  exact ⟨hlt, hle⟩

theorem join_eq_some {w w' : Window} {s : Span} (h : Window.join w s = .ok (some w')) :
    w'.span.pack = w.span.pack ∧ w'.span.start = w.span.start ∧ w'.span.stop = s.stop ∧
      w.span.stop ≤ s.start := by
  obtain ⟨n, _, h⟩ := Except.bind_eq_ok.mp h
  split at h
  · simp only [Except.bind_eq_ok, Except.ensure_eq_ok, exists_const] at h
    obtain ⟨hstop, _, _, _, h⟩ := h
    split at h
    · cases h
      exact ⟨rfl, rfl, rfl, hstop⟩
    · cases h
  · cases h

theorem Holds.next (part : List Span) (w : Window) (s : Span) (w' : Window) (h : Holds part w)
    (hbefore : ∀ x ∈ part, x.Before s) (hjoin : Window.join w s = .ok (some w')) :
    Holds (part ++ [s]) w' := by
  have hs := admissible_of_join hjoin
  rcases h.join hs hbefore with ⟨hnone, _⟩ | ⟨hsome, hpack, hstop, hgap, hlong, hample⟩
  · cases hjoin.symm.trans hnone
  cases hjoin.symm.trans hsome
  obtain ⟨first, hfirst, hstart⟩ := h.first
  obtain ⟨last, hlast, hend⟩ := h.last
  have hw := h.admissible.1
  have hslt := hs.1
  have hwindow : s.stop - w.span.start ≤ singleFrameBytes := hlong.trans (by decide)
  refine ⟨?_, ⟨first, by simp [hfirst], hstart⟩, ⟨s, by simp, rfl⟩, ?_, ?_, fun _ => ⟨hlong, hample⟩,
    ⟨by simp only; omega, hwindow⟩, ?_⟩
  · intro x hx
    rcases List.mem_append.mp hx with hx | hx
    · obtain ⟨hp, hb, he⟩ := h.contains x hx
      exact ⟨hp, hb, by simp only; omega⟩
    · rw [List.mem_singleton.mp hx]
      exact ⟨hpack, by simp only; omega, le_refl _⟩
  · refine List.isChain_append.mpr ⟨h.gaps, .singleton _, fun x hx y hy => ?_⟩
    obtain rfl : last = x := by simpa [hlast] using hx
    obtain rfl : s = y := by simpa using hy
    omega
  · simp [h.bytes]
  · have := h.total
    simp only [Span.length] at this ⊢
    omega

/-- `a` lies before `b`, and both have bytes. -/
def Before (a b : Window) : Prop :=
  a.span.Before b.span ∧ a.span.start < a.span.stop ∧ b.span.start < b.span.stop

theorem Before.trans {a b c : Window} (hab : a.Before b) (hbc : b.Before c) : a.Before c := by
  obtain ⟨hab, ha, hb⟩ := hab
  obtain ⟨hbc, _, hc⟩ := hbc
  refine ⟨?_, ha, hc⟩
  rcases hab with hab | ⟨hab, hle⟩
  · rcases hbc with hbc | ⟨hbc, _⟩
    · exact .inl (Nat.lt_trans hab hbc)
    · exact .inl (hbc ▸ hab)
  · rcases hbc with hbc | ⟨hbc, hle'⟩
    · exact .inl (hab ▸ hbc)
    · exact .inr ⟨hab.trans hbc, by omega⟩

end Window

/-- The windows made of consecutive parts of the records `done`. -/
def Planned (done : List Span) (windows : List Window) : Prop :=
  ∃ parts, Greedy.Cut Window.single Window.join parts windows ∧ parts.flatten = done

section Planned

variable {frames done : List Span} {windows : List Window}

/-- The windows, the records each was made from, and how the windows lie. -/
theorem Planned.spec (h : Planned done windows) (hsorted : done.Pairwise Span.Before) :
    ∃ parts, parts.flatten = done ∧ List.Forall₂ Window.Holds parts windows ∧
      windows.Pairwise Window.Before := by
  obtain ⟨parts, hcut, rfl⟩ := h
  have hholds := hcut.forall₂ hsorted Window.Holds.singleton Window.Holds.next
  have : Trans Window.Before Window.Before Window.Before := ⟨Window.Before.trans⟩
  refine ⟨parts, rfl, hholds, List.isChain_iff_pairwise.mp
    (hcut.isChain hsorted Window.Holds.singleton Window.Holds.next ?_ ?_)⟩
  · intro part w s w' hpart hbefore hrefused hsingle
    obtain ⟨hs, hspan, _⟩ := Window.single_eq_ok.mp hsingle
    rcases hpart.join hs hbefore with ⟨_, hlast⟩ | ⟨hsome, _⟩
    · exact ⟨hspan ▸ hlast, hpart.admissible.1, hspan ▸ hs.1⟩
    · cases hrefused.symm.trans hsome
  · rintro before w s w' ⟨hbefore, hlt, hw⟩ hjoin
    obtain ⟨hpack, hstart, hstop, hle⟩ := Window.join_eq_some hjoin
    have := (Window.admissible_of_join hjoin).1
    exact ⟨by rw [Span.Before, hpack, hstart]; exact hbefore, hlt, by omega⟩

/-- **The plan.** Records that do not overlap and have at most 16 MiB are cut into consecutive
parts, one window for each. -/
theorem plan_returns (hsize : ∀ s ∈ frames, s.Admissible)
    (hapart : ∀ a ∈ frames, ∀ b ∈ frames, a.Apart b) :
    ∃ windows parts, plan frames = .ok windows ∧ parts.flatten = sortedFrames frames ∧
      List.Forall₂ Window.Holds parts windows ∧ windows.Pairwise Window.Before := by
  have hsorted := pairwise_sortedFrames hsize hapart
  obtain ⟨windows, hplan, hspec⟩ := Except.foldlM_total (I := Planned) (l := sortedFrames frames)
    (f := Greedy.absorb Window.single Window.join) (s := []) (by
      intro done s rest windows hl hdone
      rw [hl, List.pairwise_append] at hsorted
      obtain ⟨hdoneSorted, -, hbefore⟩ := hsorted
      have hs : s.Admissible := hsize s (mem_sortedFrames.mp (by simp [hl]))
      obtain ⟨parts, hcut, rfl⟩ := hdone
      -- The last window holds the last part, all of which comes before the record.
      obtain ⟨windows', hwindows⟩ : ∃ windows', Greedy.absorb Window.single Window.join windows s =
          .ok windows' := by
        refine Greedy.absorb_returns ⟨⟨s, s.length⟩, Window.single_eq_ok.mpr ⟨hs, rfl, rfl⟩⟩ ?_
        intro last hlast
        obtain ⟨init, part, rfl, hpart⟩ := hcut.getLast hdoneSorted Window.Holds.singleton
          Window.Holds.next hlast
        rcases hpart.join hs fun x hx => hbefore x (by simp [hx]) s (by simp) with h | h
        · exact ⟨_, h.1⟩
        · exact ⟨_, h.1⟩
      obtain ⟨parts', hcut', hparts⟩ := hcut.absorb hwindows
      refine ⟨windows', hwindows, parts', hcut', ?_⟩
      rcases hparts with rfl | ⟨init, part, rfl, rfl⟩ <;> simp) ⟨[], .nil, rfl⟩
  obtain ⟨parts, hparts, hholds, hbefore⟩ := hspec.spec hsorted
  exact ⟨windows, parts, hplan, hparts, hholds, hbefore⟩

/-- A record lies in at most one window. -/
theorem index_unique (hwindows : windows.Pairwise Window.Before) {s : Span} (hs : s.start < s.stop)
    {i j : Nat} {v w : Window} (hv : windows[i]? = some v) (hw : windows[j]? = some w)
    (hsv : v.Contains s) (hsw : w.Contains s) : i = j := by
  -- Of two windows the earlier one ends before the later one starts.
  have key : ∀ {i j : Nat} {v w : Window}, windows[i]? = some v → windows[j]? = some w →
      v.Contains s → w.Contains s → ¬ i < j := by
    intro i j v w hv hw hsv hsw hij
    obtain ⟨hi, rfl⟩ := List.getElem?_eq_some_iff.mp hv
    obtain ⟨hj, rfl⟩ := List.getElem?_eq_some_iff.mp hw
    obtain ⟨hlt | ⟨_, hle⟩, _, _⟩ := List.pairwise_iff_getElem.mp hwindows i j hi hj hij
    · exact absurd (hsv.1.trans hsw.1.symm) (Nat.ne_of_lt hlt)
    · have := hsv.2.2
      have := hsw.2.1
      omega
  have h₁ := key hv hw hsv hsw
  have h₂ := key hw hv hsw hsv
  omega

/-- The search on start positions finds the window of a record. -/
theorem MaintenanceReads.search_eq_ok {reads : MaintenanceReads}
    (hwindows : reads.windows.Pairwise Window.Before) {s : Span} (hs : s.start < s.stop) {i : Nat}
    {w : Window} (hw : reads.windows[i]? = some w) (hsw : w.Contains s) :
    reads.search s = .ok (i, w.span) := by
  obtain ⟨hpack, hstart, hstop⟩ := hsw
  obtain ⟨hi, hget⟩ := List.getElem?_eq_some_iff.mp hw
  have hbefore := List.pairwise_iff_getElem.mp hwindows
  -- Windows up to this one start at or before the record, later ones after it.
  have hearlier : ∀ (j : Nat) (hj : j < reads.windows.length), j ≤ i →
      (toLex (reads.windows[j].span.pack, reads.windows[j].span.start) : Nat ×ₗ Nat) ≤
        toLex (s.pack, s.start) := by
    intro j hj hji
    rw [Prod.Lex.le_iff]
    rcases hji.lt_or_eq with hlt | rfl
    · obtain ⟨hb, hne, _⟩ := hbefore j i hj hi hlt
      rw [hget] at hb
      rcases hb with hb | ⟨hb, hle⟩
      · exact .inl (hpack ▸ hb)
      · refine .inr ⟨hb.trans hpack, ?_⟩
        simp only [ofLex_toLex]
        omega
    · rw [hget]
      exact .inr ⟨hpack, hstart⟩
  have hlater : ∀ (j : Nat) (hj : j < reads.windows.length), i < j →
      ¬ (toLex (reads.windows[j].span.pack, reads.windows[j].span.start) : Nat ×ₗ Nat) ≤
        toLex (s.pack, s.start) := by
    intro j hj hij hle
    obtain ⟨hb, _, _⟩ := hbefore i j hi hj hij
    rw [hget] at hb
    rcases Prod.Lex.le_iff.mp hle with hlt | ⟨heq, hle⟩ <;> rcases hb with hb | ⟨hb, hle'⟩
    · exact absurd (Nat.lt_trans (hpack ▸ hb) hlt) (Nat.lt_irrefl _)
    · exact absurd (hb ▸ hpack ▸ hlt) (Nat.lt_irrefl _)
    · exact absurd heq.symm (Nat.ne_of_lt (hpack ▸ hb))
    · simp only [ofLex_toLex] at hle
      omega
  have hpoint : reads.windows.findIdx (fun window =>
      decide (¬ (toLex (window.span.pack, window.span.start) : Nat ×ₗ Nat) ≤
        toLex (s.pack, s.start))) = i + 1 := by
    rcases Nat.lt_or_ge (i + 1) reads.windows.length with hlt | hge
    · rw [List.findIdx_eq hlt]
      exact ⟨by simpa using hlater (i + 1) hlt (Nat.lt_succ_self i),
        fun j hj => by simpa using hearlier j (by omega) (by omega)⟩
    · have : i + 1 = reads.windows.length := by omega
      rw [this, List.findIdx_eq_length]
      intro v hv
      obtain ⟨j, hj, rfl⟩ := List.mem_iff_getElem.mp hv
      simpa using hearlier j hj (by omega)
  simp only [search, hpoint, Nat.add_sub_cancel, hw,
    Except.ensure_of (Nat.succ_ne_zero i), Except.ensure_of (And.intro hpack hstop), Except.ok_bind]
  rfl

end Planned

/-! ## Reading planned records -/

/-- The record of a frame, from the length field to the end of the payload. -/
def FrameLocation.record (l : FrameLocation) : Span :=
  ⟨l.pack, l.offset - l.metadata.payloadStart, l.offset + l.length⟩

/-- The frame header and the payload of a record in its pack. -/
def FrameLocation.content (pin : PlacementPin) (objects : ObjectKey → Option Bytes)
    (l : FrameLocation) : Option Bytes :=
  (pin.packBytes objects l.pack).bind fun bytes =>
    cut bytes (l.offset - frameHeaderSize) (l.offset + l.length)

/-- Frame records in placed packs that do not overlap and have at most 16 MiB. -/
structure Recorded (pin : PlacementPin) (objects : ObjectKey → Option Bytes)
    (locations : List FrameLocation) : Prop where
  framed : ∀ l ∈ locations, l.length = l.metadata.payloadBytes ∧
    segmentHeaderSize + l.metadata.payloadStart ≤ l.offset
  placed : ∀ l ∈ locations, ∃ bytes, pin.packBytes objects l.pack = some bytes ∧
    l.offset + l.length ≤ bytes.length
  bounded : ∀ l ∈ locations, l.record.length ≤ singleFrameBytes
  apart : ∀ a ∈ locations, ∀ b ∈ locations, a.record.Apart b.record

namespace Recorded

variable {pin : PlacementPin} {objects : ObjectKey → Option Bytes} {locations : List FrameLocation}
  {l : FrameLocation}

theorem frame (h : Recorded pin objects locations) (hl : l ∈ locations) :
    Span.frame l = .ok l.record := by
  obtain ⟨hlength, hoffset⟩ := h.framed l hl
  obtain ⟨bytes, hbytes, hstop⟩ := h.placed l hl
  have hmax := (PlacementPin.length_of_packBytes hbytes).2
  have hlead : l.metadata.encodedLen + 36 + frameHeaderSize = l.metadata.payloadStart := by
    unfold FrameMetadata.payloadStart
    omega
  have hstart : segmentHeaderSize ≤ l.offset - l.metadata.payloadStart := by omega
  simp only [Span.frame, Except.ensure_of hlength, Except.ok_bind,
    checkedAdd_eq_ok.mpr (⟨by omega, rfl⟩ : l.metadata.encodedLen + 36 ≤ u64Max ∧ _ = _),
    checkedAdd_eq_ok.mpr (⟨by omega, rfl⟩ :
      l.metadata.encodedLen + 36 + frameHeaderSize ≤ u64Max ∧ _ = _), hlead,
    Except.ensure_of (show l.metadata.payloadStart ≤ l.offset by omega), Except.ensure_of hstart,
    checkedAdd_eq_ok.mpr (⟨by omega, rfl⟩ : l.offset + l.length ≤ u64Max ∧ _ = _)]
  rfl

theorem admissible (h : Recorded pin objects locations) (hl : l ∈ locations) :
    l.record.Admissible := by
  refine ⟨?_, h.bounded l hl⟩
  have := (h.framed l hl).2
  have : 0 < l.metadata.payloadStart := by simp [FrameMetadata.payloadStart, frameHeaderSize]
  simp only [FrameLocation.record]
  omega

/-- Making the reader plans the windows of the records. -/
theorem new_returns (h : Recorded pin objects locations) :
    ∃ reads parts, MaintenanceReads.new pin locations = .ok reads ∧ reads.placement = pin ∧
      parts.flatten = sortedFrames (locations.map FrameLocation.record) ∧
      List.Forall₂ Window.Holds parts reads.windows ∧ reads.windows.Pairwise Window.Before := by
  have hframes : (locations.mapM fun location => do
      let frame ← Span.frame location
      Except.ensure (frame.stop ≤ (← pin.length frame.pack)) .range
      return frame) = .ok (locations.map FrameLocation.record) := by
    rw [Except.mapM_eq_ok, List.forall₂_map_right_iff, List.forall₂_same]
    intro l hl
    obtain ⟨bytes, hbytes, hstop⟩ := h.placed l hl
    have hlength : pin.length l.record.pack = .ok bytes.length :=
      (PlacementPin.length_of_packBytes hbytes).1
    rw [Except.bind_of_ok (h.frame hl), Except.bind_of_ok hlength,
      Except.bind_of_ok (Except.ensure_of (p := l.record.stop ≤ bytes.length) hstop _)]
    rfl
  have hadmissible : ∀ s ∈ locations.map FrameLocation.record, s.Admissible := by
    simpa using fun l hl => h.admissible hl
  obtain ⟨windows, parts, hplan, hparts, hholds, hbefore⟩ :=
    plan_returns hadmissible (by simpa using h.apart)
  refine ⟨⟨pin, windows⟩, parts, ?_, rfl, hparts, hholds, hbefore⟩
  rw [MaintenanceReads.new, Except.bind_of_ok hframes, Except.bind_of_ok hplan]
  rfl

end Recorded

/-- The bytes of a window in its pack. -/
def Window.content (pin : PlacementPin) (objects : ObjectKey → Option Bytes) (w : Window) :
    Option Bytes :=
  (pin.packBytes objects w.span.pack).bind fun bytes => cut bytes w.span.start w.span.stop

/-- What `fetch` leaves behind when it asked for the window `i`, unless that was the cached one. -/
def ReadState.visit (s : ReadState) (i : Nat) (content : Bytes) : ReadState :=
  if s.cached.map Prod.fst = some i then s else ⟨some (i, content), s.fetched ++ [i]⟩

namespace MaintenanceReads

variable {pin : PlacementPin} {objects : ObjectKey → Option Bytes}
  {backend : List ObjectRange → Except StoreError (List Bytes)} {locations : List FrameLocation}
  {reads : MaintenanceReads} {parts : List (List Span)} {s : ReadState} {i : Nat} {w : Window}
  {content : Bytes}

/-- The cached bytes are those of their window. -/
def Coherent (objects : ObjectKey → Option Bytes) (reads : MaintenanceReads) (s : ReadState) :
    Prop :=
  ∀ i content, s.cached = some (i, content) →
    ∃ w, reads.windows[i]? = some w ∧ w.content reads.placement objects = some content

theorem Coherent.visit (h : Coherent objects reads s) (hw : reads.windows[i]? = some w)
    (hcontent : w.content reads.placement objects = some content) :
    Coherent objects reads (s.visit i content) := by
  unfold ReadState.visit
  split
  · exact h
  · intro j other hother
    cases hother
    exact ⟨w, hw, hcontent⟩

/-- Fetching a window returns its bytes, from the cache when they are there. -/
theorem fetch_eq_ok (hserves : Serves backend objects) (h : Coherent objects reads s)
    (hw : reads.windows[i]? = some w) (hsize : w.span.Admissible)
    (hcontent : w.content reads.placement objects = some content) :
    reads.fetch backend i w.span s = .ok content (s.visit i content) := by
  have hload : ¬ s.cached.map Prod.fst = some i →
      fetch.load reads backend i w.span s = .ok content (s.visit i content) := by
    intro hcached
    obtain ⟨bytes, hbytes, hcut⟩ := Option.bind_eq_some_iff.mp hcontent
    obtain ⟨hlt, hle⟩ := hsize
    have hlen := (PlacementPin.length_of_packBytes hbytes).2
    have hstop := (cut_eq_some.mp hcut).2.1
    obtain ⟨range, hnew⟩ : ∃ range, StoredRange.new w.span.start (w.span.stop - w.span.start) =
        .ok range :=
      ⟨⟨w.span.start, w.span.stop - w.span.start, by omega⟩, StoredRange.new_eq_ok.mpr ⟨rfl, rfl⟩⟩
    obtain ⟨hoffset, hlength⟩ := StoredRange.new_eq_ok.mp hnew
    have hrange : range.stop = w.span.stop := by
      unfold StoredRange.stop
      omega
    have hne : range.length ≠ 0 := by omega
    have hread := PlacementPin.read_of_packBytes hserves hbytes hne
      (hlength ▸ hle.trans (by decide)) (by rw [hoffset, hrange]; exact hcut)
    simp only [fetch.load, Except.bind_of_ok hnew, hread, ReadState.visit, if_neg hcached]
  unfold fetch
  cases hcached : s.cached with
  | none => exact hload (by simp [hcached])
  | some entry =>
      obtain ⟨slot, cachedBytes⟩ := entry
      by_cases hslot : slot = i
      · subst hslot
        obtain ⟨w', hw', hcontent'⟩ := h slot cachedBytes hcached
        cases hw.symm.trans hw'
        cases hcontent.symm.trans hcontent'
        simp [ReadState.visit, hcached]
      · simp only [if_neg hslot]
        exact hload (by simpa [hcached] using hslot)

/-- **Reading a planned record** returns its header and payload, from any coherent state. -/
theorem read_planned (hserves : Serves backend objects)
    (hrecorded : Recorded reads.placement objects locations)
    (hwindows : reads.windows.Pairwise Window.Before) {l : FrameLocation} (hl : l ∈ locations)
    (hw : reads.windows[i]? = some w) (hlw : w.Contains l.record) (hsize : w.span.Admissible)
    (hcontent : w.content reads.placement objects = some content) (h : Coherent objects reads s) :
    ∃ answer, reads.read backend l s = .ok answer (s.visit i content) ∧
      l.content reads.placement objects = some answer := by
  have hsearch := search_eq_ok hwindows (hrecorded.admissible hl).1 hw hlw
  have hoffset := (hrecorded.framed l hl).2
  have hhead : frameHeaderSize ≤ l.metadata.payloadStart := by
    unfold FrameMetadata.payloadStart
    omega
  obtain ⟨hpack, hstart, hstop⟩ := hlw
  simp only [FrameLocation.record] at hpack hstart hstop
  obtain ⟨bytes, hbytes, hcut⟩ := Option.bind_eq_some_iff.mp hcontent
  have hbound : frameHeaderSize ≤ l.offset ∧ w.span.start ≤ l.offset - frameHeaderSize := by omega
  -- The record's part of the window is its part of the pack.
  have hpiece := cut_cut hcut (a := l.offset - frameHeaderSize) (b := l.offset + l.length)
    hbound.2 (by omega) hstop
  obtain ⟨answer, hanswer⟩ : ∃ answer, cut bytes (l.offset - frameHeaderSize)
      (l.offset + l.length) = some answer :=
    ⟨_, cut_eq_some.mpr ⟨by omega, hstop.trans (cut_eq_some.mp hcut).2.1, rfl⟩⟩
  refine ⟨answer, ?_, ?_⟩
  · unfold MaintenanceReads.read
    rw [EStateM.bind_of_ok _ (EStateM.liftExcept_eq_ok.mpr ⟨hrecorded.frame hl, rfl⟩),
      EStateM.bind_of_ok _ (EStateM.liftExcept_eq_ok.mpr ⟨hsearch, rfl⟩)]
    dsimp only
    rw [EStateM.bind_of_ok _ (fetch_eq_ok hserves h hw hsize hcontent),
      EStateM.bind_of_ok _ (EStateM.liftExcept_eq_ok.mpr ⟨Except.ensure_of hbound _, rfl⟩)]
    apply EStateM.liftExcept_eq_ok.mpr
    simp only [FrameLocation.record, hpiece, hanswer, Option.elim_some, and_self]
  · rw [FrameLocation.content, ← hpack, hbytes]
    exact hanswer

/-- The bytes of a planned window are there: it ends where one of its records does. -/
theorem exists_content (hrecorded : Recorded pin objects locations)
    (hparts : parts.flatten = sortedFrames (locations.map FrameLocation.record))
    (hholds : List.Forall₂ Window.Holds parts reads.windows) (hw : reads.windows[i]? = some w) :
    w.span.Admissible ∧ ∃ content, w.content pin objects = some content := by
  obtain ⟨part, hpart, h⟩ := hholds.exists_left hw
  obtain ⟨last, hlast, hstop⟩ := h.last
  have hmem := List.mem_of_getLast? hlast
  have hrecord : last ∈ sortedFrames (locations.map FrameLocation.record) := by
    rw [← hparts]
    exact List.mem_flatten.mpr ⟨part, List.mem_of_getElem? hpart, hmem⟩
  obtain ⟨l, hl, rfl⟩ := List.mem_map.mp (mem_sortedFrames.mp hrecord)
  obtain ⟨bytes, hbytes, hbound⟩ := hrecorded.placed l hl
  have hpack : w.span.pack = l.pack := (h.contains _ hmem).1
  refine ⟨h.admissible, _, Option.bind_eq_some_iff.mpr ⟨bytes, hpack ▸ hbytes,
    cut_eq_some.mpr ⟨h.admissible.1.le, hstop ▸ hbound, rfl⟩⟩⟩

/-- The record lies wholly in the window `i`. -/
def InWindow (reads : MaintenanceReads) (i : Nat) (l : FrameLocation) : Prop :=
  ∃ w, reads.windows[i]? = some w ∧ w.Contains l.record

/-- Every planned record has a window. -/
theorem exists_index (hparts : parts.flatten = sortedFrames (locations.map FrameLocation.record))
    (hholds : List.Forall₂ Window.Holds parts reads.windows) {l : FrameLocation}
    (hl : l ∈ locations) : ∃ i, reads.InWindow i l := by
  have hmem : l.record ∈ parts.flatten := by
    rw [hparts, mem_sortedFrames]
    exact List.mem_map_of_mem hl
  obtain ⟨part, hpart, hmem⟩ := List.mem_flatten.mp hmem
  obtain ⟨i, hi⟩ := List.mem_iff_getElem?.mp hpart
  obtain ⟨w, hw, h⟩ := hholds.exists_right hi
  exact ⟨i, w, hw, h.contains _ hmem⟩

/-- The state after the records `done`: the windows fetched are those of the records, without
adjacent repetitions, and the cached one is the last. -/
def Visited (objects : ObjectKey → Option Bytes) (reads : MaintenanceReads)
    (index : FrameLocation → Nat) (done : List FrameLocation) (s : ReadState) : Prop :=
  Coherent objects reads s ∧ s.fetched = (done.map index).destutter (· ≠ ·) ∧
    s.cached.map Prod.fst = (done.map index).getLast?

theorem Visited.visit {index : FrameLocation → Nat} {done : List FrameLocation} {l : FrameLocation}
    (h : Visited objects reads index done s) (hw : reads.windows[index l]? = some w)
    (hcontent : w.content reads.placement objects = some content) :
    Visited objects reads index (done ++ [l]) (s.visit (index l) content) := by
  obtain ⟨hcoherent, hfetched, hcached⟩ := h
  refine ⟨hcoherent.visit hw hcontent, ?_, ?_⟩
  · rw [List.map_append, List.map_singleton, List.destutter_ne_concat, ← hcached, ← hfetched]
    unfold ReadState.visit
    split <;> rfl
  · rw [List.map_append, List.map_singleton, List.getLast?_concat]
    unfold ReadState.visit
    split
    · assumption
    · rfl

/-- In the order of packs and offsets the windows of the records do not go back. -/
theorem pairwise_index {index : FrameLocation → Nat} {visited : List FrameLocation}
    (hrecorded : Recorded pin objects locations) (hvisited : visited ⊆ locations)
    (hwindows : reads.windows.Pairwise Window.Before)
    (hindex : ∀ l ∈ locations, reads.InWindow (index l) l)
    (hsorted : visited.Pairwise fun a b =>
      (toLex (a.pack, a.offset) : Nat ×ₗ Nat) ≤ toLex (b.pack, b.offset)) :
    (visited.map index).Pairwise (· ≤ ·) := by
  rw [List.pairwise_map]
  refine hsorted.imp_of_mem fun {a b} ha hb hle => Nat.le_of_not_lt fun hlt => ?_
  obtain ⟨v, hv, hav⟩ := hindex a (hvisited ha)
  obtain ⟨w, hw, hbw⟩ := hindex b (hvisited hb)
  obtain ⟨hi, rfl⟩ := List.getElem?_eq_some_iff.mp hv
  obtain ⟨hj, rfl⟩ := List.getElem?_eq_some_iff.mp hw
  obtain ⟨hbefore, _⟩ := List.pairwise_iff_getElem.mp hwindows _ _ hj hi hlt
  obtain ⟨hap, has, -⟩ := hav
  obtain ⟨hbp, -, hbs⟩ := hbw
  have hsize := (hrecorded.framed a (hvisited ha)).2
  have hlead : 0 < a.metadata.payloadStart := by
    simp [FrameMetadata.payloadStart, frameHeaderSize]
  simp only [FrameLocation.record] at hap has hbp hbs
  -- The later record would lie in an earlier pack, or end before the earlier one starts.
  rcases Prod.Lex.le_iff.mp hle with hpack | ⟨hpack, hoffset⟩ <;>
    rcases hbefore with hearlier | ⟨hsame, hstop⟩
  · exact absurd hpack (Nat.not_lt_of_gt (hap ▸ hbp ▸ hearlier))
  · exact absurd (hbp.symm.trans (hsame.trans hap)) (Nat.ne_of_gt hpack)
  · exact absurd hpack (Nat.ne_of_gt (hap ▸ hbp ▸ hearlier))
  · simp only [ofLex_toLex] at hoffset
    omega

/-- **Maintenance reads.** For records in placed packs that do not overlap and have at most
16 MiB the plan succeeds. The records, in order and each once, are cut into parts with one window
each, which holds its part; every record lies in exactly one window. Reading planned records in
any order returns the header and payload of each, and in the order of packs and offsets it
fetches the windows of those records once each and no others. -/
theorem windows_and_reads (hserves : Serves backend objects)
    (hrecorded : Recorded pin objects locations) :
    ∃ reads, MaintenanceReads.new pin locations = .ok reads ∧
      (∃ parts, parts.flatten = sortedFrames (locations.map FrameLocation.record) ∧
        List.Forall₂ Window.Holds parts reads.windows) ∧
      (∀ l ∈ locations, ∃! i, reads.InWindow i l) ∧
      ∀ visited ⊆ locations, ∃ answers s,
        reads.readAll backend visited ⟨none, []⟩ = .ok answers s ∧
        List.Forall₂ (fun l answer => l.content pin objects = some answer) visited answers ∧
        (visited.Pairwise (fun a b =>
            (toLex (a.pack, a.offset) : Nat ×ₗ Nat) ≤ toLex (b.pack, b.offset)) →
          s.fetched.Nodup ∧ ∀ i, i ∈ s.fetched ↔ ∃ l ∈ visited, reads.InWindow i l) := by
  obtain ⟨reads, parts, hnew, rfl, hparts, hholds, hwindows⟩ := hrecorded.new_returns
  have hunique : ∀ l ∈ locations, ∀ i j, reads.InWindow i l → reads.InWindow j l → i = j := by
    rintro l hl i j ⟨v, hv, hlv⟩ ⟨w, hw, hlw⟩
    exact index_unique hwindows (hrecorded.admissible hl).1 hv hw hlv hlw
  have hexists : ∀ l ∈ locations, ∃ i, reads.InWindow i l :=
    fun l hl => exists_index hparts hholds hl
  choose! index hindex using hexists
  refine ⟨reads, hnew, ⟨parts, hparts, hholds⟩,
    fun l hl => ⟨index l, hindex l hl, fun j hj => hunique l hl _ _ hj (hindex l hl)⟩, ?_⟩
  intro visited hvisited
  obtain ⟨answers, s, hrun, hanswers, -, hfetched, -⟩ := EStateM.mapM_total
    (I := Visited objects reads index) (f := reads.read backend) (l := visited) (s := ⟨none, []⟩)
    (R := fun l answer => l.content reads.placement objects = some answer) (by
      intro done l s hl hdone
      obtain ⟨w, hw, hlw⟩ := hindex l (hvisited hl)
      obtain ⟨hsize, content, hcontent⟩ := exists_content hrecorded hparts hholds hw
      obtain ⟨answer, hread, hanswer⟩ := read_planned hserves hrecorded hwindows (hvisited hl) hw hlw
        hsize hcontent hdone.1
      exact ⟨answer, _, hread, hanswer, hdone.visit hw hcontent⟩)
    ⟨fun _ _ h => (by cases h), rfl, rfl⟩
  refine ⟨answers, s, hrun, hanswers, fun hsorted => ?_⟩
  rw [hfetched]
  constructor
  · exact ((pairwise_index hrecorded hvisited hwindows hindex hsorted).destutter_ne).imp And.right
  · intro i
    rw [List.mem_destutter_ne, List.mem_map]
    constructor
    · rintro ⟨l, hl, rfl⟩
      exact ⟨l, hl, hindex l (hvisited hl)⟩
    · rintro ⟨l, hl, hlw⟩
      exact ⟨l, hl, hunique l (hvisited hl) _ _ (hindex l (hvisited hl)) hlw⟩

/-- A pin of one pack of 460 bytes, placed after the header of the blob 1. -/
def onePack : PlacementPin :=
  ⟨0, (∅ : BTreeMap Digest Placements).insert 9
    ⟨460, ⟨1, 32, 460, 492, by decide, by decide, by decide⟩, rfl⟩⟩

def oneBlob : ObjectKey → Option Bytes
  | .blob 1 => some (List.replicate 492 7)
  | _ => none

/-- A raw frame of one page whose payload of five bytes starts at `offset` of the pack. -/
def smallFrame (offset : Nat) : FrameLocation where
  pack := 9
  offset := offset
  length := 5
  metadata := ⟨.single, .raw, 5, 0, [⟨1, 1, 0⟩]⟩

theorem recorded_onePack : Recorded onePack oneBlob [smallFrame 289, smallFrame 455] where
  framed := by decide
  placed l hl := by
    have : (onePack.packBytes oneBlob l.pack).any (fun bytes =>
        decide (l.offset + l.length ≤ bytes.length)) = true := by
      revert l
      decide +kernel
    obtain ⟨bytes, hbytes, hle⟩ := (Option.any_eq_true _ _).mp this
    exact ⟨bytes, hbytes, of_decide_eq_true hle⟩
  bounded := by decide
  apart := by
    unfold Span.Apart
    decide

theorem windows_and_reads_onePack :
    ∃ reads answers s, MaintenanceReads.new onePack [smallFrame 289, smallFrame 455] = .ok reads ∧
      reads.readAll (MemoryBackend.readRanges oneBlob) [smallFrame 289, smallFrame 455]
        ⟨none, []⟩ = .ok answers s ∧ s.fetched.Nodup := by
  obtain ⟨reads, hnew, _, _, hreads⟩ :=
    windows_and_reads (MemoryBackend.serves oneBlob) recorded_onePack
  obtain ⟨answers, s, hrun, _, honce⟩ := hreads _ (List.Subset.refl _)
  exact ⟨reads, answers, s, hnew, hrun, (honce (by decide)).1⟩

end MaintenanceReads

end Zsqlite
