import Zsqlite.Domain
import Zsqlite.Lib.Greedy

set_option autoImplicit false

/-! # Reading placed packs

Packs lie in blobs (`placement.rs`). A pin resolves a range of a pack to a range of a blob and
reads many of them in one batch: `coalesce` sorts the requests by blob and offset, merges those
that touch, and remembers which merged range serves which request, so that the backend
(`adapter.rs`) sees few disjoint ranges. The batch then returns what one read for each request
returns, in the order of the requests (`PlacementPin.readRanges_eq_ok`).
-/

namespace Zsqlite

open ByteVec

/-! ## Ranges -/

/-- A range of a stored object whose end is a valid offset. -/
structure StoredRange where
  offset : Nat
  length : Nat
  bounded : offset + length ≤ u64Max
  deriving DecidableEq

def StoredRange.new (offset length : Nat) : Except StoreError StoredRange :=
  if h : offset + length ≤ u64Max then .ok ⟨offset, length, h⟩ else .error .value

def StoredRange.stop (r : StoredRange) : Nat := r.offset + r.length

/-- A nonempty range of a pack. -/
structure PackRange where
  offset : Nat
  length : Nat
  nonempty : length ≠ 0
  bounded : offset + length ≤ u64Max
  deriving DecidableEq

def PackRange.new (offset length : Nat) : Except StoreError PackRange :=
  if h : length ≠ 0 ∧ offset + length ≤ u64Max then .ok ⟨offset, length, h.1, h.2⟩
  else .error .value

/-- Where a pack lies in a blob. -/
structure BlobExtent where
  blob : Digest
  offset : Nat
  length : Nat
  blobLength : Nat
  nonempty : length ≠ 0
  within : offset + length ≤ blobLength
  bounded : blobLength ≤ u64Max
  deriving DecidableEq

/-- The range of the blob that a range of the pack occupies. -/
def BlobExtent.locate (e : BlobExtent) (range : PackRange) : Except StoreError StoredRange := do
  Except.ensure (range.offset + range.length ≤ e.length) .range
  let offset ← checkedAdd e.offset range.offset
  StoredRange.new offset range.length

inductive ObjectKey where
  | blob (id : Digest)
  | manifest (id : Digest)
  | dictionary (id : Digest)
  | index (id : Digest)
  deriving DecidableEq, Repr

/-- A nonempty range of an object. -/
structure ObjectRange where
  key : ObjectKey
  range : StoredRange
  nonempty : range.length ≠ 0
  deriving DecidableEq

def ObjectRange.new (key : ObjectKey) (range : StoredRange) : Except StoreError ObjectRange :=
  if h : range.length ≠ 0 then .ok ⟨key, range, h⟩ else .error .backend

theorem StoredRange.new_eq_ok {offset length : Nat} {r : StoredRange} :
    StoredRange.new offset length = .ok r ↔ r.offset = offset ∧ r.length = length := by
  unfold StoredRange.new
  split
  · rename_i h
    rw [Except.ok.injEq]
    constructor
    · rintro rfl
      exact ⟨rfl, rfl⟩
    · rintro ⟨rfl, rfl⟩
      rfl
  · rename_i h
    simp only [reduceCtorEq, false_iff]
    rintro ⟨rfl, rfl⟩
    exact h r.bounded

theorem ObjectRange.new_eq_ok {key : ObjectKey} {range : StoredRange} {r : ObjectRange} :
    ObjectRange.new key range = .ok r ↔ r.key = key ∧ r.range = range := by
  unfold ObjectRange.new
  split
  · rename_i h
    rw [Except.ok.injEq]
    constructor
    · rintro rfl
      exact ⟨rfl, rfl⟩
    · rintro ⟨rfl, rfl⟩
      rfl
  · rename_i h
    simp only [reduceCtorEq, false_iff]
    rintro ⟨rfl, rfl⟩
    exact h r.nonempty

theorem BlobExtent.locate_eq_ok {e : BlobExtent} {range : PackRange} {r : StoredRange} :
    e.locate range = .ok r ↔ range.offset + range.length ≤ e.length ∧
      r.offset = e.offset + range.offset ∧ r.length = range.length := by
  simp only [locate, Except.bind_eq_ok, Except.ensure_eq_ok, exists_const, checkedAdd_eq_ok,
    StoredRange.new_eq_ok]
  constructor
  · rintro ⟨h, offset, ⟨_, rfl⟩, ho, hl⟩
    exact ⟨h, ho, hl⟩
  · rintro ⟨h, ho, hl⟩
    have := e.within
    have := e.bounded
    exact ⟨h, _, ⟨by omega, rfl⟩, ho, hl⟩

/-! ## The backend -/

def maxBatchBytes : Nat := 64 * 1024 * 1024

/-- The limits every backend puts on a batch. -/
def checkBatch (requests : List ObjectRange) : Except StoreError Unit := do
  Except.ensure (requests ≠ [] ∧ requests.length ≤ 4096) .backend
  let total ← requests.foldlM (fun total request => checkedAdd total request.range.length) 0
  Except.ensure (total ≤ maxBatchBytes) .backend

/-- The bytes of a range of an object. -/
def ObjectRange.read (objects : ObjectKey → Option Bytes) (r : ObjectRange) : Option Bytes :=
  (objects r.key).bind fun bytes => cut bytes r.range.offset r.range.stop

/-- `read_ranges` of the backends that hold their objects themselves. -/
def MemoryBackend.readRanges (objects : ObjectKey → Option Bytes) (requests : List ObjectRange) :
    Except StoreError (List Bytes) := do
  checkBatch requests
  requests.mapM fun request => (request.read objects).elim (.error .backend) .ok

/-- A backend that holds `objects`: a batch within the limits is answered one for one, in
order, with the exact bytes, and it fails only where a range is not there. -/
def Serves (backend : List ObjectRange → Except StoreError (List Bytes))
    (objects : ObjectKey → Option Bytes) : Prop :=
  ∀ batch, checkBatch batch = .ok () → ∀ results, backend batch = .ok results ↔
    List.Forall₂ (fun request bytes => request.read objects = some bytes) batch results

theorem foldlM_checkedAdd {α : Type} {size : α → Nat} {l : List α} {start total : Nat} :
    l.foldlM (fun total a => checkedAdd total (size a)) start = .ok total ↔
      total = start + (l.map size).sum ∧ (l ≠ [] → total ≤ u64Max) := by
  induction l generalizing start with
  | nil => simp [pure, Except.pure, eq_comm]
  | cons a l ih =>
      simp only [List.foldlM_cons, Except.bind_eq_ok, checkedAdd_eq_ok, List.map_cons,
        List.sum_cons]
      constructor
      · rintro ⟨next, ⟨hnext, rfl⟩, hrest⟩
        obtain ⟨rfl, hle⟩ := ih.mp hrest
        refine ⟨by omega, fun _ => ?_⟩
        cases l with
        | nil => simpa using hnext
        | cons b l => exact hle (by simp)
      · rintro ⟨rfl, hle⟩
        have := hle (by simp)
        exact ⟨_, ⟨by omega, rfl⟩, ih.mpr ⟨by omega, fun _ => this⟩⟩

theorem checkBatch_eq_ok {requests : List ObjectRange} : checkBatch requests = .ok () ↔
    requests ≠ [] ∧ requests.length ≤ 4096 ∧
      (requests.map fun request => request.range.length).sum ≤ maxBatchBytes := by
  simp only [checkBatch, Except.bind_eq_ok, Except.ensure_eq_ok, exists_const, foldlM_checkedAdd]
  constructor
  · rintro ⟨⟨hne, hlen⟩, total, ⟨rfl, _⟩, hle⟩
    exact ⟨hne, hlen, by omega⟩
  · rintro ⟨hne, hlen, hle⟩
    have : maxBatchBytes ≤ u64Max := by decide
    exact ⟨⟨hne, hlen⟩, _, ⟨rfl, fun _ => by omega⟩, by omega⟩

theorem MemoryBackend.serves (objects : ObjectKey → Option Bytes) :
    Serves (readRanges objects) objects := by
  intro batch hbatch results
  have hone : ∀ (request : ObjectRange) (bytes : Bytes),
      (request.read objects).elim (.error .backend) .ok = (.ok bytes : Except StoreError Bytes) ↔
        request.read objects = some bytes := by
    intro request bytes
    cases request.read objects <;> simp
  rw [readRanges, Except.bind_of_ok hbatch, Except.mapM_eq_ok]
  simp only [hone]

/-! ## Pins -/

/-- The placement of a pack: its length and the extent reads use. -/
structure Placements where
  length : Nat
  preferred : BlobExtent
  whole : preferred.length = length
  deriving DecidableEq

/-- A snapshot of placements. The address tells one pin from another. -/
structure PlacementPin where
  address : Nat
  placements : BTreeMap Digest Placements

/-- A range resolved by the pin at the address `pin`. -/
structure LocatedRange where
  pin : Nat
  extent : BlobExtent
  range : StoredRange
  nonempty : range.length ≠ 0
  within : range.stop ≤ extent.offset + extent.length
  deriving DecidableEq

namespace PlacementPin

variable (pin : PlacementPin) (backend : List ObjectRange → Except StoreError (List Bytes))

def locate (pack : Digest) (range : PackRange) : Except StoreError LocatedRange :=
  match pin.placements[pack]? with
  | none => .error (.corrupt 0)
  | some placement =>
      match h : placement.preferred.locate range with
      | .error e => .error e
      | .ok located =>
          have hl := BlobExtent.locate_eq_ok.mp h
          .ok ⟨pin.address, placement.preferred, located, by rw [hl.2.2]; exact range.nonempty,
            by unfold StoredRange.stop; omega⟩

def length (pack : Digest) : Except StoreError Nat :=
  match pin.placements[pack]? with
  | none => .error (.corrupt 0)
  | some placement => .ok placement.length

end PlacementPin

/-- A request with its position in the batch. -/
abbrev Request := Nat × LocatedRange

/-- The sort key of a request: its blob, then its offset there. -/
def Request.sortKey (request : Request) : Nat ×ₗ Nat :=
  toLex (request.2.extent.blob, request.2.range.offset)

/-- The range a request opens. -/
def Request.single (request : Request) : Except StoreError ObjectRange :=
  ObjectRange.new (.blob request.2.extent.blob) request.2.range

/-- Extend the last range by a request that starts in it or right after it. -/
def Request.join (last : ObjectRange) (request : Request) :
    Except StoreError (Option ObjectRange) :=
  if last.key = .blob request.2.extent.blob ∧ request.2.range.offset ≤ last.range.stop then do
    let start := last.range.offset
    let stop := max last.range.stop request.2.range.stop
    return some (← ObjectRange.new last.key (← StoredRange.new start (stop - start)))
  else return none

/-- The merged ranges, and for every request its position and the merged range that serves it. -/
def coalesce (requests : List LocatedRange) :
    Except StoreError (List ObjectRange × List (Nat × Nat)) :=
  let order := (requests.zipIdx.map Prod.swap).insertionSort
    fun a b : Request => a.sortKey ≤ b.sortKey
  order.foldlM (fun (merged, slots) request => do
    let merged ← Greedy.absorb Request.single Request.join merged request
    return (merged, slots ++ [(request.1, merged.length - 1)])) ([], [])

/-- The part of the merged range `slot` that the request `index` asked for. -/
def piece (requests : List LocatedRange) (merged : List ObjectRange) (bytes : List Bytes)
    (index slot : Nat) : Except StoreError Bytes :=
  match requests[index]?, merged[slot]?, bytes[slot]? with
  | some request, some range, some bytes =>
      let start := request.range.offset - range.range.offset
      (cut bytes start (start + request.range.length)).elim (.error .range) .ok
  | _, _, _ => .error .range

/-- Put the answer of the request `index` where it belongs. -/
def place (requests : List LocatedRange) (merged : List ObjectRange) (bytes : List Bytes)
    (result : List Bytes) (entry : Nat × Nat) : Except StoreError (List Bytes) := do
  let answer ← piece requests merged bytes entry.1 entry.2
  return result.set entry.1 answer

/-- Check the answer of the backend and cut it into the answers of the requests. -/
def deliver (requests : List LocatedRange) (merged : List ObjectRange)
    (slots : List (Nat × Nat)) (bytes : List Bytes) : Except StoreError (List Bytes) := do
  Except.ensure (bytes.length = merged.length ∧
    ∀ answer ∈ bytes.zip merged, answer.1.length = answer.2.range.length) .backend
  slots.foldlM (place requests merged bytes) (List.replicate requests.length [])

namespace PlacementPin

variable (pin : PlacementPin) (backend : List ObjectRange → Except StoreError (List Bytes))

def readRanges (requests : List LocatedRange) : Except StoreError (List Bytes) := do
  Except.ensure (requests ≠ [] ∧ requests.length ≤ 4096 ∧
    ∀ request ∈ requests, request.pin = pin.address) .range
  let total ← requests.foldlM (fun total request => checkedAdd total request.range.length) 0
  Except.ensure (total ≤ maxBatchBytes) .range
  let (merged, slots) ← coalesce requests
  let bytes ← backend merged
  deliver requests merged slots bytes

/-- Read one range of a pack. -/
def read (pack : Digest) (range : StoredRange) : Except StoreError Bytes := do
  if range.length = 0 then return []
  let located ← pin.locate pack (← PackRange.new range.offset range.length)
  let result ← pin.readRanges backend [located]
  match result with
  | bytes :: _ => return bytes
  | [] => .error .range

end PlacementPin

/-! ## The merged ranges -/

namespace Request

instance : Std.Total fun a b : Request => a.sortKey ≤ b.sortKey where
  total a b := le_total a.sortKey b.sortKey

instance : IsTrans Request fun a b => a.sortKey ≤ b.sortKey where
  trans _ _ _ := le_trans

theorem sortKey_le {a b : Request} : a.sortKey ≤ b.sortKey ↔
    a.2.extent.blob < b.2.extent.blob ∨
      a.2.extent.blob = b.2.extent.blob ∧ a.2.range.offset ≤ b.2.range.offset :=
  Prod.Lex.le_iff

/-- A merged range against the requests it serves: it is their blob's, covers them, reaches no
further than one of them and is no longer than all of them together. -/
structure Merges (part : List Request) (range : ObjectRange) : Prop where
  key : ∀ request ∈ part, range.key = .blob request.2.extent.blob
  covers : ∀ request ∈ part, range.range.offset ≤ request.2.range.offset ∧
    request.2.range.stop ≤ range.range.stop
  reached : ∃ request ∈ part, range.range.stop = request.2.range.stop
  total : range.range.length ≤ (part.map fun request => request.2.range.length).sum

theorem single_eq_ok {request : Request} {range : ObjectRange} :
    request.single = .ok range ↔
      range.key = .blob request.2.extent.blob ∧ range.range = request.2.range :=
  ObjectRange.new_eq_ok

theorem single_returns (request : Request) : ∃ range, request.single = .ok range :=
  ⟨⟨_, _, request.2.nonempty⟩, single_eq_ok.mpr ⟨rfl, rfl⟩⟩

theorem join_eq_none {last : ObjectRange} {request : Request} :
    join last request = .ok none ↔
      ¬ (last.key = .blob request.2.extent.blob ∧ request.2.range.offset ≤ last.range.stop) := by
  unfold join
  split
  · rename_i h
    simp only [h, Except.bind_eq_ok, and_self, not_true_eq_false, iff_false]
    rintro ⟨_, _, _, _, h⟩
    cases h
  · rename_i h
    simp [h, pure, Except.pure]

theorem join_eq_some {last range : ObjectRange} {request : Request} :
    join last request = .ok (some range) ↔
      (last.key = .blob request.2.extent.blob ∧ request.2.range.offset ≤ last.range.stop) ∧
      range.key = last.key ∧ range.range.offset = last.range.offset ∧
      range.range.stop = max last.range.stop request.2.range.stop := by
  unfold join
  split
  · rename_i h
    simp only [h, true_and, Except.bind_eq_ok, StoredRange.new_eq_ok, ObjectRange.new_eq_ok, pure,
      Except.pure, Except.ok.injEq, Option.some.injEq]
    have hle : last.range.offset ≤ max last.range.stop request.2.range.stop :=
      le_max_of_le_left (Nat.le_add_right _ _)
    constructor
    · rintro ⟨stored, ⟨ho, hl⟩, range, ⟨hk, hr⟩, rfl⟩
      refine ⟨hk, by rw [hr, ho], ?_⟩
      rw [hr, StoredRange.stop, ho, hl]
      omega
    · rintro ⟨hk, ho, hs⟩
      refine ⟨range.range, ⟨ho, ?_⟩, range, ⟨hk, rfl⟩, rfl⟩
      unfold StoredRange.stop at hs ⊢
      omega
  · rename_i h
    simp [h, pure, Except.pure]

/-- Merging never fails: the merged range ends where one of the two did. -/
theorem join_returns (last : ObjectRange) (request : Request) :
    ∃ outcome, join last request = .ok outcome := by
  by_cases h : last.key = .blob request.2.extent.blob ∧ request.2.range.offset ≤ last.range.stop
  · have hlast := last.range.bounded
    have hrequest := request.2.range.bounded
    have hne := last.nonempty
    let stop := max last.range.stop request.2.range.stop
    have hstop : stop ≤ u64Max ∧ last.range.offset < stop := by
      simp only [stop, StoredRange.stop]
      omega
    refine ⟨some ⟨last.key, ⟨last.range.offset, stop - last.range.offset, by omega⟩, by
      simp only; omega⟩, join_eq_some.mpr ⟨h, rfl, rfl, ?_⟩⟩
    exact Nat.add_sub_of_le hstop.2.le
  · exact ⟨none, join_eq_none.mpr h⟩

theorem Merges.first (request : Request) (range : ObjectRange) (h : request.single = .ok range) :
    Merges [request] range := by
  obtain ⟨hk, hr⟩ := single_eq_ok.mp h
  refine ⟨by simpa using hk, by simp [hr], ⟨request, by simp [hr]⟩, by simp [hr]⟩

theorem Merges.next (part : List Request) (last : ObjectRange) (request : Request)
    (range : ObjectRange) (h : Merges part last) (hle : ∀ x ∈ part, x.sortKey ≤ request.sortKey)
    (hjoin : join last request = .ok (some range)) : Merges (part ++ [request]) range := by
  obtain ⟨⟨hkey, htouch⟩, hk, ho, hs⟩ := join_eq_some.mp hjoin
  -- The requests of one blob come by offset, so the range need not grow to the left.
  have hstart : last.range.offset ≤ request.2.range.offset := by
    obtain ⟨other, hother, _⟩ := h.reached
    have := h.covers other hother
    have hsame : other.2.extent.blob = request.2.extent.blob := by
      have := (h.key other hother).symm.trans hkey
      simpa using this
    rcases sortKey_le.mp (hle other hother) with hlt | ⟨_, hoffset⟩
    · exact absurd hsame (Nat.ne_of_lt hlt)
    · omega
  refine ⟨?_, ?_, ?_, ?_⟩
  · intro other hother
    rw [hk]
    rcases List.mem_append.mp hother with hother | hother
    · exact h.key other hother
    · rw [List.mem_singleton.mp hother]
      exact hkey
  · intro other hother
    rw [ho, hs]
    rcases List.mem_append.mp hother with hother | hother
    · have := h.covers other hother
      omega
    · rw [List.mem_singleton.mp hother]
      omega
  · rcases le_total last.range.stop request.2.range.stop with hle | hle
    · exact ⟨request, by simp, by rw [hs, max_eq_right hle]⟩
    · obtain ⟨other, hother, heq⟩ := h.reached
      exact ⟨other, by simp [hother], by rw [hs, max_eq_left hle, heq]⟩
  · have := h.total
    simp only [List.map_append, List.map_cons, List.map_nil, List.sum_append, List.sum_singleton]
    unfold StoredRange.stop at *
    omega

end Request

/-- `a` lies before `b`: in an earlier blob, or before it in the same one and not touching. -/
def ObjectRange.Before (a b : ObjectRange) : Prop :=
  ∃ i j : Nat, a.key = .blob i ∧ b.key = .blob j ∧ (i < j ∨ i = j ∧ a.range.stop < b.range.offset)

theorem ObjectRange.Before.trans {a b c : ObjectRange} (hab : a.Before b) (hbc : b.Before c) :
    a.Before c := by
  obtain ⟨i, j, ha, hb, h⟩ := hab
  obtain ⟨j', k, hb', hc, h'⟩ := hbc
  obtain rfl : j = j' := by simpa using hb.symm.trans hb'
  have : b.range.offset ≤ b.range.stop := Nat.le_add_right _ _
  exact ⟨i, k, ha, hc, by omega⟩

/-- What the pass over the sorted requests makes of `done`. -/
def Coalesced (done : List Request) (result : List ObjectRange × List (Nat × Nat)) : Prop :=
  ∃ parts, Greedy.Cut Request.single Request.join parts result.1 ∧ parts.flatten = done ∧
    result.2 = parts.zipIdx.flatMap fun (part, slot) => part.map fun request => (request.1, slot)

theorem Coalesced.step {done : List Request} {merged merged' : List ObjectRange}
    {slots : List (Nat × Nat)} {request : Request} (h : Coalesced done (merged, slots))
    (habsorb : Greedy.absorb Request.single Request.join merged request = .ok merged') :
    Coalesced (done ++ [request]) (merged', slots ++ [(request.1, merged'.length - 1)]) := by
  obtain ⟨parts, hcut, rfl, hslots⟩ := h
  obtain ⟨parts', hcut', hparts⟩ := hcut.absorb habsorb
  have hlen := hcut'.length_eq
  rw [← hlen]
  refine ⟨parts', hcut', ?_, ?_⟩
  · rcases hparts with rfl | ⟨init, part, rfl, rfl⟩ <;> simp
  · simp only at hslots ⊢
    rw [hslots]
    rcases hparts with rfl | ⟨init, part, rfl, rfl⟩ <;> simp [List.zipIdx_append]

/-- The requests in the order of the pass. -/
def sortedRequests (requests : List LocatedRange) : List Request :=
  (requests.zipIdx.map Prod.swap).insertionSort fun a b : Request => a.sortKey ≤ b.sortKey

theorem coalesce_returns (requests : List LocatedRange) :
    ∃ result, coalesce requests = .ok result ∧ Coalesced (sortedRequests requests) result := by
  refine Except.foldlM_total (I := Coalesced) (s := ([], [])) ?_ ⟨[], .nil, rfl, rfl⟩
  rintro done request rest ⟨merged, slots⟩ - h
  obtain ⟨merged', hmerged⟩ : ∃ merged', Greedy.absorb Request.single Request.join merged
      request = .ok merged' :=
    Greedy.absorb_returns request.single_returns fun last _ => Request.join_returns last request
  exact ⟨_, Except.bind_eq_ok.mpr ⟨_, hmerged, rfl⟩, h.step hmerged⟩

section Coalesced

variable {requests : List LocatedRange} {merged : List ObjectRange} {slots : List (Nat × Nat)}

theorem mem_sortedRequests {request : Request} :
    request ∈ sortedRequests requests ↔ requests[request.1]? = some request.2 := by
  obtain ⟨index, request⟩ := request
  simp [sortedRequests, List.mem_zipIdx_iff_getElem?]

theorem pairwise_sortedRequests (requests : List LocatedRange) :
    (sortedRequests requests).Pairwise fun a b => a.sortKey ≤ b.sortKey :=
  List.pairwise_insertionSort _ _

/-- The requests each merged range serves. -/
theorem Coalesced.parts (h : Coalesced (sortedRequests requests) (merged, slots)) :
    ∃ parts, List.Forall₂ Request.Merges parts merged ∧
      parts.flatten = sortedRequests requests ∧
      slots = parts.zipIdx.flatMap fun (part, slot) =>
        part.map fun request => (request.1, slot) := by
  obtain ⟨parts, hcut, hparts, hslots⟩ := h
  exact ⟨parts, hcut.forall₂ (hparts ▸ pairwise_sortedRequests requests) Request.Merges.first
    Request.Merges.next, hparts, hslots⟩

/-- The merged ranges lie one after the other and do not touch. -/
theorem Coalesced.pairwise_before (h : Coalesced (sortedRequests requests) (merged, slots)) :
    merged.Pairwise ObjectRange.Before := by
  obtain ⟨parts, hcut, hparts, -⟩ := h
  have : Trans ObjectRange.Before ObjectRange.Before ObjectRange.Before :=
    ⟨ObjectRange.Before.trans⟩
  refine List.isChain_iff_pairwise.mp (hcut.isChain (hparts ▸ pairwise_sortedRequests requests)
    Request.Merges.first Request.Merges.next ?_ ?_)
  · intro part range request range' hpart hle hrefused hsingle
    obtain ⟨hk, hr⟩ := Request.single_eq_ok.mp hsingle
    obtain ⟨other, hother, hstop⟩ := hpart.reached
    have hkey := hpart.key other hother
    refine ⟨_, _, hkey, hk, ?_⟩
    rcases Request.sortKey_le.mp (hle other hother) with hlt | ⟨heq, _⟩
    · exact .inl hlt
    · -- In one blob the request was refused because it starts past the end of the range.
      refine .inr ⟨heq, ?_⟩
      rw [hr]
      exact Nat.lt_of_not_le fun hle => Request.join_eq_none.mp hrefused ⟨by rw [hkey, heq], hle⟩
  · rintro before range request range' ⟨i, j, hi, hj, hlt⟩ hjoin
    obtain ⟨_, hk, ho, _⟩ := Request.join_eq_some.mp hjoin
    exact ⟨i, j, hi, by rw [hk, hj], by rwa [ho]⟩

theorem Request.Merges.totals {parts : List (List Request)}
    (h : List.Forall₂ Request.Merges parts merged) :
    (merged.map fun range => range.range.length).sum ≤
        (parts.flatten.map fun request => request.2.range.length).sum ∧
      merged.length ≤ parts.flatten.length := by
  induction h with
  | nil => simp
  | @cons part range parts merged hpart _ ih =>
      have := hpart.total
      obtain ⟨request, hrequest, _⟩ := hpart.reached
      have := List.length_pos_of_mem hrequest
      simp only [List.map_cons, List.sum_cons, List.flatten_cons, List.map_append,
        List.sum_append, List.length_cons, List.length_append]
      omega

/-- The merged batch asks for no more ranges and no more bytes than the requests do. -/
theorem Coalesced.totals (h : Coalesced (sortedRequests requests) (merged, slots)) :
    (merged.map fun range => range.range.length).sum ≤
        (requests.map fun request => request.range.length).sum ∧
      merged.length ≤ requests.length := by
  obtain ⟨parts, hmerges, hparts, -⟩ := h.parts
  have hperm : (sortedRequests requests).Perm (requests.zipIdx.map Prod.swap) :=
    List.perm_insertionSort _ _
  have hsum : ((sortedRequests requests).map fun request => request.2.range.length).sum =
      (requests.map fun request => request.range.length).sum := by
    rw [(hperm.map _).sum_eq, List.map_map, ← List.zipIdx_map_fst 0 requests, List.map_map]
    simp [Function.comp_def]
  have := Request.Merges.totals hmerges
  rw [hparts, hsum, hperm.length_eq, List.length_map, List.length_zipIdx] at this
  exact this

/-- Every request has a slot. -/
theorem Coalesced.exists_slot (h : Coalesced (sortedRequests requests) (merged, slots))
    {index : Nat} (hindex : index < requests.length) : ∃ slot, (index, slot) ∈ slots := by
  obtain ⟨parts, -, hparts, rfl⟩ := h.parts
  have hmem : (index, requests[index]) ∈ sortedRequests requests :=
    mem_sortedRequests.mpr (List.getElem?_eq_getElem hindex)
  rw [← hparts, List.mem_flatten] at hmem
  obtain ⟨part, hpart, hmem⟩ := hmem
  obtain ⟨slot, hslot⟩ := List.mem_iff_getElem?.mp hpart
  exact ⟨slot, List.mem_flatMap.mpr ⟨(part, slot), List.mem_zipIdx_iff_getElem?.mpr hslot,
    List.mem_map.mpr ⟨_, hmem, rfl⟩⟩⟩

/-- The range in the slot of a request covers it. -/
theorem Coalesced.covers (h : Coalesced (sortedRequests requests) (merged, slots))
    {index slot : Nat} (hslot : (index, slot) ∈ slots) :
    ∃ request range, requests[index]? = some request ∧ merged[slot]? = some range ∧
      range.key = .blob request.extent.blob ∧ range.range.offset ≤ request.range.offset ∧
      request.range.stop ≤ range.range.stop := by
  obtain ⟨parts, hmerges, hparts, rfl⟩ := h.parts
  obtain ⟨⟨part, slot'⟩, hpart, hslot⟩ := List.mem_flatMap.mp hslot
  obtain ⟨⟨index', request⟩, hrequest, heq⟩ := List.mem_map.mp hslot
  cases heq
  have hpart : parts[slot]? = some part := List.mem_zipIdx_iff_getElem?.mp hpart
  obtain ⟨range, hrange, hcovers⟩ := hmerges.exists_right hpart
  refine ⟨request, range, ?_, hrange, hcovers.key _ hrequest, hcovers.covers _ hrequest⟩
  apply mem_sortedRequests.mp
  rw [← hparts]
  exact List.mem_flatten.mpr ⟨part, List.mem_of_getElem? hpart, hrequest⟩

/-- A merged range ends where one of the requests does. -/
theorem Coalesced.reached (h : Coalesced (sortedRequests requests) (merged, slots))
    {range : ObjectRange} (hrange : range ∈ merged) :
    ∃ request ∈ requests, range.key = .blob request.extent.blob ∧
      range.range.stop = request.range.stop := by
  obtain ⟨parts, hmerges, hparts, -⟩ := h.parts
  obtain ⟨slot, hslot⟩ := List.mem_iff_getElem?.mp hrange
  obtain ⟨part, hpart, hcovers⟩ := hmerges.exists_left hslot
  obtain ⟨request, hrequest, hstop⟩ := hcovers.reached
  refine ⟨request.2, List.mem_of_getElem? (mem_sortedRequests.mp ?_), hcovers.key _ hrequest, hstop⟩
  rw [← hparts]
  exact List.mem_flatten.mpr ⟨part, List.mem_of_getElem? hpart, hrequest⟩

end Coalesced

/-! ## The answers -/

/-- What a backend that holds `objects` has in a located range. -/
def LocatedRange.read (objects : ObjectKey → Option Bytes) (r : LocatedRange) : Option Bytes :=
  (objects (.blob r.extent.blob)).bind fun bytes => cut bytes r.range.offset r.range.stop

section Answers

variable {objects : ObjectKey → Option Bytes} {requests : List LocatedRange}
  {merged : List ObjectRange} {slots : List (Nat × Nat)} {bytes results : List Bytes}

/-- The piece cut out of a merged range is what the request's own range holds. -/
theorem Coalesced.piece (h : Coalesced (sortedRequests requests) (merged, slots))
    (hbytes : List.Forall₂ (fun range bytes => range.read objects = some bytes) merged bytes)
    {index slot : Nat} (hslot : (index, slot) ∈ slots) :
    ∃ request answer, requests[index]? = some request ∧ request.read objects = some answer ∧
      piece requests merged bytes index slot = .ok answer := by
  obtain ⟨request, range, hrequest, hrange, hkey, hoffset, hstop⟩ := h.covers hslot
  obtain ⟨content, hcontent, hread⟩ := hbytes.exists_right hrange
  obtain ⟨object, hobject, hcut⟩ := Option.bind_eq_some_iff.mp hread
  have hlen : request.range.offset ≤ request.range.stop := Nat.le_add_right _ _
  have hpiece := cut_cut hcut hoffset hlen hstop
  obtain ⟨answer, hanswer⟩ : ∃ answer, cut object request.range.offset request.range.stop =
      some answer := ⟨_, cut_eq_some.mpr ⟨hlen, hstop.trans (cut_eq_some.mp hcut).2.1, rfl⟩⟩
  refine ⟨request, answer, hrequest, Option.bind_eq_some_iff.mpr ⟨object, hkey ▸ hobject, hanswer⟩, ?_⟩
  have hend : request.range.offset - range.range.offset + request.range.length =
      request.range.stop - range.range.offset := by
    unfold StoredRange.stop
    omega
  simp only [Zsqlite.piece, hrequest, hrange, hcontent, hend, hpiece, hanswer, Option.elim_some]

/-- The answers placed so far are those of their requests. -/
def Placed (objects : ObjectKey → Option Bytes) (requests : List LocatedRange)
    (done : List (Nat × Nat)) (result : List Bytes) : Prop :=
  result.length = requests.length ∧ ∀ entry ∈ done, ∀ request, requests[entry.1]? = some request →
    result[entry.1]? = request.read objects

theorem Coalesced.place (h : Coalesced (sortedRequests requests) (merged, slots))
    (hbytes : List.Forall₂ (fun range bytes => range.read objects = some bytes) merged bytes)
    {done : List (Nat × Nat)} {entry : Nat × Nat} (hentry : entry ∈ slots)
    (hplaced : Placed objects requests done results) :
    ∃ results', place requests merged bytes results entry = .ok results' ∧
      Placed objects requests (done ++ [entry]) results' := by
  obtain ⟨hlength, hdone⟩ := hplaced
  obtain ⟨request, answer, hrequest, hread, hpiece⟩ := h.piece hbytes hentry
  have hindex : entry.1 < results.length := by
    rw [hlength]
    exact (List.getElem?_eq_some_iff.mp hrequest).1
  refine ⟨results.set entry.1 answer, Except.bind_eq_ok.mpr ⟨_, hpiece, rfl⟩, by simpa using hlength,
    fun other hother request' hrequest' => ?_⟩
  rw [List.getElem?_set]
  by_cases heq : entry.1 = other.1
  · rw [heq, hrequest'] at hrequest
    cases hrequest
    rw [if_pos heq, if_pos hindex, hread]
  · rw [if_neg heq]
    rcases List.mem_append.mp hother with hother | hother
    · exact hdone other hother request' hrequest'
    · exact absurd (by rw [List.mem_singleton.mp hother]) heq

/-- Cutting up the answers of the backend answers every request. -/
theorem Coalesced.deliver (h : Coalesced (sortedRequests requests) (merged, slots))
    (hbytes : List.Forall₂ (fun range bytes => range.read objects = some bytes) merged bytes) :
    ∃ results, deliver requests merged slots bytes = .ok results ∧
      List.Forall₂ (fun request answer => request.read objects = some answer) requests results := by
  have hexact : bytes.length = merged.length ∧
      ∀ answer ∈ bytes.zip merged, answer.1.length = answer.2.range.length := by
    refine ⟨hbytes.length_eq.symm, fun answer hanswer => ?_⟩
    obtain ⟨object, _, hcut⟩ := Option.bind_eq_some_iff.mp (List.forall₂_zip hbytes.flip hanswer)
    rw [length_of_cut hcut]
    exact Nat.add_sub_cancel_left _ _
  obtain ⟨results, hresults, hlength, hdone⟩ :=
    Except.foldlM_total (I := Placed objects requests) (f := Zsqlite.place requests merged bytes)
      (fun done entry rest _ (hslots : slots = done ++ entry :: rest) hplaced =>
        h.place hbytes (by simp [hslots]) hplaced)
      (s := List.replicate requests.length []) ⟨by simp, by simp⟩
  refine ⟨results, ?_, .of_getElem? hlength.symm fun index request answer hrequest hanswer => ?_⟩
  · rw [Zsqlite.deliver, Except.bind_of_ok (Except.ensure_of hexact _), hresults]
  · obtain ⟨slot, hslot⟩ := h.exists_slot (List.getElem?_eq_some_iff.mp hrequest).1
    rw [← hdone _ hslot request hrequest, hanswer]

/-- A merged range is there when the requests are: it ends where one of them does. -/
theorem Coalesced.readable (h : Coalesced (sortedRequests requests) (merged, slots))
    (hresults : List.Forall₂ (fun request answer => request.read objects = some answer) requests
      results) :
    ∃ bytes, List.Forall₂ (fun range bytes => range.read objects = some bytes) merged bytes := by
  have hone : ∀ range ∈ merged, ∃ bytes, range.read objects = some bytes := by
    intro range hrange
    obtain ⟨request, hrequest, hkey, hstop⟩ := h.reached hrange
    obtain ⟨index, hindex⟩ := List.mem_iff_getElem?.mp hrequest
    obtain ⟨answer, _, hread⟩ := hresults.exists_right hindex
    obtain ⟨object, hobject, hcut⟩ := Option.bind_eq_some_iff.mp hread
    have hbound := (cut_eq_some.mp hcut).2.1
    exact ⟨_, Option.bind_eq_some_iff.mpr ⟨object, hkey ▸ hobject,
      cut_eq_some.mpr ⟨Nat.le_add_right _ _, hstop ▸ hbound, rfl⟩⟩⟩
  choose! content hcontent using hone
  exact ⟨merged.map content, List.forall₂_map_right_iff.mpr
    (List.forall₂_same.mpr hcontent)⟩

end Answers

/-! ## Batches -/

namespace PlacementPin

variable {pin : PlacementPin} {backend : List ObjectRange → Except StoreError (List Bytes)}
  {objects : ObjectKey → Option Bytes} {requests : List LocatedRange} {results : List Bytes}

/-- The limits of a batch: at most 4096 requests of this pin and 64 MiB. -/
structure Admits (pin : PlacementPin) (requests : List LocatedRange) : Prop where
  nonempty : requests ≠ []
  count : requests.length ≤ 4096
  own : ∀ request ∈ requests, request.pin = pin.address
  total : (requests.map fun request => request.range.length).sum ≤ maxBatchBytes

/-- A batch within the limits reaches the backend as its merged ranges. -/
theorem Admits.readRanges (h : pin.Admits requests) {merged : List ObjectRange}
    {slots : List (Nat × Nat)} (hmerged : coalesce requests = .ok (merged, slots))
    (backend : List ObjectRange → Except StoreError (List Bytes)) :
    pin.readRanges backend requests = backend merged >>= deliver requests merged slots := by
  have htotal := h.total
  have : maxBatchBytes ≤ u64Max := by decide
  have hsum : requests.foldlM (fun total request => checkedAdd total request.range.length) 0 =
      .ok (requests.map fun request => request.range.length).sum :=
    foldlM_checkedAdd.mpr ⟨by omega, fun _ => by omega⟩
  rw [PlacementPin.readRanges, Except.bind_of_ok (Except.ensure_of ⟨h.nonempty, h.count, h.own⟩ _),
    Except.bind_of_ok hsum, Except.bind_of_ok (Except.ensure_of htotal _), Except.bind_of_ok hmerged]

theorem Admits.checkBatch (h : pin.Admits requests) {merged : List ObjectRange}
    {slots : List (Nat × Nat)} (hmerged : Coalesced (sortedRequests requests) (merged, slots)) :
    checkBatch merged = .ok () := by
  obtain ⟨hsum, hlen⟩ := hmerged.totals
  refine checkBatch_eq_ok.mpr ⟨?_, hlen.trans h.count, hsum.trans h.total⟩
  rintro rfl
  obtain ⟨slot, hslot⟩ := hmerged.exists_slot (List.length_pos_iff.mpr h.nonempty)
  obtain ⟨_, _, _, hnone, _⟩ := hmerged.covers hslot
  cases hnone

/-- **A batch reads what is there.** Within the limits it succeeds exactly when every located
range lies in its blob, and returns the bytes of those ranges in the order of the requests. -/
theorem readRanges_eq_ok (hserves : Serves backend objects) (h : pin.Admits requests) :
    pin.readRanges backend requests = .ok results ↔
      List.Forall₂ (fun request answer => request.read objects = some answer) requests
        results := by
  obtain ⟨⟨merged, slots⟩, hmerged, hspec⟩ := coalesce_returns requests
  rw [h.readRanges hmerged, Except.bind_eq_ok]
  have hbackend := hserves merged (h.checkBatch hspec)
  constructor
  · rintro ⟨bytes, hbytes, hresults⟩
    obtain ⟨results', hresults', hanswers⟩ := hspec.deliver ((hbackend bytes).mp hbytes)
    cases hresults.symm.trans hresults'
    exact hanswers
  · intro hresults
    obtain ⟨bytes, hbytes⟩ := hspec.readable hresults
    obtain ⟨results', hresults', hanswers⟩ := hspec.deliver hbytes
    refine ⟨bytes, (hbackend bytes).mpr hbytes, ?_⟩
    have : results = results' := List.right_unique_forall₂'
      (fun _ _ _ h h' => Option.some.inj (h.symm.trans h')) hresults hanswers
    rw [this, hresults']

/-- The bytes of a placed pack. -/
def packBytes (pin : PlacementPin) (objects : ObjectKey → Option Bytes) (pack : Digest) :
    Option Bytes :=
  pin.placements[pack]?.bind fun placement =>
    (objects (.blob placement.preferred.blob)).bind fun bytes =>
      cut bytes placement.preferred.offset (placement.preferred.offset + placement.preferred.length)

theorem length_of_packBytes {pack : Digest} {bytes : Bytes}
    (h : pin.packBytes objects pack = some bytes) :
    pin.length pack = .ok bytes.length ∧ bytes.length ≤ u64Max := by
  simp only [packBytes, Option.bind_eq_some_iff] at h
  obtain ⟨placement, hplacement, blob, _, hcut⟩ := h
  have hlen := length_of_cut hcut
  have := placement.whole
  have := placement.preferred.within
  have := placement.preferred.bounded
  refine ⟨?_, by omega⟩
  simp only [length, hplacement, Except.ok.injEq]
  omega

theorem locate_of_placed {pack : Digest} {placement : Placements} {range : PackRange}
    {located : StoredRange} (hplacement : pin.placements[pack]? = some placement)
    (hlocated : placement.preferred.locate range = .ok located) :
    ∃ result, pin.locate pack range = .ok result ∧ result.pin = pin.address ∧
      result.extent = placement.preferred ∧ result.range = located := by
  unfold locate
  simp only [hplacement]
  split
  · rename_i h
    cases hlocated.symm.trans h
  · rename_i h
    cases hlocated.symm.trans h
    exact ⟨_, rfl, rfl, rfl, rfl⟩

/-- Reading a range of a placed pack returns those bytes of it. -/
theorem read_of_packBytes (hserves : Serves backend objects) {pack : Digest} {bytes answer : Bytes}
    (h : pin.packBytes objects pack = some bytes) {range : StoredRange} (hne : range.length ≠ 0)
    (hmax : range.length ≤ maxBatchBytes) (hcut : cut bytes range.offset range.stop = some answer) :
    pin.read backend pack range = .ok answer := by
  simp only [packBytes, Option.bind_eq_some_iff] at h
  obtain ⟨placement, hplacement, blob, hblob, hpack⟩ := h
  have hbound := (cut_eq_some.mp hcut).2.1
  rw [length_of_cut hpack] at hbound
  have hextent := placement.preferred.within
  have hblobLength := placement.preferred.bounded
  unfold StoredRange.stop at hbound hcut
  -- The range of the blob that holds the range of the pack.
  let stored : StoredRange :=
    ⟨placement.preferred.offset + range.offset, range.length, by omega⟩
  have hlocate : placement.preferred.locate ⟨range.offset, range.length, hne, range.bounded⟩ =
      .ok stored := BlobExtent.locate_eq_ok.mpr ⟨by simp only; omega, rfl, rfl⟩
  obtain ⟨located, hlocated, hpin, hin, hrange⟩ := locate_of_placed hplacement hlocate
  have hread : located.read objects = some answer := by
    have hshift := cut_cut hpack (a := stored.offset) (b := stored.stop) (Nat.le_add_right _ _)
      (Nat.le_add_right _ _) (by simp only [stored, StoredRange.stop]; omega)
    have hstop : stored.stop - placement.preferred.offset = range.offset + range.length := by
      simp only [stored, StoredRange.stop]
      omega
    rw [hstop, Nat.add_sub_cancel_left, hcut] at hshift
    rw [LocatedRange.read, hin, hblob, hrange]
    exact hshift.symm
  have hanswer : pin.readRanges backend [located] = .ok [answer] :=
    (readRanges_eq_ok hserves ⟨by simp, by simp, by simpa using hpin, by simpa [hrange] using hmax⟩).mpr
      (.cons hread .nil)
  have hnew : PackRange.new range.offset range.length =
      .ok ⟨range.offset, range.length, hne, range.bounded⟩ := dif_pos ⟨hne, range.bounded⟩
  simp only [read, if_neg hne, hnew, hlocated, hanswer, Except.ok_bind]
  rfl

/-- **Coalescing is invisible.** A batch within the limits reaches the backend as a batch within
the limits, of ranges that neither overlap nor touch within a blob, and returns for every
request, in order, what reading that request alone returns. -/
theorem readRanges_coalesced (hserves : Serves backend objects) (h : pin.Admits requests) :
    (∃ merged slots, coalesce requests = .ok (merged, slots) ∧
      (∀ backend, pin.readRanges backend requests =
        backend merged >>= deliver requests merged slots) ∧
      Zsqlite.checkBatch merged = .ok () ∧
      merged.Pairwise fun a b => a.key = b.key →
        a.range.stop < b.range.offset ∨ b.range.stop < a.range.offset) ∧
    ∀ results, pin.readRanges backend requests = .ok results ↔
      List.Forall₂ (fun request answer => pin.readRanges backend [request] = .ok [answer])
        requests results := by
  constructor
  · obtain ⟨⟨merged, slots⟩, hmerged, hspec⟩ := coalesce_returns requests
    refine ⟨merged, slots, hmerged, h.readRanges hmerged, h.checkBatch hspec,
      hspec.pairwise_before.imp ?_⟩
    rintro a b ⟨i, j, hi, hj, hlt⟩ heq
    obtain rfl : i = j := by simpa [hi, hj] using heq
    exact .inl (by omega)
  · intro results
    have hone : ∀ request ∈ requests, ∀ answer,
        pin.readRanges backend [request] = .ok [answer] ↔ request.read objects = some answer := by
      intro request hrequest answer
      have hsize : request.range.length ≤ maxBatchBytes :=
        (List.single_le_sum (by simp) _ (List.mem_map_of_mem
          (f := fun request : LocatedRange => request.range.length) hrequest)).trans h.total
      rw [readRanges_eq_ok hserves ⟨by simp, by simp, by simpa using h.own request hrequest,
        by simpa using hsize⟩]
      simp
    rw [readRanges_eq_ok hserves h]
    exact List.Forall₂.congr_mem fun request hrequest answer => (hone request hrequest answer).symm

/-- Two blobs of eight bytes. -/
def twoBlobs : ObjectKey → Option Bytes
  | .blob 1 => some [10, 11, 12, 13, 14, 15, 16, 17]
  | .blob 2 => some [20, 21, 22, 23, 24, 25, 26, 27]
  | _ => none

/-- A range of one of the two blobs, located by the pin at address zero. -/
def inTwoBlobs (blob offset length : Nat) (h : length ≠ 0 ∧ offset + length ≤ 8) : LocatedRange where
  pin := 0
  extent := ⟨blob, 0, 8, 8, by decide, by decide, by decide⟩
  range := ⟨offset, length, h.2.trans (by decide)⟩
  nonempty := h.1
  within := by simpa [StoredRange.stop] using h.2

/-- Out of order, with a duplicate, an overlap, a neighbour and a range inside another. -/
def overlapping : List LocatedRange :=
  [inTwoBlobs 2 3 2 (by decide), inTwoBlobs 1 4 3 (by decide), inTwoBlobs 1 1 3 (by decide),
    inTwoBlobs 1 2 1 (by decide), inTwoBlobs 2 3 2 (by decide), inTwoBlobs 2 6 1 (by decide)]

theorem readRanges_coalesced_overlapping :
    List.Forall₂ (fun request answer =>
        PlacementPin.readRanges ⟨0, ∅⟩ (MemoryBackend.readRanges twoBlobs) [request] = .ok [answer])
      overlapping [[23, 24], [14, 15, 16], [11, 12, 13], [12], [23, 24], [26]] :=
  ((readRanges_coalesced (MemoryBackend.serves twoBlobs)
    ⟨by decide, by decide, by decide, by decide⟩).2 _).mp (by decide +kernel)

end PlacementPin

end Zsqlite
