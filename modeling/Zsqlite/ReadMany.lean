import Zsqlite.HttpBucket
import Zsqlite.Lib.Machine

set_option autoImplicit false

/-! # Batches of range reads

`ranges.mts`, and `readMany` of `http.mts`: a batch is answered from the caches where that is
possible; the other requests are widened by a read-ahead, merged with their neighbours and fetched
by a number of workers. A worker runs up to its request, and again from the response on; in between
the others run, over the same bucket. The events of a run are these two halves, in any order.
-/

namespace Zsqlite

open ByteVec HttpBucket

/-! ## Requests -/

def ascii (text : String) : Bytes := text.toList.map fun c => UInt8.ofNat c.toNat

/-- `/^objects\/[a-f0-9]{64}\.(blob|segment|dict|index)$/`, or `catalog-head`. -/
def validPath (path : Path) : Bool :=
  path = catalogHead ||
    (path.take 8 = ascii "objects/" && decide (72 ≤ path.length) &&
      ((path.drop 8).take 64).all (fun c => (97 ≤ c && c ≤ 102) || (48 ≤ c && c ≤ 57)) &&
      [".blob", ".segment", ".dict", ".index"].any fun extension => path.drop 72 = ascii extension)

def checkReads (requests : List StorageRead) : Call Unit := do
  check (requests ≠ [] ∧ requests.length ≤ 4096) .invalidBatch
  let _ ← requests.foldlM (fun total request => do
    check (validPath request.path = true) .invalidPath
    check (request.offset ≤ maxSafeInteger ∧ request.length ≤ maxSafeInteger ∧
      1 ≤ request.length ∧ request.offset + request.length ≤ maxSafeInteger) .invalidRead
    check (total + request.length ≤ 64 * 1024 ^ 2) .excessiveBatch
    return total + request.length) 0

structure RangeGroup where
  path : Path
  offset : Nat
  length : Nat
  indices : List Nat
  deriving DecidableEq, Repr

/-- Merge a read into the last group, or begin a group. -/
def groupRead (gap limit : Nat) (groups : List RangeGroup) (read : StorageRead × Nat) :
    List RangeGroup :=
  let alone := groups ++ [⟨read.1.path, read.1.offset, read.1.length, [read.2]⟩]
  match groups.getLast? with
  | none => alone
  | some previous =>
      let stop := max (read.1.offset + read.1.length) (previous.offset + previous.length)
      if previous.path = read.1.path ∧
          read.1.offset ≤ previous.offset + previous.length + gap ∧
          stop - previous.offset ≤ limit then
        groups.dropLast ++ [{ previous with
          length := stop - previous.offset
          indices := previous.indices ++ [read.2] }]
      else alone

/-- The reads in the order of path and offset; the order of paths is the browser's. -/
def orderReads (locale : Path → Path → Ordering) (reads : List StorageRead) :
    List (StorageRead × Nat) :=
  reads.zipIdx.insertionSort fun a b =>
    ((locale a.1.path b.1.path).then (compare a.1.offset b.1.offset)).isLE = true

def groupReads (locale : Path → Path → Ordering) (reads : List StorageRead) (gap limit : Nat) :
    List RangeGroup :=
  (orderReads locale reads).foldl (groupRead gap limit) []

/-! ## Plans -/

structure Miss where
  request : StorageRead
  index : Nat
  fetch : StorageRead
  deriving DecidableEq, Repr

/-- The results so far, and the requests that are to be fetched. -/
structure ReadPlan where
  output : List (Option Bytes)
  misses : List Miss
  deriving DecidableEq, Repr

namespace HttpBucket

variable (o : HttpOptions)

/-- What the disk cache may hold while it is open. -/
def diskBudget (b : HttpBucket) : Nat :=
  match b.diskCache with
  | some disk => if disk.opened then disk.budget else 0
  | none => 0

/-- Widen a request to aligned windows, for sequential reads; with two readings of the clock. -/
def ahead (b : HttpBucket) (clock : ℚ × ℚ) (request : StorageRead) : StorageRead × HttpBucket :=
  let window := o.readAheadBytes
  let after : HttpBucket := { b with
    recent := Function.update b.recent request.path
      (some ⟨request.offset, request.length, clock.1⟩) }
  match b.lengths request.path, b.recent request.path with
  | some size, some previous =>
      if window = 0 ∨ ¬ (ascii ".blob").isSuffixOf request.path ∨ window < 8 * request.length ∨
          size < request.offset + request.length ∨
          (o.objectCacheBytes = 0 ∧ ¬ b.diskCache.any (·.opened)) ∨
          2000 < clock.2 - previous.time then (request, after)
      else
        let distance := max previous.offset request.offset -
          min (previous.offset + previous.length) (request.offset + request.length)
        let offset := request.offset / window * window
        let stop := min size ((request.offset + request.length + (window - 1)) / window * window)
        if window < distance then (request, after)
        else if o.objectCacheBytes < stop - offset ∧ b.diskBudget < stop - offset then (request, after)
        else (⟨request.path, offset, stop - offset⟩, after)
  | _, _ => (request, after)

/-- The catalog head, which is loaded once. -/
def loadHead (head : Option Response) : Call Bytes := do
  let b ← get
  match b.root with
  | some root => return root
  | none =>
      match ← finishRequest catalogHead head with
      | none => do
          modify fun b => { b with root := some [] }
          return []
      | some response => do
          check (response.status = 200) .incompleteHead
          modify fun b => { b with root := some response.body }
          check (response.body.length ≤ 65536 + 72) .excessiveHead
          return response.body

def readHead (head : Option Response) (offset length : Nat) : Call Bytes := do
  check (offset ≤ maxSafeInteger ∧ 1 ≤ length ∧ length ≤ 64 * 1024 * 1024 ∧
    offset + length ≤ maxSafeInteger) .excessiveRange
  let root ← loadHead head
  check (offset = 0 ∧ root.length ≤ length) .invalidHead
  return root

/-- A range from the caches. -/
def readKept (request : StorageRead) : Call (Option Bytes) := do
  match ← expect (·.keptWhole o request.path) with
  | some whole => do
      check (request.offset + request.length ≤ whole.length) .exceedsObject
      return some (part whole request.offset request.length)
  | none => expect (·.cachedRange o request.path request.offset request.length)

def planRead (head : Option Response) (clock : Nat → ℚ × ℚ) (plan : ReadPlan)
    (request : StorageRead) : Call ReadPlan :=
  if request.path = catalogHead then do
    let bytes ← readHead head request.offset request.length
    return { plan with output := plan.output ++ [some bytes] }
  else do
    let fetch ← modifyGet fun b => b.ahead o (clock plan.output.length) request
    match ← readKept o request with
    | some bytes => return { plan with output := plan.output ++ [some bytes] }
    | none => return {
        output := plan.output ++ [none]
        misses := plan.misses ++ [⟨request, plan.output.length, fetch⟩] }

/-- The first part of `readMany`, up to the requests. -/
def planReads (head : Option Response) (clock : Nat → ℚ × ℚ) (requests : List StorageRead) :
    Call ReadPlan := do
  checkReads requests
  requests.foldlM (planRead o head clock) ⟨[], []⟩

def fetchGroups (locale : Path → Path → Ordering) (misses : List Miss) : List RangeGroup :=
  match o.httpMode with
  | .get => (misses.map fun miss => miss.request.path).eraseDups.map fun path =>
      ⟨path, 0, 0, misses.zipIdx.filterMap fun miss =>
        if miss.1.request.path = path then some miss.2 else none⟩
  | _ => groupReads locale (misses.map Miss.fetch) o.mergeGapBytes o.maxMergedRangeBytes

/-! ## Fetches -/

/-- A group up to its request: the bytes and where they start, when no request is needed. -/
def fetchStart (group : RangeGroup) : Call (Option (Bytes × Nat)) :=
  match o.httpMode with
  | .get => do
      let b ← get
      check ((b.lengths group.path).getD 0 ≤ o.maxObjectBytes) .tooLarge
      return none
  | _ => do
      match ← expect (·.keptWhole o group.path) with
      | some whole => return some (whole, 0)
      | none =>
          match ← expect (·.cachedRange o group.path group.offset group.length) with
          | some bytes => return some (bytes, group.offset)
          | none => return none

/-- A group from its response on. -/
def fetchFinish (group : RangeGroup) (response : Option Response) : Call (Bytes × Nat) := do
  match ← finishRequest group.path response with
  | none => throw (.missing group.path)
  | some response =>
      if o.httpMode = .get then do
        let bytes ← complete o group.path response
        return (bytes, group.offset)
      else if response.status = 200 then do
        check (o.httpMode ≠ .range) .rangesRequired
        let bytes ← complete o group.path response
        return (bytes, 0)
      else do
        let bytes ← acceptRange o group.path group.offset group.length response
        return (bytes, group.offset)

/-- The results of a group. -/
def deliver (misses : List Miss) (got : Bytes × Nat) (indices : List Nat)
    (output : List (Option Bytes)) : Call (List (Option Bytes)) :=
  indices.foldlM (fun output slot =>
    match misses[slot]? with
    | none => throw .stuck
    | some miss => do
        check (got.2 ≤ miss.request.offset ∧
          miss.request.offset - got.2 + miss.request.length ≤ got.1.length) .exceedsObject
        return output.set miss.index
          (some (part got.1 (miss.request.offset - got.2) miss.request.length))) output

/-- The first half of a fetch. -/
def fetchGroup (misses : List Miss) (group : RangeGroup) (output : List (Option Bytes)) :
    Call (Option (List (Option Bytes))) := do
  match ← fetchStart o group with
  | none => return none
  | some got => do
      let output ← deliver misses got group.indices output
      return some output

/-- The second half. -/
def resumeGroup (misses : List Miss) (group : RangeGroup) (response : Option Response)
    (output : List (Option Bytes)) : Call (List (Option Bytes)) := do
  let got ← fetchFinish o group response
  deliver misses got group.indices output

end HttpBucket

inductive Worker where
  | ready
  | waiting (group : RangeGroup)
  | done
  deriving DecidableEq, Repr

/-- The second part of `readMany`. -/
structure Fetch where
  bucket : HttpBucket
  output : List (Option Bytes)
  next : Nat
  errors : List HttpError
  workers : List Worker

namespace Fetch

inductive Event where
  | start (worker : Nat)
  | respond (worker : Nat) (response : Option Response)

variable (o : HttpOptions) (misses : List Miss) (groups : List RangeGroup)

/-- A worker is through with a group, and goes on. -/
def conclude (s : Fetch) (worker : Nat) :
    EStateM.Result HttpError HttpBucket (List (Option Bytes)) → Fetch
  | .ok output b => { s with
      bucket := b
      output := output
      workers := s.workers.set worker .ready }
  | .error e b => { s with
      bucket := b
      errors := s.errors ++ [e]
      workers := s.workers.set worker .ready }

/-- A worker has run up to its request. -/
def settle (s : Fetch) (worker : Nat) (group : RangeGroup) :
    EStateM.Result HttpError HttpBucket (Option (List (Option Bytes))) → Fetch
  | .ok (some output) b => s.conclude worker (.ok output b)
  | .ok none b => { s with
      bucket := b
      workers := s.workers.set worker (.waiting group) }
  | .error e b => s.conclude worker (.error e b)

def step (s : Fetch) : Event → Option Fetch
  | .start worker =>
      match s.workers[worker]? with
      | some .ready =>
          match groups[s.next]?, s.errors with
          | some group, [] => some (settle { s with next := s.next + 1 } worker group
              (fetchGroup o misses group s.output s.bucket))
          | _, _ => some { s with workers := s.workers.set worker .done }
      | _ => none
  | .respond worker response =>
      match s.workers[worker]? with
      | some (.waiting group) => some (s.conclude worker
          (resumeGroup o misses group response s.output s.bucket))
      | _ => none

def begin (plan : ReadPlan) (b : HttpBucket) : Fetch :=
  ⟨b, plan.output, 0, [], List.replicate (min groups.length o.readConcurrency) .ready⟩

/-- What `readMany` returns, once every worker is done. -/
def result (s : Fetch) : Option (Except HttpError (List (Option Bytes))) :=
  if s.workers.all (· = .done) then
    some (match s.errors with
      | [] => .ok s.output
      | e :: _ => .error e)
  else none

/-- The runs of the workers over a plan. -/
def system (locale : Path → Path → Ordering) (plan : ReadPlan) (b : HttpBucket) :
    Machine.System Fetch Event where
  init s := s = begin o (fetchGroups o locale plan.misses) plan b
  step s e t := step o plan.misses (fetchGroups o locale plan.misses) s e = some t

/-- The responses are those of the server. -/
def Honest (server : Path → Option Bytes) (s : Fetch) : Event → Prop
  | .start _ => True
  | .respond worker response => ∀ group r, s.workers[worker]? = some (.waiting group) →
      response = some r → Answers server group.path r

end Fetch

/-! ## Groups -/

/-- A group holds a request of its own path, in the slot of a result. -/
def RangeGroup.Holds (misses : List Miss) (group : RangeGroup) (slot : Nat) : Prop :=
  ∃ miss, misses[slot]? = some miss ∧ miss.request.path = group.path

/-- Every request is in a group, and every group holds requests of its path. -/
structure Grouped (o : HttpOptions) (misses : List Miss) (groups : List RangeGroup) : Prop where
  covered : ∀ slot < misses.length, ∃ group ∈ groups, slot ∈ group.indices
  holds : ∀ group ∈ groups, ∀ slot ∈ group.indices, group.Holds misses slot
  whole : o.httpMode = .get → ∀ group ∈ groups, group.offset = 0

/-- The groups of the reads done: their slots in order, under the path of their reads. -/
structure GroupsOf (reads : List (StorageRead × Nat)) (groups : List RangeGroup) : Prop where
  slots : groups.flatMap RangeGroup.indices = reads.map Prod.snd
  paths : ∀ group ∈ groups, ∀ slot ∈ group.indices, ∃ read, (read, slot) ∈ reads ∧
    read.path = group.path

/-- One read more. -/
theorem GroupsOf.groupRead {reads : List (StorageRead × Nat)} {groups : List RangeGroup}
    (h : GroupsOf reads groups) (gap limit : Nat) (read : StorageRead × Nat) :
    GroupsOf (reads ++ [read]) (groupRead gap limit groups read) := by
  have hpaths : ∀ group ∈ groups, ∀ slot ∈ group.indices,
      ∃ r, (r, slot) ∈ reads ++ [read] ∧ r.path = group.path := by
    intro group hgroup slot hslot
    obtain ⟨r, hr, hpath⟩ := h.paths group hgroup slot hslot
    exact ⟨r, List.mem_append_left _ hr, hpath⟩
  have hread : ∃ r, (r, read.2) ∈ reads ++ [read] ∧ r.path = read.1.path :=
    ⟨read.1, List.mem_append_right _ List.mem_cons_self, rfl⟩
  have halone : GroupsOf (reads ++ [read])
      (groups ++ [⟨read.1.path, read.1.offset, read.1.length, [read.2]⟩]) := by
    refine ⟨by simp [h.slots], fun group hgroup slot hslot => ?_⟩
    rcases List.mem_append.mp hgroup with hgroup | hgroup
    · exact hpaths group hgroup slot hslot
    · rw [List.mem_singleton.mp hgroup] at hslot ⊢
      rw [List.mem_singleton.mp hslot]
      exact hread
  unfold Zsqlite.groupRead
  dsimp only
  split
  · exact halone
  · rename_i previous hlast
    split
    · rename_i hmerge
      have hsplit : groups = groups.dropLast ++ [previous] := by
        obtain ⟨front, hfront⟩ := List.getLast?_eq_some_iff.mp hlast
        rw [hfront, List.dropLast_concat]
      have hprevious : previous ∈ groups := List.mem_of_getLast? hlast
      refine ⟨?_, fun group hgroup slot hslot => ?_⟩
      · have hslots := h.slots
        rw [hsplit, List.flatMap_append] at hslots
        rw [List.flatMap_append, List.map_append, ← hslots]
        simp
      · rcases List.mem_append.mp hgroup with hgroup | hgroup
        · exact hpaths group (List.mem_of_mem_dropLast hgroup) slot hslot
        · rw [List.mem_singleton.mp hgroup] at hslot ⊢
          rcases List.mem_append.mp hslot with hslot | hslot
          · exact hpaths previous hprevious slot hslot
          · rw [List.mem_singleton.mp hslot]
            dsimp only
            rw [hmerge.1]
            exact hread
    · exact halone

/-- **Every read is in a group of its path.** By induction on the reads, from the first one on. -/
theorem groupsOf_groupReads (locale : Path → Path → Ordering) (reads : List StorageRead)
    (gap limit : Nat) : GroupsOf (orderReads locale reads) (groupReads locale reads gap limit) := by
  unfold groupReads
  induction orderReads locale reads using List.reverseRecOn with
  | nil => exact ⟨rfl, by simp⟩
  | append_singleton reads read ih =>
      rw [List.foldl_append]
      exact ih.groupRead gap limit read

theorem grouped_fetchGroups (o : HttpOptions) (locale : Path → Path → Ordering)
    {misses : List Miss} (hfetch : ∀ miss ∈ misses, miss.fetch.path = miss.request.path) :
    Grouped o misses (fetchGroups o locale misses) := by
  have hranges : Grouped o misses (groupReads locale (misses.map Miss.fetch) o.mergeGapBytes
      o.maxMergedRangeBytes) ∨ o.httpMode = .get := by
    by_cases hget : o.httpMode = .get
    · exact .inr hget
    · have hgroups := groupsOf_groupReads locale (misses.map Miss.fetch) o.mergeGapBytes
        o.maxMergedRangeBytes
      have hperm : (orderReads locale (misses.map Miss.fetch)).Perm
          (misses.map Miss.fetch).zipIdx := List.perm_insertionSort _ _
      refine .inl ⟨fun slot hslot => ?_, fun group hgroup slot hslot => ?_, fun h => absurd h hget⟩
      · have hmem : slot ∈ (orderReads locale (misses.map Miss.fetch)).map Prod.snd := by
          rw [(hperm.map _).mem_iff, List.mem_map]
          refine ⟨(misses[slot].fetch, slot), ?_, rfl⟩
          rw [List.mem_zipIdx_iff_getElem?, List.getElem?_map, List.getElem?_eq_getElem hslot]
          rfl
        rw [← hgroups.slots, List.mem_flatMap] at hmem
        exact hmem
      · obtain ⟨read, hread, hpath⟩ := hgroups.paths group hgroup slot hslot
        have hread := List.mem_zipIdx_iff_getElem?.mp (hperm.mem_iff.mp hread)
        rw [List.getElem?_map, Option.map_eq_some_iff] at hread
        obtain ⟨miss, hmiss, hfetched⟩ := hread
        dsimp only at hmiss hfetched
        refine ⟨miss, hmiss, ?_⟩
        rw [← hpath, ← hfetched, hfetch miss (List.mem_of_getElem? hmiss)]
  unfold fetchGroups
  split
  · -- Whole objects: one group for each path.
    have hslot : ∀ (path : Path) (slot : Nat), slot ∈ (misses.zipIdx.filterMap fun miss =>
        if miss.1.request.path = path then some miss.2 else none) ↔
        ∃ miss, misses[slot]? = some miss ∧ miss.request.path = path := by
      intro path slot
      rw [List.mem_filterMap]
      constructor
      · rintro ⟨⟨miss, i⟩, hmem, hif⟩
        split at hif
        · rename_i hpath
          cases hif
          exact ⟨miss, List.mem_zipIdx_iff_getElem?.mp hmem, hpath⟩
        · cases hif
      · rintro ⟨miss, hmiss, hpath⟩
        exact ⟨(miss, slot), List.mem_zipIdx_iff_getElem?.mpr hmiss, if_pos hpath⟩
    refine ⟨fun slot hlt => ?_, fun group hgroup slot hin => ?_, fun _ group hgroup => ?_⟩
    · have hmiss : misses[slot]? = some misses[slot] := List.getElem?_eq_getElem hlt
      refine ⟨_, List.mem_map.mpr ⟨misses[slot].request.path, ?_, rfl⟩, (hslot _ _).mpr
        ⟨misses[slot], hmiss, rfl⟩⟩
      rw [List.mem_eraseDups]
      exact List.mem_map_of_mem (List.mem_of_getElem? hmiss)
    · obtain ⟨path, -, rfl⟩ := List.mem_map.mp hgroup
      exact (hslot path slot).mp hin
    · obtain ⟨path, -, rfl⟩ := List.mem_map.mp hgroup
      rfl
  · rename_i hmode
    exact hranges.resolve_right hmode

/-! ## Results -/

/-- The bytes of the object at the range. Only the catalog head may be shorter than its range. -/
def Served (server : Path → Option Bytes) (request : StorageRead) (bytes : Bytes) : Prop :=
  bytes = part ((server request.path).getD []) request.offset request.length ∧
    (request.path ≠ catalogHead → (server request.path).isSome ∧ bytes.length = request.length)

theorem served_of_slice {server : Path → Option Bytes} {request : StorageRead} {bytes : Bytes}
    (h : Slice server request.path request.offset bytes) (hlength : bytes.length = request.length) :
    Served server request bytes := by
  obtain ⟨object, hobject, hat⟩ := h
  refine ⟨?_, fun _ => ⟨by rw [hobject]; rfl, hlength⟩⟩
  rw [hobject, Option.getD_some, part, ← hlength]
  exact hat.2.symm

theorem slice_whole {server : Path → Option Bytes} {path : Path} {bytes : Bytes}
    (h : server path = some bytes) : Slice server path 0 bytes := ⟨bytes, h, at_self bytes⟩

/-- Results that are there are right. -/
structure Filled (server : Path → Option Bytes) (requests : List StorageRead)
    (output : List (Option Bytes)) : Prop where
  length : output.length = requests.length
  served : ∀ (i : Nat) (bytes : Bytes), output[i]? = some (some bytes) →
    ∃ request, requests[i]? = some request ∧ Served server request bytes

theorem Filled.set {server : Path → Option Bytes} {requests : List StorageRead}
    {output : List (Option Bytes)} (h : Filled server requests output) {i : Nat}
    {request : StorageRead} {bytes : Bytes} (hi : requests[i]? = some request)
    (hserved : Served server request bytes) :
    Filled server requests (output.set i (some bytes)) := by
  refine ⟨by rw [List.length_set, h.length], fun j b hj => ?_⟩
  rw [List.getElem?_set] at hj
  split at hj
  · rename_i heq
    subst heq
    split at hj
    · cases hj
      exact ⟨request, hi, hserved⟩
    · cases hj
  · exact h.served j b hj

/-- A plan for the requests done. -/
structure PlanOf (server : Path → Option Bytes) (requests : List StorageRead) (plan : ReadPlan) :
    Prop extends Filled server requests plan.output where
  missed : ∀ i : Nat, plan.output[i]? = some none →
    ∃ (slot : Nat) (miss : Miss), plan.misses[slot]? = some miss ∧ miss.index = i
  misses : ∀ miss ∈ plan.misses, requests[miss.index]? = some miss.request ∧
    miss.fetch.path = miss.request.path

section Plans

variable {o : HttpOptions} {server : Path → Option Bytes} {requests : List StorageRead}
  {plan : ReadPlan} {request : StorageRead}

/-- A request that is answered. -/
theorem PlanOf.answer (h : PlanOf server requests plan) {bytes : Bytes}
    (hserved : Served server request bytes) :
    PlanOf server (requests ++ [request]) { plan with output := plan.output ++ [some bytes] } := by
  refine ⟨⟨by simp [h.length], fun i b hi => ?_⟩, fun i hi => ?_, fun miss hmiss => ?_⟩
  · rcases Nat.lt_trichotomy i plan.output.length with hlt | heq | hgt
    · rw [List.getElem?_append_left hlt] at hi
      obtain ⟨r, hr, hb⟩ := h.served i b hi
      exact ⟨r, by rw [List.getElem?_append_left (h.length ▸ hlt), hr], hb⟩
    · subst heq
      rw [List.getElem?_concat_length] at hi
      cases hi
      exact ⟨request, by rw [h.length, List.getElem?_concat_length], hserved⟩
    · rw [List.getElem?_eq_none (by simp; omega)] at hi
      cases hi
  · by_cases hlt : i < plan.output.length
    · rw [List.getElem?_append_left hlt] at hi
      exact h.missed i hi
    · rw [List.getElem?_append_right (by omega)] at hi
      cases hi' : i - plan.output.length with
      | zero =>
          rw [hi'] at hi
          cases hi
      | succ n =>
          rw [hi'] at hi
          cases hi
  · obtain ⟨hrequest, hfetch⟩ := h.misses miss hmiss
    obtain ⟨hlt, -⟩ := List.getElem?_eq_some_iff.mp hrequest
    exact ⟨by rw [List.getElem?_append_left hlt, hrequest], hfetch⟩

/-- A request that is to be fetched. -/
theorem PlanOf.miss (h : PlanOf server requests plan) {fetch : StorageRead}
    (hpath : fetch.path = request.path) :
    PlanOf server (requests ++ [request])
      ⟨plan.output ++ [none], plan.misses ++ [⟨request, plan.output.length, fetch⟩]⟩ := by
  refine ⟨⟨by simp [h.length], fun i b hi => ?_⟩, fun i hi => ?_, fun miss hmiss => ?_⟩
  · by_cases hlt : i < plan.output.length
    · rw [List.getElem?_append_left hlt] at hi
      obtain ⟨r, hr, hb⟩ := h.served i b hi
      exact ⟨r, by rw [List.getElem?_append_left (h.length ▸ hlt), hr], hb⟩
    · rw [List.getElem?_append_right (by omega)] at hi
      cases hi' : i - plan.output.length with
      | zero =>
          rw [hi'] at hi
          cases hi
      | succ n =>
          rw [hi'] at hi
          cases hi
  · rcases Nat.lt_trichotomy i plan.output.length with hlt | heq | hgt
    · rw [List.getElem?_append_left hlt] at hi
      obtain ⟨slot, miss, hmiss, hindex⟩ := h.missed i hi
      obtain ⟨hslot, -⟩ := List.getElem?_eq_some_iff.mp hmiss
      exact ⟨slot, miss, by rw [List.getElem?_append_left hslot, hmiss], hindex⟩
    · exact ⟨plan.misses.length, _, List.getElem?_concat_length, heq.symm⟩
    · rw [List.getElem?_eq_none (by simp; omega)] at hi
      cases hi
  · rcases List.mem_append.mp hmiss with hmiss | hmiss
    · obtain ⟨hrequest, hfetch⟩ := h.misses miss hmiss
      obtain ⟨hlt, -⟩ := List.getElem?_eq_some_iff.mp hrequest
      exact ⟨by rw [List.getElem?_append_left hlt, hrequest], hfetch⟩
    · rw [List.mem_singleton.mp hmiss]
      exact ⟨by rw [h.length, List.getElem?_concat_length], hpath⟩

/-- Read-ahead only remembers the request, and stays in its object. -/
theorem ahead_spec {b : HttpBucket} (h : Sound o b server) (clock : ℚ × ℚ)
    (request : StorageRead) : Sound o (b.ahead o clock request).2 server ∧
      (b.ahead o clock request).1.path = request.path := by
  let previous : RecentRead := ⟨request.offset, request.length, clock.1⟩
  have hafter : Sound o
      { b with recent := Function.update b.recent request.path (some previous) } server :=
    ⟨⟨h.order, h.nodup, h.total, h.limit⟩, ⟨h.objects, h.ranges, h.named, h.indexed, h.pointed,
      h.disk, h.diskRanges, h.root⟩⟩
  unfold ahead
  dsimp only
  split
  · split
    · exact ⟨hafter, rfl⟩
    · split
      · exact ⟨hafter, rfl⟩
      · split
        · exact ⟨hafter, rfl⟩
        · exact ⟨hafter, rfl⟩
  · exact ⟨hafter, rfl⟩

theorem safe_loadHead {head : Option Response}
    (h : ∀ r, head = some r → Answers server catalogHead r) :
    Safe o server (loadHead head) fun bytes => bytes = (server catalogHead).getD [] := by
  have hroot : ∀ bytes, bytes = (server catalogHead).getD [] →
      Safe o server (modify fun b => { b with root := some bytes }) fun _ => True := by
    intro bytes hbytes
    refine EStateM.keeps_modify fun b hb => ⟨⟨hb.order, hb.nodup, hb.total, hb.limit⟩, ?_⟩
    exact ⟨hb.objects, hb.ranges, hb.named, hb.indexed, hb.pointed, hb.disk, hb.diskRanges,
      fun _ heq => Option.some.inj heq ▸ hbytes⟩
  refine EStateM.keeps_get.bind fun b hb => ?_
  cases hb' : b.root with
  | some root => exact EStateM.keeps_pure (hb.root root hb')
  | none =>
      refine (safe_finishRequest h).bind fun r hr => ?_
      cases r with
      | none =>
          have hempty : [] = (server catalogHead).getD [] := by rw [hr.1 rfl]; rfl
          exact (hroot [] hempty).bind fun _ _ => EStateM.keeps_pure hempty
      | some response =>
          refine (safe_check (by simp)).bind fun _ hstatus => ?_
          have hbody : response.body = (server catalogHead).getD [] := by
            rw [(hr.2 response rfl).2.2.1 hstatus]
            rfl
          refine (hroot _ hbody).bind fun _ _ => (safe_check (by simp)).bind fun _ _ => ?_
          exact EStateM.keeps_pure hbody

theorem safe_readHead {head : Option Response}
    (h : ∀ r, head = some r → Answers server catalogHead r) (hpath : request.path = catalogHead) :
    Safe o server (readHead head request.offset request.length) (Served server request) := by
  refine (safe_check (by simp)).bind fun _ _ => (safe_loadHead h).bind fun root hroot => ?_
  refine (safe_check (by simp)).bind fun _ hfits => EStateM.keeps_pure ?_
  refine ⟨?_, fun hne => absurd hpath hne⟩
  rw [hpath, ← hroot, part, hfits.1, List.drop_zero, List.take_of_length_le hfits.2]

theorem safe_keptWhole (path : Path) : Safe o server (expect (·.keptWhole o path)) fun r =>
    ∀ whole, r = some whole → server path = some whole :=
  safe_expect fun _ hb => keptWhole_spec hb path

theorem safe_cachedRange (path : Path) (offset length : Nat) :
    Safe o server (expect (·.cachedRange o path offset length)) fun r => ∀ bytes, r = some bytes →
      Slice server path offset bytes ∧ bytes.length = length :=
  safe_expect fun _ hb => cachedRange_spec hb path offset length

/-- **A range from the caches is the range of the object.** -/
theorem safe_readKept (request : StorageRead) :
    Safe o server (readKept o request) fun r => ∀ bytes, r = some bytes →
      Served server request bytes := by
  refine (safe_keptWhole request.path).bind fun r hr => ?_
  cases r with
  | some whole =>
      refine (safe_check (by simp)).bind fun _ hfits => EStateM.keeps_pure fun bytes hb => ?_
      cases hb
      have hpart := (slice_whole (hr whole rfl)).part (Nat.zero_le request.offset)
        (by rw [Nat.zero_add]; exact hfits)
      exact served_of_slice hpart.1 hpart.2
  | none =>
      refine (safe_cachedRange request.path request.offset request.length).mono
        fun r hr bytes hb => ?_
      exact served_of_slice (hr bytes hb).1 (hr bytes hb).2

/-- **Step of the planning loop.** -/
theorem safe_planRead {head : Option Response}
    (h : ∀ r, head = some r → Answers server catalogHead r) (clock : Nat → ℚ × ℚ)
    (hplan : PlanOf server requests plan) :
    Safe o server (planRead o head clock plan request) (PlanOf server (requests ++ [request])) := by
  unfold planRead
  refine EStateM.keeps_ite (fun hpath => ?_) fun _ => ?_
  · exact (safe_readHead h hpath).bind fun bytes hserved => EStateM.keeps_pure (hplan.answer hserved)
  · have hahead : Safe o server (modifyGet fun b => b.ahead o (clock plan.output.length) request)
        fun fetch => fetch.path = request.path := fun b hb => ahead_spec hb _ _
    refine hahead.bind fun fetch hfetch => (safe_readKept request).bind fun r hr => ?_
    cases r with
    | some bytes => exact EStateM.keeps_pure (hplan.answer (hr bytes rfl))
    | none => exact EStateM.keeps_pure (hplan.miss hfetch)

theorem safe_checkReads (requests : List StorageRead) :
    Safe o server (checkReads requests) fun _ => True := by
  refine (safe_check (by simp)).bind fun _ _ => ?_
  refine EStateM.Keeps.bind (Q := fun _ => True) ?_ fun _ _ => EStateM.keeps_pure trivial
  refine EStateM.keeps_foldlM (J := fun _ _ => True) (fun _ request total _ _ => ?_) trivial
  refine (safe_check (by simp)).bind fun _ _ => (safe_check (by simp)).bind fun _ _ => ?_
  exact (safe_check (by simp)).bind fun _ _ => EStateM.keeps_pure trivial

/-- **Planning** answers requests rightly, and leaves the others. -/
theorem safe_planReads {head : Option Response}
    (h : ∀ r, head = some r → Answers server catalogHead r) (clock : Nat → ℚ × ℚ)
    (requests : List StorageRead) :
    Safe o server (planReads o head clock requests) (PlanOf server requests) := by
  refine (safe_checkReads requests).bind fun _ _ => ?_
  refine EStateM.keeps_foldlM (fun done request plan _ hplan => safe_planRead h clock hplan) ?_
  exact ⟨⟨rfl, by simp⟩, by simp, by simp⟩

end Plans

/-! ## Runs -/

/-- Results of a group: the slots of the group are filled, the others are as before. -/
structure Delivered (server : Path → Option Bytes) (requests : List StorageRead)
    (misses : List Miss) (output : List (Option Bytes)) (indices : List Nat)
    (output' : List (Option Bytes)) : Prop extends Filled server requests output' where
  missing : ∀ i : Nat, output'[i]? = some none → output[i]? = some none ∧
    ∀ slot ∈ indices, ∀ miss : Miss, misses[slot]? = some miss → miss.index ≠ i

section Fetches

variable {o : HttpOptions} {server : Path → Option Bytes} {requests : List StorageRead}
  {misses : List Miss} {output : List (Option Bytes)} {group : RangeGroup}

theorem safe_fetchStart : Safe o server (fetchStart o group) fun r => ∀ got, r = some got →
    Slice server group.path got.2 got.1 := by
  unfold fetchStart
  split
  · refine EStateM.keeps_get.bind fun b _ => (safe_check (by simp)).bind fun _ _ => ?_
    exact EStateM.keeps_pure fun got hgot => by cases hgot
  · refine (safe_keptWhole group.path).bind fun r hr => ?_
    cases r with
    | some whole =>
        refine EStateM.keeps_pure fun got hgot => ?_
        cases hgot
        exact slice_whole (hr whole rfl)
    | none =>
        refine (safe_cachedRange group.path group.offset group.length).bind fun r hr => ?_
        cases r with
        | some bytes =>
            refine EStateM.keeps_pure fun got hgot => ?_
            cases hgot
            exact (hr bytes rfl).1
        | none => exact EStateM.keeps_pure fun got hgot => by cases hgot

theorem safe_fetchFinish {response : Option Response}
    (h : ∀ r, response = some r → Answers server group.path r)
    (hwhole : o.httpMode = .get → group.offset = 0) :
    Safe o server (fetchFinish o group response) fun got => Slice server group.path got.2 got.1 := by
  refine (safe_finishRequest h).bind fun r hr => ?_
  cases r with
  | none => exact EStateM.keeps_throw (by simp)
  | some response =>
      obtain ⟨hstatus, hanswers⟩ := hr.2 response rfl
      refine EStateM.keeps_ite (fun hget => ?_) fun _ => EStateM.keeps_ite (fun _ => ?_) fun h200 => ?_
      · refine (safe_complete hanswers).bind fun bytes hbytes => EStateM.keeps_pure ?_
        rw [hwhole hget]
        exact slice_whole hbytes
      · refine (safe_check (by simp)).bind fun _ _ => ?_
        exact (safe_complete hanswers).bind fun bytes hbytes =>
          EStateM.keeps_pure (slice_whole hbytes)
      · exact (safe_acceptRange (hstatus.resolve_left h200) hanswers).bind fun bytes hbytes =>
          EStateM.keeps_pure hbytes.1

/-- **Delivery** fills the slots of a group with the ranges asked for. -/
theorem safe_deliver {got : Bytes × Nat} (hslice : Slice server group.path got.2 got.1)
    (hholds : ∀ slot ∈ group.indices, group.Holds misses slot)
    (hmisses : ∀ miss ∈ misses, requests[miss.index]? = some miss.request)
    (hfilled : Filled server requests output) :
    Safe o server (HttpBucket.deliver misses got group.indices output)
      (Delivered server requests misses output group.indices) := by
  refine EStateM.keeps_foldlM (fun done slot out hdone hout => ?_)
    ⟨hfilled, fun i hi => ⟨hi, by simp⟩⟩
  have hslot : slot ∈ group.indices := hdone.subset (by simp)
  obtain ⟨miss, hmiss, hpath⟩ := hholds slot hslot
  rw [hmiss]
  refine (safe_check (by simp)).bind fun _ hbounds => EStateM.keeps_pure ?_
  have hstop : miss.request.offset + miss.request.length ≤ got.2 + got.1.length := by omega
  have hpart := hslice.part hbounds.1 hstop
  rw [← hpath] at hpart
  have hrequest := hmisses miss (List.mem_of_getElem? hmiss)
  refine ⟨hout.toFilled.set hrequest (served_of_slice hpart.1 hpart.2), fun i hi => ?_⟩
  -- A slot that is still missing is not the one just filled.
  have hne : miss.index ≠ i := by
    rintro rfl
    rw [List.getElem?_set_self'] at hi
    obtain ⟨hlt, -⟩ := List.getElem?_eq_some_iff.mp hrequest
    rw [List.getElem?_eq_getElem (hout.length ▸ hlt)] at hi
    cases hi
  rw [List.getElem?_set_ne hne] at hi
  obtain ⟨hold, hothers⟩ := hout.missing i hi
  refine ⟨hold, fun slot' hslot' miss' hmiss' => ?_⟩
  rcases List.mem_append.mp hslot' with hslot' | hslot'
  · exact hothers slot' hslot' miss' hmiss'
  · rw [List.mem_singleton.mp hslot', hmiss] at hmiss'
    cases hmiss'
    exact hne

end Fetches

namespace Fetch

/-- A group has the request for a result. -/
def Fills (misses : List Miss) (group : RangeGroup) (i : Nat) : Prop :=
  ∃ slot ∈ group.indices, ∃ miss, misses[slot]? = some miss ∧ miss.index = i

/-- The state of a run: what is missing is in a group that is still to be fetched, or in flight. -/
structure Reading (o : HttpOptions) (server : Path → Option Bytes) (requests : List StorageRead)
    (misses : List Miss) (groups : List RangeGroup) (s : Fetch) : Prop where
  sound : Sound o s.bucket server
  errors : HttpError.stuck ∉ s.errors
  filled : Filled server requests s.output
  pending : ∀ i : Nat, s.output[i]? = some none → s.errors ≠ [] ∨ ∃ group,
    (group ∈ groups.drop s.next ∨ .waiting group ∈ s.workers) ∧ Fills misses group i
  waiting : ∀ group, .waiting group ∈ s.workers → group ∈ groups
  done : .done ∈ s.workers → groups.length ≤ s.next ∨ s.errors ≠ []
  count : s.workers.length = min groups.length o.readConcurrency

section Invariant

variable {o : HttpOptions} {server : Path → Option Bytes} {requests : List StorageRead}
  {misses : List Miss} {groups : List RangeGroup} {s : Fetch} {worker : Nat} {x : Worker}

theorem mem_set_of_ne {l : List Worker} {i : Nat} {x y z : Worker} (hi : l[i]? = some x)
    (hz : z ∈ l) (hne : z ≠ x) : z ∈ l.set i y := by
  obtain ⟨j, hj⟩ := List.mem_iff_getElem?.mp hz
  have hij : i ≠ j := by
    rintro rfl
    rw [hi] at hj
    exact hne (Option.some.inj hj).symm
  exact List.mem_iff_getElem?.mpr ⟨j, by rw [List.getElem?_set_ne hij, hj]⟩

/-- **A worker that is through with a group.** The groups open before are this one and those open
after. -/
theorem Reading.conclude (h : Reading o server requests misses groups s) {group : RangeGroup}
    {next : Nat} (hnext : s.next ≤ next) (hworker : s.workers[worker]? = some x)
    (hopen : ∀ g, g ∈ groups.drop s.next ∨ .waiting g ∈ s.workers →
      g = group ∨ g ∈ groups.drop next ∨ (.waiting g ∈ s.workers ∧ .waiting g ≠ x))
    {r : EStateM.Result HttpError HttpBucket (List (Option Bytes))}
    (hr : EStateM.Ended (fun b => Sound o b server) (· ≠ .stuck)
      (Delivered server requests misses s.output group.indices) r) :
    Reading o server requests misses groups ({ s with next := next }.conclude worker r) := by
  have hwaiting : ∀ g, .waiting g ∈ s.workers.set worker .ready → g ∈ groups := by
    intro g hg
    rcases List.mem_or_eq_of_mem_set hg with hg | hg
    · exact h.waiting g hg
    · cases hg
  have hdone : .done ∈ s.workers.set worker .ready → groups.length ≤ next ∨ s.errors ≠ [] := by
    intro hg
    rcases List.mem_or_eq_of_mem_set hg with hg | hg
    · exact (h.done hg).imp_left fun hle => hle.trans hnext
    · cases hg
  cases r with
  | ok output b =>
      obtain ⟨hsound, hdelivered⟩ := hr
      refine ⟨hsound, h.errors, hdelivered.toFilled, fun i hi => ?_, hwaiting, hdone,
        (List.length_set ..).trans h.count⟩
      obtain ⟨hold, hnot⟩ := hdelivered.missing i hi
      rcases h.pending i hold with herrors | ⟨g, hg, hfills⟩
      · exact .inl herrors
      · rcases hopen g hg with rfl | hlater | ⟨hflight, hne⟩
        · obtain ⟨slot, hslot, miss, hmiss, hindex⟩ := hfills
          exact absurd hindex (hnot slot hslot miss hmiss)
        · exact .inr ⟨g, .inl hlater, hfills⟩
        · exact .inr ⟨g, .inr (mem_set_of_ne hworker hflight hne), hfills⟩
  | error e b =>
      obtain ⟨hsound, he⟩ := hr
      have hsome : s.errors ++ [e] ≠ [] := by simp
      refine ⟨hsound, ?_, h.filled, fun i _ => .inl hsome, hwaiting, fun _ => .inr hsome,
        (List.length_set ..).trans h.count⟩
      show HttpError.stuck ∉ s.errors ++ [e]
      rw [List.mem_append, List.mem_singleton, not_or]
      exact ⟨h.errors, fun heq => he heq.symm⟩

/-- **Step.** -/
theorem Reading.step (h : Reading o server requests misses groups s)
    (hgroups : Grouped o misses groups)
    (hmisses : ∀ miss ∈ misses, requests[miss.index]? = some miss.request) {e : Event}
    (honest : Honest server s e) {t : Fetch} (ht : step o misses groups s e = some t) :
    Reading o server requests misses groups t := by
  cases e with
  | start worker =>
      rw [Fetch.step] at ht
      split at ht
      · rename_i hworker
        split at ht
        · -- The worker takes the next group.
          rename_i group hgroup herrors
          cases ht
          have hin : group ∈ groups := List.mem_of_getElem? hgroup
          have hfirst : groups.drop s.next = group :: groups.drop (s.next + 1) := by
            obtain ⟨hlt, heq⟩ := List.getElem?_eq_some_iff.mp hgroup
            rw [List.drop_eq_getElem_cons hlt, heq]
          have hopen : ∀ g, g ∈ groups.drop s.next ∨ .waiting g ∈ s.workers → g = group ∨
              g ∈ groups.drop (s.next + 1) ∨ (.waiting g ∈ s.workers ∧ .waiting g ≠ Worker.ready) := by
            rintro g (hg | hg)
            · rw [hfirst] at hg
              exact (List.mem_cons.mp hg).imp_right .inl
            · exact .inr (.inr ⟨hg, by simp⟩)
          have hfetch : Safe o server (fetchGroup o misses group s.output) fun r =>
              ∀ out, r = some out → Delivered server requests misses s.output group.indices out := by
            refine safe_fetchStart.bind fun r hr => ?_
            cases r with
            | none => exact EStateM.keeps_pure fun out hout => by cases hout
            | some got =>
                refine (safe_deliver (hr got rfl) (hgroups.holds group hin) hmisses h.filled).bind
                  fun out hout => EStateM.keeps_pure fun out' heq => ?_
                cases heq
                exact hout
          have hend := hfetch s.bucket h.sound
          cases hr : fetchGroup o misses group s.output s.bucket with
          | error err b =>
              rw [hr] at hend
              have hfailed : EStateM.Ended (fun b => Sound o b server) (· ≠ .stuck)
                (Delivered server requests misses s.output group.indices) (.error err b) := hend
              exact h.conclude (Nat.le_succ _) hworker hopen hfailed
          | ok r b =>
              rw [hr] at hend
              cases r with
              | some out =>
                  have hfilled : EStateM.Ended (fun b => Sound o b server) (· ≠ HttpError.stuck)
                      (Delivered server requests misses s.output group.indices) (.ok out b) :=
                    ⟨hend.1, hend.2 out rfl⟩
                  exact h.conclude (Nat.le_succ _) hworker hopen hfilled
              | none =>
                  obtain ⟨hlt, -⟩ := List.getElem?_eq_some_iff.mp hworker
                  refine ⟨hend.1, h.errors, h.filled, fun i hi => ?_, fun g hg => ?_, fun hg => ?_,
                    (List.length_set ..).trans h.count⟩
                  · rcases h.pending i hi with herr | ⟨g, hg, hfills⟩
                    · exact .inl herr
                    · rcases hopen g hg with rfl | hlater | ⟨hflight, hne⟩
                      · exact .inr ⟨g, .inr (List.mem_set hlt _), hfills⟩
                      · exact .inr ⟨g, .inl hlater, hfills⟩
                      · exact .inr ⟨g, .inr (mem_set_of_ne hworker hflight hne), hfills⟩
                  · rcases List.mem_or_eq_of_mem_set hg with hg | hg
                    · exact h.waiting g hg
                    · cases hg
                      exact hin
                  · rcases List.mem_or_eq_of_mem_set hg with hg | hg
                    · exact (h.done hg).imp_left Nat.le_succ_of_le
                    · cases hg
        · -- There is no group left, or there has been an error.
          rename_i hnone
          cases ht
          refine ⟨h.sound, h.errors, h.filled, fun i hi => ?_, fun g hg => ?_, fun _ => ?_,
            (List.length_set ..).trans h.count⟩
          · rcases h.pending i hi with herr | ⟨g, hg | hg, hfills⟩
            · exact .inl herr
            · exact .inr ⟨g, .inl hg, hfills⟩
            · exact .inr ⟨g, .inr (mem_set_of_ne hworker hg (by simp)), hfills⟩
          · rcases List.mem_or_eq_of_mem_set hg with hg | hg
            · exact h.waiting g hg
            · cases hg
          · by_cases herrors : s.errors = []
            · refine .inl ?_
              cases hgroup : groups[s.next]? with
              | none => exact List.getElem?_eq_none_iff.mp hgroup
              | some group => exact absurd herrors (hnone group hgroup)
            · exact .inr herrors
      · cases ht
  | respond worker response =>
      rw [Fetch.step] at ht
      split at ht
      · rename_i group hworker
        cases ht
        have hin : group ∈ groups := h.waiting group (List.mem_of_getElem? hworker)
        have hopen : ∀ g, g ∈ groups.drop s.next ∨ .waiting g ∈ s.workers → g = group ∨
            g ∈ groups.drop s.next ∨ (.waiting g ∈ s.workers ∧ .waiting g ≠ Worker.waiting group) := by
          intro g hg
          by_cases heq : g = group
          · exact .inl heq
          · exact .inr (hg.imp_right fun hg => ⟨hg, fun hw => heq (Worker.waiting.inj hw)⟩)
        have hresume : Safe o server (resumeGroup o misses group response s.output)
            (Delivered server requests misses s.output group.indices) := by
          refine (safe_fetchFinish (fun r hr => honest group r hworker hr)
            (hgroups.whole · group hin)).bind fun got hgot => ?_
          exact safe_deliver hgot (hgroups.holds group hin) hmisses h.filled
        exact h.conclude le_rfl hworker hopen (hresume s.bucket h.sound)
      · cases ht

/-- **Begin.** -/
theorem reading_begin {plan : ReadPlan} {b : HttpBucket} (hb : Sound o b server)
    (hplan : PlanOf server requests plan) (hgroups : Grouped o plan.misses groups) :
    Reading o server requests plan.misses groups (begin o groups plan b) where
  sound := hb
  errors := List.not_mem_nil
  filled := hplan.toFilled
  pending i hi := by
    obtain ⟨slot, miss, hmiss, hindex⟩ := hplan.missed i hi
    obtain ⟨hlt, -⟩ := List.getElem?_eq_some_iff.mp hmiss
    obtain ⟨group, hgroup, hslot⟩ := hgroups.covered slot hlt
    exact .inr ⟨group, .inl (by rwa [begin, List.drop_zero]), slot, hslot, miss, hmiss, hindex⟩
  waiting group hgroup := by cases List.eq_of_mem_replicate hgroup
  done hdone := by cases List.eq_of_mem_replicate hdone
  count := List.length_replicate

/-- **When every worker is done without an error, every request has its bytes.** -/
theorem Reading.served (h : Reading o server requests misses groups s)
    {output : List (Option Bytes)} (hresult : s.result = some (.ok output)) :
    List.Forall₂ (fun request out => ∃ bytes, out = some bytes ∧ Served server request bytes)
      requests output := by
  unfold result at hresult
  split at hresult
  · rename_i hall
    have hdone : ∀ w ∈ s.workers, w = .done := fun w hw =>
      of_decide_eq_true (List.all_eq_true.mp hall w hw)
    split at hresult
    · rename_i herrors
      cases hresult
      have hempty : groups.drop s.next = [] := by
        cases hworkers : s.workers with
        | nil =>
            have hcount := h.count
            have hone := o.concurrency.1
            rw [hworkers, List.length_nil] at hcount
            have hnone : groups = [] := List.length_eq_zero_iff.mp (by omega)
            rw [hnone, List.drop_nil]
        | cons w workers =>
            have hw : w ∈ s.workers := by rw [hworkers]; exact List.mem_cons_self
            rcases h.done (hdone w hw ▸ hw) with hle | herr
            · exact List.drop_eq_nil_of_le hle
            · exact absurd herrors herr
      refine List.forall₂_iff_get.mpr ⟨h.filled.length.symm, fun i hi hi' => ?_⟩
      have hget : s.output[i]? = some s.output[i] := List.getElem?_eq_getElem hi'
      cases hout : s.output[i] with
      | none =>
          -- What is missing would be in a group that is open.
          rw [hout] at hget
          rcases h.pending i hget with herr | ⟨group, hopen | hopen, -⟩
          · exact absurd herrors herr
          · rw [hempty] at hopen
            cases hopen
          · cases hdone _ hopen
      | some bytes =>
          rw [hout] at hget
          obtain ⟨request, hrequest, hserved⟩ := h.filled.served i bytes hget
          rw [List.getElem?_eq_getElem hi, Option.some.injEq] at hrequest
          subst hrequest
          exact ⟨bytes, hout, hserved⟩
    · cases hresult
  · cases hresult

/-! ### Progress -/

/-- The steps a worker takes before it asks for its next group, or ends. -/
def weight : Worker → Nat
  | .ready => 1
  | .waiting _ => 2
  | .done => 0

/-- A bound on the number of steps left. -/
def left (groups : List RangeGroup) (s : Fetch) : Nat :=
  3 * (groups.length - s.next) + (s.workers.map weight).sum

theorem weights_set {l : List Worker} {i : Nat} {x : Worker} (hi : l[i]? = some x) (y : Worker) :
    ((l.set i y).map weight).sum + weight x = (l.map weight).sum + weight y := by
  induction l generalizing i with
  | nil => cases hi
  | cons w l ih =>
      cases i with
      | zero =>
          cases hi
          simp only [List.set_cons_zero, List.map_cons, List.sum_cons]
          omega
      | succ i =>
          have := ih hi
          simp only [List.set_cons_succ, List.map_cons, List.sum_cons]
          omega

theorem workers_conclude (s : Fetch) (worker : Nat)
    (r : EStateM.Result HttpError HttpBucket (List (Option Bytes))) :
    (s.conclude worker r).workers = s.workers.set worker .ready ∧
      (s.conclude worker r).next = s.next := by
  cases r <;> exact ⟨rfl, rfl⟩

/-- **Every step brings the end nearer.** -/
theorem left_step {e : Event} {t : Fetch} (ht : step o misses groups s e = some t) :
    t.left groups < s.left groups := by
  cases e with
  | start worker =>
      rw [Fetch.step] at ht
      split at ht
      · rename_i hworker
        split at ht
        · rename_i group hgroup _
          cases ht
          obtain ⟨hlt, -⟩ := List.getElem?_eq_some_iff.mp hgroup
          have hready := weights_set hworker .ready
          have hwaiting := weights_set hworker (.waiting group)
          simp only [weight] at hready hwaiting
          have hconclude : ∀ r, (({ s with next := s.next + 1 } : Fetch).conclude worker r).left
              groups < s.left groups := by
            intro r
            obtain ⟨hworkers, hnext⟩ := workers_conclude { s with next := s.next + 1 } worker r
            unfold left
            rw [hworkers, hnext]
            dsimp only
            omega
          unfold settle
          split
          · exact hconclude _
          · unfold left
            dsimp only
            omega
          · exact hconclude _
        · cases ht
          have hdone := weights_set hworker .done
          simp only [weight] at hdone
          unfold left
          dsimp only
          omega
      · cases ht
  | respond worker response =>
      rw [Fetch.step] at ht
      split at ht
      · rename_i group hworker
        cases ht
        have hready := weights_set hworker .ready
        simp only [weight] at hready
        obtain ⟨hworkers, hnext⟩ := workers_conclude s worker
          (resumeGroup o misses group response s.output s.bucket)
        unfold left
        rw [hworkers, hnext]
        omega
      · cases ht

/-- **A run that has not ended can go on**, if only by a request that fails. -/
theorem exists_step (hresult : s.result = none) :
    ∃ e t, Honest server s e ∧ step o misses groups s e = some t := by
  unfold result at hresult
  split at hresult
  · cases hresult
  · rename_i hall
    rw [List.all_eq_true, not_forall] at hall
    obtain ⟨w, hw⟩ := hall
    rw [Classical.not_imp] at hw
    obtain ⟨hw, hne⟩ := hw
    obtain ⟨i, hi⟩ := List.mem_iff_getElem?.mp hw
    cases w with
    | ready =>
        refine ⟨.start i, ?_⟩
        simp only [Fetch.step, hi]
        split
        · exact ⟨_, trivial, rfl⟩
        · exact ⟨_, trivial, rfl⟩
    | waiting group =>
        refine ⟨.respond i none, _, fun g r _ hr => ?_, by rw [Fetch.step, hi]⟩
        cases hr
    | done => exact absurd rfl (of_decide_eq_false (Bool.eq_false_iff.mpr hne))

end Invariant

end Fetch

/-- **`readMany`.** Planning fails, or leaves requests to the workers. Whatever the order in which
these run and get their responses, the bucket stays sound, its bytes are counted and within the
limit, and no eviction runs out of entries. A run ends, and when it ends without an error every
request has got the bytes of its object at its range. -/
theorem read_many (o : HttpOptions) (server : Path → Option Bytes)
    (locale : Path → Path → Ordering) (clock : Nat → ℚ × ℚ) (requests : List StorageRead)
    {b : HttpBucket} (hb : Sound o b server) (head : Option Response)
    (hhead : ∀ r, head = some r → Answers server catalogHead r) :
    match planReads o head clock requests b with
    | .error e b' => e ≠ .stuck ∧ Sound o b' server
    | .ok plan b' => ∀ s, (Fetch.system o locale plan b').ReachWhen (Fetch.Honest server) s →
        Sound o s.bucket server ∧
        s.bucket.cachedObjectBytes = (s.bucket.buffers.map fun e => e.2.length).sum ∧
        s.bucket.cachedObjectBytes ≤ o.objectCacheBytes ∧
        .stuck ∉ s.errors ∧
        (∀ output, s.result = some (.ok output) → List.Forall₂ (fun request out =>
          ∃ bytes, out = some bytes ∧ Served server request bytes) requests output) ∧
        (s.result = none → ∃ e t, Fetch.Honest server s e ∧
          (Fetch.system o locale plan b').step s e t) ∧
        ∀ e t, (Fetch.system o locale plan b').step s e t →
          t.left (fetchGroups o locale plan.misses) < s.left (fetchGroups o locale plan.misses) := by
  have hend := safe_planReads hhead clock requests b hb
  cases hplan : planReads o head clock requests b with
  | error e b' =>
      rw [hplan] at hend
      exact ⟨hend.2, hend.1⟩
  | ok plan b' =>
      rw [hplan] at hend
      obtain ⟨hsound, hplanned⟩ := hend
      have hgroups : Grouped o plan.misses (fetchGroups o locale plan.misses) :=
        grouped_fetchGroups o locale fun miss hmiss => (hplanned.misses miss hmiss).2
      intro s hs
      have hreading := hs.invariant
        (I := Fetch.Reading o server requests plan.misses (fetchGroups o locale plan.misses))
        (fun t (ht : t = Fetch.begin o _ plan b') => ht ▸ Fetch.reading_begin hsound hplanned hgroups)
        fun t e t' ht honest hstep =>
          ht.step hgroups (fun miss hmiss => (hplanned.misses miss hmiss).1) honest hstep
      exact ⟨hreading.sound, hreading.sound.total, hreading.sound.limit, hreading.errors,
        fun output => hreading.served, Fetch.exists_step, fun e t => Fetch.left_step⟩

/-- A bucket before its first read, without a disk cache. -/
def HttpBucket.fresh : HttpBucket :=
  ⟨none, fun _ => none, none, [], 0, [], fun _ => none, [], fun _ => [], fun _ => none⟩

theorem HttpBucket.sound_fresh (o : HttpOptions) (server : Path → Option Bytes) :
    Sound o fresh server where
  order := .rfl
  nodup := .nil
  total := rfl
  limit := Nat.zero_le _
  objects _ he := absurd he List.not_mem_nil
  ranges _ he := absurd he List.not_mem_nil
  named _ he := absurd he List.not_mem_nil
  indexed _ he := absurd he List.not_mem_nil
  pointed _ _ h := by cases h
  disk _ h := by cases h
  diskRanges _ _ he := absurd he List.not_mem_nil
  root _ h := by cases h

/-- A small cache, and two workers. -/
def smallOptions : HttpOptions where
  httpMode := .auto
  objectCacheBytes := 16
  maxObjectBytes := 64
  mergeGapBytes := 0
  maxMergedRangeBytes := 64
  readAheadBytes := 0
  readConcurrency := 2
  maxObjectBytes_pos := by decide
  limits := by decide
  maxMergedRangeBytes_pos := by decide
  concurrency := by decide

def smallRead : StorageRead :=
  ⟨ascii "objects/" ++ List.replicate 64 97 ++ ascii ".blob", 1, 2⟩

/-- One worker fetches a range of an object of five bytes. -/
theorem read_many_range : ∃ plan b' s,
    planReads smallOptions none (fun _ => (0, 0)) [smallRead] HttpBucket.fresh = .ok plan b' ∧
    (Fetch.system smallOptions compare plan b').ReachWhen
      (Fetch.Honest fun _ => some [1, 2, 3, 4, 5]) s ∧
    s.result = some (.ok [some [2, 3]]) ∧
    Served (fun _ => some [1, 2, 3, 4, 5]) smallRead [2, 3] := by
  have hread := read_many smallOptions (fun _ => some [1, 2, 3, 4, 5]) compare (fun _ => (0, 0))
    [smallRead] (HttpBucket.sound_fresh _ _) none (fun r h => by cases h)
  let answer : Response := ⟨206, some (some (1, 2, 5)), none, false, [2, 3]⟩
  have hanswer : ∀ path, Answers (fun _ => some [1, 2, 3, 4, 5]) path answer := by
    refine fun path => ⟨fun h => absurd h (by decide), fun h => absurd h (by decide), ?_⟩
    intro _ start stop total h
    cases h
    exact ⟨_, rfl, rfl, rfl⟩
  have hruns : (match planReads smallOptions none (fun _ => (0, 0)) [smallRead] .fresh with
      | .error _ _ => none
      | .ok plan b' =>
          let groups := fetchGroups smallOptions compare plan.misses
          let step := Fetch.step smallOptions plan.misses groups
          let s := (((step (Fetch.begin smallOptions groups plan b') (.start 0)).bind
            (step · (.respond 0 (some answer)))).bind (step · (.start 0)))
          s.map Fetch.result) = some (some (.ok [some [2, 3]])) := by
    decide +kernel
  cases hplan : planReads smallOptions none (fun _ => (0, 0)) [smallRead] HttpBucket.fresh with
  | error e b' =>
      rw [hplan] at hruns
      cases hruns
  | ok plan b' =>
      rw [hplan] at hruns hread
      obtain ⟨s, hs, hresult⟩ := Option.map_eq_some_iff.mp hruns
      obtain ⟨s₂, hs₂, hdone⟩ := Option.bind_eq_some_iff.mp hs
      obtain ⟨s₁, hs₁, hrespond⟩ := Option.bind_eq_some_iff.mp hs₂
      have hreach : (Fetch.system smallOptions compare plan b').ReachWhen
          (Fetch.Honest fun _ => some [1, 2, 3, 4, 5]) s :=
        .step (a := .start 0) (.step (a := .respond 0 (some answer))
          (.step (a := .start 0) (.init rfl) trivial hs₁)
          (fun group r _ hr => Option.some.inj hr ▸ hanswer group.path) hrespond) trivial hdone
      obtain ⟨-, -, -, -, hserved, -⟩ := hread s hreach
      obtain ⟨bytes, hbytes, hat⟩ := (List.forall₂_cons.mp (hserved _ hresult)).1
      cases hbytes
      exact ⟨plan, b', s, rfl, hreach, hresult, hat⟩

end Zsqlite
