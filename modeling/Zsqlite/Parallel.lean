import Zsqlite.Lib.Greedy
import Zsqlite.SealImage

set_option autoImplicit false

/-! # Workers and batches of a seal

`parallel.rs` and the loop of `prepare` with everything in view that `SealInput.prepare` leaves to
its environment: the worker count of every batch, the threads that can fail to start, the workers
that can fail, the checks for a pause, and the batches that are handed over.

A batch is encoded like its groups one after the other, exactly when no worker fails
(`Round.encodeBatch_eq_ok`). So whatever the rounds, a loop that returns has run like the plain
one (`Flow.grouping_mono`), and what it returns is a fact about the plain loop.
-/

namespace Zsqlite

open ByteVec

variable (E : Env)

/-! ## One batch -/

/-- The circumstances in which one batch is encoded. -/
structure Round where
  /-- The configured number of workers. -/
  workers : Option Nat
  workers_pos : ∀ n ∈ workers, 0 < n
  /-- The parallelism of the host. -/
  available : Nat
  available_pos : 0 < available
  background : Bool
  /-- Whether sealing is paused at the checks before and after the batch. -/
  pausedBefore : Bool
  pausedAfter : Bool
  /-- Starting the thread of a worker. -/
  spawn : Nat → Except StoreError Unit
  /-- Its priority and its codec contexts. -/
  start : Nat → Except StoreError Unit

/-- Join the workers in order: their frames, or the first failure. -/
def joinWorkers (results : List (Except StoreError (List EncodedFrame))) :
    Except StoreError (List EncodedFrame) :=
  let joined := results.foldl (fun (acc : List EncodedFrame × Option StoreError) result =>
    match result with
    | .ok encoded => (acc.1 ++ encoded, acc.2)
    | .error failure => (acc.1, acc.2.or (some failure))) ([], none)
  match joined.2 with
  | none => .ok joined.1
  | some failure => .error failure

namespace Round

variable (r : Round)

def workerCount (jobs : Nat) : Nat := min (min (r.workers.getD r.available) r.available) (max jobs 1)

section Batch

variable (build : FramePages → Except StoreError EncodedFrame)

/-- One worker on its share. -/
def worker (w : Nat) (share : List FramePages) : Except StoreError (List EncodedFrame) := do
  r.start w
  share.mapM build

/-- The threads of a batch, each with the outcome it will be joined with. -/
def threads (parts : List (List FramePages × Nat)) :
    Except StoreError (List (Except StoreError (List EncodedFrame))) :=
  parts.mapM fun part => do
    r.spawn part.2
    return r.worker build part.2 part.1

/-- `encode_batch`. -/
def encodeBatch (groups : List FramePages) : Except StoreError (List EncodedFrame) :=
  if groups = [] then .ok []
  else if r.workerCount groups.length = 1 ∧ r.background = false then r.worker build 0 groups
  else do
    let handles ← r.threads build (shares (r.workerCount groups.length) groups).zipIdx
    joinWorkers handles

end Batch

/-- Every worker the batch needs gets going. -/
def Starts (groups : List FramePages) : Prop :=
  groups ≠ [] →
    if r.workerCount groups.length = 1 ∧ r.background = false then r.start 0 = .ok ()
    else ∀ w < r.workerCount groups.length, r.spawn w = .ok () ∧ r.start w = .ok ()

/-- Nothing but the frames themselves can fail. -/
structure Clean : Prop where
  before : r.pausedBefore = false
  after : r.pausedAfter = false
  spawn : ∀ w, r.spawn w = .ok ()
  start : ∀ w, r.start w = .ok ()

end Round

theorem joinWorkers_eq_ok {results : List (Except StoreError (List EncodedFrame))}
    {frames : List EncodedFrame} : joinWorkers results = .ok frames ↔
      ∃ parts, List.Forall₂ (fun result part => result = .ok part) results parts ∧
        frames = parts.flatten := by
  -- The loop from any accumulators: a failure that is noted stays noted.
  have hloop : ∀ (l : List (Except StoreError (List EncodedFrame))) (done : List EncodedFrame)
      (error : Option StoreError) (frames : List EncodedFrame),
      l.foldl (fun (acc : List EncodedFrame × Option StoreError) result => match result with
        | .ok encoded => (acc.1 ++ encoded, acc.2)
        | .error failure => (acc.1, acc.2.or (some failure))) (done, error) = (frames, none) ↔
      error = none ∧ ∃ parts, List.Forall₂ (fun result part => result = .ok part) l parts ∧
        frames = done ++ parts.flatten := by
    intro l
    induction l with
    | nil =>
        intro done error frames
        rw [List.foldl_nil, Prod.mk.injEq]
        constructor
        · rintro ⟨rfl, rfl⟩
          exact ⟨rfl, [], .nil, (List.append_nil _).symm⟩
        · rintro ⟨rfl, parts, hparts, rfl⟩
          cases hparts
          exact ⟨(List.append_nil _).symm, rfl⟩
    | cons result l ih =>
        intro done error frames
        rw [List.foldl_cons]
        cases result with
        | ok encoded =>
            dsimp only
            rw [ih]
            refine and_congr_right fun _ => ⟨?_, ?_⟩
            · rintro ⟨parts, hparts, rfl⟩
              exact ⟨encoded :: parts, .cons rfl hparts, by
                rw [List.flatten_cons, List.append_assoc]⟩
            · rintro ⟨parts, hparts, rfl⟩
              cases hparts with
              | cons heq hparts =>
                  cases heq
                  exact ⟨_, hparts, by rw [List.flatten_cons, List.append_assoc]⟩
        | error failure =>
            dsimp only
            rw [ih]
            constructor
            · rintro ⟨hnone, -⟩
              cases error with
              | none => cases hnone
              | some e => cases hnone
            · rintro ⟨-, parts, hparts, -⟩
              cases hparts with
              | cons heq _ => cases heq
  have h := hloop results [] none frames
  simp only [List.nil_append, true_and] at h
  rw [← h]
  unfold joinWorkers
  dsimp only
  split
  · rename_i hnone
    rw [Except.ok.injEq, Prod.ext_iff]
    exact ⟨fun hf => ⟨hf, hnone⟩, fun hf => hf.1⟩
  · rename_i failure hsome
    constructor
    · intro hf
      cases hf
    · intro hf
      rw [hf] at hsome
      cases hsome

namespace Round

variable {r : Round} {build : FramePages → Except StoreError EncodedFrame}

theorem workerCount_pos (jobs : Nat) : 0 < r.workerCount jobs := by
  have h₁ : 0 < r.workers.getD r.available := by
    cases hw : r.workers with
    | none => exact r.available_pos
    | some n => exact r.workers_pos n (by rw [hw]; rfl)
  have h₂ := r.available_pos
  unfold workerCount
  omega

theorem worker_eq_ok {w : Nat} {share : List FramePages} {part : List EncodedFrame} :
    r.worker build w share = .ok part ↔ r.start w = .ok () ∧ share.mapM build = .ok part := by
  unfold worker
  rw [Except.bind_eq_ok]
  exact ⟨fun ⟨_, hs, hm⟩ => ⟨hs, hm⟩, fun ⟨hs, hm⟩ => ⟨(), hs, hm⟩⟩

/-- Threads that are started and joined give the frames of their shares. By induction on the
shares, from any number of threads before. -/
theorem threads_eq_ok (parts : List (List FramePages)) (k : Nat) {frames : List EncodedFrame} :
    (r.threads build (parts.zipIdx k) >>= joinWorkers) = .ok frames ↔
      (∀ i < parts.length, r.spawn (k + i) = .ok () ∧ r.start (k + i) = .ok ()) ∧
      parts.flatten.mapM build = .ok frames := by
  induction parts generalizing k frames with
  | nil =>
      rw [List.zipIdx_nil, List.flatten_nil, List.mapM_nil]
      simp only [List.length_nil, Nat.not_lt_zero, false_implies, implies_true, true_and]
      rfl
  | cons share parts ih =>
      have hsplit : (r.threads build ((share :: parts).zipIdx k) >>= joinWorkers) = .ok frames ↔
          (r.spawn k = .ok () ∧ r.start k = .ok ()) ∧ ∃ first rest,
            share.mapM build = .ok first ∧
            (r.threads build (parts.zipIdx (k + 1)) >>= joinWorkers) = .ok rest ∧
            frames = first ++ rest := by
        rw [List.zipIdx_cons, threads, List.mapM_cons]
        simp only [Except.bind_eq_ok, joinWorkers_eq_ok, Except.pure_eq_ok]
        constructor
        · rintro ⟨handles, ⟨_, ⟨_, hspawn, rfl⟩, rest, hrest, rfl⟩, joined, hjoined, rfl⟩
          cases hjoined with
          | cons hfirst hjoined =>
              obtain ⟨hstart, hfirst⟩ := worker_eq_ok.mp hfirst
              exact ⟨⟨hspawn, hstart⟩, _, _, hfirst, ⟨rest, hrest, _, hjoined, rfl⟩,
                List.flatten_cons⟩
        · rintro ⟨⟨hspawn, hstart⟩, first, _, hfirst, ⟨rest, hrest, joined, hjoined, rfl⟩, rfl⟩
          exact ⟨_, ⟨_, ⟨(), hspawn, rfl⟩, rest, hrest, rfl⟩, first :: joined,
            .cons (worker_eq_ok.mpr ⟨hstart, hfirst⟩) hjoined, List.flatten_cons.symm⟩
      rw [hsplit, List.flatten_cons, List.mapM_append]
      simp only [ih, Except.bind_eq_ok, Except.pure_eq_ok]
      constructor
      · rintro ⟨hthis, first, rest, hfirst, ⟨hrest, hmap⟩, rfl⟩
        refine ⟨fun i hi => ?_, first, hfirst, rest, hmap, rfl⟩
        cases i with
        | zero => exact hthis
        | succ i =>
            have := hrest i (by rw [List.length_cons] at hi; omega)
            rwa [Nat.add_right_comm, Nat.add_assoc] at this
      · rintro ⟨hall, first, hfirst, rest, hmap, rfl⟩
        refine ⟨hall 0 (by simp), first, rest, hfirst, ⟨fun i hi => ?_, hmap⟩, rfl⟩
        have := hall (i + 1) (by rw [List.length_cons]; omega)
        rwa [Nat.add_right_comm, Nat.add_assoc]

theorem length_shares {α : Type} (w : Nat) (l : List α) : (shares w l).length = w := by
  induction w generalizing l with
  | zero => rfl
  | succ w ih => rw [shares, List.length_cons, ih]

/-- **A batch is encoded like its groups in a row**, and fails when a worker fails. -/
theorem encodeBatch_eq_ok {groups : List FramePages} {frames : List EncodedFrame} :
    r.encodeBatch build groups = .ok frames ↔
      r.Starts groups ∧ groups.mapM build = .ok frames := by
  unfold encodeBatch Starts
  by_cases hnil : groups = []
  · rw [if_pos hnil, hnil, List.mapM_nil]
    exact ⟨fun h => ⟨fun hne => absurd rfl hne, h⟩, fun h => h.2⟩
  · rw [if_neg hnil]
    by_cases hone : r.workerCount groups.length = 1 ∧ r.background = false
    · rw [if_pos hone, worker_eq_ok]
      simp only [hnil, ne_eq, not_false_eq_true, true_implies, hone, and_self, if_true]
    · obtain ⟨w, hw⟩ : ∃ w, r.workerCount groups.length = w + 1 :=
        ⟨_, (Nat.succ_pred_eq_of_pos (workerCount_pos _)).symm⟩
      rw [if_neg hone]
      simp only [hnil, ne_eq, not_false_eq_true, true_implies, hone, if_false]
      have h : _ ↔ _ ∧ _ = Except.ok frames := @threads_eq_ok r build
        (shares (r.workerCount groups.length) groups) 0 frames
      rw [length_shares] at h
      simp only [Nat.zero_add] at h
      rw [h, hw, flatten_shares]

end Round

/-! ## The page loop -/

/-- What encodes the batches, by their number. -/
abbrev Encoding := Nat → List FramePages → Except StoreError (List EncodedFrame)

/-- The accumulators of the page loop, and the batches handed over so far. -/
structure Flow where
  spill : Spill
  handed : List (List FramePages)

namespace Flow

variable (run : Encoding) (input : SealInput)

def encode (st : Flow) : Except StoreError Flow := do
  let encoded ← run st.handed.length st.spill.batch
  return {
    spill := { st.spill with batch := [], batchBytes := 0, frames := st.spill.frames ++ encoded }
    handed := st.handed ++ [st.spill.batch] }

/-- Flush before another frame is added, so that large frames obey the bound as well. -/
def spillGroup (st : Flow) : Except StoreError Flow := do
  let bytes := input.pageSize.get * st.spill.group.length
  let st ← (if st.spill.batchBytes + bytes > batchBytes then st.encode run else pure st)
  return { st with spill := { st.spill with
    group := []
    batch := st.spill.batch ++ [st.spill.group]
    batchBytes := st.spill.batchBytes + bytes } }

def addPage (st : Flow) (entry : Nat × Nat) : Except StoreError Flow := do
  let bytes ← input.read entry.1
  if bytes.all (· == 0) then
    return { st with spill := { st.spill with zeros := st.spill.zeros ++ [entry.1] } }
  else
    let full := (st.spill.group.length + 1) * input.pageSize.get >
      input.layout.frameBytes input.pageSize
    let st ← (if st.spill.group ≠ [] ∧ full then st.spillGroup run input else pure st)
    return { st with spill := { st.spill with
      group := st.spill.group ++ [(PageVersion.verified E entry.1 entry.2 bytes, bytes)] } }

/-- The last group and the last batch. -/
def finish (st : Flow) : Except StoreError Flow := do
  let st ← (if st.spill.group ≠ [] then st.spillGroup run input else pure st)
  if st.spill.batch ≠ [] then st.encode run else pure st

def start (copied : List EncodedFrame) : Flow := ⟨⟨[], [], [], 0, copied⟩, []⟩

/-- The loop of `prepare` over the pages, after the frames a repack has copied. -/
def grouping (copied : List EncodedFrame) : Except StoreError Flow := do
  let st ← input.pages.foldlM (addPage E run input) (start copied)
  st.finish run input

end Flow

namespace SealInput

variable (input : SealInput)

def checkPaused (paused : Bool) : Except StoreError Unit :=
  Except.ensure (¬ (input.sourcePrefix ∧ paused)) .busy

/-- One batch of the loop: pause checks around the workers. -/
def encodeRound (r : Round) (groups : List FramePages) : Except StoreError (List EncodedFrame) := do
  input.checkPaused r.pausedBefore
  let encoded ← r.encodeBatch (input.encoder.build E input.pageSize) groups
  input.checkPaused r.pausedAfter
  return encoded

/-- What is returned at the end. -/
def prepared (st : Spill) : PreparedSeal where
  endpoint := input.endpoint
  source := input.source
  dictionaries := input.dictionaries
  preferred := input.preferred
  zeros := st.zeros
  frames := st.frames
  layout := input.layout
  dictionaryUpdate := input.dictionaryUpdate
  sourcePrefix := input.sourcePrefix
  report := input.repack.isSome

/-- `prepare` in the circumstances `rounds`, with the batches it handed to workers. -/
def prepareRounds (rounds : Nat → Round) (pausedFirst pausedTrained : Bool) :
    Except StoreError (PreparedSeal × List (List FramePages)) := do
  input.checkPaused pausedFirst
  let (input, copied) ← input.readRepack E
  let input ← input.trainDictionary E
  input.checkPaused pausedTrained
  let st ← Flow.grouping E (fun i => input.encodeRound E (rounds i)) input copied
  return (input.prepared st.spill, st.handed)

/-- One group after the other, with nothing that can fail but the frames. -/
def plain : Encoding := fun _ groups => groups.mapM (input.encoder.build E input.pageSize)

end SealInput

variable {E} {input : SealInput} {run run' : Encoding}

/-! ## Circumstances do not matter -/

theorem SealInput.encodeRound_eq_ok {r : Round} {groups : List FramePages}
    {frames : List EncodedFrame} : input.encodeRound E r groups = .ok frames ↔
      (input.checkPaused r.pausedBefore = .ok () ∧ input.checkPaused r.pausedAfter = .ok () ∧
        r.Starts groups) ∧ groups.mapM (input.encoder.build E input.pageSize) = .ok frames := by
  unfold encodeRound
  simp only [Except.bind_eq_ok, Round.encodeBatch_eq_ok, Except.pure_eq_ok]
  constructor
  · rintro ⟨_, hbefore, _, ⟨hstarts, hmap⟩, _, hafter, rfl⟩
    exact ⟨⟨hbefore, hafter, hstarts⟩, hmap⟩
  · rintro ⟨⟨hbefore, hafter, hstarts⟩, hmap⟩
    exact ⟨(), hbefore, frames, ⟨hstarts, hmap⟩, (), hafter, rfl⟩

theorem SealInput.encodeRound_of_clean {r : Round} (hr : r.Clean) {groups : List FramePages}
    {frames : List EncodedFrame}
    (h : groups.mapM (input.encoder.build E input.pageSize) = .ok frames) :
    input.encodeRound E r groups = .ok frames := by
  refine encodeRound_eq_ok.mpr ⟨⟨?_, ?_, fun _ => ?_⟩, h⟩
  · rw [hr.before]
    exact Except.ensure_of (by simp) _
  · rw [hr.after]
    exact Except.ensure_of (by simp) _
  · split
    · exact hr.start 0
    · exact fun w _ => ⟨hr.spawn w, hr.start w⟩

namespace Flow

variable {st st' : Flow}

section Mono

variable (hrun : ∀ i groups frames, run i groups = .ok frames → run' i groups = .ok frames)
include hrun

theorem encode_mono (h : st.encode run = .ok st') : st.encode run' = .ok st' := by
  obtain ⟨frames, hframes, h⟩ := Except.bind_eq_ok.mp h
  exact Except.bind_eq_ok.mpr ⟨frames, hrun _ _ _ hframes, h⟩

theorem spillGroup_mono (h : st.spillGroup run input = .ok st') :
    st.spillGroup run' input = .ok st' := by
  obtain ⟨mid, hmid, h⟩ := Except.bind_eq_ok.mp h
  refine Except.bind_eq_ok.mpr ⟨mid, ?_, h⟩
  split at hmid
  · rename_i hfull
    rw [if_pos hfull]
    exact encode_mono hrun hmid
  · rename_i hfull
    rw [if_neg hfull]
    exact hmid

theorem addPage_mono {entry : Nat × Nat} (h : addPage E run input st entry = .ok st') :
    addPage E run' input st entry = .ok st' := by
  obtain ⟨bytes, hbytes, h⟩ := Except.bind_eq_ok.mp h
  refine Except.bind_eq_ok.mpr ⟨bytes, hbytes, ?_⟩
  split at h
  · rename_i hzero
    rw [if_pos hzero]
    exact h
  · rename_i hzero
    rw [if_neg hzero]
    obtain ⟨mid, hmid, h⟩ := Except.bind_eq_ok.mp h
    refine Except.bind_eq_ok.mpr ⟨mid, ?_, h⟩
    split at hmid
    · rename_i hfull
      rw [if_pos hfull]
      exact spillGroup_mono hrun hmid
    · rename_i hfull
      rw [if_neg hfull]
      exact hmid

theorem finish_mono (h : st.finish run input = .ok st') : st.finish run' input = .ok st' := by
  obtain ⟨mid, hmid, h⟩ := Except.bind_eq_ok.mp h
  refine Except.bind_eq_ok.mpr ⟨mid, ?_, ?_⟩
  · split at hmid
    · rename_i hgroup
      rw [if_pos hgroup]
      exact spillGroup_mono hrun hmid
    · rename_i hgroup
      rw [if_neg hgroup]
      exact hmid
  · split at h
    · rename_i hbatch
      rw [if_pos hbatch]
      exact encode_mono hrun h
    · rename_i hbatch
      rw [if_neg hbatch]
      exact h

/-- **An encoding that returns whenever another one does** gives the same loop. -/
theorem grouping_mono {copied : List EncodedFrame}
    (h : grouping E run input copied = .ok st) : grouping E run' input copied = .ok st := by
  obtain ⟨mid, hloop, h⟩ := Except.bind_eq_ok.mp h
  refine Except.bind_eq_ok.mpr ⟨mid, ?_, finish_mono hrun h⟩
  have hfold : ∀ (l : List (Nat × Nat)) (a b : Flow),
      l.foldlM (addPage E run input) a = .ok b → l.foldlM (addPage E run' input) a = .ok b := by
    intro l
    induction l with
    | nil => exact fun _ _ h => h
    | cons entry l ih =>
        intro a b h
        rw [List.foldlM_cons] at h ⊢
        obtain ⟨next, hstep, h⟩ := Except.bind_eq_ok.mp h
        exact Except.bind_eq_ok.mpr ⟨next, addPage_mono hrun hstep, ih next b h⟩
  exact hfold _ _ _ hloop

end Mono

/-! ## What the loop has done -/

/-- The pages of entries that are not zero, in order. -/
def nonzero (E : Env) (input : SealInput) (entries : List (Nat × Nat)) : FramePages :=
  entries.filterMap fun entry => match input.read entry.1 with
    | .ok bytes =>
        if bytes.all (· == 0) then none
        else some (PageVersion.verified E entry.1 entry.2 bytes, bytes)
    | .error _ => none

/-- Decoded bytes of a batch. -/
def decodedBytes (input : SealInput) (batch : List FramePages) : Nat :=
  (batch.map fun pages => input.pageSize.get * pages.length).sum

/-- The bound on a batch: 8 MiB, or one frame that is larger. -/
def batchBound (input : SealInput) : Nat := max batchBytes (input.layout.frameBytes input.pageSize)

/-- The accumulators after the entries `done`: batches handed over, the batch, the group, in this
order, are the pages that are not zero. -/
structure Grouped (E : Env) (run : Encoding) (input : SealInput) (copied : List EncodedFrame)
    (done : List (Nat × Nat)) (st : Flow) : Prop where
  readable : ∀ entry ∈ done, ∃ bytes, input.read entry.1 = .ok bytes
  order : st.handed.flatten.flatten ++ (st.spill.batch.flatten ++ st.spill.group) =
    nonzero E input done
  frames : ∃ new, st.spill.frames = copied ++ new ∧
    List.Forall₂ (fun pages f => input.encoder.build E input.pageSize pages = .ok f)
      st.handed.flatten new
  ran : ∀ (i : Nat) groups, st.handed[i]? = some groups → ∃ frames, run i groups = .ok frames
  capacity : ∀ pages ∈ st.handed.flatten ++ st.spill.batch,
    pages ≠ [] ∧ input.pageSize.get * pages.length ≤ input.layout.frameBytes input.pageSize
  group : input.pageSize.get * st.spill.group.length ≤ input.layout.frameBytes input.pageSize
  counted : st.spill.batchBytes = decodedBytes input st.spill.batch
  batch : st.spill.batchBytes ≤ batchBound input
  handed : ∀ groups ∈ st.handed, decodedBytes input groups ≤ batchBound input

theorem le_frameBytes (layout : LayoutPolicy) (size : PageSize) :
    size.get ≤ layout.frameBytes size := by
  unfold LayoutPolicy.frameBytes
  split
  · exact le_rfl
  · exact Nat.le_max_right _ _

theorem nonzero_append (a b : List (Nat × Nat)) :
    nonzero E input (a ++ b) = nonzero E input a ++ nonzero E input b := List.filterMap_append

variable {copied : List EncodedFrame} {done : List (Nat × Nat)}

theorem grouped_start (copied : List EncodedFrame) :
    Grouped E run input copied [] (start copied) where
  readable entry h := by cases h
  order := rfl
  frames := ⟨[], (List.append_nil _).symm, .nil⟩
  ran i groups h := by cases h
  capacity pages h := by cases h
  group := Nat.zero_le _
  counted := rfl
  batch := Nat.zero_le _
  handed groups h := by cases h

section Step

variable (hrun : ∀ i groups frames, run i groups = .ok frames →
  groups.mapM (input.encoder.build E input.pageSize) = .ok frames)
include hrun

theorem Grouped.encode (h : Grouped E run input copied done st) (he : st.encode run = .ok st') :
    Grouped E run input copied done st' ∧ st'.spill.batch = [] ∧
      st'.spill.group = st.spill.group := by
  obtain ⟨encoded, hencoded, he⟩ := Except.bind_eq_ok.mp he
  obtain rfl := Except.pure_eq_ok.mp he
  refine ⟨⟨h.readable, ?_, ?_, ?_, fun pages hp => ?_, h.group, rfl, Nat.zero_le _,
    fun groups hg => ?_⟩, rfl, rfl⟩
  · rw [← h.order]
    simp only [List.flatten_append, List.flatten_singleton, List.flatten_nil, List.nil_append,
      List.append_assoc]
  · obtain ⟨new, hnew, hbuilt⟩ := h.frames
    refine ⟨new ++ encoded, by dsimp only; rw [hnew, List.append_assoc], ?_⟩
    dsimp only
    rw [List.flatten_append, List.flatten_singleton]
    exact List.rel_append hbuilt (Except.mapM_eq_ok.mp (hrun _ _ _ hencoded))
  · intro i groups hg
    dsimp only at hg
    rcases Nat.lt_or_ge i st.handed.length with hi | hi
    · rw [List.getElem?_append_left hi] at hg
      exact h.ran i groups hg
    · rw [List.getElem?_append_right hi, List.getElem?_singleton] at hg
      split at hg
      · cases hg
        have hi : i = st.handed.length := by omega
        exact ⟨encoded, hi ▸ hencoded⟩
      · cases hg
  · dsimp only at hp
    rw [List.flatten_append, List.flatten_singleton, List.append_nil] at hp
    exact h.capacity pages hp
  · rcases List.mem_append.mp hg with hg | hg
    · exact h.handed groups hg
    · rw [List.mem_singleton.mp hg, ← h.counted]
      exact h.batch

theorem Grouped.spillGroup (h : Grouped E run input copied done st) (hne : st.spill.group ≠ [])
    (hs : st.spillGroup run input = .ok st') :
    Grouped E run input copied done st' ∧ st'.spill.group = [] := by
  obtain ⟨mid, hmid, hs⟩ := Except.bind_eq_ok.mp hs
  obtain rfl := Except.pure_eq_ok.mp hs
  -- After the flush there is room, or the batch is empty.
  have hroom : Grouped E run input copied done mid ∧ mid.spill.group = st.spill.group ∧
      mid.spill.batchBytes + input.pageSize.get * st.spill.group.length ≤ batchBound input := by
    split at hmid
    · obtain ⟨hg, hbatch, hgroup⟩ := h.encode hrun hmid
      refine ⟨hg, hgroup, ?_⟩
      rw [hg.counted, hbatch]
      exact (Nat.zero_add _).le.trans (h.group.trans (Nat.le_max_right _ _))
    · rename_i hfits
      cases hmid
      exact ⟨h, rfl, (Nat.le_of_not_lt hfits).trans (Nat.le_max_left _ _)⟩
  obtain ⟨hg, hgroup, hbound⟩ := hroom
  rw [← hgroup] at hne
  refine ⟨⟨hg.readable, ?_, hg.frames, hg.ran, fun pages hp => ?_, Nat.zero_le _, ?_, hbound,
    hg.handed⟩, rfl⟩
  · rw [← hg.order]
    simp only [List.flatten_append, List.flatten_singleton, List.append_nil]
  · dsimp only at hp
    rw [← List.append_assoc] at hp
    rcases List.mem_append.mp hp with hp | hp
    · exact hg.capacity pages hp
    · rw [List.mem_singleton.mp hp]
      exact ⟨hne, hg.group⟩
  · dsimp only
    rw [hg.counted, decodedBytes, decodedBytes, List.map_append, List.sum_append, List.map_singleton,
      List.sum_singleton, hgroup]

/-- **One page of the loop.** -/
theorem Grouped.addPage (h : Grouped E run input copied done st) {entry : Nat × Nat}
    (ha : addPage E run input st entry = .ok st') :
    Grouped E run input copied (done ++ [entry]) st' := by
  obtain ⟨bytes, hbytes, ha⟩ := Except.bind_eq_ok.mp ha
  have hreadable : ∀ e ∈ done ++ [entry], ∃ bytes, input.read e.1 = .ok bytes := by
    intro e he
    rcases List.mem_append.mp he with he | he
    · exact h.readable e he
    · rw [List.mem_singleton.mp he]
      exact ⟨bytes, hbytes⟩
  split at ha
  · rename_i hzero
    obtain rfl := Except.pure_eq_ok.mp ha
    have hnone : nonzero E input [entry] = [] := by
      simp only [nonzero, List.filterMap_cons, hbytes, hzero, if_true, List.filterMap_nil]
    refine ⟨hreadable, ?_, h.frames, h.ran, h.capacity, h.group, h.counted, h.batch, h.handed⟩
    rw [nonzero_append, hnone, List.append_nil]
    exact h.order
  · rename_i hzero
    have hsome : nonzero E input [entry] =
        [(PageVersion.verified E entry.1 entry.2 bytes, bytes)] := by
      simp only [nonzero, List.filterMap_cons, hbytes, hzero, List.filterMap_nil]
      rfl
    obtain ⟨mid, hmid, ha⟩ := Except.bind_eq_ok.mp ha
    obtain rfl := Except.pure_eq_ok.mp ha
    -- The group is fresh, or has room for one page more.
    have hroom : Grouped E run input copied done mid ∧
        input.pageSize.get * (mid.spill.group.length + 1) ≤
          input.layout.frameBytes input.pageSize := by
      have hone := le_frameBytes input.layout input.pageSize
      split at hmid
      · rename_i hfull
        obtain ⟨hg, hgroup⟩ := h.spillGroup hrun hfull.1 hmid
        refine ⟨hg, ?_⟩
        rw [hgroup, List.length_nil, Nat.zero_add, Nat.mul_one]
        exact hone
      · rename_i hfull
        cases hmid
        refine ⟨h, ?_⟩
        by_cases hempty : st.spill.group = []
        · rw [hempty, List.length_nil, Nat.zero_add, Nat.mul_one]
          exact hone
        · rw [Nat.mul_comm]
          exact Nat.le_of_not_lt fun hlt => hfull ⟨hempty, hlt⟩
    obtain ⟨hg, hroom⟩ := hroom
    refine ⟨hreadable, ?_, hg.frames, hg.ran, hg.capacity, ?_, hg.counted, hg.batch, hg.handed⟩
    · rw [nonzero_append, hsome, ← hg.order]
      simp only [List.append_assoc]
    · dsimp only
      rw [List.length_append]
      exact hroom

/-- **The end of the loop**: everything has been handed over. -/
theorem Grouped.finish (h : Grouped E run input copied done st)
    (hf : st.finish run input = .ok st') : Grouped E run input copied done st' ∧
      st'.spill.batch = [] ∧ st'.spill.group = [] := by
  obtain ⟨mid, hmid, hf⟩ := Except.bind_eq_ok.mp hf
  have hgroup : Grouped E run input copied done mid ∧ mid.spill.group = [] := by
    split at hmid
    · rename_i hne
      exact h.spillGroup hrun hne hmid
    · rename_i hne
      cases hmid
      exact ⟨h, not_not.mp hne⟩
  split at hf
  · obtain ⟨hg, hbatch, hsame⟩ := hgroup.1.encode hrun hf
    exact ⟨hg, hbatch, hsame.trans hgroup.2⟩
  · rename_i hne
    cases hf
    exact ⟨hgroup.1, not_not.mp hne, hgroup.2⟩

/-- **The whole loop.** -/
theorem grouped_grouping (h : grouping E run input copied = .ok st) :
    Grouped E run input copied input.pages st ∧ st.spill.batch = [] ∧ st.spill.group = [] := by
  obtain ⟨mid, hloop, hf⟩ := Except.bind_eq_ok.mp h
  have hmid : Grouped E run input copied input.pages mid :=
    Except.foldlM_prefix (I := fun done st => Grouped E run input copied done st)
      (fun done entry a b _ ha hstep => ha.addPage hrun hstep) (grouped_start copied) hloop
  exact hmid.finish hrun hf

end Step

/-! ## The loop returns -/

theorem nonzero_verified {v : PageVersion} {b : Bytes} (h : (v, b) ∈ nonzero E input done) :
    b.length = input.pageSize.get ∧ E.hash.checksum v.page v.txid b = v.checksum := by
  obtain ⟨entry, -, hentry⟩ := List.mem_filterMap.mp h
  split at hentry
  · rename_i bytes hbytes
    split at hentry
    · cases hentry
    · cases hentry
      refine ⟨?_, rfl⟩
      rw [(readExactAt_eq_ok.mp hbytes).1, length_window]
  · cases hentry

/-- Groups in the batch can be built. -/
theorem Grouped.buildable (h : Grouped E run input copied done st)
    (hcap : input.layout.frameBytes input.pageSize ≤ 8 * 1024 * 1024) :
    ∀ pages ∈ st.spill.batch, FrameEncoder.Buildable E input.pageSize pages := by
  intro pages hp
  obtain ⟨hne, hle⟩ := h.capacity pages (List.mem_append_right _ hp)
  refine ⟨hne, ?_, fun v b hvb => ?_⟩
  · rw [Nat.mul_comm]
    exact hle.trans hcap
  · have hmem : (v, b) ∈ nonzero E input done := by
      rw [← h.order]
      refine List.mem_append_right _ (List.mem_append_left _ ?_)
      exact List.mem_flatten.mpr ⟨pages, hp, hvb⟩
    exact nonzero_verified hmem

section Total

variable (hrun : ∀ i groups frames, run i groups = .ok frames →
  groups.mapM (input.encoder.build E input.pageSize) = .ok frames)
  (hreturns : ∀ i groups, (∀ pages ∈ groups, FrameEncoder.Buildable E input.pageSize pages) →
    ∃ frames, run i groups = .ok frames)
  (hcap : input.layout.frameBytes input.pageSize ≤ 8 * 1024 * 1024)
include hreturns hcap

theorem Grouped.encode_total (h : Grouped E run input copied done st) :
    ∃ st', st.encode run = .ok st' := by
  obtain ⟨frames, hframes⟩ := hreturns st.handed.length st.spill.batch (h.buildable hcap)
  exact ⟨_, Except.bind_of_ok hframes⟩

theorem Grouped.spillGroup_total (h : Grouped E run input copied done st) :
    ∃ st', st.spillGroup run input = .ok st' := by
  unfold Flow.spillGroup
  dsimp only
  split
  · obtain ⟨mid, hmid⟩ := h.encode_total hreturns hcap
    exact ⟨_, Except.bind_of_ok hmid⟩
  · exact ⟨_, rfl⟩

theorem Grouped.addPage_total (h : Grouped E run input copied done st) {entry : Nat × Nat}
    {bytes : Bytes} (hbytes : input.read entry.1 = .ok bytes) :
    ∃ st', Flow.addPage E run input st entry = .ok st' := by
  unfold Flow.addPage
  rw [Except.bind_of_ok hbytes]
  split
  · exact ⟨_, rfl⟩
  · dsimp only
    split
    · obtain ⟨mid, hmid⟩ := h.spillGroup_total hreturns hcap
      exact ⟨_, Except.bind_of_ok hmid⟩
    · exact ⟨_, rfl⟩

include hrun

theorem Grouped.finish_total (h : Grouped E run input copied done st) :
    ∃ st', st.finish run input = .ok st' := by
  have hmid : ∃ mid, (if st.spill.group ≠ [] then st.spillGroup run input else pure st) =
      .ok mid ∧ Grouped E run input copied done mid := by
    split
    · rename_i hne
      obtain ⟨mid, hmid⟩ := h.spillGroup_total hreturns hcap
      exact ⟨mid, hmid, (h.spillGroup hrun hne hmid).1⟩
    · exact ⟨st, rfl, h⟩
  obtain ⟨mid, hmid, hg⟩ := hmid
  unfold Flow.finish
  rw [Except.bind_of_ok hmid]
  split
  · exact hg.encode_total hreturns hcap
  · exact ⟨_, rfl⟩

/-- **The loop returns** when the pages can be read and the groups be encoded. -/
theorem grouping_total (copied : List EncodedFrame)
    (hread : ∀ entry ∈ input.pages, ∃ bytes, input.read entry.1 = .ok bytes) :
    ∃ st, grouping E run input copied = .ok st := by
  obtain ⟨mid, hloop, hmid⟩ := Except.foldlM_total
    (I := fun done st => Grouped E run input copied done st) (f := Flow.addPage E run input)
    (l := input.pages) (fun done entry rest st hl hst => by
      obtain ⟨bytes, hbytes⟩ := hread entry (by rw [hl]; simp)
      obtain ⟨st', hstep⟩ := hst.addPage_total hreturns hcap hbytes
      exact ⟨st', hstep, hst.addPage hrun hstep⟩) (grouped_start copied)
  obtain ⟨st, hst⟩ := hmid.finish_total hrun hreturns hcap
  exact ⟨st, by rw [grouping, Except.bind_of_ok hloop, hst]⟩

end Total

end Flow

/-! ## The preparation -/

namespace SealInput

/-- Preparing the pages changes neither the endpoint nor the layout. -/
theorem readRepack_layout {job : SealInput} {copied : List EncodedFrame}
    (h : input.readRepack E = .ok (job, copied)) :
    job.endpoint = input.endpoint ∧ job.layout = input.layout ∧
      (input.repack = none → job = input ∧ copied = []) := by
  unfold readRepack at h
  split at h
  · cases h
    exact ⟨rfl, rfl, fun _ => ⟨rfl, rfl⟩⟩
  · cases h
  · rename_i selected view hselected _
    obtain ⟨⟨mid, frames⟩, hloop, h⟩ := Except.bind_eq_ok.mp h
    obtain ⟨rfl, rfl⟩ := Prod.mk.inj (Except.pure_eq_ok.mp h)
    have hkeep := Except.foldlM_invariant
      (I := fun s : SealInput × List EncodedFrame =>
        s.1.endpoint = input.endpoint ∧ s.1.layout = input.layout)
      (fun location _ s s' hs hstep => ?_) ⟨rfl, rfl⟩ hloop
    · exact ⟨hkeep.1, hkeep.2, fun hnone => by rw [hselected] at hnone; cases hnone⟩
    · have hcopy : ∀ raw : Bytes, ((s.1.copyLive E view location raw).endpoint = input.endpoint ∧
          (s.1.copyLive E view location raw).layout = input.layout) := by
        intro raw
        unfold copyLive
        refine List.foldlRecOn (motive := fun t : SealInput =>
          t.endpoint = input.endpoint ∧ t.layout = input.layout) _ _ hs fun t ht entry _ => ?_
        split
        · exact ht
        · exact ht
      unfold repackFrame at hstep
      dsimp only at hstep
      split at hstep
      · obtain ⟨record, -, hstep⟩ := Except.bind_eq_ok.mp hstep
        split at hstep
        · obtain ⟨_, -, hstep⟩ := Except.bind_eq_ok.mp hstep
          obtain rfl := Except.pure_eq_ok.mp hstep
          exact hs
        · obtain ⟨raw, -, hstep⟩ := Except.bind_eq_ok.mp hstep
          obtain rfl := Except.pure_eq_ok.mp hstep
          exact hcopy raw
      · obtain rfl := Except.pure_eq_ok.mp hstep
        exact hs

/-- Training changes the dictionaries only. -/
theorem trainDictionary_same {job : SealInput} (h : input.trainDictionary E = .ok job) :
    job = { input with preferred := job.preferred, dictionaries := job.dictionaries } := by
  obtain ⟨samples, -, h⟩ := Except.bind_eq_ok.mp h
  obtain rfl := Except.pure_eq_ok.mp h
  generalize (if input.endpoint.dictionaryBytes ≠ 0 ∧ input.dictionaryTraining = true then
    E.selectDictionary input.endpoint.txid samples else none) = trained
  cases trained with
  | none => rfl
  | some bytes => rfl

/-! The rounds show nothing that `prepare` does not do: with the batches left out, the loops are
the same. -/

theorem encodeBatch_eq_mapM {encoder : FrameEncoder} {size : PageSize} {groups : List FramePages}
    {frames : List EncodedFrame} : Zsqlite.encodeBatch E encoder size groups = .ok frames ↔
      groups.mapM (encoder.build E size) = .ok frames := by
  constructor
  · exact fun h => Except.mapM_eq_ok.mpr (Zsqlite.encodeBatch_eq_ok h)
  · intro h
    obtain ⟨w, hw⟩ : ∃ w, max 1 (E.workers groups.length) = w + 1 :=
      ⟨_, (Nat.succ_pred_eq_of_pos (by omega)).symm⟩
    -- Joining shares is mapping over their concatenation.
    have hshare : ∀ (parts : List (List FramePages)) (frames : List EncodedFrame),
        parts.flatten.mapM (encoder.build E size) = .ok frames →
        (do let done ← parts.mapM fun share => share.mapM fun pages => encoder.build E size pages
            return done.flatten : Except StoreError (List EncodedFrame)) = .ok frames := by
      intro parts
      induction parts with
      | nil => exact fun _ h => h
      | cons share parts ih =>
          intro frames h
          rw [List.flatten_cons, List.mapM_append] at h
          obtain ⟨first, hfirst, h⟩ := Except.bind_eq_ok.mp h
          obtain ⟨rest, hrest, h⟩ := Except.bind_eq_ok.mp h
          obtain rfl := Except.pure_eq_ok.mp h
          obtain ⟨done, hdone, hflat⟩ := Except.bind_eq_ok.mp (ih rest hrest)
          obtain rfl := Except.pure_eq_ok.mp hflat
          have hcons : ((share :: parts).mapM fun share => share.mapM fun pages =>
              encoder.build E size pages) = .ok (first :: done) := by
            rw [List.mapM_cons, Except.bind_of_ok hfirst, Except.bind_of_ok hdone]
            rfl
          rw [Except.bind_of_ok hcons]
          rfl
    unfold Zsqlite.encodeBatch
    rw [hw]
    refine hshare _ _ ?_
    rw [flatten_shares]
    exact h

/-- Leaving out the batches: the outcomes of `a` are those of `b` with their accumulators. -/
def Forgets (a : Except StoreError Flow) (b : Except StoreError Spill) : Prop :=
  ∀ s, b = .ok s ↔ ∃ st, a = .ok st ∧ st.spill = s

theorem Forgets.pure (st : Flow) : Forgets (Pure.pure st) (Pure.pure st.spill) := by
  intro s
  constructor
  · intro h
    exact ⟨st, rfl, (Except.pure_eq_ok.mp h).symm⟩
  · rintro ⟨st', h, rfl⟩
    rw [Except.pure_eq_ok.mp h]
    rfl

theorem Forgets.bind {a : Except StoreError Flow} {b : Except StoreError Spill}
    {f : Flow → Except StoreError Flow} {g : Spill → Except StoreError Spill} (h : Forgets a b)
    (hf : ∀ st, Forgets (f st) (g st.spill)) : Forgets (a >>= f) (b >>= g) := by
  intro s
  rw [Except.bind_eq_ok]
  simp only [Except.bind_eq_ok]
  constructor
  · rintro ⟨mid, hmid, hs⟩
    obtain ⟨st, hst, rfl⟩ := (h mid).mp hmid
    obtain ⟨st', hst', rfl⟩ := (hf st s).mp hs
    exact ⟨st', ⟨st, hst, hst'⟩, rfl⟩
  · rintro ⟨st', ⟨st, hst, hst'⟩, rfl⟩
    exact ⟨st.spill, (h _).mpr ⟨st, hst, rfl⟩, (hf st _).mpr ⟨st', hst', rfl⟩⟩

theorem Forgets.ite {p : Prop} [Decidable p] {a a' : Except StoreError Flow}
    {b b' : Except StoreError Spill} (h : Forgets a b) (h' : Forgets a' b') :
    Forgets (if p then a else a') (if p then b else b') := by
  split
  · exact h
  · exact h'

theorem forgets_encode (st : Flow) : Forgets (st.encode (input.plain E)) (input.encode E st.spill) := by
  intro s
  unfold Flow.encode SealInput.encode plain
  simp only [Except.bind_eq_ok, encodeBatch_eq_mapM, Except.pure_eq_ok]
  constructor
  · rintro ⟨encoded, hencoded, rfl⟩
    exact ⟨_, ⟨encoded, hencoded, rfl⟩, rfl⟩
  · rintro ⟨_, ⟨encoded, hencoded, rfl⟩, rfl⟩
    exact ⟨encoded, hencoded, rfl⟩

theorem forgets_spill (st : Flow) :
    Forgets (st.spillGroup (input.plain E) input) (input.spill E st.spill) :=
  ((forgets_encode st).ite (.pure st)).bind fun mid => .pure { mid with spill := _ }

theorem forgets_addPage (st : Flow) (entry : Nat × Nat) :
    Forgets (Flow.addPage E (input.plain E) input st entry) (input.addPage E st.spill entry) := by
  unfold Flow.addPage SealInput.addPage
  cases hread : input.read entry.1 with
  | error e =>
      intro s
      constructor
      · intro h
        cases h
      · rintro ⟨_, h, -⟩
        cases h
  | ok bytes =>
      rw [Except.ok_bind, Except.ok_bind]
      refine Forgets.ite (.pure { st with spill := _ }) ?_
      exact ((forgets_spill st).ite (.pure st)).bind fun mid => .pure { mid with spill := _ }

theorem forgets_loop (entries : List (Nat × Nat)) (st : Flow) :
    Forgets (entries.foldlM (Flow.addPage E (input.plain E) input) st)
      (entries.foldlM (input.addPage E) st.spill) := by
  induction entries generalizing st with
  | nil => exact .pure st
  | cons entry entries ih =>
      rw [List.foldlM_cons, List.foldlM_cons]
      exact (forgets_addPage st entry).bind ih

/-- **`prepare` is the plain loop.** -/
theorem prepare_eq_ok {prepared : PreparedSeal} :
    input.prepare E false = .ok prepared ↔ ∃ job copied trained st,
      input.readRepack E = .ok (job, copied) ∧ job.trainDictionary E = .ok trained ∧
      Flow.grouping E (trained.plain E) trained copied = .ok st ∧
      prepared = trained.prepared st.spill := by
  have hgroup : ∀ (trained : SealInput) (copied : List EncodedFrame),
      Forgets (Flow.grouping E (trained.plain E) trained copied) (do
        let st ← trained.pages.foldlM (trained.addPage E) ⟨[], [], [], 0, copied⟩
        let st ← (if st.group ≠ [] then trained.spill E st else Pure.pure st)
        if st.batch ≠ [] then trained.encode E st else Pure.pure st) := fun trained copied =>
    (forgets_loop trained.pages (Flow.start copied)).bind fun st =>
      ((forgets_spill st).ite (.pure st)).bind fun mid => (forgets_encode mid).ite (.pure mid)
  constructor
  · intro h
    obtain ⟨_, -, h⟩ := Except.bind_eq_ok.mp h
    obtain ⟨⟨job, copied⟩, hrepack, h⟩ := Except.bind_eq_ok.mp h
    obtain ⟨trained, htrain, h⟩ := Except.bind_eq_ok.mp h
    obtain ⟨st₁, hloop, h⟩ := Except.bind_eq_ok.mp h
    obtain ⟨st₂, hlast, h⟩ := Except.bind_eq_ok.mp h
    obtain ⟨st₃, hbatch, h⟩ := Except.bind_eq_ok.mp h
    obtain ⟨st, hst, rfl⟩ := (hgroup trained copied st₃).mp
      (Except.bind_eq_ok.mpr ⟨st₁, hloop, Except.bind_eq_ok.mpr ⟨st₂, hlast, hbatch⟩⟩)
    exact ⟨job, copied, trained, st, hrepack, htrain, hst, Except.pure_eq_ok.mp h⟩
  · rintro ⟨job, copied, trained, st, hrepack, htrain, hst, rfl⟩
    have hrun := (hgroup trained copied st.spill).mpr ⟨st, hst, rfl⟩
    obtain ⟨st₁, hloop, hrun⟩ := Except.bind_eq_ok.mp hrun
    obtain ⟨st₂, hlast, hbatch⟩ := Except.bind_eq_ok.mp hrun
    unfold prepare
    rw [Except.bind_of_ok (Except.ensure_of (by simp) _), Except.bind_of_ok hrepack]
    dsimp only
    rw [Except.bind_of_ok htrain, Except.bind_of_ok hloop, Except.bind_of_ok hlast,
      Except.bind_of_ok hbatch]
    rfl

theorem prepareRounds_eq_ok {rounds : Nat → Round} {pausedFirst pausedTrained : Bool}
    {result : PreparedSeal × List (List FramePages)} :
    input.prepareRounds E rounds pausedFirst pausedTrained = .ok result ↔
      input.checkPaused pausedFirst = .ok () ∧ ∃ job copied trained st,
      input.readRepack E = .ok (job, copied) ∧ job.trainDictionary E = .ok trained ∧
      trained.checkPaused pausedTrained = .ok () ∧
      Flow.grouping E (fun i => trained.encodeRound E (rounds i)) trained copied = .ok st ∧
      result = (trained.prepared st.spill, st.handed) := by
  constructor
  · intro h
    obtain ⟨_, hfirst, h⟩ := Except.bind_eq_ok.mp h
    obtain ⟨⟨job, copied⟩, hrepack, h⟩ := Except.bind_eq_ok.mp h
    obtain ⟨trained, htrain, h⟩ := Except.bind_eq_ok.mp h
    obtain ⟨_, hpaused, h⟩ := Except.bind_eq_ok.mp h
    obtain ⟨st, hst, h⟩ := Except.bind_eq_ok.mp h
    exact ⟨hfirst, job, copied, trained, st, hrepack, htrain, hpaused, hst, Except.pure_eq_ok.mp h⟩
  · rintro ⟨hfirst, job, copied, trained, st, hrepack, htrain, hpaused, hst, rfl⟩
    unfold prepareRounds
    rw [Except.bind_of_ok hfirst, Except.bind_of_ok hrepack]
    dsimp only
    rw [Except.bind_of_ok htrain, Except.bind_of_ok hpaused, Except.bind_of_ok hst]
    rfl

theorem checkPaused_false : input.checkPaused false = .ok () := Except.ensure_of (by simp) _

/-- Built frames have the versions of their groups, in order. -/
theorem flatMap_pages {groups : List FramePages} {frames : List EncodedFrame}
    (h : List.Forall₂ (fun pages f => input.encoder.build E input.pageSize pages = .ok f)
      groups frames) :
    frames.flatMap (fun f => f.metadata.pages) = groups.flatten.map Prod.fst := by
  induction h with
  | nil => rfl
  | cons hb _ ih =>
      obtain ⟨-, -, -, -, -, -, hp⟩ := FrameEncoder.build_eq_ok hb
      rw [List.flatMap_cons, hp, ih, List.flatten_cons, List.map_append]

/-- The pages that are not zero are input pages, in their order. -/
theorem sublist_nonzero (entries : List (Nat × Nat)) :
    ((Flow.nonzero E input entries).map fun page => page.1.page).Sublist (entries.map Prod.fst) := by
  induction entries with
  | nil => exact .slnil
  | cons entry entries ih =>
      have hsplit : Flow.nonzero E input (entry :: entries) =
          Flow.nonzero E input [entry] ++ Flow.nonzero E input entries :=
        Flow.nonzero_append [entry] entries
      rw [hsplit, List.map_append, List.map_cons]
      have hhead : ((Flow.nonzero E input [entry]).map fun page => page.1.page).Sublist
          [entry.1] := by
        unfold Flow.nonzero
        rw [List.filterMap_cons]
        split
        · exact List.nil_sublist _
        · rename_i page hpage
          split at hpage
          · split at hpage
            · cases hpage
            · cases hpage
              exact List.Sublist.refl _
          · cases hpage
      exact hhead.append ih

/-- **Grouping does not depend on the schedule.** Whatever the pages, the frame capacity, the worker
counts and what else can fail, a preparation that returns is one of `prepare`. Its frames are those
a repack copied and new ones, whose pages in order are the pages that are not zero, each once; new
frames are within the capacity, batches within the larger of 8 MiB and a frame. No worker of any
batch failed, and every other schedule that returns gives the same, as do all in which no worker
fails. With readable pages and a frame capacity that a policy can have, those return. -/
theorem seal_grouping (input : SealInput) :
    (∀ rounds pausedFirst pausedTrained prepared handed,
      input.prepareRounds E rounds pausedFirst pausedTrained = .ok (prepared, handed) →
      input.prepare E false = .ok prepared ∧
      (∃ job copied new, input.readRepack E = .ok (job, copied) ∧
        (input.repack = none → job = input ∧ copied = []) ∧
        prepared.frames = copied ++ new ∧
        (∀ entry ∈ job.pages, ∃ bytes, job.read entry.1 = .ok bytes) ∧
        new.flatMap (fun f => f.metadata.pages) = (Flow.nonzero E job job.pages).map Prod.fst ∧
        ((job.pages.map Prod.fst).Pairwise (· < ·) →
          ((new.flatMap fun f => f.metadata.pages).map PageVersion.page).Pairwise (· < ·)) ∧
        (∀ f ∈ new, input.pageSize.get * f.metadata.pages.length ≤
          input.layout.frameBytes input.pageSize) ∧
        (∀ groups ∈ handed, Flow.decodedBytes input groups ≤
          max batchBytes (input.layout.frameBytes input.pageSize)) ∧
        ∀ (i : Nat) groups, handed[i]? = some groups → (rounds i).Starts groups) ∧
      (∀ rounds' pausedFirst' pausedTrained' result,
        input.prepareRounds E rounds' pausedFirst' pausedTrained' = .ok result →
        result = (prepared, handed)) ∧
      ∀ rounds' : Nat → Round, (∀ i, (rounds' i).Clean) →
        input.prepareRounds E rounds' false false = .ok (prepared, handed)) ∧
    ∀ job copied trained, input.readRepack E = .ok (job, copied) →
      job.trainDictionary E = .ok trained →
      (∀ entry ∈ job.pages, ∃ bytes, job.read entry.1 = .ok bytes) →
      input.layout.frameBytes input.pageSize ≤ 8 * 1024 * 1024 →
      ∀ rounds : Nat → Round, (∀ i, (rounds i).Clean) →
        ∃ result, input.prepareRounds E rounds false false = .ok result := by
  have hsound : ∀ (trained : SealInput) (rounds : Nat → Round) i groups frames,
      trained.encodeRound E (rounds i) groups = .ok frames →
      groups.mapM (trained.encoder.build E trained.pageSize) = .ok frames :=
    fun trained rounds i groups frames h => (encodeRound_eq_ok.mp h).2
  have hplain : ∀ {trained : SealInput} {rounds : Nat → Round} {copied : List EncodedFrame}
      {st : Flow}, Flow.grouping E (fun i => trained.encodeRound E (rounds i)) trained copied =
        .ok st → Flow.grouping E (trained.plain E) trained copied = .ok st :=
    fun h => Flow.grouping_mono (hsound _ _) h
  have hclean : ∀ {trained : SealInput} {rounds : Nat → Round} {copied : List EncodedFrame}
      {st : Flow}, (∀ i, (rounds i).Clean) →
      Flow.grouping E (trained.plain E) trained copied = .ok st →
      Flow.grouping E (fun i => trained.encodeRound E (rounds i)) trained copied = .ok st :=
    fun hrounds h => Flow.grouping_mono
      (fun i groups frames hf => encodeRound_of_clean (hrounds i) hf) h
  constructor
  · intro rounds pausedFirst pausedTrained prepared handed h
    obtain ⟨-, job, copied, trained, st, hrepack, htrain, -, hst, heq⟩ := prepareRounds_eq_ok.mp h
    obtain ⟨rfl, rfl⟩ := Prod.mk.inj heq
    obtain ⟨hg, hbatch, hgroup⟩ := Flow.grouped_grouping (hsound trained rounds) hst
    obtain ⟨hendpoint, hlayout, hnone⟩ := readRepack_layout hrepack
    have hsame := trainDictionary_same htrain
    -- Neither repacking nor training changes what the loop reads of the input.
    have hsize : trained.pageSize = input.pageSize := by
      rw [hsame]
      exact congrArg (fun e : SealEndpoint => e.size.pageSize) hendpoint
    have hcap : trained.layout = input.layout := by
      rw [hsame]
      exact hlayout
    have hpages : trained.pages = job.pages := by rw [hsame]
    have hread : ∀ p, trained.read p = job.read p := fun p => by rw [hsame]; rfl
    have hnonzero : Flow.nonzero E trained trained.pages = Flow.nonzero E job job.pages := by
      rw [hsame]
      rfl
    obtain ⟨new, hnew, hbuilt⟩ := hg.frames
    have hversions := flatMap_pages hbuilt
    have horder := hg.order
    rw [hbatch, hgroup, List.flatten_nil, List.append_nil, List.append_nil, hnonzero] at horder
    refine ⟨prepare_eq_ok.mpr ⟨job, copied, trained, st, hrepack, htrain, hplain hst, rfl⟩,
      ⟨job, copied, new, hrepack, hnone, hnew, fun entry he => ?_, ?_, fun hsorted => ?_,
        fun f hf => ?_, fun groups hgroups => ?_, fun i groups hi => ?_⟩, ?_, ?_⟩
    · obtain ⟨bytes, hbytes⟩ := hg.readable entry (hpages ▸ he)
      exact ⟨bytes, (hread _).symm.trans hbytes⟩
    · rw [hversions, horder]
    · rw [hversions, horder, List.map_map]
      exact hsorted.sublist (sublist_nonzero job.pages)
    · obtain ⟨i, hi⟩ := List.mem_iff_getElem?.mp hf
      obtain ⟨pages, hpages', hb⟩ := hbuilt.exists_left hi
      obtain ⟨-, -, -, -, -, -, hp⟩ := FrameEncoder.build_eq_ok hb
      have := (hg.capacity pages (List.mem_append_left _ (List.mem_of_getElem? hpages'))).2
      rw [hsize, hcap] at this
      rw [hp, List.length_map]
      exact this
    · have := hg.handed groups hgroups
      unfold Flow.decodedBytes Flow.batchBound at this
      rw [hsize, hcap] at this
      exact this
    · obtain ⟨frames, hframes⟩ := hg.ran i groups hi
      exact (encodeRound_eq_ok.mp hframes).1.2.2
    · intro rounds' pausedFirst' pausedTrained' result h'
      obtain ⟨-, job', copied', trained', st', hrepack', htrain', -, hst', rfl⟩ :=
        prepareRounds_eq_ok.mp h'
      obtain ⟨rfl, rfl⟩ := Prod.mk.inj (Except.ok.inj (hrepack.symm.trans hrepack'))
      obtain rfl := Except.ok.inj (htrain.symm.trans htrain')
      obtain rfl := Except.ok.inj ((hplain hst).symm.trans (hplain hst'))
      rfl
    · intro rounds' hrounds
      exact prepareRounds_eq_ok.mpr ⟨checkPaused_false, job, copied, trained, st, hrepack, htrain,
        checkPaused_false, hclean hrounds (hplain hst), rfl⟩
  · intro job copied trained hrepack htrain hreadable hcap rounds hrounds
    obtain ⟨hendpoint, hlayout, -⟩ := readRepack_layout hrepack
    have hsame := trainDictionary_same htrain
    have hcap' : trained.layout.frameBytes trained.pageSize ≤ 8 * 1024 * 1024 := by
      rw [hsame]
      unfold pageSize at hcap ⊢
      rw [hlayout, hendpoint]
      exact hcap
    have hreadable' : ∀ entry ∈ trained.pages, ∃ bytes, trained.read entry.1 = .ok bytes := by
      rw [hsame]
      exact hreadable
    have hreturns : ∀ (i : Nat) (groups : List FramePages),
        (∀ pages ∈ groups, FrameEncoder.Buildable E trained.pageSize pages) →
        ∃ frames, trained.plain E i groups = .ok frames := by
      intro i groups
      unfold plain
      induction groups with
      | nil => exact fun _ => ⟨[], rfl⟩
      | cons pages groups ih =>
          intro hb
          obtain ⟨f, hf⟩ := FrameEncoder.build_total (hb pages List.mem_cons_self)
          obtain ⟨frames, hframes⟩ := ih fun p hp => hb p (List.mem_cons_of_mem _ hp)
          exact ⟨f :: frames, Except.mapM_eq_ok.mpr (.cons hf (Except.mapM_eq_ok.mp hframes))⟩
    obtain ⟨st, hst⟩ := Flow.grouping_total (fun _ _ _ h => h) hreturns hcap' copied hreadable'
    exact ⟨_, prepareRounds_eq_ok.mpr ⟨checkPaused_false, job, copied, trained, st, hrepack, htrain,
      checkPaused_false, hclean hrounds hst, rfl⟩⟩

/-- One page in two workers: its version is in a frame. -/
theorem seal_grouping_onePage : ∃ (input : SealInput) (prepared : PreparedSeal) (v : PageVersion),
    input.prepare Env.any false = .ok prepared ∧
    prepared.frames.flatMap (fun f => f.metadata.pages) = [v] ∧ v.page = 1 := by
  let size : PageSize := .smallest
  let input : SealInput := {
    endpoint := ⟨0, 0, 0, ⟨512, size, by decide, by decide⟩, 1, 0, none⟩
    source := none
    pages := [(1, 1)]
    file := List.replicate 512 1
    layout := LayoutPolicy.default
    dictionaries := ∅
    preferred := []
    dictionaryTraining := false
    dictionaryUpdate := false
    sourcePrefix := false
    repack := none }
  let round : Round := ⟨some 2, fun n hn => by cases hn; decide, 4, by decide, true, false, false,
    fun _ => .ok (), fun _ => .ok ()⟩
  have hclean : ∀ i : Nat, ((fun _ => round) i).Clean := fun _ => ⟨rfl, rfl, fun _ => rfl, fun _ => rfl⟩
  have hread : input.read 1 = .ok (List.replicate 512 1) := by
    have hwhole : ∀ file : Bytes, readExactAt file 0 file.length = .ok file := by
      intro file
      unfold readExactAt
      rw [if_pos (by omega), List.drop_zero, List.take_length]
    have h := hwhole (List.replicate 512 1)
    rw [List.length_replicate] at h
    exact h
  obtain ⟨trained, htrain⟩ : ∃ trained, input.trainDictionary Env.any = .ok trained := ⟨_, rfl⟩
  obtain ⟨⟨prepared, handed⟩, hresult⟩ := (seal_grouping input).2 input [] trained rfl
    htrain (fun entry he => by
      rw [List.mem_singleton.mp he]
      exact ⟨_, hread⟩) (by decide) (fun _ => round) hclean
  obtain ⟨hprepare, ⟨job, copied, new, -, hsame, hframes, -, hpages, -⟩, -⟩ :=
    (seal_grouping input).1 _ _ _ _ _ hresult
  obtain ⟨rfl, rfl⟩ := hsame rfl
  have hnonzero : Flow.nonzero Env.any input input.pages =
      [(PageVersion.verified Env.any 1 1 (List.replicate 512 1), List.replicate 512 1)] := by
    have hone : ((List.replicate 512 1 : Bytes).all (· == 0)) = false := by decide
    show [(1, 1)].filterMap _ = _
    simp only [List.filterMap_cons, List.filterMap_nil, hread, hone]
    rfl
  refine ⟨input, prepared, PageVersion.verified Env.any 1 1 (List.replicate 512 1), hprepare, ?_,
    rfl⟩
  rw [hframes, List.nil_append, hpages, hnonzero]
  rfl

end SealInput

end Zsqlite
