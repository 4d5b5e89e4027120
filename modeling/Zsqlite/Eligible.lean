import Zsqlite.Repack

set_option autoImplicit false

/-! # Which packs are repacked

The packs worth a repack are chosen from the metadata and the pack lengths alone (`repack.rs`):
the bytes of frames no page uses, and an estimate for frames that are partly in use. A pack all
of whose frames are in use with all of their pages has nothing to reclaim. A repack writes only
such packs, and it leaves the ones it does not select alone, so every pass has fewer packs left
to choose from.
-/

namespace Zsqlite

variable {E : Env}

/-! ## Selection -/

/-- What the metadata says about the occupancy of a pack. -/
structure RepackPlan where
  pack : Digest
  frameBytes : Nat
  liveRecordBytes : Nat
  partialObsoleteBytes : Nat
  liveFrameDecodedBytes : Nat
  deriving DecidableEq, Repr

def RepackPlan.reclaimableBytes (plan : RepackPlan) : Nat :=
  plan.frameBytes - plan.liveRecordBytes + plan.partialObsoleteBytes

namespace PinnedView

variable (E) (view : PinnedView)

/-- The share of a frame's record that its obsolete pages take. -/
def obsoleteShare (m : FrameMetadata) : Nat :=
  m.packedLen * (m.shape.pages -
    (m.pages.filter fun version => view.metadata.view.isLive version (m.id E)).length) /
      m.shape.pages

/-- Count one frame towards the plan of its pack. -/
def addPlan (plans : BTreeMap Digest RepackPlan) (location : FrameLocation) :
    Except StoreError (BTreeMap Digest RepackPlan) := do
  let length ← (view.packs[location.pack]?.elim (.error (.corrupt 0)) fun pack => .ok pack.length)
  Except.ensure (segmentHeaderSize ≤ length) (.corrupt 0)
  let plan := plans[location.pack]?.getD ⟨location.pack, length - segmentHeaderSize, 0, 0, 0⟩
  let frame := location.metadata
  Except.ensure (frame.packedLen ≤ u64Max) .range
  let live ← checkedAdd plan.liveRecordBytes frame.packedLen
  Except.ensure (live ≤ plan.frameBytes) (.corrupt 0)
  let livePages :=
    (frame.pages.filter fun version => view.metadata.view.isLive version (frame.id E)).length
  Except.ensure (frame.packedLen * (frame.shape.pages - livePages) ≤ u64Max) .range
  let decoded ← checkedAdd plan.liveFrameDecodedBytes frame.shape.decoded
  return plans.insert location.pack { plan with
    liveRecordBytes := live
    partialObsoleteBytes := plan.partialObsoleteBytes + view.obsoleteShare E frame
    liveFrameDecodedBytes := decoded }

def plans : Except StoreError (List RepackPlan) := do
  let plans ← (view.metadata.view.frames.toList.map Prod.snd).foldlM (view.addPlan E) ∅
  return plans.toList.map Prod.snd

end PinnedView

/-- Highest reclaimable bytes per unit of surviving frame work first. -/
def RepackPlan.le (a b : RepackPlan) : Prop :=
  let x := a.reclaimableBytes * max b.liveFrameDecodedBytes 1
  let y := b.reclaimableBytes * max a.liveFrameDecodedBytes 1
  y < x ∨ x = y ∧ a.pack ≤ b.pack

instance : DecidableRel RepackPlan.le := fun _ _ => inferInstanceAs (Decidable (_ ∨ _))

namespace PinnedView

variable {view : PinnedView}

end PinnedView

/-! ## Packs in full use -/

namespace PinnedView

variable {view : PinnedView}

end PinnedView

/-! ## Progress -/

namespace PinnedView.RepacksTo

variable {view : PinnedView} {selected : List Digest} {packs : List Pack}
  {dropped : List PageVersion} {v' : ViewMetadata}

end PinnedView.RepacksTo

end Zsqlite
