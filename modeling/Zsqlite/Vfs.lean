import Zsqlite.Lib.Machine
import Mathlib.Logic.Function.Basic

set_option autoImplicit false

/-! # SQLite's callbacks and the publication lock

`FileState` of `vfs/runtime.rs`: what a handle remembers of its transaction and of a WAL
checkpoint, and what each callback does to the store that all handles share. Of the store this
module keeps the lock and whether something is pending, with every point at which one of its calls
can fail (`Outcome`). Between callbacks the lock is held for a reason (`lock_has_reason`), except
after an xSync that takes it with nothing to publish and then fails to sync (`sync_leaks`).
-/

namespace Zsqlite

namespace Vfs

/-! ## The store -/

/-- The phases of the lock. Maintenance takes and gives up the lock within one call. -/
inductive Phase where
  | unlocked
  | transaction
  | checkpoint
  deriving DecidableEq

structure Lease where
  owner : Phase
  pending : Bool

/-- How the calls of one callback end. -/
structure Outcome where
  /-- The lock was free and the reload under it worked. -/
  acquires : Bool
  /-- The reload failed, and had dropped what was pending. -/
  drops : Bool
  /-- Something was staged, also by a call that fails. -/
  stages : Bool
  finishes : Bool
  /-- The database has no page size and is to stay empty. -/
  empty : Bool
  /-- The new state sector is written. -/
  publishes : Bool
  syncs : Bool

namespace Lease

variable (x : Outcome) (s : Lease)

def beginWrite : Bool × Lease :=
  if s.owner ≠ .unlocked then (true, s)
  else if x.acquires then (true, ⟨.transaction, false⟩)
  else (false, { s with pending := s.pending && !x.drops })

/-- `write_at` or `truncate`. -/
def stage : Bool × Lease :=
  match s.beginWrite x with
  | (false, s) => (false, s)
  | (true, s) => (x.finishes, { s with pending := s.pending || x.stages })

def releasePublication : Lease := if s.owner = .transaction then { s with owner := .unlocked } else s

def transition (phase : Phase) : Lease :=
  if s.owner = .unlocked then s else { s with owner := phase }

def finishCheckpoint : Lease :=
  (if s.owner = .checkpoint then s.transition .transaction else s).releasePublication

def discard : Lease := { s.finishCheckpoint with pending := false }

def endPublication (retain : Bool) : Lease := if retain then s else s.releasePublication

def publishInner (durable retain : Bool) : Bool × Lease :=
  if s.pending = false then
    match if durable then s.beginWrite x else (true, s) with
    | (false, s) => (false, s)
    | (true, s) => if durable && !x.syncs then (false, s) else (true, s.endPublication retain)
  else if x.empty then (true, { s with pending := false }.endPublication retain)
  else if !x.publishes then (false, s)
  else
    (x.syncs || !durable,
      { if retain then s.transition .checkpoint else s.releasePublication with pending := false })

def beginCheckpoint : Bool × Lease :=
  if s.owner = .checkpoint then (true, s)
  else if s.owner ≠ .unlocked ∨ s.pending then (false, s)
  else
    match s.beginWrite x with
    | (false, s) => (false, s)
    | (true, s) => (true, s.transition .checkpoint)

end Lease

/-! ## Handles -/

inductive CheckpointState where
  | idle
  | shmWriting
  | shmFinishing
  | fallbackWriting
  | fallbackFinishing
  deriving DecidableEq

namespace CheckpointState

def isWriting (c : CheckpointState) : Bool := c = shmWriting ∨ c = fallbackWriting

def usesShm (c : CheckpointState) : Bool := c = shmWriting ∨ c = shmFinishing

def holdsPublication (c : CheckpointState) : Bool := c.usesShm ∨ c = fallbackWriting

end CheckpointState

/-- `FileState` of a managed file. `PendingState` is the pair of `owned` and `needsSync`;
`mainSynced` is a main-file sync of any strength. -/
structure FileState where
  readOnly : Bool
  owned : Bool
  needsSync : Bool
  mainSynced : Bool
  checkpoint : CheckpointState

inductive Callback where
  | write
  | truncate
  /-- xSync, with the answer of the parent file. -/
  | sync (parent : Bool)
  | unlock (belowReserved : Bool)
  | ckptStart
  | fcntlSync
  | ckptDone
  | commitPhaseTwo
  /-- The exclusive checkpoint lock of the WAL, granted by the parent file. -/
  | shmLock
  | shmUnlock
  /-- xRead, xFileSize, xLock and other file controls. -/
  | other

namespace FileState

variable (h : FileState) (s : Lease) (x : Outcome)

/-- `CKPT_DONE` without shared memory is forgotten at the next callback. -/
def leaveFallback : FileState :=
  if h.checkpoint = .fallbackFinishing then { h with checkpoint := .idle } else h

def beginWrite : FileState := { h with owned := true, mainSynced := false }

def reset : FileState := { h with owned := false, needsSync := false, mainSynced := false }

def discardOwned : FileState × Lease :=
  if h.owned then ({ h with owned := false, needsSync := false }, s.discard) else (h, s)

/-- Publish, and go on as `next` if that returns. -/
def publish (durable retain : Bool) (next : FileState) : Bool × FileState × Lease :=
  match s.publishInner x durable retain with
  | (false, s) => (false, h, s)
  | (true, s) => (true, next, s)

/-- After a write or truncation: publish it if it belongs to a checkpoint, roll back if it fails. -/
def settle (needsSync checkpoint retain : Bool) : Bool × Lease → FileState × Lease
  | (false, s) => h.discardOwned s
  | (true, s) =>
      if checkpoint then
        match h.publish s x false retain { h with owned := false, needsSync := h.needsSync || needsSync } with
        | (false, h, s) => h.discardOwned s
        | (true, h, s) => (h, s)
      else (h, s)

def run : Callback → FileState × Lease
  | .write =>
      if h.readOnly then (h, s)
      else
        let h := h.leaveFallback.beginWrite
        h.settle x false h.checkpoint.isWriting true (s.stage x)
  | .truncate =>
      if h.readOnly then (h, s)
      else
        let retain := h.checkpoint.usesShm
        let fallback := decide (h.checkpoint = .fallbackFinishing)
        let r := h.beginWrite.settle x true (retain || fallback) retain (s.stage x)
        (r.1.leaveFallback, r.2)
  | .sync parent =>
      let synced := { h with mainSynced := h.mainSynced || parent }
      if h.owned || h.needsSync then
        (h.publish s x true h.checkpoint.usesShm { synced with owned := false, needsSync := false }).2
      else (synced, s)
  | .unlock belowReserved =>
      if belowReserved then
        let r := h.leaveFallback.discardOwned s
        (r.1.reset, r.2)
      else (h.leaveFallback, s)
  | .ckptStart =>
      let h := h.leaveFallback
      if h.checkpoint = .idle then ({ h with checkpoint := .fallbackWriting }, (s.beginCheckpoint x).2)
      else (h, s)
  | .fcntlSync =>
      let h := { h.leaveFallback with needsSync := true }
      if h.owned then (h.publish s x false false { h with owned := false }).2 else (h, s)
  | .ckptDone =>
      let r := h.discardOwned s
      if h.checkpoint = .fallbackWriting then
        ({ r.1 with checkpoint := .fallbackFinishing }, r.2.finishCheckpoint)
      else if h.checkpoint = .shmWriting then ({ r.1 with checkpoint := .shmFinishing }, r.2)
      else r
  | .commitPhaseTwo =>
      let h := h.leaveFallback
      if h.owned then (h.publish s x h.mainSynced false h.reset).2 else (h.reset, s)
  | .shmLock =>
      match s.beginCheckpoint x with
      | (false, s) => (h, s)
      | (true, s) => ({ h with checkpoint := .shmWriting }, s)
  | .shmUnlock =>
      if h.checkpoint.usesShm then
        let r := { h with checkpoint := .idle }.discardOwned s
        (r.1.reset, r.2.finishCheckpoint)
      else (h, s)
  | .other => (h.leaveFallback, s)

def close : Lease :=
  let r := h.discardOwned s
  if h.checkpoint.holdsPublication then r.2.finishCheckpoint else r.2

end FileState

/-! ## What justifies the lock -/

/-- The lock is free, or the handle has a reason for it. -/
def FileState.Reason (h : FileState) : Phase → Prop
  | .unlocked => True
  | .transaction => h.owned = true ∨ h.checkpoint.holdsPublication = true
  | .checkpoint => h.checkpoint.holdsPublication = true

variable {others : Phase → Prop} {h h' : FileState} {s s' : Lease} {x : Outcome}

/-- The handle or another one has a reason. -/
def Justified (others : Phase → Prop) (h : FileState) (s : Lease) : Prop :=
  h.Reason s.owner ∨ others s.owner

theorem Justified.of_unlocked (hs : s.owner = .unlocked) : Justified others h s :=
  .inl (hs ▸ trivial)

theorem Justified.of_holds (hh : h.checkpoint.holdsPublication = true) : Justified others h s := by
  left
  cases s.owner with
  | unlocked => trivial
  | transaction => exact .inr hh
  | checkpoint => exact hh

/-- The lock stays, and so do the reasons of the handle. -/
theorem Justified.mono (hj : Justified others h s) (howned : h.owned = true → h'.owned = true)
    (hh : h.checkpoint.holdsPublication = true → h'.checkpoint.holdsPublication = true)
    (hs : s'.owner = s.owner) : Justified others h' s' := by
  unfold Justified at hj ⊢
  rw [hs]
  refine hj.imp_left ?_
  cases s.owner with
  | unlocked => exact id
  | transaction => exact Or.imp howned hh
  | checkpoint => exact hh

theorem owner_finishCheckpoint (s : Lease) : s.finishCheckpoint.owner = .unlocked := by
  rcases s with ⟨_ | _ | _, pending⟩ <;> rfl

/-- A rollback gives up the lock with the pending writes. -/
theorem Justified.discardOwned (hj : Justified others h s) (hc : h'.checkpoint = h.checkpoint) :
    Justified others h' (h.discardOwned s).2 := by
  unfold FileState.discardOwned
  split
  · exact .of_unlocked (owner_finishCheckpoint s)
  · rename_i howned
    exact hj.mono (fun ho => absurd ho howned) (hc ▸ id) rfl

theorem checkpoint_discardOwned : (h.discardOwned s).1.checkpoint = h.checkpoint := by
  unfold FileState.discardOwned
  split <;> rfl

theorem Justified.leaveFallback (hj : Justified others h s) : Justified others h.leaveFallback s := by
  unfold FileState.leaveFallback
  split
  · rename_i hc
    exact hj.mono id (by simp [hc, CheckpointState.holdsPublication, CheckpointState.usesShm]) rfl
  · exact hj

theorem owner_stage : (s.stage x).2.owner = s.owner ∨ (s.stage x).2.owner = .transaction := by
  rcases s with ⟨_ | _ | _, pending⟩ <;> cases hx : x.acquires <;>
    simp [Lease.stage, Lease.beginWrite, hx]

/-- A publication that returns keeps no transaction lock; one that fails takes the lock only to sync. -/
theorem owner_publish (s : Lease) (x : Outcome) (durable : Bool) :
    let r := s.publishInner x durable false
    r.2.owner = .unlocked ∨ r.2.owner = s.owner ∧ (r.1 = true → s.owner = .checkpoint) ∨
      r.1 = false ∧ r.2.owner = .transaction ∧ durable = true ∧ s = ⟨.unlocked, false⟩ ∧ x.syncs = false := by
  rcases s with ⟨_ | _ | _, _ | _⟩ <;> cases durable <;>
    grind [Lease.publishInner, Lease.beginWrite, Lease.endPublication, Lease.releasePublication]

/-- A publication may be followed by giving up the pending writes. -/
theorem Justified.publish (hj : Justified others h s) (durable retain : Bool) (next : FileState)
    (hretain : retain = true → h.checkpoint.holdsPublication = true)
    (hleak : durable = true → s = ⟨.unlocked, false⟩ → x.syncs = true ∨ h.owned = true)
    (hnext : next.checkpoint = h.checkpoint) :
    let r := h.publish s x durable retain next
    Justified others r.2.1 r.2.2 := by
  have hp := owner_publish s x durable
  unfold FileState.publish
  cases retain with
  | true =>
      split
      · exact .of_holds (hretain rfl)
      · exact .of_holds (hnext ▸ hretain rfl)
  | false =>
      split <;> rename_i heq <;> rw [heq] at hp
      · rcases hp with hp | ⟨hp, -⟩ | ⟨-, hp, hd, hs, hsync⟩
        · exact .of_unlocked hp
        · exact hj.mono id id hp
        · have howned := (hleak hd hs).resolve_left (by simp [hsync])
          exact .inl (hp ▸ .inl howned)
      · rcases hp with hp | ⟨hp, hc⟩ | ⟨hno, -⟩
        · exact .of_unlocked hp
        · have hs := hp.trans (hc rfl)
          rw [Justified, hc rfl] at hj
          refine hj.imp (fun hh => hs ▸ ?_) fun ho => hs ▸ ho
          show next.checkpoint.holdsPublication = true
          rw [hnext]
          exact hh
        · cases hno

theorem Justified.settle (hj : Justified others h s) {needsSync checkpoint retain : Bool}
    (hretain : checkpoint = true → retain = true → h.checkpoint.holdsPublication = true) :
    let r := h.beginWrite.settle x needsSync checkpoint retain (s.stage x)
    Justified others r.1 r.2 := by
  have hj' : Justified others h.beginWrite (s.stage x).2 := by
    rcases @owner_stage s x with hs | hs
    · exact hj.mono (fun _ => rfl) id hs
    · exact .inl (hs ▸ .inl rfl)
  unfold FileState.settle
  split
  · rename_i heq
    exact (heq ▸ hj').discardOwned checkpoint_discardOwned
  · rename_i t heq
    rw [heq] at hj'
    split
    · rename_i hc
      have hp := hj'.publish (x := x) false retain { h.beginWrite with
        owned := false, needsSync := h.beginWrite.needsSync || needsSync } (hretain hc) (by simp) rfl
      split <;> rename_i heq <;> rw [heq] at hp
      · exact hp.discardOwned checkpoint_discardOwned
      · exact hp
    · exact hj'

theorem CheckpointState.holds_of_writing {c : CheckpointState} (h : c.isWriting = true) :
    c.holdsPublication = true := by
  cases c <;> first | rfl | cases h

theorem CheckpointState.holds_of_shm {c : CheckpointState} (h : c.usesShm = true) :
    c.holdsPublication = true := by
  simp [holdsPublication, h]

/-- **One callback** keeps the lock justified. -/
theorem Justified.run (hj : Justified others h s) (cb : Callback)
    (hleak : ∀ parent, cb = .sync parent → s = ⟨.unlocked, false⟩ → x.syncs = true ∨ h.owned = true) :
    Justified others (h.run s x cb).1 (h.run s x cb).2 := by
  have hj' := hj.leaveFallback
  cases cb <;> simp only [FileState.run]
  case write =>
      split
      · exact hj
      · exact hj'.settle fun hc _ => CheckpointState.holds_of_writing hc
  case truncate =>
      split
      · exact hj
      · exact (hj.settle fun _ hr => CheckpointState.holds_of_shm hr).leaveFallback
  case sync parent =>
      split
      · exact hj.publish _ _ _ CheckpointState.holds_of_shm (fun _ => hleak parent rfl) rfl
      · exact hj.mono id id rfl
  case unlock belowReserved =>
      split
      · exact hj'.discardOwned checkpoint_discardOwned
      · exact hj'
  case ckptStart =>
      split
      · exact .of_holds rfl
      · exact hj'
  case fcntlSync =>
      have hsync : Justified others { h.leaveFallback with needsSync := true } s := hj'.mono id id rfl
      split
      · exact hsync.publish _ _ _ (by simp) (by simp) rfl
      · exact hsync
  case ckptDone =>
      split
      · exact .of_unlocked (owner_finishCheckpoint _)
      · split
        · exact .of_holds rfl
        · exact hj.discardOwned checkpoint_discardOwned
  case commitPhaseTwo =>
      split
      · rename_i howned
        exact hj'.publish _ _ _ (by simp) (fun _ _ => .inr howned) rfl
      · rename_i howned
        exact hj'.mono (fun ho => absurd ho howned) id rfl
  case shmLock =>
      have hfail : (s.beginCheckpoint x).1 = false → (s.beginCheckpoint x).2.owner = s.owner := by
        rcases s with ⟨_ | _ | _, _ | _⟩ <;>
          grind [Lease.beginCheckpoint, Lease.beginWrite]
      split <;> rename_i heq
      · exact hj.mono id id (by simpa [heq] using hfail)
      · exact .of_holds rfl
  case shmUnlock =>
      split
      · exact .of_unlocked (owner_finishCheckpoint _)
      · exact hj
  case other => exact hj'

/-- A closed handle leaves no lock of its own. -/
theorem owner_close (hj : Justified others h s) :
    (h.close s).owner = .unlocked ∨ others (h.close s).owner := by
  unfold FileState.close
  split
  · exact .inl (owner_finishCheckpoint _)
  · rename_i hc
    have hj' : Justified others { h with owned := false } (h.discardOwned s).2 := hj.discardOwned rfl
    refine hj'.imp_left ?_
    cases (h.discardOwned s).2.owner <;> simp [FileState.Reason, hc]

/-! ## Runs -/

/-- The handles that share a store. -/
structure Shared (ι : Type) where
  handle : ι → Option FileState
  lease : Lease

inductive Event (ι : Type) where
  | call (i : ι) (cb : Callback) (x : Outcome)
  | close (i : ι)

variable {ι : Type} [DecidableEq ι] {w : Shared ι} {i : ι}

/-- A handle that is opened later is one that has not been called yet. -/
def system (ι : Type) [DecidableEq ι] : Machine.System (Shared ι) (Event ι) where
  init w := w.lease = ⟨.unlocked, false⟩ ∧
    ∀ i, ∃ readOnly, w.handle i = some ⟨readOnly, false, false, false, .idle⟩
  step w a w' :=
    match a with
    | .call i cb x => ∃ h, w.handle i = some h ∧
        w' = ⟨Function.update w.handle i (some (h.run w.lease x cb).1), (h.run w.lease x cb).2⟩
    | .close i => ∃ h, w.handle i = some h ∧
        w' = ⟨Function.update w.handle i none, h.close w.lease⟩

/-- An xSync by a handle without pending writes that finds the lock free does not fail to sync. -/
def Syncs (w : Shared ι) : Event ι → Prop
  | .call i (.sync _) x => w.lease = ⟨.unlocked, false⟩ →
      x.syncs = true ∨ ∀ h, w.handle i = some h → h.owned = true
  | _ => True

def Held (w : Shared ι) : Prop :=
  w.lease.owner = .unlocked ∨ ∃ i h, w.handle i = some h ∧ h.Reason w.lease.owner

/-- Handles other than `i` that have a reason. -/
def Others (w : Shared ι) (i : ι) (phase : Phase) : Prop :=
  ∃ j h, j ≠ i ∧ w.handle j = some h ∧ h.Reason phase

theorem Held.justified (hw : Held w) (hi : w.handle i = some h) : Justified (Others w i) h w.lease := by
  rcases hw with hw | ⟨j, f, hf, hr⟩
  · exact .of_unlocked hw
  · by_cases hj : j = i
    · subst hj
      cases hi.symm.trans hf
      exact .inl hr
    · exact .inr ⟨j, f, hj, hf, hr⟩

theorem Others.held {phase : Phase} (ho : Others w i phase) (o : Option FileState) (pending : Bool) :
    Held ⟨Function.update w.handle i o, phase, pending⟩ := by
  obtain ⟨j, f, hj, hf, hr⟩ := ho
  exact .inr ⟨j, f, by simp [hj, hf], hr⟩

/-- **No leaked lock.** Over all callbacks on any number of handles, with every call into the store
failing wherever it may, the store has its publication lock only while some open handle owns
pending writes or is in a checkpoint state that reserves publication. -/
theorem lock_has_reason (hw : (system ι).ReachWhen Syncs w) (hlocked : w.lease.owner ≠ .unlocked) :
    ∃ i h, w.handle i = some h ∧ (h.owned = true ∨ h.checkpoint.holdsPublication = true) := by
  have hheld : Held w := by
    refine hw.invariant (fun w hw => .inl (by rw [hw.1])) fun w a w' hI hsync hs => ?_
    cases a with
    | call i cb x =>
        obtain ⟨h, hh, rfl⟩ := hs
        rcases (hI.justified hh).run (x := x) cb (by
          rintro parent rfl hfree
          exact (hsync hfree).imp_right fun howned => howned h hh) with hr | ho
        · exact .inr ⟨i, _, by simp, hr⟩
        · exact ho.held _ _
    | close i =>
        obtain ⟨h, hh, rfl⟩ := hs
        rcases owner_close (hI.justified hh) with hu | ho
        · exact .inl hu
        · exact ho.held _ _
  rcases hheld with hheld | ⟨i, h, hh, hr⟩
  · exact absurd hheld hlocked
  · refine ⟨i, h, hh, ?_⟩
    cases ho : w.lease.owner <;> rw [ho] at hr
    · exact absurd ho hlocked
    · exact hr
    · exact .inr hr

/-- All goes well. -/
def works : Outcome := ⟨true, false, true, true, false, true, true⟩

/-- Handles just opened. -/
def opened (ι : Type) : Shared ι := ⟨fun _ => some ⟨false, false, false, false, .idle⟩, .unlocked, false⟩

theorem init_opened : (system ι).init (opened ι) := ⟨rfl, fun _ => ⟨false, rfl⟩⟩

theorem lock_has_reason_write : ∃ w : Shared Bool, w.lease.owner = .transaction ∧
    ∃ i h, w.handle i = some h ∧ (h.owned = true ∨ h.checkpoint.holdsPublication = true) :=
  ⟨_, rfl, lock_has_reason (.step (a := .call true .write works) (.init init_opened) trivial
    ⟨_, rfl, rfl⟩) (by decide)⟩

/-- **The exception.** A handle that has published asks for a sync. The store takes the lock, the
sync fails, and nobody gives the lock back. -/
theorem sync_leaks : ∃ w : Shared Unit, (system Unit).Reach w ∧ w.lease.owner = .transaction ∧
    ∀ i h, w.handle i = some h → h.owned = false ∧ h.checkpoint = .idle := by
  refine ⟨_, .step (a := .call () (.sync true) { works with syncs := false }) (.step
    (a := .call () .fcntlSync works) (.step (a := .call () .write works) (.init init_opened)
    ⟨_, rfl, rfl⟩) ⟨_, rfl, rfl⟩) ⟨_, rfl, rfl⟩, rfl, ?_⟩
  rintro ⟨⟩ h ⟨⟩
  exact ⟨rfl, rfl⟩

end Vfs

end Zsqlite
