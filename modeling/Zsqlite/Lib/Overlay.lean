import Mathlib.Data.Option.Basic
import Mathlib.Order.Lattice

set_option autoImplicit false

/-! # A transactional overlay of pages

Pages are read through layers: the pages a transaction has written, the cut the transaction
has made (everything above it that was not written since is zero), the records committed
before, the lowest cut committed before, and an immutable base. `Coherent` is the relation
between those layers that every operation keeps; under it

* `write` and `truncate` change the pending image exactly as they should and leave the
  committed image alone,
* `publish` makes the pending image the committed one,
* `discard` makes the committed image the pending one.

Nothing here depends on what a page is.
-/

namespace Overlay

variable {α : Type}

/-- Page `p` lies above the cut. -/
def Above (cut : Option Nat) (p : Nat) : Prop := ∃ k, cut = some k ∧ k < p

instance (cut : Option Nat) (p : Nat) : Decidable (Above cut p) :=
  match cut with
  | none => .isFalse (by rintro ⟨k, h, _⟩; cases h)
  | some k =>
      if h : k < p then .isTrue ⟨k, rfl, h⟩
      else .isFalse (by rintro ⟨k', hk, h'⟩; cases hk; exact h h')

/-- The lower of two cuts. -/
def lower : Option Nat → Option Nat → Option Nat
  | some a, some b => some (min a b)
  | some a, none => some a
  | none, b => b

@[simp] theorem not_above_none (p : Nat) : ¬ Above none p := by
  rintro ⟨k, h, _⟩
  cases h

@[simp] theorem above_some {k p : Nat} : Above (some k) p ↔ k < p := by
  constructor
  · rintro ⟨k', h, hk⟩
    cases h
    exact hk
  · exact fun h => ⟨k, rfl, h⟩

/-- A page is above the lower of two cuts when it is above one of them. -/
theorem above_lower {a b : Option Nat} {p : Nat} :
    Above (lower a b) p ↔ Above a p ∨ Above b p := by
  cases a with
  | none => simp [lower]
  | some a =>
      cases b with
      | none => simp [lower]
      | some b => simp [lower]

@[simp] theorem lower_none (a : Option Nat) : lower a none = a := by
  cases a <;> rfl

/-- A cut joined with `k` is not above `k`. -/
theorem lower_some (a : Option Nat) (k : Nat) : ∃ j, lower a (some k) = some j ∧ j ≤ k := by
  cases a with
  | none => exact ⟨k, rfl, Nat.le_refl k⟩
  | some a => exact ⟨min a k, rfl, Nat.min_le_right a k⟩

end Overlay

/-- The layers: `saved` and `cut` are committed, `record`, `pendingCut` and `touched` belong
to the running transaction, `base` never changes. -/
@[ext] structure Overlay (α : Type) where
  base : Nat → α
  saved : Nat → Option α
  cut : Option Nat
  record : Nat → Option α
  pendingCut : Option Nat
  touched : Nat → Bool

namespace Overlay

variable {α : Type} (zero : α) (o : Overlay α)

/-- What lies under the records: the base, cut at the lowest committed cut. -/
def floor (p : Nat) : α := if Above o.cut p then zero else o.base p

/-- What page `p` reads as after a rollback. -/
def committed (p : Nat) : α := (o.saved p).getD (o.floor zero p)

/-- What page `p` reads as inside the transaction. -/
def pending (p : Nat) : α :=
  if Above o.pendingCut p ∧ o.touched p = false then zero
  else (o.record p).getD (o.floor zero p)

/-- **The precedence invariant.** Pages outside the transaction's write set have their
committed record, a written page has a record, no committed record is dropped, and every
record above the transaction's cut was written since the cut. -/
structure Coherent (o : Overlay α) : Prop where
  untouched : ∀ p, o.touched p = false → o.record p = o.saved p
  written : ∀ p, o.touched p = true → o.record p ≠ none
  kept : ∀ p, o.saved p ≠ none → o.record p ≠ none
  rewritten : ∀ p, Above o.pendingCut p → o.record p ≠ none → o.touched p = true

/-- Record a new content of page `p`. -/
def write (p : Nat) (a : α) : Overlay α :=
  { o with
    record := fun q => if q = p then some a else o.record q
    touched := fun q => q == p || o.touched q }

/-- Record a content for every page of a list. -/
def fill (l : List Nat) (a : Nat → α) : Overlay α :=
  { o with
    record := fun q => if q ∈ l then some (a q) else o.record q
    touched := fun q => decide (q ∈ l) || o.touched q }

/-- Replace the transaction's cut. -/
def withCut (cut : Option Nat) : Overlay α := { o with pendingCut := cut }

/-- Cut the image after page `k`: records above are zeroed, the rest above reads as zero. -/
def truncate (k : Nat) : Overlay α :=
  { o with
    record := fun p => if k < p then (o.record p).map fun _ => zero else o.record p
    touched := fun p => o.touched p || (decide (k < p) && (o.record p).isSome)
    pendingCut := lower o.pendingCut (some k) }

/-- Commit the transaction. -/
def publish : Overlay α :=
  { o with
    saved := o.record
    cut := lower o.cut o.pendingCut
    pendingCut := none
    touched := fun _ => false }

/-- Roll the transaction back. -/
def discard : Overlay α :=
  { o with
    record := o.saved
    pendingCut := none
    touched := fun _ => false }

variable {zero o}

theorem floor_of_above {p : Nat} (h : Above o.cut p) : o.floor zero p = zero := if_pos h

theorem floor_of_not_above {p : Nat} (h : ¬ Above o.cut p) : o.floor zero p = o.base p := if_neg h

theorem pending_of_hidden {p : Nat} (h : Above o.pendingCut p ∧ o.touched p = false) :
    o.pending zero p = zero :=
  if_pos h

theorem pending_of_shown {p : Nat} (h : ¬ (Above o.pendingCut p ∧ o.touched p = false)) :
    o.pending zero p = (o.record p).getD (o.floor zero p) :=
  if_neg h

/-! ## The operations keep the precedence invariant -/

theorem fill_nil (o : Overlay α) (a : Nat → α) : o.fill [] a = o := by
  simp [fill]

theorem fill_write (o : Overlay α) (p : Nat) (l : List Nat) (a : Nat → α) :
    (o.write p (a p)).fill l a = o.fill (p :: l) a := by
  apply Overlay.ext
  · rfl
  · rfl
  · rfl
  · funext q
    by_cases h : q = p <;> by_cases h' : q ∈ l <;> simp [fill, Overlay.write, h, h']
  · rfl
  · funext q
    by_cases h : q = p <;> by_cases h' : q ∈ l <;> simp [fill, Overlay.write, h, h']

/-- A truncation zeroes the records above the cut and then lowers the cut. -/
theorem truncate_eq_fill {k : Nat} {l : List Nat}
    (hl : ∀ q, q ∈ l ↔ k < q ∧ o.record q ≠ none) :
    o.truncate zero k = (o.fill l fun _ => zero).withCut (lower o.pendingCut (some k)) := by
  apply Overlay.ext
  · rfl
  · rfl
  · rfl
  · funext q
    by_cases hk : k < q <;> cases hr : o.record q <;> simp [Overlay.truncate, fill, withCut, hl, hk, hr]
  · rfl
  · funext q
    by_cases hk : k < q <;> cases hr : o.record q <;>
      simp [Overlay.truncate, fill, withCut, hl, hk, hr, Bool.or_comm]

theorem record_truncate_eq_none (k p : Nat) :
    (o.truncate zero k).record p = none ↔ o.record p = none := by
  simp only [Overlay.truncate]
  split <;> simp

theorem Coherent.truncate (h : o.Coherent) (k : Nat) : (o.truncate zero k).Coherent where
  untouched := by
    intro p hp
    simp only [Overlay.truncate, Bool.or_eq_false_iff, Bool.and_eq_false_iff,
      decide_eq_false_iff_not, Option.isSome_eq_false_iff, Option.isNone_iff_eq_none] at hp ⊢
    rw [← h.untouched p hp.1]
    split
    · rename_i hk
      rw [hp.2.resolve_left (by simpa using hk)]
      rfl
    · rfl
  written := by
    intro p hp
    rw [Ne, record_truncate_eq_none]
    simp only [Overlay.truncate, Bool.or_eq_true, Bool.and_eq_true] at hp
    rcases hp with hp | hp
    · exact h.written p hp
    · exact Option.isSome_iff_ne_none.mp hp.2
  kept := by
    intro p hp
    rw [Ne, record_truncate_eq_none]
    exact h.kept p hp
  rewritten := by
    intro p hc hp
    rw [Ne, record_truncate_eq_none] at hp
    simp only [Overlay.truncate, above_lower, above_some] at hc ⊢
    rcases hc with hc | hc
    · simp [h.rewritten p hc hp]
    · simp [hc, Option.isSome_iff_ne_none.mpr hp]

/-! ## What the operations do to the two images -/

@[simp] theorem floor_write (p : Nat) (a : α) :
    (o.write p a).floor zero = o.floor zero := rfl

@[simp] theorem floor_truncate (k : Nat) :
    (o.truncate zero k).floor zero = o.floor zero := rfl

theorem floor_publish (p : Nat) :
    (o.publish).floor zero p = if Above o.pendingCut p then zero else o.floor zero p := by
  by_cases hc : Above o.cut p <;> by_cases hp : Above o.pendingCut p <;>
    simp [floor, publish, above_lower, hc, hp]

@[simp] theorem committed_write (p : Nat) (a : α) :
    (o.write p a).committed zero = o.committed zero := rfl

theorem pending_write (p : Nat) (a : α) (q : Nat) :
    (o.write p a).pending zero q = if q = p then a else o.pending zero q := by
  unfold pending
  rw [floor_write]
  by_cases e : q = p <;> simp [Overlay.write, e]

theorem pending_fill (l : List Nat) (a : Nat → α) (q : Nat) :
    (o.fill l a).pending zero q = if q ∈ l then a q else o.pending zero q := by
  unfold pending
  by_cases h : q ∈ l
  · simp [fill, h]
  · simp only [fill, h, decide_false, Bool.false_or, if_false]
    rfl

/-- A page of the write set has a record. -/
theorem Coherent.touched_eq_false (h : o.Coherent) {p : Nat} (hr : o.record p = none) :
    o.touched p = false := by
  by_contra e
  exact h.written p (by simpa using e) hr

theorem pending_truncate (h : o.Coherent) (k q : Nat) :
    (o.truncate zero k).pending zero q = if k < q then zero else o.pending zero q := by
  unfold pending
  rw [floor_truncate]
  by_cases hk : k < q
  · rw [if_pos hk]
    cases hr : o.record q with
    | none =>
        -- no record above the cut: the page is untouched and the cut hides every lower layer
        simp [Overlay.truncate, above_lower, hk, hr, h.touched_eq_false hr]
    | some a => simp [Overlay.truncate, hk, hr]
  · simp [Overlay.truncate, above_lower, hk]

/-- **Publication makes the pending image the committed one.** -/
theorem committed_publish (h : o.Coherent) :
    (o.publish).committed zero = o.pending zero := by
  funext p
  unfold committed pending
  rw [floor_publish]
  show (o.record p).getD _ = _
  cases hr : o.record p with
  | none => simp [h.touched_eq_false hr]
  | some a =>
      have : ¬ (Above o.pendingCut p ∧ o.touched p = false) := by
        rintro ⟨hc, ht⟩
        simp [h.rewritten p hc (by simp [hr])] at ht
      simp [this]

/-- With no cut and no write set of its own, a transaction shows its records. -/
theorem pending_eq_committed (hc : o.pendingCut = none) (hr : o.record = o.saved) :
    o.pending zero = o.committed zero := by
  funext p
  simp [pending, committed, hc, hr]

@[simp] theorem committed_discard (o : Overlay α) :
    (o.discard).committed zero = o.committed zero := rfl

end Overlay
