import Mathlib.Logic.Relation

set_option autoImplicit false

/-! # Labelled transition systems and guarded reachability

A system has initial states and labelled steps. `ReachWhen guard` is the set of states some
run reaches whose every step meets `guard`; `Reach` drops the guard. An invariant of one
guarded step is an invariant of every guarded run (`ReachWhen.invariant`), which is the only
induction the protocol modules need.
-/

namespace Machine

universe u v

/-- A labelled transition system on the states `σ` with the labels `ι`. -/
structure System (σ : Type u) (ι : Type v) where
  init : σ → Prop
  step : σ → ι → σ → Prop

variable {σ : Type u} {ι : Type v}

/-- The states reached by a run all of whose steps meet `guard` in the state they start in. -/
inductive System.ReachWhen (M : System σ ι) (guard : σ → ι → Prop) : σ → Prop
  | init {s : σ} : M.init s → M.ReachWhen guard s
  | step {s t : σ} {a : ι} : M.ReachWhen guard s → guard s a → M.step s a t →
      M.ReachWhen guard t

/-- The states reached by any run. -/
def System.Reach (M : System σ ι) : σ → Prop := M.ReachWhen fun _ _ => True

variable {M : System σ ι} {guard : σ → ι → Prop} {s t : σ} {a : ι}

/-- **Invariant rule.** What holds initially and is kept by every guarded step holds in every
state a guarded run reaches. -/
theorem System.ReachWhen.invariant {I : σ → Prop} (start : ∀ s, M.init s → I s)
    (keep : ∀ s a t, I s → guard s a → M.step s a t → I t) (h : M.ReachWhen guard s) :
    I s := by
  induction h with
  | init h => exact start _ h
  | step _ hg hs ih => exact keep _ _ _ ih hg hs

theorem System.Reach.init (h : M.init s) : M.Reach s := ReachWhen.init h

theorem System.Reach.step (h : M.Reach s) (hs : M.step s a t) : M.Reach t :=
  ReachWhen.step h trivial hs

end Machine
