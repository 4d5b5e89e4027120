import Mathlib.Logic.Relation
import Zsqlite.Lib.Outcome

set_option autoImplicit false

/-! # Loops that move a position forward

`whileBefore` repeats a fallible body until a position reaches a bound. The body moves the
position, so the loop ends. A run of the loop is a chain of its steps (`whileBefore_eq_ok`).
-/

namespace Cursor

variable {ε σ : Type}

/-- Repeat `body` while the position is before `stop`. -/
def whileBefore (stop : Nat) (position : σ → Nat) (body : σ → Except ε σ)
    (advances : ∀ s t, position s < stop → body s = .ok t → position s < position t) (s : σ) :
    Except ε σ :=
  if _h : position s < stop then
    match _hb : body s with
    | .error e => .error e
    | .ok t => whileBefore stop position body advances t
  else .ok s
termination_by stop - position s
decreasing_by
  have := advances _ _ _h _hb
  omega

section Rules

variable {stop : Nat} {position : σ → Nat} {body : σ → Except ε σ}
  {advances : ∀ s t, position s < stop → body s = .ok t → position s < position t} {s t : σ}

theorem whileBefore_done (h : stop ≤ position s) :
    whileBefore stop position body advances s = .ok s := by
  rw [whileBefore, dif_neg (by omega)]

theorem whileBefore_step (h : position s < stop) (hs : body s = .ok t) :
    whileBefore stop position body advances s = whileBefore stop position body advances t := by
  rw [whileBefore, dif_pos h]
  split
  · rename_i heq
    rw [hs] at heq
    cases heq
  · rename_i heq
    rw [hs] at heq
    cases heq
    rfl

theorem whileBefore_error {e : ε} (h : position s < stop) (hs : body s = .error e) :
    whileBefore stop position body advances s = .error e := by
  rw [whileBefore, dif_pos h]
  split
  · rename_i heq
    rw [hs] at heq
    cases heq
    rfl
  · rename_i heq
    rw [hs] at heq
    cases heq

/-- One iteration. -/
def Step (stop : Nat) (position : σ → Nat) (body : σ → Except ε σ) (s t : σ) : Prop :=
  position s < stop ∧ body s = .ok t

/-- **Runs.** The loop returns the end of a chain of iterations that has reached the bound. -/
theorem whileBefore_eq_ok : whileBefore stop position body advances s = .ok t ↔
    Relation.ReflTransGen (Step stop position body) s t ∧ stop ≤ position t := by
  constructor
  · intro h
    induction hn : stop - position s using Nat.strongRecOn generalizing s with
    | _ n ih =>
        by_cases hs : position s < stop
        · cases hb : body s with
          | error e =>
              rw [whileBefore_error hs hb] at h
              cases h
          | ok u =>
              rw [whileBefore_step hs hb] at h
              have := advances s u hs hb
              obtain ⟨hrun, ht⟩ := ih (stop - position u) (by omega) h rfl
              exact ⟨.head ⟨hs, hb⟩ hrun, ht⟩
        · rw [whileBefore_done (by omega)] at h
          cases h
          exact ⟨.refl, by omega⟩
  · rintro ⟨hrun, ht⟩
    induction hrun using Relation.ReflTransGen.head_induction_on with
    | refl => exact whileBefore_done ht
    | head hstep _ ih => rw [whileBefore_step hstep.1 hstep.2, ih]

/-- **Loop rule, for a loop that returned.** -/
theorem whileBefore_invariant {I : σ → Prop} (step : ∀ s t, I s → body s = .ok t → I t)
    (h : whileBefore stop position body advances s = .ok t) (hs : I s) :
    I t ∧ stop ≤ position t := by
  obtain ⟨hrun, ht⟩ := whileBefore_eq_ok.mp h
  refine ⟨?_, ht⟩
  clear h ht
  induction hrun with
  | refl => exact hs
  | tail _ hstep ih => exact step _ _ ih hstep.2

/-- **Loop rule.** Every iteration keeps the invariant or fails as `Q` says, and so does the
loop. -/
theorem whileBefore_spec {I : σ → Prop} {Q : ε → Prop}
    (step : ∀ s, I s → position s < stop →
      (∃ e, body s = .error e ∧ Q e) ∨ ∃ t, body s = .ok t ∧ I t) (hs : I s) :
    (∃ e, whileBefore stop position body advances s = .error e ∧ Q e) ∨
      ∃ t, whileBefore stop position body advances s = .ok t ∧ I t ∧ stop ≤ position t := by
  induction hn : stop - position s using Nat.strongRecOn generalizing s with
  | _ n ih =>
      by_cases hlt : position s < stop
      · rcases step s hs hlt with ⟨e, hb, he⟩ | ⟨t, hb, ht⟩
        · exact .inl ⟨e, whileBefore_error hlt hb, he⟩
        · have := advances s t hlt hb
          rw [whileBefore_step hlt hb]
          exact ih (stop - position t) (by omega) ht rfl
      · exact .inr ⟨s, whileBefore_done (by omega), hs, by omega⟩

/-- **Loop rule, for a loop whose every iteration returns.** -/
theorem whileBefore_total {I : σ → Prop}
    (step : ∀ s, I s → position s < stop → ∃ t, body s = .ok t ∧ I t) (hs : I s) :
    ∃ t, whileBefore stop position body advances s = .ok t ∧ I t ∧ stop ≤ position t := by
  rcases whileBefore_spec (Q := fun _ => False) (fun s hs hlt => .inr (step s hs hlt)) hs with
    ⟨_, _, hfalse⟩ | h
  · exact hfalse.elim
  · exact h

end Rules

end Cursor
