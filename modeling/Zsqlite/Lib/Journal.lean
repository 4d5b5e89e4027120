import Mathlib.Logic.Function.Basic

set_option autoImplicit false

/-! # Replaying writes

A journal is a list of writes to cells, oldest first. Replaying it decides the cells it names and
leaves the others alone, so two contents that agree on the cells it does not name agree after it
(`replay_congr`).
-/

namespace Journal

variable {κ : Type} {β : κ → Type}

/-- No write names the cell. -/
def Untouched (log : List (Sigma β)) (k : κ) : Prop := ∀ a ∈ log, a.1 ≠ k

variable {log : List (Sigma β)} {c c' : ∀ k, β k} {k : κ} {a : Sigma β}

theorem untouched_append : Untouched (log ++ [a]) k ↔ Untouched log k ∧ a.1 ≠ k := by
  simp [Untouched, or_imp, forall_and]

variable [DecidableEq κ]

def replay (log : List (Sigma β)) (c : ∀ k, β k) : ∀ k, β k :=
  log.foldl (fun c a => Function.update c a.1 a.2) c

theorem replay_cons : replay (a :: log) c = replay log (Function.update c a.1 a.2) := rfl

theorem replay_append : replay (log ++ [a]) c = Function.update (replay log c) a.1 a.2 := by
  simp [replay]

theorem update_congr (h : a.1 ≠ k → c k = c' k) :
    Function.update c a.1 a.2 k = Function.update c' a.1 a.2 k := by
  by_cases hk : k = a.1
  · subst hk
    simp
  · simpa [hk] using h (Ne.symm hk)

theorem replay_apply_congr (h : Untouched log k → c k = c' k) : replay log c k = replay log c' k := by
  induction log generalizing c c' with
  | nil => exact h (by simp [Untouched])
  | cons a log ih =>
      refine ih fun hrest => update_congr fun hk => h ?_
      exact List.forall_mem_cons.mpr ⟨hk, hrest⟩

theorem replay_congr (h : ∀ k, Untouched log k → c k = c' k) : replay log c = replay log c' :=
  funext fun k => replay_apply_congr (h k)

theorem replay_untouched (h : Untouched log k) : replay log c k = c k := by
  induction log generalizing c with
  | nil => rfl
  | cons a log ih =>
      obtain ⟨ha, hrest⟩ := List.forall_mem_cons.mp h
      rw [replay_cons, ih hrest, Function.update_of_ne (Ne.symm ha)]

/-- Contents that have what a journal wrote last still have it after one more write. -/
theorem replay_append_self (h : replay log c = c) :
    replay (log ++ [a]) (Function.update c a.1 a.2) = Function.update c a.1 a.2 := by
  rw [replay_append]
  refine funext fun k => update_congr fun hk => ?_
  have hsame : replay log (Function.update c a.1 a.2) k = replay log c k :=
    replay_apply_congr fun _ => Function.update_of_ne (Ne.symm hk) _ _
  rwa [h] at hsame

end Journal
