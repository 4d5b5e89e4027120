import Zsqlite.Lib.Outcome

set_option autoImplicit false

/-! # Programs that keep an invariant

`Keeps I E x Q`: from a state with `I` the program `x` ends in a state with `I` again, whether it
returns, with a result that has `Q`, or fails, with an error that has `E`. There is one rule for
each way to build a program.
-/

namespace EStateM

variable {ε σ α β : Type} {I : σ → Prop} {E : ε → Prop}

/-- What is left when a program ends. -/
def Ended (I : σ → Prop) (E : ε → Prop) (Q : α → Prop) : EStateM.Result ε σ α → Prop
  | .ok a s => I s ∧ Q a
  | .error e s => I s ∧ E e

def Keeps (I : σ → Prop) (E : ε → Prop) (x : EStateM ε σ α) (Q : α → Prop) : Prop :=
  ∀ s, I s → Ended I E Q (x s)

theorem keeps_pure {Q : α → Prop} {a : α} (h : Q a) : Keeps I E (pure a) Q := fun _ hs => ⟨hs, h⟩

theorem keeps_throw {Q : α → Prop} {e : ε} (h : E e) : Keeps I E (throw e) Q := fun _ hs => ⟨hs, h⟩

theorem keeps_get : Keeps I E get I := fun _ hs => ⟨hs, hs⟩

/-- **Sequences.** -/
theorem Keeps.bind {Q : α → Prop} {R : β → Prop} {x : EStateM ε σ α} {f : α → EStateM ε σ β}
    (hx : Keeps I E x Q) (hf : ∀ a, Q a → Keeps I E (f a) R) : Keeps I E (x >>= f) R := by
  intro s hs
  have hend := hx s hs
  show Ended I E R (EStateM.bind x f s)
  unfold EStateM.bind
  cases h : x s with
  | ok a s' =>
      rw [h] at hend
      exact hf a hend.2 s' hend.1
  | error e s' =>
      rw [h] at hend
      exact hend

theorem Keeps.mono {Q R : α → Prop} {x : EStateM ε σ α} (h : Keeps I E x Q)
    (hQR : ∀ a, Q a → R a) : Keeps I E x R := by
  intro s hs
  have hend := h s hs
  cases hx : x s with
  | ok a s' =>
      rw [hx] at hend
      exact ⟨hend.1, hQR a hend.2⟩
  | error e s' =>
      rw [hx] at hend
      exact hend

theorem keeps_modify {f : σ → σ} (h : ∀ s, I s → I (f s)) : Keeps I E (modify f) fun _ => True :=
  fun s hs => ⟨h s hs, trivial⟩

theorem keeps_ite {p : Prop} [Decidable p] {Q : α → Prop} {x y : EStateM ε σ α}
    (hx : p → Keeps I E x Q) (hy : ¬ p → Keeps I E y Q) : Keeps I E (if p then x else y) Q := by
  split
  · exact hx ‹_›
  · exact hy ‹_›

/-- A condition that is checked. -/
theorem keeps_ensure {p : Prop} [Decidable p] {e : ε} (h : E e) :
    Keeps I E (liftExcept (Except.ensure p e)) fun _ => p := by
  by_cases hp : p
  · rw [Except.ensure_of hp]
    exact keeps_pure hp
  · rw [Except.ensure_of_not hp]
    exact keeps_throw h

/-- **Loops with an accumulator**, which `J` relates to the elements done. -/
theorem keeps_foldlM {J : List α → β → Prop} {f : β → α → EStateM ε σ β} {l : List α}
    (step : ∀ done a b, done ++ [a] <+: l → J done b → Keeps I E (f b a) (J (done ++ [a]))) {b : β}
    (hb : J [] b) : Keeps I E (l.foldlM f b) (J l) := by
  have key : ∀ rest done b, done ++ rest = l → J done b → Keeps I E (rest.foldlM f b) (J l) := by
    intro rest
    induction rest with
    | nil =>
        intro done b hl hdone
        rw [List.append_nil] at hl
        rw [← hl]
        exact keeps_pure hdone
    | cons a rest ih =>
        intro done b hl hdone
        rw [List.foldlM_cons]
        refine (step done a b ⟨rest, ?_⟩ hdone).bind fun b' hb' => ih (done ++ [a]) b' ?_ hb'
        · rw [List.append_assoc]
          exact hl
        · rw [List.append_assoc]
          exact hl
  exact key l [] b rfl hb

end EStateM
