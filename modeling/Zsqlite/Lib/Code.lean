import Mathlib.Algebra.Group.Nat.Defs
import Mathlib.Data.Nat.Log
import Mathlib.Data.List.Forall2

set_option autoImplicit false

/-! # Numbers as codes of data

An injective code of structured data into the natural numbers whose length stays proportional
to the data, so that it can be evaluated: `pair` writes the bit length of its first argument in
front of the bits of both. Lists, options and pairs are coded by folding `pair`; `Code` collects
the coded types.
-/

namespace Code

/-- The bits of `a` and `b`, preceded by the bit length of `a` in unary. -/
def pair (a b : Nat) : Nat :=
  2 ^ (Nat.log2 a + 1) * (2 * (a + 2 ^ (Nat.log2 a + 1) * b) + 1)

theorem pair_ne_zero (a b : Nat) : pair a b ≠ 0 := by
  have := Nat.two_pow_pos (Nat.log2 a + 1)
  exact Nat.mul_ne_zero (by omega) (by omega)

/-- A number determines its odd part and the power of two before it. -/
theorem odd_part_unique {k l x y : Nat} (h : 2 ^ k * (2 * x + 1) = 2 ^ l * (2 * y + 1)) :
    k = l ∧ x = y := by
  induction k generalizing l with
  | zero =>
      cases l with
      | zero => omega
      | succ l =>
          rw [Nat.pow_succ, Nat.mul_comm (2 ^ l) 2, Nat.mul_assoc] at h
          omega
  | succ k ih =>
      cases l with
      | zero =>
          rw [Nat.pow_succ, Nat.mul_comm (2 ^ k) 2, Nat.mul_assoc] at h
          omega
      | succ l =>
          rw [Nat.pow_succ, Nat.pow_succ, Nat.mul_right_comm, Nat.mul_right_comm (2 ^ l)] at h
          obtain ⟨rfl, rfl⟩ := ih (Nat.eq_of_mul_eq_mul_right (by omega) h)
          exact ⟨rfl, rfl⟩

theorem pair_inj {a b c d : Nat} : pair a b = pair c d ↔ a = c ∧ b = d := by
  constructor
  · intro h
    obtain ⟨hk, hx⟩ := odd_part_unique h
    have ha : a < 2 ^ (Nat.log2 a + 1) := Nat.lt_log2_self
    have hc : c < 2 ^ (Nat.log2 c + 1) := Nat.lt_log2_self
    rw [← hk] at hx hc
    have hac : a = c := by
      have := congrArg (· % 2 ^ (Nat.log2 a + 1)) hx
      simpa [Nat.add_mul_mod_self_left, Nat.mod_eq_of_lt ha, Nat.mod_eq_of_lt hc] using this
    subst hac
    exact ⟨rfl, Nat.eq_of_mul_eq_mul_left (Nat.two_pow_pos _) (Nat.add_left_cancel hx)⟩
  · rintro ⟨rfl, rfl⟩
    rfl

end Code

/-- A type with an injective code. -/
class Code (α : Type) where
  code : α → Nat
  injective : Function.Injective code

namespace Code

variable {α β : Type} [Code α] [Code β]

theorem code_inj {a b : α} : code a = code b ↔ a = b := Code.injective.eq_iff

/-- A code through an injection. -/
@[reducible] def through {γ : Type} (f : γ → α) (h : Function.Injective f) : Code γ where
  code c := code (f c)
  injective := Code.injective.comp h

instance : Code Nat := ⟨id, fun _ _ h => h⟩

instance : Code (α × β) where
  code p := pair (code p.1) (code p.2)
  injective := by
    rintro ⟨a, b⟩ ⟨c, d⟩ h
    obtain ⟨h₁, h₂⟩ := pair_inj.mp h
    exact Prod.ext (code_inj.mp h₁) (code_inj.mp h₂)

def ofList : List α → Nat
  | [] => 0
  | a :: l => pair (code a) (ofList l)

instance : Code (List α) where
  code := ofList
  injective := by
    intro l
    induction l with
    | nil =>
        intro l' h
        cases l' with
        | nil => rfl
        | cons a l' => exact absurd h.symm (pair_ne_zero _ _)
    | cons a l ih =>
        intro l' h
        cases l' with
        | nil => exact absurd h (pair_ne_zero _ _)
        | cons a' l' =>
            obtain ⟨h₁, h₂⟩ := pair_inj.mp h
            rw [code_inj.mp h₁, ih h₂]

instance : Code (Option α) :=
  through Option.toList fun a b h => by cases a <;> cases b <;> simp_all

instance : Code (α ⊕ β) where
  code
    | .inl a => 2 * code a
    | .inr b => 2 * code b + 1
  injective := by
    rintro (a | a) (b | b) h
    · exact congrArg Sum.inl (code_inj.mp (by simp only at h; omega))
    · simp only at h
      omega
    · simp only at h
      omega
    · exact congrArg Sum.inr (code_inj.mp (by simp only at h; omega))

end Code
