import Zsqlite.Lib.Bytes
import Mathlib.Tactic.IntervalCases

set_option autoImplicit false

/-! # Hexadecimal numerals

Numbers as lower-case digits of a fixed width, most significant first (`toHex`), and the lenient
reader of a standard library, which also takes upper-case digits and a leading plus (`fromHex`).
-/

namespace Hex

/-- The lower-case digit of a number below sixteen. -/
def digit (d : Nat) : UInt8 := if d < 10 then UInt8.ofNat (48 + d) else UInt8.ofNat (87 + d)

def value (b : UInt8) : Option Nat :=
  if 48 ≤ b ∧ b ≤ 57 then some (b.toNat - 48)
  else if 97 ≤ b ∧ b ≤ 102 then some (b.toNat - 87)
  else if 65 ≤ b ∧ b ≤ 70 then some (b.toNat - 55)
  else none

/-- The last `k` digits of `n`. -/
def toHex : Nat → Nat → List UInt8
  | 0, _ => []
  | k + 1, n => toHex k (n / 16) ++ [digit (n % 16)]

/-- The number that digits denote, unless it exceeds `max`. -/
def digits (max : Nat) (bytes : List UInt8) : Option Nat :=
  bytes.foldlM (fun n b => do
    let d ← value b
    if 16 * n + d ≤ max then some (16 * n + d) else none) 0

/-- A numeral with an optional plus. -/
def fromHex (max : Nat) : List UInt8 → Option Nat
  | [] => none
  | 43 :: rest => if rest = [] then none else digits max rest
  | bytes => digits max bytes

theorem value_digit {d : Nat} (h : d < 16) : value (digit d) = some d := by
  interval_cases d <;> rfl

/-- Digits are ASCII characters other than plus and minus. -/
theorem digit_ascii {d : Nat} (h : d < 16) : digit d ≠ 43 ∧ digit d ≠ 45 ∧ digit d < 128 := by
  interval_cases d <;> decide

@[simp] theorem length_toHex (k n : Nat) : (toHex k n).length = k := by
  induction k generalizing n with
  | zero => rfl
  | succ k ih => simp [toHex, ih]

theorem ascii_of_mem {k n : Nat} {b : UInt8} (h : b ∈ toHex k n) : b ≠ 43 ∧ b ≠ 45 ∧ b < 128 := by
  induction k generalizing n with
  | zero => simp [toHex] at h
  | succ k ih =>
      rcases List.mem_append.mp h with h | h
      · exact ih h
      · rw [List.mem_singleton.mp h]
        exact digit_ascii (Nat.mod_lt _ (by omega))

theorem digits_toHex {k n max : Nat} (h : n < 16 ^ k) (hmax : n ≤ max) :
    digits max (toHex k n) = some n := by
  induction k generalizing n with
  | zero =>
      obtain rfl : n = 0 := by simpa using h
      rfl
  | succ k ih =>
      have hdiv : n / 16 < 16 ^ k := Nat.div_lt_of_lt_mul (by rw [Nat.pow_succ] at h; omega)
      have hle : n / 16 ≤ max := (Nat.div_le_self n 16).trans hmax
      have hfold := ih hdiv hle
      unfold digits at hfold ⊢
      rw [toHex, List.foldlM_append, hfold]
      have hn : 16 * (n / 16) + n % 16 = n := Nat.div_add_mod n 16
      simp [value_digit (Nat.mod_lt n (by omega : 16 > 0)), hn, hmax]

/-- **Reading back.** Digits of a number within the bound denote it. -/
theorem fromHex_toHex {k n max : Nat} (hk : 0 < k) (h : n < 16 ^ k) (hmax : n ≤ max) :
    fromHex max (toHex k n) = some n := by
  have hdigits := digits_toHex h hmax
  have hplus : ∀ b ∈ toHex k n, b ≠ 43 := fun b hb => (ascii_of_mem hb).1
  cases hx : toHex k n with
  | nil =>
      have := length_toHex k n
      rw [hx] at this
      simp at this
      omega
  | cons b rest =>
      rw [hx] at hdigits hplus
      unfold fromHex
      split
      · rename_i heq
        cases heq
      · rename_i heq
        exact absurd (List.cons.inj heq).1 (hplus b (by simp))
      · exact hdigits

/-! ## Canonical spelling -/

/-- The digits that numbers are written with. -/
def Lower (b : UInt8) : Prop := (48 ≤ b ∧ b ≤ 57) ∨ (97 ≤ b ∧ b ≤ 102)

instance (b : UInt8) : Decidable (Lower b) := inferInstanceAs (Decidable (_ ∨ _))

/-- A digit is spelled as it would be written exactly when it is a lower-case one. -/
theorem digit_of_value {b : UInt8} {d : Nat} (h : value b = some d) :
    d < 16 ∧ (digit d = b ↔ Lower b) := by
  have key : ∀ n < 256, ∀ d ∈ value (UInt8.ofNat n),
      d < 16 ∧ (digit d = UInt8.ofNat n ↔ Lower (UInt8.ofNat n)) := by decide +kernel
  have hb : UInt8.ofNat b.toNat = b := UInt8.ofNat_toNat
  have hd := key b.toNat b.toNat_lt d
  rw [hb] at hd
  exact hd h

theorem toHex_two {n : Nat} (h : n < 256) : toHex 2 n = [digit (n / 16), digit (n % 16)] := by
  have hlt : n / 16 % 16 = n / 16 := Nat.mod_eq_of_lt (by omega)
  simp only [toHex, List.nil_append, List.singleton_append, hlt]

/-- **Two characters that are read as a byte are its spelling** exactly when both are lower-case
digits. -/
theorem toHex_of_fromHex {a b : UInt8} {n max : Nat} (h : fromHex max [a, b] = some n) :
    n < 256 ∧ (toHex 2 n = [a, b] ↔ Lower a ∧ Lower b) := by
  by_cases ha : a = 43
  · -- A plus and one digit.
    subst ha
    have hdigit : digits max [b] = some n := h
    simp only [digits, List.foldlM_cons, List.foldlM_nil, Option.bind_eq_bind,
      Option.bind_eq_some_iff] at hdigit
    obtain ⟨d, ⟨d', hvalue, hd⟩, hn⟩ := hdigit
    split at hd
    · obtain ⟨hlt, -⟩ := digit_of_value hvalue
      cases hd
      cases hn
      refine ⟨by omega, ?_⟩
      rw [toHex_two (by omega)]
      have hne : digit ((16 * 0 + d') / 16) ≠ 43 := (digit_ascii (by omega)).1
      constructor
      · intro heq
        exact absurd (List.cons.inj heq).1 hne
      · intro hlower
        exact absurd hlower.1 (by decide)
    · cases hd
  · have hdigit : digits max [a, b] = some n := by
      unfold fromHex at h
      split at h
      · rename_i heq
        cases heq
      · rename_i heq
        exact absurd (List.cons.inj heq).1 ha
      · exact h
    simp only [digits, List.foldlM_cons, List.foldlM_nil, Option.bind_eq_bind,
      Option.bind_eq_some_iff] at hdigit
    obtain ⟨x, ⟨x', hx, hxn⟩, y, ⟨y', hy, hyn⟩, hn⟩ := hdigit
    split at hxn
    · split at hyn
      · cases hxn
        cases hyn
        cases hn
        obtain ⟨hxlt, hxa⟩ := digit_of_value hx
        obtain ⟨hylt, hyb⟩ := digit_of_value hy
        have hhigh : (16 * (16 * 0 + x') + y') / 16 = x' := by omega
        have hlow : (16 * (16 * 0 + x') + y') % 16 = y' := by omega
        refine ⟨by omega, ?_⟩
        rw [toHex_two (by omega), hhigh, hlow, ← hxa, ← hyb]
        simp
      · cases hyn
    · cases hxn

theorem lower_of_mem {k n : Nat} {b : UInt8} (h : b ∈ toHex k n) : Lower b := by
  have hdigit : ∀ d < 16, Lower (digit d) := by decide
  induction k generalizing n with
  | zero => simp [toHex] at h
  | succ k ih =>
      rcases List.mem_append.mp h with h | h
      · exact ih h
      · rw [List.mem_singleton.mp h]
        exact hdigit _ (Nat.mod_lt _ (by omega))

end Hex
