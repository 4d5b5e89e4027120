import Zsqlite.Lib.Bytes

set_option autoImplicit false

/-! # Sliding ranges together

Ranges of a byte vector that are kept are moved to its front, one after the other in the order in
which they stand. No range is moved past the place it came from, so a copy overwrites only ranges
that have been copied and bytes that are not kept (`slide_keeps`), and in the end the front of the
vector is the concatenation of the ranges (`take_slide`). A copy may be made in pieces
(`copy_copy`).
-/

namespace ByteVec

variable {v : List UInt8} {pos n : Nat}

/-- Writing two parts one after the other. -/
theorem overwrite_append (v : List UInt8) (off : Nat) (a b : List UInt8) :
    overwrite (overwrite v off a) (off + a.length) b = overwrite v off (a ++ b) := by
  by_cases ha : a = []
  · simp [ha]
  by_cases hb : b = []
  · simp [hb]
  have hab : a ++ b ≠ [] := fun h => ha (List.append_eq_nil_iff.mp h).1
  refine ext_getD ?_ fun i _ => ?_
  · rw [length_overwrite hb, length_overwrite ha, length_overwrite hab, List.length_append]
    omega
  · rw [getD_overwrite, getD_overwrite, getD_overwrite, List.length_append]
    by_cases h₁ : off + a.length ≤ i ∧ i < off + a.length + b.length
    · rw [if_pos h₁, if_pos (by omega), List.getD_append_right _ _ _ _ (by omega)]
      congr 1
      omega
    · rw [if_neg h₁]
      by_cases h₂ : off ≤ i ∧ i < off + a.length
      · rw [if_pos h₂, if_pos (by omega), List.getD_append _ _ _ _ (by omega)]
      · rw [if_neg h₂, if_neg (by omega)]

/-- Copy `len` bytes within a vector. -/
def copy (v : List UInt8) (src dst len : Nat) : List UInt8 := overwrite v dst (window v src len)

theorem length_copy {src dst len : Nat} (h : dst + len ≤ v.length) :
    (copy v src dst len).length = v.length := by
  unfold copy
  by_cases hlen : len = 0
  · simp [hlen, window]
  · rw [length_overwrite, length_window]
    · omega
    · intro hnil
      have := congrArg List.length hnil
      rw [length_window] at this
      exact hlen this

theorem copy_zero (v : List UInt8) (src dst : Nat) : copy v src dst 0 = v := rfl

theorem copy_self {off len : Nat} (h : off + len ≤ v.length) : copy v off off len = v := by
  refine ext_getD (length_copy h) fun i _ => ?_
  rw [copy, getD_overwrite, length_window]
  split
  · rename_i hin
    rw [getD_window, if_pos (by omega), Nat.add_sub_cancel' hin.1]
  · rfl

/-- Copying towards the front in two pieces. -/
theorem copy_copy {src dst : Nat} (h : dst ≤ src) (a b : Nat) :
    copy (copy v src dst a) (src + a) (dst + a) b = copy v src dst (a + b) := by
  have hwindow : window (copy v src dst a) (src + a) b = window v (src + a) b :=
    window_overwrite_disjoint (.inr (by rw [length_window]; omega))
  have hlen : dst + a = dst + (window v src a).length := by rw [length_window]
  rw [copy, hwindow, copy, hlen, overwrite_append, window_append, copy]

/-- Move ranges, given by offset and length, to the position `pos` and on. -/
def slide : Nat → List (Nat × Nat) → List UInt8 → List UInt8
  | _, [], v => v
  | pos, (off, len) :: rest, v => slide (pos + len) rest (copy v off pos len)

/-- The ranges follow one another, from `pos` to at most `n`. -/
def Ahead : Nat → List (Nat × Nat) → Nat → Prop
  | pos, [], n => pos ≤ n
  | pos, (off, len) :: rest, n => pos ≤ off ∧ Ahead (off + len) rest n

theorem Ahead.mono {ranges : List (Nat × Nat)} (h : Ahead pos ranges n) {pos' : Nat}
    (hle : pos' ≤ pos) : Ahead pos' ranges n := by
  cases ranges with
  | nil => exact hle.trans h
  | cons r rest => exact ⟨hle.trans h.1, h.2⟩

theorem Ahead.le {ranges : List (Nat × Nat)} (h : Ahead pos ranges n) : pos ≤ n := by
  induction ranges generalizing pos with
  | nil => exact h
  | cons r rest ih =>
      have := ih h.2
      have := h.1
      omega

theorem Ahead.le_of_mem {ranges : List (Nat × Nat)} (h : Ahead pos ranges n) {r : Nat × Nat}
    (hr : r ∈ ranges) : pos ≤ r.1 ∧ r.1 + r.2 ≤ n := by
  induction ranges generalizing pos with
  | nil => cases hr
  | cons q rest ih =>
      rcases List.mem_cons.mp hr with rfl | hr
      · exact ⟨h.1, h.2.le⟩
      · have := ih h.2 hr
        have := h.1
        omega

theorem Ahead.left {before after : List (Nat × Nat)} (h : Ahead pos (before ++ after) n) :
    Ahead pos before n := by
  induction before generalizing pos with
  | nil => exact h.le
  | cons q before ih => exact ⟨h.1, ih h.2⟩

/-- A copy to the front leaves what comes after its source. -/
theorem window_copy {off len a b : Nat} (hpos : pos ≤ off) (ha : off + len ≤ a) :
    window (copy v off pos len) a b = window v a b :=
  window_overwrite_disjoint (.inr (by rw [length_window]; omega))

/-- **Nothing that is still to be copied is overwritten.** -/
theorem slide_keeps {before after : List (Nat × Nat)} (h : Ahead pos (before ++ after) n)
    {r : Nat × Nat} (hr : r ∈ after) :
    window (slide pos before v) r.1 r.2 = window v r.1 r.2 := by
  induction before generalizing pos v with
  | nil => rfl
  | cons q before ih =>
      obtain ⟨off, len⟩ := q
      have hlater := (h.2.le_of_mem (List.mem_append_right _ hr)).1
      rw [slide, ih (h.2.mono (Nat.add_le_add_right h.1 len)), window_copy h.1 hlater]

/-- **Sliding gives the concatenation of the ranges.** By induction on the ranges: after the first
copy the rest of the vector is as before. -/
theorem take_slide {ranges : List (Nat × Nat)} (h : Ahead pos ranges v.length) :
    (slide pos ranges v).take (pos + (ranges.map Prod.snd).sum) =
      v.take pos ++ (ranges.map fun r => window v r.1 r.2).flatten := by
  induction ranges generalizing pos v with
  | nil => simp [slide]
  | cons q rest ih =>
      obtain ⟨off, len⟩ := q
      obtain ⟨hpos, hrest⟩ := h
      have hle := hrest.le
      have hlen : (copy v off pos len).length = v.length := length_copy (by omega)
      have hfront : (copy v off pos len).take (pos + len) = v.take pos ++ window v off len := by
        refine ext_getD ?_ fun i hi => ?_
        · rw [List.length_take, hlen, List.length_append, List.length_take, length_window]
          omega
        · rw [List.length_take, hlen] at hi
          rw [getD_take, if_pos (by omega), copy, getD_overwrite, length_window]
          by_cases hin : pos ≤ i ∧ i < pos + len
          · rw [if_pos hin, List.getD_append_right _ _ _ _ (by rw [List.length_take]; omega),
              List.length_take, Nat.min_eq_left (by omega)]
          · rw [if_neg hin, List.getD_append _ _ _ _ (by rw [List.length_take]; omega), getD_take,
              if_pos (by omega)]
      have hwindows : (rest.map fun r => window (copy v off pos len) r.1 r.2) =
          rest.map fun r => window v r.1 r.2 :=
        List.map_congr_left fun r hr => window_copy hpos (hrest.le_of_mem hr).1
      have hahead : Ahead (pos + len) rest (copy v off pos len).length := by
        rw [hlen]
        exact hrest.mono (Nat.add_le_add_right hpos len)
      rw [slide, List.map_cons, List.sum_cons, ← Nat.add_assoc, ih hahead, hfront, hwindows,
        List.map_cons, List.flatten_cons, List.append_assoc]

end ByteVec
