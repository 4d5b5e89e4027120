import Mathlib.Data.List.GetD
import Mathlib.Tactic.Ring

set_option autoImplicit false

/-! # Byte vectors

A byte vector is a list of bytes, read as zero past its end. `resize` cuts or zero-extends,
`overwrite` replaces a range and zero-extends when the range ends past the vector, `window`
reads a range. A vector is determined by its length and its bytes (`ext_getD`), so the lemmas
below describe each operation by those two. `paged` is the vector a numbered sequence of
equally long pages spells.
-/

namespace ByteVec

/-- `n` zero bytes. -/
def zeros (n : Nat) : List UInt8 := List.replicate n 0

/-- Cut `v` to `n` bytes or extend it with zeros to `n` bytes. -/
def resize (v : List UInt8) (n : Nat) : List UInt8 := v.take n ++ zeros (n - v.length)

/-- Put `b` at offset `off` of `v`, extending `v` with zeros when it is too short. -/
def overwrite (v : List UInt8) (off : Nat) (b : List UInt8) : List UInt8 :=
  if b.isEmpty then v
  else
    let w := if v.length < off + b.length then resize v (off + b.length) else v
    w.take off ++ b ++ w.drop (off + b.length)

/-- The `len` bytes of `v` from offset `off` on, zero past the end. -/
def window (v : List UInt8) (off len : Nat) : List UInt8 :=
  (List.range len).map fun j => v.getD (off + j) 0

variable {v w b : List UInt8} {off len n i : Nat}

@[simp] theorem length_zeros (n : Nat) : (zeros n).length = n := by simp [zeros]

@[simp] theorem getD_zeros (n i : Nat) : (zeros n).getD i 0 = 0 := by
  simp [zeros, List.getD_eq_getElem?_getD, List.getElem?_replicate]
  split <;> rfl

/-- Two vectors of one length with the same bytes are equal. -/
theorem eq_zeros_of_all (h : v.all (· == 0) = true) : v = zeros v.length :=
  List.eq_replicate_iff.mpr ⟨rfl, fun b hb => by simpa using List.all_eq_true.mp h b hb⟩

theorem ext_getD (hl : v.length = w.length) (h : ∀ i < v.length, v.getD i 0 = w.getD i 0) :
    v = w := by
  apply List.ext_getElem hl
  intro i h₁ h₂
  have := h i h₁
  rwa [List.getD_eq_getElem _ _ h₁, List.getD_eq_getElem _ _ h₂] at this

theorem getD_take (v : List UInt8) (n i : Nat) :
    (v.take n).getD i 0 = if i < n then v.getD i 0 else 0 := by
  rw [List.getD_eq_getElem?_getD, List.getElem?_take]
  split
  · rw [List.getD_eq_getElem?_getD]
  · rfl

theorem getD_drop (v : List UInt8) (n i : Nat) : (v.drop n).getD i 0 = v.getD (n + i) 0 := by
  rw [List.getD_eq_getElem?_getD, List.getElem?_drop, List.getD_eq_getElem?_getD]

@[simp] theorem length_resize (v : List UInt8) (n : Nat) : (resize v n).length = n := by
  simp [resize]
  omega

theorem getD_resize (v : List UInt8) (n i : Nat) :
    (resize v n).getD i 0 = if i < n then v.getD i 0 else 0 := by
  unfold resize
  by_cases h : i < (v.take n).length
  · rw [List.getD_append _ _ _ _ h, getD_take]
  · rw [List.getD_append_right _ _ _ _ (Nat.le_of_not_lt h), getD_zeros]
    split
    · rw [List.length_take] at h
      rw [List.getD_eq_default _ _ (by omega)]
    · rfl

theorem resize_of_length_eq (h : v.length = n) : resize v n = v := by
  simp [resize, zeros, ← h]

/-- Only the last of two resizes counts, when the first cuts nothing off. -/
theorem resize_resize (h : v.length ≤ n) (m : Nat) : resize (resize v n) m = resize v m := by
  refine ext_getD (by simp) fun i _ => ?_
  rw [getD_resize, getD_resize, getD_resize]
  by_cases hi : i < n
  · rw [if_pos hi]
  · rw [if_neg hi, List.getD_eq_default _ _ (by omega)]

@[simp] theorem overwrite_nil (v : List UInt8) (off : Nat) : overwrite v off [] = v := rfl

theorem length_overwrite (hb : b ≠ []) :
    (overwrite v off b).length = max v.length (off + b.length) := by
  have hb' : b.isEmpty = false := by simpa using hb
  unfold overwrite
  simp only [hb', Bool.false_eq_true, if_false]
  split <;> simp <;> omega

/-- The bytes of an overwritten vector: those written inside the range, the old ones (zero
past the old end) outside it. -/
theorem getD_overwrite (v : List UInt8) (off : Nat) (b : List UInt8) (i : Nat) :
    (overwrite v off b).getD i 0 =
      if off ≤ i ∧ i < off + b.length then b.getD (i - off) 0 else v.getD i 0 := by
  by_cases hb : b = []
  · subst hb
    simp only [overwrite_nil, List.length_nil]
    rw [if_neg (by omega)]
  have hb' : b.isEmpty = false := by simpa using hb
  have key : ∀ w : List UInt8, off + b.length ≤ w.length →
      (w.take off ++ b ++ w.drop (off + b.length)).getD i 0 =
        if off ≤ i ∧ i < off + b.length then b.getD (i - off) 0 else w.getD i 0 := by
    intro w hw
    have hlen : (w.take off).length = off := by simp; omega
    rcases Nat.lt_or_ge i off with h | h
    · rw [List.append_assoc, List.getD_append _ _ _ _ (by omega), getD_take, if_pos h,
        if_neg (by omega)]
    · rcases Nat.lt_or_ge i (off + b.length) with h' | h'
      · rw [List.getD_append _ _ _ _ (by simp; omega), List.getD_append_right _ _ _ _ (by omega), hlen,
          if_pos ⟨h, h'⟩]
      · rw [List.getD_append_right _ _ _ _ (by simp; omega), getD_drop, if_neg (by omega)]
        congr 1
        simp
        omega
  unfold overwrite
  simp only [hb', Bool.false_eq_true, if_false]
  split
  · rw [key _ (by simp)]
    split
    · rfl
    · rw [getD_resize]
      split
      · rfl
      · rw [List.getD_eq_default _ _ (by omega)]
  · exact key v (by omega)

/-- Writing into a vector with zeros behind it. -/
theorem overwrite_resize (h : v.length ≤ n) (hb : b ≠ []) :
    overwrite (resize v n) off b = resize (overwrite v off b) (max n (off + b.length)) := by
  refine ext_getD (by rw [length_overwrite hb, length_resize, length_resize]) fun i hi => ?_
  rw [length_overwrite hb, length_resize] at hi
  rw [getD_overwrite, getD_resize, getD_resize, if_pos hi, getD_overwrite]
  by_cases hin : i < n
  · rw [if_pos hin]
  · rw [if_neg hin, List.getD_eq_default v _ (by omega)]

@[simp] theorem length_window (v : List UInt8) (off len : Nat) :
    (window v off len).length = len := by
  simp [window]

theorem getD_window (v : List UInt8) (off len i : Nat) :
    (window v off len).getD i 0 = if i < len then v.getD (off + i) 0 else 0 := by
  unfold window
  rw [List.getD_eq_getElem?_getD, List.getElem?_map]
  split
  · rename_i h
    rw [List.getElem?_range h]
    rfl
  · rename_i h
    rw [List.getElem?_eq_none (by simpa using h)]
    rfl

/-- Within the vector a window is a piece of it. -/
theorem take_drop_eq_window (h : off + len ≤ v.length) :
    (v.drop off).take len = window v off len := by
  refine ext_getD (by simp; omega) fun i _ => ?_
  rw [getD_take, getD_drop, getD_window]

theorem window_overwrite_self (v : List UInt8) (off : Nat) (b : List UInt8) :
    window (overwrite v off b) off b.length = b := by
  refine ext_getD (by simp) fun i hi => ?_
  have hi : i < b.length := by simpa using hi
  rw [getD_window, if_pos hi, getD_overwrite, if_pos (by omega), Nat.add_sub_cancel_left]

theorem window_overwrite_disjoint (h : off + len ≤ n ∨ n + b.length ≤ off) :
    window (overwrite v n b) off len = window v off len := by
  refine ext_getD (by simp) fun i hi => ?_
  have hi : i < len := by simpa using hi
  rw [getD_window, getD_window, if_pos hi, if_pos hi, getD_overwrite, if_neg (by omega)]

/-- Past its end a byte vector has only zeros. -/
theorem window_eq_zeros (h : v.length ≤ off) : window v off len = zeros len := by
  refine ext_getD (by simp) fun i _ => ?_
  rw [getD_window, getD_zeros]
  split
  · exact List.getD_eq_default _ _ (by omega)
  · rfl

/-- Adjacent windows. -/
theorem window_append (v : List UInt8) (off a b : Nat) :
    window v off a ++ window v (off + a) b = window v off (a + b) := by
  refine ext_getD (by simp) fun i _ => ?_
  by_cases h : i < a
  · rw [List.getD_append _ _ _ _ (by simpa using h), getD_window, getD_window, if_pos h,
      if_pos (by omega)]
  · rw [List.getD_append_right _ _ _ _ (by simpa using h), length_window, getD_window, getD_window]
    by_cases hb : i - a < b
    · rw [if_pos hb, if_pos (by omega)]
      congr 1
      omega
    · rw [if_neg hb, if_neg (by omega)]

theorem window_resize (v : List UInt8) (n off len : Nat) (h : off + len ≤ n) :
    window (resize v n) off len = window v off len := by
  refine ext_getD (by simp) fun i hi => ?_
  have hi : i < len := by simpa using hi
  rw [getD_window, getD_window, if_pos hi, if_pos hi, getD_resize, if_pos (by omega)]

/-- A window that ends past the vector is filled up with zeros. -/
theorem resize_window {a : Nat} (h : v.length ≤ off + a) :
    resize (window v off a) len = window v off len := by
  refine ext_getD (by simp) fun i hi => ?_
  have hi : i < len := by simpa using hi
  rw [getD_resize, if_pos hi, getD_window, getD_window, if_pos hi]
  split
  · rfl
  · rw [List.getD_eq_default _ _ (by omega)]

/-! ## Exact ranges -/

/-- The bytes from `start` to `stop`, when the range lies in `v`. -/
def cut (v : List UInt8) (start stop : Nat) : Option (List UInt8) :=
  if start ≤ stop ∧ stop ≤ v.length then some ((v.drop start).take (stop - start)) else none

theorem cut_eq_some {start stop : Nat} : cut v start stop = some w ↔
    start ≤ stop ∧ stop ≤ v.length ∧ w = (v.drop start).take (stop - start) := by
  unfold cut
  split
  · rename_i h
    rw [Option.some.injEq]
    exact ⟨fun e => ⟨h.1, h.2, e.symm⟩, fun e => e.2.2.symm⟩
  · rename_i h
    simp only [reduceCtorEq, false_iff]
    rintro ⟨h₁, h₂, _⟩
    exact h ⟨h₁, h₂⟩

theorem length_of_cut {start stop : Nat} (h : cut v start stop = some w) :
    w.length = stop - start := by
  obtain ⟨_, _, rfl⟩ := cut_eq_some.mp h
  simp
  omega

/-- A range of a range. -/
theorem cut_cut {start stop a b : Nat} (h : cut v start stop = some w) (ha : start ≤ a)
    (hab : a ≤ b) (hb : b ≤ stop) : cut w (a - start) (b - start) = cut v a b := by
  obtain ⟨_, hlen, rfl⟩ := cut_eq_some.mp h
  have hr : cut v a b = some ((v.drop a).take (b - a)) := cut_eq_some.mpr ⟨hab, by omega, rfl⟩
  rw [hr, cut_eq_some]
  refine ⟨by omega, by simp; omega, ?_⟩
  rw [List.drop_take, List.drop_drop, List.take_take]
  congr 1
  · omega
  · congr 1
    omega

/-- The bytes `b` stand in `v` at `off`. -/
def At (v : List UInt8) (off : Nat) (b : List UInt8) : Prop :=
  off + b.length ≤ v.length ∧ (v.drop off).take b.length = b

/-- Parts stand one after another. -/
theorem at_append {a : List UInt8} : At v off (a ++ b) ↔ At v off a ∧ At v (off + a.length) b := by
  unfold At
  rw [List.length_append, List.take_add, List.drop_drop]
  constructor
  · rintro ⟨hlen, heq⟩
    have hfirst : ((v.drop off).take a.length).length = a.length := by
      rw [List.length_take, List.length_drop]
      omega
    obtain ⟨ha, hb⟩ := List.append_inj heq hfirst
    exact ⟨⟨by omega, ha⟩, by omega, hb⟩
  · rintro ⟨⟨-, ha⟩, hlen, hb⟩
    exact ⟨by omega, by rw [ha, hb]⟩

theorem At.eq {a : List UInt8} (ha : At v off a) (hb : At v off b) (h : a.length = b.length) :
    a = b := by
  rw [← ha.2, ← hb.2, h]

theorem at_window (h : off + len ≤ v.length) : At v off (window v off len) := by
  refine ⟨by rwa [length_window], ?_⟩
  rw [length_window, take_drop_eq_window h]

theorem at_self (v : List UInt8) : At v 0 v := by
  simp [At]

/-! ## Paged vectors -/

/-- Byte `i` of the image whose pages, numbered from one, are `page` and `ps` bytes long. -/
def pageByte (ps : Nat) (page : Nat → List UInt8) (i : Nat) : UInt8 :=
  (page (i / ps + 1)).getD (i % ps) 0

/-- The first `n` bytes of the image with the pages `page`. -/
def paged (ps : Nat) (page : Nat → List UInt8) (n : Nat) : List UInt8 :=
  (List.range n).map (pageByte ps page)

variable {ps : Nat} {page page' : Nat → List UInt8}

@[simp] theorem length_paged (ps : Nat) (page : Nat → List UInt8) (n : Nat) :
    (paged ps page n).length = n := by
  simp [paged]

theorem getD_paged (ps : Nat) (page : Nat → List UInt8) (n i : Nat) :
    (paged ps page n).getD i 0 = if i < n then pageByte ps page i else 0 := by
  unfold paged
  rw [List.getD_eq_getElem?_getD, List.getElem?_map]
  split
  · rename_i h
    rw [List.getElem?_range h]
    rfl
  · rename_i h
    rw [List.getElem?_eq_none (by simpa using h)]
    rfl

/-- A vector is the paged image when its bytes are. -/
theorem eq_paged (hl : v.length = n) (h : ∀ i < n, v.getD i 0 = pageByte ps page i) :
    v = paged ps page n := by
  apply ext_getD (by simpa using hl)
  intro i hi
  rw [getD_paged, if_pos (by omega), h i (by omega)]

/-- Images with the same pages are the same. -/
theorem paged_congr (h : ∀ i < n, page (i / ps + 1) = page' (i / ps + 1)) :
    paged ps page n = paged ps page' n :=
  List.map_congr_left fun i hi => by rw [pageByte, pageByte, h i (List.mem_range.mp hi)]

/-- Cutting a vector into pages. -/
theorem pageByte_window (hps : 0 < ps) (h : ∀ p, page p =
      if 1 ≤ p ∧ p ≤ (v.length + ps - 1) / ps then window v ((p - 1) * ps) ps else zeros ps)
    (i : Nat) : pageByte ps page i = v.getD i 0 := by
  have hmod := Nat.mod_lt i hps
  rw [pageByte, h]
  split
  · rw [getD_window, if_pos hmod, Nat.add_sub_cancel, Nat.mul_comm, Nat.div_add_mod]
  · rename_i hout
    have hdiv : (v.length + ps - 1) / ps ≤ i / ps :=
      Nat.le_of_not_lt fun hlt => hout ⟨Nat.le_add_left 1 _, hlt⟩
    have hlt : v.length + ps - 1 < (i / ps + 1) * ps :=
      (Nat.div_lt_iff_lt_mul hps).mp (Nat.lt_succ_of_le hdiv)
    rw [Nat.add_mul, Nat.one_mul] at hlt
    have hle : i / ps * ps ≤ i := Nat.div_mul_le_self i ps
    rw [getD_zeros, List.getD_eq_default _ _ (by omega)]

/-- Clearing the pages above `k` clears the bytes from `k * ps` on. -/
theorem pageByte_cut {k : Nat} (hps : 0 < ps)
    (h : ∀ p, page' p = if k < p then zeros ps else page p) (i : Nat) :
    pageByte ps page' i = if i < k * ps then pageByte ps page i else 0 := by
  unfold pageByte
  have hlt : i < k * ps ↔ ¬ k < i / ps + 1 := by
    rw [← Nat.div_lt_iff_lt_mul hps]
    omega
  by_cases hk : k < i / ps + 1
  · rw [h, if_pos hk, if_neg (by rw [hlt]; exact not_not.mpr hk), getD_zeros]
  · rw [h, if_neg hk, if_pos (hlt.mpr hk)]

theorem add_div_mod {j : Nat} (h : i % ps + j < ps) :
    (i + j) / ps = i / ps ∧ (i + j) % ps = i % ps + j := by
  have hps : 0 < ps := by omega
  have e : i + j = ps * (i / ps) + (i % ps + j) := by
    have := Nat.div_add_mod i ps
    omega
  rw [e, Nat.mul_add_div hps, Nat.mul_add_mod, Nat.div_eq_of_lt h, Nat.mod_eq_of_lt h]
  exact ⟨rfl, rfl⟩

/-- A window inside one page is a piece of the page. -/
theorem window_paged {amount : Nat} (hlen : (page (i / ps + 1)).length = ps)
    (hfit : i % ps + amount ≤ ps) (hn : i + amount ≤ n) :
    ((page (i / ps + 1)).drop (i % ps)).take amount = window (paged ps page n) i amount := by
  refine ext_getD (by simp; omega) fun j hj => ?_
  have hj : j < amount := by simp at hj; omega
  have hin : i % ps + j < ps := by omega
  obtain ⟨hd, hm⟩ := add_div_mod hin
  rw [getD_take, if_pos hj, getD_drop, getD_window, if_pos hj, getD_paged, if_pos (by omega),
    pageByte, hd, hm]

/-! ## Writing a range -/

section Patched

/-- Byte `i` after `input` is written at `start`, when the covered pages that `blank` selects are
cleared first. -/
def patched (ps : Nat) (blank : Nat → Prop) [DecidablePred blank] (old : Nat → UInt8) (start : Nat)
    (input : List UInt8) (i : Nat) : UInt8 :=
  if start ≤ i ∧ i < start + input.length then input.getD (i - start) 0
  else if blank (i / ps + 1) ∧ input ≠ [] ∧ start / ps ≤ i / ps ∧
    i / ps ≤ (start + input.length - 1) / ps then 0
  else old i

variable {blank : Nat → Prop} [DecidablePred blank] {old : Nat → UInt8}

@[simp] theorem patched_nil (start i : Nat) : patched ps blank old start [] i = old i := by
  unfold patched
  rw [if_neg (by simp), if_neg (by simp)]

/-- Writing two adjacent pieces that meet at a page boundary is writing them at once. -/
theorem patched_append {start : Nat} {a b : List UInt8} (hps : 0 < ps) (ha : a ≠ [])
    (hb : b = [] ∨ ps ∣ start + a.length) (i : Nat) :
    patched ps blank (patched ps blank old start a) (start + a.length) b i =
      patched ps blank old start (a ++ b) i := by
  rcases hb with rfl | hb
  · simp
  by_cases hbn : b = []
  · simp [hbn]
  have hla : 0 < a.length := List.length_pos_iff.mpr ha
  have hlb : 0 < b.length := List.length_pos_iff.mpr hbn
  -- the last byte of the first piece lies on the page before the second piece
  obtain ⟨k, hk⟩ := hb
  have hend : (start + a.length - 1) / ps = k - 1 ∧ (start + a.length) / ps = k ∧ 0 < k := by
    have hk0 : 0 < k := by
      by_contra h
      have : k = 0 := by omega
      subst this
      omega
    refine ⟨?_, by rw [hk, Nat.mul_div_cancel_left _ hps], hk0⟩
    obtain ⟨j, rfl⟩ : ∃ j, k = j + 1 := ⟨k - 1, by omega⟩
    rw [hk, Nat.mul_succ, Nat.add_sub_assoc hps, Nat.mul_add_div hps,
      Nat.div_eq_of_lt (by omega)]
    rfl
  obtain ⟨hlast, hnext, hk0⟩ := hend
  have hsd : start / ps ≤ k - 1 := hlast ▸ Nat.div_le_div_right (by omega)
  have hbd : k ≤ (start + (a.length + b.length) - 1) / ps := hnext ▸ Nat.div_le_div_right (by omega)
  have hmono : i < start + a.length → i / ps ≤ k - 1 := fun h =>
    hlast ▸ Nat.div_le_div_right (by omega)
  have hmono' : start + a.length ≤ i → k ≤ i / ps := fun h => hnext ▸ Nat.div_le_div_right h
  unfold patched
  simp only [List.length_append, ne_eq, ha, hbn, not_false_eq_true, List.append_eq_nil_iff,
    and_self, true_and, hlast, hnext, ← Nat.add_assoc] at *
  by_cases h₁ : start + a.length ≤ i ∧ i < start + a.length + b.length
  · rw [if_pos h₁, if_pos (by omega), List.getD_append_right _ _ _ _ (by omega)]
    congr 1
    omega
  rw [if_neg h₁]
  by_cases h₂ : start ≤ i ∧ i < start + a.length
  · have := hmono h₂.2
    rw [if_neg (fun h => by omega), if_pos h₂, if_pos (by omega), List.getD_append _ _ _ _ (by omega)]
  · rw [if_neg h₂, if_neg (by omega : ¬ (start ≤ i ∧ i < start + a.length + b.length))]
    by_cases hblank : blank (i / ps + 1)
    · simp only [hblank, true_and]
      split_ifs <;> first | rfl | omega
    · simp [hblank]

/-- Writing inside one page. -/
theorem pageByte_overwrite (blank : Nat → Prop) [DecidablePred blank] {start : Nat}
    {page page' : Nat → List UInt8} {base piece : List UInt8}
    (hpiece : piece ≠ []) (hfit : start % ps + piece.length ≤ ps)
    (hbase : piece.length < ps →
      base = if blank (start / ps + 1) then zeros ps else page (start / ps + 1))
    (hpage : ∀ q, page' q =
      if q = start / ps + 1 then overwrite base (start % ps) piece else page q) (i : Nat) :
    pageByte ps page' i = patched ps blank (pageByte ps page) start piece i := by
  have hpos : 0 < piece.length := List.length_pos_iff.mpr hpiece
  have hps : 0 < ps := by omega
  have hds := Nat.div_add_mod start ps
  have hdi := Nat.div_add_mod i ps
  have hmi := Nat.mod_lt i hps
  have hend : (start + piece.length - 1) / ps = start / ps := by
    rw [Nat.add_sub_assoc hpos]
    exact (add_div_mod (by omega)).1
  unfold patched
  rw [hend, pageByte, hpage]
  by_cases hsame : i / ps = start / ps
  · rw [if_pos (by omega), getD_overwrite]
    rw [hsame] at hdi
    by_cases hin : start % ps ≤ i % ps ∧ i % ps < start % ps + piece.length
    · rw [if_pos hin, if_pos (by omega)]
      congr 1
      omega
    · rw [if_neg hin, if_neg (by omega), hbase (by omega), hsame]
      by_cases hblank : blank (start / ps + 1)
      · rw [if_pos hblank, getD_zeros, if_pos ⟨hblank, hpiece, Nat.le_refl _, Nat.le_refl _⟩]
      · simp [hblank, pageByte, hsame]
  · have hout : ¬ (start ≤ i ∧ i < start + piece.length) := by
      rintro ⟨h₁, h₂⟩
      have h₃ : start / ps ≤ i / ps := Nat.div_le_div_right h₁
      have h₄ : i / ps ≤ (start + piece.length - 1) / ps := Nat.div_le_div_right (by omega)
      omega
    rw [if_neg (by omega), if_neg hout, if_neg (by omega)]
    rfl

end Patched

/-! ## Chunks -/

/-- Chunk `i` of `ps` bytes. -/
def slice (ps : Nat) (v : List UInt8) (i : Nat) : List UInt8 := (v.drop (i * ps)).take ps

/-- The complete chunks of `ps` bytes, in order. -/
def chunks (ps : Nat) (v : List UInt8) : List (List UInt8) :=
  (List.range (v.length / ps)).map (slice ps v)

theorem slice_succ (ps : Nat) (v : List UInt8) (i : Nat) :
    slice ps v (i + 1) = slice ps (v.drop ps) i := by
  unfold slice
  rw [List.drop_drop, Nat.succ_mul, Nat.add_comm]

/-- Chunks determine the bytes. -/
theorem eq_of_slice {ps n : Nat} {v w : List UInt8} (hv : v.length = n * ps)
    (hw : w.length = n * ps) (h : ∀ i < n, slice ps v i = slice ps w i) : v = w := by
  induction n generalizing v w with
  | zero =>
      rw [Nat.zero_mul, List.length_eq_zero_iff] at hv hw
      rw [hv, hw]
  | succ n ih =>
      rw [Nat.succ_mul] at hv hw
      have hhead : v.take ps = w.take ps := by
        simpa [slice] using h 0 (by omega)
      have htail : v.drop ps = w.drop ps := by
        refine ih (by rw [List.length_drop]; omega) (by rw [List.length_drop]; omega) fun i hi => ?_
        rw [← slice_succ, ← slice_succ]
        exact h (i + 1) (by omega)
      rw [← List.take_append_drop ps v, hhead, htail, List.take_append_drop]

/-- Chunks of a concatenation of chunks. -/
theorem slice_flatten {ps : Nat} {l : List (List UInt8)} (h : ∀ b ∈ l, b.length = ps) {i : Nat}
    {b : List UInt8} (hi : l[i]? = some b) : slice ps l.flatten i = b := by
  induction l generalizing i with
  | nil => cases hi
  | cons c l ih =>
      have hc : c.length = ps := h c (by simp)
      cases i with
      | zero =>
          cases hi
          simp [slice, ← hc]
      | succ i =>
          have hd : ((c ++ l.flatten).drop ((i + 1) * ps)) = l.flatten.drop (i * ps) := by
            rw [List.drop_append, List.drop_eq_nil_of_le (by rw [hc]; exact Nat.le_mul_of_pos_left ps i.succ_pos), List.nil_append,
              show (i + 1) * ps - c.length = i * ps by rw [hc, Nat.succ_mul, Nat.add_sub_cancel]]
          simpa [slice, hd] using ih (fun b hb => h b (by simp [hb])) hi

theorem length_flatten_const {ps : Nat} {l : List (List UInt8)} (h : ∀ b ∈ l, b.length = ps) :
    l.flatten.length = l.length * ps := by
  induction l with
  | nil => simp
  | cons b l ih =>
      rw [List.flatten_cons, List.length_append, h b (by simp), ih fun c hc => h c (by simp [hc]),
        List.length_cons, Nat.succ_mul, Nat.add_comm]

theorem chunks_flatten {ps : Nat} (hps : 0 < ps) {l : List (List UInt8)}
    (h : ∀ b ∈ l, b.length = ps) : chunks ps l.flatten = l := by
  have hlen : l.flatten.length / ps = l.length := by
    rw [length_flatten_const h, Nat.mul_div_cancel _ hps]
  refine List.ext_getElem? fun i => ?_
  rw [chunks, hlen, List.getElem?_map]
  by_cases hi : i < l.length
  · rw [List.getElem?_range hi, Option.map_some, List.getElem?_eq_getElem hi,
      slice_flatten h (List.getElem?_eq_getElem hi)]
  · rw [List.getElem?_eq_none (by simpa using hi), List.getElem?_eq_none (by simpa using hi),
      Option.map_none]

end ByteVec
