import Mathlib.Data.Finset.Max
import Mathlib.Data.Finset.Card
import Mathlib.Order.Lattice

set_option autoImplicit false

/-! # The smallest elements of a growing set

A sample of bounded size that keeps the smallest elements seen so far. `Smallest k S T` says that
`T` are the `k` smallest elements of `S` (all of `S` when it has no more). There is only one such
`T`, so a sample that keeps `Smallest` does not depend on the order in which elements came.

An element that comes is ignored, added, or added with the largest one dropped; each of the three
keeps `Smallest` under the condition a sampler can test.
-/

namespace Sampling

variable {α : Type} [LinearOrder α] {k : Nat} {S T T' : Finset α} {a : α}

/-- `T` are the `k` smallest elements of `S`. -/
structure Smallest (k : Nat) (S T : Finset α) : Prop where
  subset : T ⊆ S
  card : T.card = min k S.card
  below : ∀ a ∈ T, ∀ b ∈ S, b ∉ T → a < b

namespace Smallest

theorem empty (k : Nat) : Smallest k (∅ : Finset α) ∅ :=
  ⟨Finset.Subset.refl _, by simp, fun a ha => absurd ha (Finset.notMem_empty a)⟩

/-- Of two such sets of one size, neither has an element the other lacks. -/
theorem subset_of (h : Smallest k S T) (h' : Smallest k S T') : T ⊆ T' := by
  intro a ha
  by_contra hna
  -- Then `T'` has an element that `T` lacks, and each of the two would be below the other.
  have hcard : T'.card = T.card := h'.card.trans h.card.symm
  obtain ⟨b, hb, hnb⟩ : ∃ b ∈ T', b ∉ T := by
    by_contra hall
    push Not at hall
    have heq : T' = T := Finset.eq_of_subset_of_card_le hall hcard.ge
    exact hna (heq ▸ ha)
  have hab := h.below a ha b (h'.subset hb) hnb
  have hba := h'.below b hb a (h.subset ha) hna
  exact lt_asymm hab hba

/-- **The smallest elements are unique.** -/
theorem unique (h : Smallest k S T) (h' : Smallest k S T') : T = T' :=
  Finset.Subset.antisymm (h.subset_of h') (h'.subset_of h)

theorem eq_of_card_lt (h : Smallest k S T) (hlt : T.card < k) : T = S := by
  refine Finset.eq_of_subset_of_card_le h.subset ?_
  have := h.card
  omega

/-- An element that is already kept. -/
theorem insert_mem (h : Smallest k S T) (ha : a ∈ T) : Smallest k (insert a S) T := by
  rwa [Finset.insert_eq_of_mem (h.subset ha)]

/-- A new element while there is room. -/
theorem insert_of_card_lt (h : Smallest k S T) (ha : a ∉ T) (hlt : T.card < k) :
    Smallest k (insert a S) (insert a T) := by
  obtain rfl := h.eq_of_card_lt hlt
  refine ⟨Finset.Subset.refl _, ?_, fun b _ c hc hnc => absurd hc hnc⟩
  rw [Finset.card_insert_of_notMem ha]
  omega

/-- An element that is no smaller than those of a full sample. -/
theorem insert_of_le (h : Smallest k S T) (ha : a ∉ T) (hfull : T.card = k)
    (hle : ∀ b ∈ T, b ≤ a) : Smallest k (insert a S) T := by
  refine ⟨h.subset.trans (Finset.subset_insert a S), ?_, fun b hb c hc hnc => ?_⟩
  · have hcard := h.card
    have := Finset.card_le_card (Finset.subset_insert a S)
    omega
  · rcases Finset.mem_insert.mp hc with rfl | hc
    · exact lt_of_le_of_ne (hle b hb) fun e => ha (e ▸ hb)
    · exact h.below b hb c hc hnc

/-- A smaller element takes the place of the largest of a full sample. -/
theorem insert_erase (h : Smallest k S T) (ha : a ∉ T) (hfull : T.card = k) {m : α} (hm : m ∈ T)
    (hmax : ∀ b ∈ T, b ≤ m) (hlt : a < m) :
    Smallest k (insert a S) ((insert a T).erase m) := by
  have ham : a ≠ m := hlt.ne
  refine ⟨?_, ?_, fun b hb c hc hnc => ?_⟩
  · exact (Finset.erase_subset _ _).trans (Finset.insert_subset_insert a h.subset)
  · have hcard := h.card
    have := Finset.card_le_card (Finset.subset_insert a S)
    rw [Finset.card_erase_of_mem (Finset.mem_insert_of_mem hm), Finset.card_insert_of_notMem ha]
    omega
  · obtain ⟨hbm, hb⟩ := Finset.mem_erase.mp hb
    have hbm' : b < m := by
      rcases Finset.mem_insert.mp hb with rfl | hb
      · exact hlt
      · exact lt_of_le_of_ne (hmax b hb) hbm
    -- What is not kept is the old largest element, or was not kept before.
    by_cases hcm : c = m
    · exact hcm ▸ hbm'
    · have hcT : c ∉ insert a T := fun hin => hnc (Finset.mem_erase.mpr ⟨hcm, hin⟩)
      have hcS : c ∈ S := (Finset.mem_insert.mp hc).resolve_left fun e =>
        hcT (Finset.mem_insert.mpr (.inl e))
      have hmc := h.below m hm c hcS fun hin => hcT (Finset.mem_insert_of_mem hin)
      exact hbm'.trans hmc

end Smallest

end Sampling
