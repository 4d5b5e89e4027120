import Mathlib.Data.List.Basic

set_option autoImplicit false

/-! # Association lists

Maps that keep the order in which keys were added, as lists of pairs with distinct keys. An entry
that is found can be put in front of the others (`perm_lookup`), which is what sums over the
entries need when one of them goes.
-/

namespace Assoc

variable {α β : Type} {m : List (α × β)} {key : α} {value : β}

theorem filter_of_notMem [DecidableEq α] (h : key ∉ m.map Prod.fst) : (m.filter fun p => p.1 ≠ key) = m := by
  refine List.filter_eq_self.mpr fun p hp => decide_eq_true fun heq => h ?_
  exact List.mem_map.mpr ⟨p, hp, heq⟩

section Lookup

variable [BEq α] [LawfulBEq α]

theorem mem_of_lookup (h : m.lookup key = some value) : (key, value) ∈ m := by
  induction m with
  | nil => cases h
  | cons p m ih =>
      rw [List.lookup_cons] at h
      split at h
      · rename_i hk
        cases h
        rw [eq_of_beq hk]
        exact List.mem_cons_self
      · exact List.mem_cons_of_mem _ (ih h)

theorem notMem_of_lookup (h : m.lookup key = none) : key ∉ m.map Prod.fst := by
  induction m with
  | nil => exact List.not_mem_nil
  | cons p m ih =>
      rw [List.lookup_cons] at h
      split at h
      · cases h
      · rename_i hk
        rw [List.map_cons, List.mem_cons, not_or]
        exact ⟨fun heq => by simp [heq] at hk, ih h⟩

theorem lookup_of_mem (hkeys : (m.map Prod.fst).Nodup) {p : α × β} (hp : p ∈ m) :
    m.lookup p.1 = some p.2 := by
  induction m with
  | nil => cases hp
  | cons q m ih =>
      rw [List.map_cons, List.nodup_cons] at hkeys
      rw [List.lookup_cons]
      rcases List.mem_cons.mp hp with rfl | hp
      · rw [beq_self_eq_true]
      · have hne : p.1 ≠ q.1 := fun heq => hkeys.1 (heq ▸ List.mem_map_of_mem hp)
        rw [beq_false_of_ne hne]
        exact ih hkeys.2 hp

/-- **The entry of a key and the others.** -/
theorem perm_lookup [DecidableEq α] (hkeys : (m.map Prod.fst).Nodup) (h : m.lookup key = some value) :
    m.Perm ((key, value) :: m.filter fun p => p.1 ≠ key) := by
  induction m with
  | nil => cases h
  | cons p m ih =>
      obtain ⟨k, v⟩ := p
      rw [List.map_cons, List.nodup_cons] at hkeys
      rw [List.lookup_cons] at h
      by_cases hk : key = k
      · subst hk
        simp only [beq_self_eq_true] at h
        cases h
        rw [List.filter_cons_of_neg (by simp), filter_of_notMem hkeys.1]
      · have hne : (key == k) = false := beq_false_of_ne hk
        rw [hne] at h
        rw [List.filter_cons_of_pos (by simpa using Ne.symm hk)]
        exact (List.Perm.cons _ (ih hkeys.2 h)).trans (List.Perm.swap _ _ _)

end Lookup

end Assoc
