import Zsqlite.Lib.Outcome
import Mathlib.Data.List.Destutter
import Mathlib.Data.List.Chain

set_option autoImplicit false

/-! # Greedy grouping

One pass over a list puts every element into the last group when that group takes it and
opens a new group otherwise. `Cut` describes what such a pass leaves: the elements, cut into
consecutive parts, one part for each group. What a group says about its part is proved from
its first element and one joining step (`Cut.forall₂`), and what holds between neighbouring
groups from the refusal that separated them (`Cut.isChain`).
-/

namespace List.Forall₂

variable {α β : Type} {R : α → β → Prop} {l : List α} {m : List β} {i : Nat} {a : α} {b : β}

theorem getElem? (h : Forall₂ R l m) (ha : l[i]? = some a) (hb : m[i]? = some b) : R a b := by
  obtain ⟨_, rfl⟩ := List.getElem?_eq_some_iff.mp ha
  obtain ⟨_, rfl⟩ := List.getElem?_eq_some_iff.mp hb
  exact h.get _ _

/-- The partner of an element of the first list. -/
theorem exists_right (h : Forall₂ R l m) (ha : l[i]? = some a) : ∃ b, m[i]? = some b ∧ R a b := by
  have hi : i < m.length := h.length_eq ▸ (List.getElem?_eq_some_iff.mp ha).1
  exact ⟨m[i], List.getElem?_eq_getElem hi, h.getElem? ha (List.getElem?_eq_getElem hi)⟩

/-- The partner of an element of the second list. -/
theorem exists_left (h : Forall₂ R l m) (hb : m[i]? = some b) : ∃ a, l[i]? = some a ∧ R a b := by
  have hi : i < l.length := h.length_eq ▸ (List.getElem?_eq_some_iff.mp hb).1
  exact ⟨l[i], List.getElem?_eq_getElem hi, h.getElem? (List.getElem?_eq_getElem hi) hb⟩

theorem of_getElem? (hl : l.length = m.length)
    (h : ∀ (i : Nat) a b, l[i]? = some a → m[i]? = some b → R a b) : Forall₂ R l m :=
  forall₂_iff_get.mpr ⟨hl, fun i ha hb =>
    h i _ _ (List.getElem?_eq_getElem ha) (List.getElem?_eq_getElem hb)⟩

theorem congr_mem {S : α → β → Prop} (h : ∀ a ∈ l, ∀ b, R a b ↔ S a b) :
    Forall₂ R l m ↔ Forall₂ S l m := by
  induction l generalizing m with
  | nil => simp
  | cons a l ih =>
      cases m with
      | nil => simp
      | cons b m =>
          rw [forall₂_cons, forall₂_cons, h a (by simp) b, ih fun c hc => h c (by simp [hc])]

end List.Forall₂

/-- Removing adjacent repetitions loses no element. -/
theorem List.mem_destutter_ne {α : Type} [DecidableEq α] {l : List α} {a : α} :
    a ∈ l.destutter (· ≠ ·) ↔ a ∈ l := by
  refine ⟨fun h => (List.destutter_sublist _ l).subset h, fun h => ?_⟩
  have key : ∀ (l : List α) (b : α), a ∈ b :: l → a ∈ l.destutter' (· ≠ ·) b := by
    intro l
    induction l with
    | nil =>
        intro b h
        simpa using h
    | cons c l ih =>
        intro b h
        rcases List.mem_cons.mp h with rfl | h
        · exact List.mem_destutter' _ _ _
        · by_cases hbc : b ≠ c
          · rw [List.destutter'_cons_pos _ hbc]
            exact List.mem_cons_of_mem _ (ih c h)
          · rw [List.destutter'_cons_neg _ hbc]
            obtain rfl := not_ne_iff.mp hbc
            exact ih b h
  cases l with
  | nil => cases h
  | cons b l => exact key l b h

/-- One more element is removed exactly when it repeats the last one. -/
theorem List.destutter_ne_concat {α : Type} [DecidableEq α] (l : List α) (a : α) :
    (l ++ [a]).destutter (· ≠ ·) =
      if l.getLast? = some a then l.destutter (· ≠ ·) else l.destutter (· ≠ ·) ++ [a] := by
  have key : ∀ (l : List α) (b : α), (l ++ [a]).destutter' (· ≠ ·) b =
      if (b :: l).getLast? = some a then l.destutter' (· ≠ ·) b
      else l.destutter' (· ≠ ·) b ++ [a] := by
    intro l
    induction l with
    | nil =>
        intro b
        by_cases h : b = a
        · simp [h]
        · simp [h]
    | cons c l ih =>
        intro b
        rw [List.getLast?_cons_cons, List.cons_append]
        by_cases hbc : b ≠ c
        · rw [List.destutter'_cons_pos _ hbc, List.destutter'_cons_pos _ hbc, ih c]
          split <;> rfl
        · rw [List.destutter'_cons_neg _ hbc, List.destutter'_cons_neg _ hbc, ih b]
          obtain rfl := not_ne_iff.mp hbc
          rfl
  cases l with
  | nil => simp
  | cons b l => exact key l b

/-- A sorted list without adjacent repetitions is strictly sorted. -/
theorem List.Pairwise.destutter_ne {α : Type} [DecidableEq α] {le : α → α → Prop} [IsTrans α le]
    [Std.Antisymm le] {l : List α} (h : l.Pairwise le) :
    (l.destutter (· ≠ ·)).Pairwise fun a b => le a b ∧ a ≠ b := by
  have : Trans (fun a b : α => le a b ∧ a ≠ b) (fun a b => le a b ∧ a ≠ b)
      (fun a b => le a b ∧ a ≠ b) := by
    refine ⟨fun {a b c} hab hbc => ⟨IsTrans.trans _ _ _ hab.1 hbc.1, ?_⟩⟩
    rintro rfl
    exact hab.2 (antisymm hab.1 hbc.1)
  have hle := (h.sublist (List.destutter_sublist (· ≠ ·) l)).isChain
  have hne := List.isChain_destutter (· ≠ ·) l
  rw [List.isChain_iff_getElem] at hle hne
  rw [← List.isChain_iff_pairwise, List.isChain_iff_getElem]
  exact fun i hi => ⟨hle i hi, hne i hi⟩

namespace Greedy

variable {ε α β : Type}

/-- Put `a` into the last group when `join` takes it, else open a group with it. -/
def absorb (single : α → Except ε β) (join : β → α → Except ε (Option β)) (groups : List β)
    (a : α) : Except ε (List β) := do
  match groups.getLast? with
  | none => return groups ++ [← single a]
  | some last =>
      match ← join last a with
      | some joined => return groups.dropLast ++ [joined]
      | none => return groups ++ [← single a]

/-- `groups` are what the pass makes of the elements of `parts`, part by part. -/
inductive Cut (single : α → Except ε β) (join : β → α → Except ε (Option β)) :
    List (List α) → List β → Prop
  | nil : Cut single join [] []
  | opened {parts groups a group} : Cut single join parts groups → single a = .ok group →
      (∀ last, groups.getLast? = some last → join last a = .ok none) →
      Cut single join (parts ++ [[a]]) (groups ++ [group])
  | joined {parts groups part group a group'} :
      Cut single join (parts ++ [part]) (groups ++ [group]) → join group a = .ok (some group') →
      Cut single join (parts ++ [part ++ [a]]) (groups ++ [group'])

variable {single : α → Except ε β} {join : β → α → Except ε (Option β)} {parts : List (List α)}
  {groups groups' : List β} {a : α}

theorem Cut.length_eq (h : Cut single join parts groups) : parts.length = groups.length := by
  induction h with
  | nil => rfl
  | opened _ _ _ ih => simp [ih]
  | joined _ _ ih => simpa using ih

/-- One step of the pass: the last part grows by the element, or a part is added. -/
theorem Cut.absorb (h : Cut single join parts groups)
    (ha : absorb single join groups a = .ok groups') :
    ∃ parts', Cut single join parts' groups' ∧
      (parts' = parts ++ [[a]] ∨
        ∃ init part, parts = init ++ [part] ∧ parts' = init ++ [part ++ [a]]) := by
  unfold Greedy.absorb at ha
  cases hlast : groups.getLast? with
  | none =>
      rw [hlast] at ha
      obtain ⟨group, hgroup, ha⟩ := Except.bind_eq_ok.mp ha
      cases ha
      exact ⟨_, .opened h hgroup (by simp [hlast]), .inl rfl⟩
  | some last =>
      rw [hlast] at ha
      obtain ⟨outcome, hjoin, ha⟩ := Except.bind_eq_ok.mp ha
      cases outcome with
      | none =>
          obtain ⟨group, hgroup, ha⟩ := Except.bind_eq_ok.mp ha
          cases ha
          refine ⟨_, .opened h hgroup fun other hother => ?_, .inl rfl⟩
          cases hlast.symm.trans hother
          exact hjoin
      | some joined =>
          cases ha
          obtain ⟨init, rfl⟩ := List.getLast?_eq_some_iff.mp hlast
          -- There is a last part because there is a last group.
          have hne : parts ≠ [] := by
            intro hnil
            have := h.length_eq
            simp [hnil] at this
          obtain ⟨initParts, part, rfl⟩ : ∃ initParts part, parts = initParts ++ [part] :=
            ⟨_, _, (List.dropLast_append_getLast hne).symm⟩
          rw [List.dropLast_concat]
          exact ⟨_, .joined h hjoin, .inr ⟨initParts, part, rfl, rfl⟩⟩

/-- The step returns when a group can be opened and the last group decides. -/
theorem absorb_returns (hsingle : ∃ group, single a = .ok group)
    (hjoin : ∀ last, groups.getLast? = some last → ∃ outcome, join last a = .ok outcome) :
    ∃ groups', absorb single join groups a = .ok groups' := by
  obtain ⟨group, hgroup⟩ := hsingle
  unfold absorb
  cases hlast : groups.getLast? with
  | none => exact ⟨_, Except.bind_eq_ok.mpr ⟨group, hgroup, rfl⟩⟩
  | some last =>
      obtain ⟨outcome, houtcome⟩ := hjoin last hlast
      cases outcome with
      | none => exact ⟨_, Except.bind_eq_ok.mpr ⟨_, houtcome, Except.bind_eq_ok.mpr
          ⟨group, hgroup, rfl⟩⟩⟩
      | some joined => exact ⟨_, Except.bind_eq_ok.mpr ⟨_, houtcome, rfl⟩⟩

theorem forall₂_concat {R : List α → β → Prop} {part : List α} {group : β} :
    List.Forall₂ R (parts ++ [part]) (groups ++ [group]) ↔
      List.Forall₂ R parts groups ∧ R part group := by
  rw [← List.forall₂_reverse_iff]
  simp [and_comm]

section Rules

variable {R : List α → β → Prop} {le : α → α → Prop} (h : Cut single join parts groups)
  (sorted : parts.flatten.Pairwise le) (first : ∀ a group, single a = .ok group → R [a] group)
  (next : ∀ part group a group', R part group → (∀ x ∈ part, le x a) →
    join group a = .ok (some group') → R (part ++ [a]) group')

include h sorted first next

/-- What a group says about its part, from its first element and one joining step. The
elements arrive in the order of `le`. -/
theorem Cut.forall₂ : List.Forall₂ R parts groups := by
  induction h with
  | nil => exact .nil
  | opened _ hgroup _ ih =>
      rw [List.flatten_append, List.pairwise_append] at sorted
      exact forall₂_concat.mpr ⟨ih sorted.1, first _ _ hgroup⟩
  | joined _ hjoin ih =>
      obtain ⟨hinit, hlast⟩ := forall₂_concat.mp (ih (sorted.sublist (by simp)))
      refine forall₂_concat.mpr ⟨hinit, next _ _ _ _ hlast (fun x hx => ?_) hjoin⟩
      rw [List.flatten_append, List.pairwise_append] at sorted
      simp only [List.flatten_cons, List.flatten_nil, List.append_nil] at sorted
      exact (List.pairwise_append.mp sorted.2.1).2.2 x hx _ (by simp)

/-- The part of the last group. -/
theorem Cut.getLast {last : β} (hlast : groups.getLast? = some last) :
    ∃ init part, parts = init ++ [part] ∧ R part last := by
  have hall := h.forall₂ sorted first next
  obtain ⟨init, rfl⟩ := List.getLast?_eq_some_iff.mp hlast
  have hne : parts ≠ [] := by
    intro hnil
    have := h.length_eq
    simp [hnil] at this
  rw [← List.dropLast_append_getLast hne] at hall
  exact ⟨_, _, (List.dropLast_append_getLast hne).symm, (forall₂_concat.mp hall).2⟩

/-- What holds between neighbouring groups, from the refusal that separated them: the refused
element comes after the whole part of the group that refused it. -/
theorem Cut.isChain {S : β → β → Prop}
    (refused : ∀ part group a group', R part group → (∀ x ∈ part, le x a) →
      join group a = .ok none → single a = .ok group' → S group group')
    (grown : ∀ before group a group', S before group → join group a = .ok (some group') →
      S before group') : groups.IsChain S := by
  induction h with
  | nil => exact .nil
  | opened h hgroup hrefused ih =>
      rw [List.flatten_append, List.pairwise_append] at sorted
      obtain ⟨hsorted, -, hbefore⟩ := sorted
      refine List.isChain_append.mpr ⟨ih hsorted, .singleton _, fun last hlast group' hgroup' => ?_⟩
      obtain rfl : _ = group' := by simpa using hgroup'
      obtain ⟨init, part, rfl, hR⟩ := h.getLast hsorted first next hlast
      exact refused part last _ _ hR (fun x hx => hbefore x (by simp [hx]) _ (by simp))
        (hrefused last hlast) hgroup
  | joined _ hjoin ih =>
      obtain ⟨hinit, -, hlast⟩ := List.isChain_append.mp (ih (sorted.sublist (by simp)))
      refine List.isChain_append.mpr ⟨hinit, .singleton _, fun before hbefore group hgroup => ?_⟩
      obtain rfl : _ = group := by simpa using hgroup
      exact grown before _ _ _ (hlast before hbefore _ (by simp)) hjoin

end Rules

end Greedy
