import Mathlib.Logic.Relation
import Mathlib.Data.List.Nodup

set_option autoImplicit false

/-! # Content-addressed chains

Records that name their predecessor by its hash form chains. With an injective hash a head
determines its chain (`Chain.unique`), so no chain runs into itself (`Chain.nodup`), although
nothing is assumed about which hashes exist. `resolve` reads a chain of partial maps newest
first: the first record that mentions a key decides, and it may decide that the key is absent.
-/

namespace HashChain

variable {ρ ι κ ν : Type}

/-- Records with an identity and a predecessor. -/
structure Format (ρ ι : Type) where
  hash : ρ → ι
  parent : ρ → Option ι
  injective : Function.Injective hash

/-- The records from a head to the first one, newest first. -/
inductive Chain (F : Format ρ ι) : Option ι → List ρ → Prop
  | nil : Chain F none []
  | cons (r : ρ) {l : List ρ} : Chain F (F.parent r) l → Chain F (some (F.hash r)) (r :: l)

/-- `a` names `b` as its predecessor. -/
def Format.Links (F : Format ρ ι) (a b : ι) : Prop := ∃ r, F.hash r = a ∧ F.parent r = some b

/-- `id` is on the way from a head. -/
def Format.Reachable (F : Format ρ ι) (head : Option ι) (id : ι) : Prop :=
  ∃ h, head = some h ∧ Relation.ReflTransGen F.Links h id

section Chain

variable {F : Format ρ ι} {head : Option ι} {l l' : List ρ} {r : ρ} {id : ι}

theorem Chain.eq_nil (h : Chain F none l) : l = [] := by
  cases h
  rfl

theorem Chain.of_some (h : Chain F (some id) l) :
    ∃ r rest, l = r :: rest ∧ id = F.hash r ∧ Chain F (F.parent r) rest := by
  cases h with
  | cons r h => exact ⟨r, _, rfl, rfl, h⟩

/-- A head determines its chain. -/
theorem Chain.unique (h : Chain F head l) (h' : Chain F head l') : l = l' := by
  induction h generalizing l' with
  | nil => exact h'.eq_nil.symm
  | cons r _ ih =>
      obtain ⟨r', rest, rfl, hr, h'⟩ := h'.of_some
      cases F.injective hr
      rw [ih h']

/-- Every record of a chain starts a part of it. -/
theorem Chain.suffix (h : Chain F head l) (hr : r ∈ l) :
    ∃ rest, Chain F (F.parent r) rest ∧ rest.length < l.length := by
  induction h with
  | nil => cases hr
  | cons r' h ih =>
      rcases List.mem_cons.mp hr with rfl | hr
      · exact ⟨_, h, Nat.lt_succ_self _⟩
      · obtain ⟨rest, hrest, hlt⟩ := ih hr
        exact ⟨rest, hrest, Nat.lt_succ_of_lt hlt⟩

/-- A record is not on the chain of its predecessor: the part of that chain below the record
would be the whole chain again. -/
theorem Chain.not_mem (h : Chain F (F.parent r) l) : r ∉ l := by
  intro hr
  obtain ⟨rest, hrest, hlt⟩ := h.suffix hr
  rw [hrest.unique h] at hlt
  exact Nat.lt_irrefl _ hlt

theorem Chain.nodup (h : Chain F head l) : (l.map F.hash).Nodup := by
  refine List.Nodup.map F.injective ?_
  induction h with
  | nil => exact List.nodup_nil
  | cons r h ih => exact List.nodup_cons.mpr ⟨h.not_mem, ih⟩

/-- A chain holds exactly what can be reached from its head. -/
theorem Chain.mem_iff (h : Chain F head l) : id ∈ l.map F.hash ↔ F.Reachable head id := by
  induction h with
  | nil => simp [Format.Reachable]
  | cons r h ih =>
      rw [List.map_cons, List.mem_cons, ih]
      constructor
      · rintro (rfl | ⟨next, hnext, hreach⟩)
        · exact ⟨_, rfl, .refl⟩
        · exact ⟨_, rfl, .head ⟨r, rfl, hnext⟩ hreach⟩
      · rintro ⟨_, hhead, hreach⟩
        cases hhead
        rcases Relation.ReflTransGen.cases_head hreach with rfl | ⟨next, ⟨r', hr', hnext⟩, hreach⟩
        · exact .inl rfl
        · cases F.injective hr'
          exact .inr ⟨next, hnext, hreach⟩

end Chain

/-- What the newest record that mentions a key says about it. -/
def resolve (find : ρ → κ → Option (Option ν)) : List ρ → κ → Option ν
  | [], _ => none
  | r :: l, k => (find r k).getD (resolve find l k)

end HashChain
