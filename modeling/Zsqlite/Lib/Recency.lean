import Mathlib.Data.List.Basic
import Mathlib.Data.List.Nodup
import Mathlib.Data.List.Perm.Basic
import Mathlib.Logic.Function.Basic

set_option autoImplicit false

/-! # Recency lists

Two views of the same list of keys, most recently used first.

* `Links`: a doubly linked list whose links are kept per key. `Linked` says that a given list is
  what the links spell, in both directions and at both ends; taking a key out and putting one in
  front keep it (`Linked.unlink`, `Linked.promote`).
* `Recent`: a list is ordered by last use, with the uses given as a log, newest first. Using a
  key moves it to the front, dropping keys keeps the order.
-/

namespace Recency

variable {κ : Type}

/-! ## Linked keys -/

structure Links (κ : Type) where
  prev : κ → Option κ
  next : κ → Option κ
  first : Option κ
  last : Option κ

namespace Links

variable (L : Links κ)

section Edit

variable [DecidableEq κ]

/-- Point the neighbours of `k` past it. -/
def unlink (k : κ) : Links κ where
  prev j := if L.next k = some j then L.prev k else L.prev j
  next j := if L.prev k = some j then L.next k else L.next j
  first := if L.prev k = none then L.next k else L.first
  last := if L.next k = none then L.prev k else L.last

/-- Put `k` in front of the first key. -/
def promote (k : κ) : Links κ where
  prev j := if L.first = some j then some k else if j = k then none else L.prev j
  next j := if j = k then L.first else L.next j
  first := some k
  last := if L.first = none then some k else L.last

end Edit

/-- The links spell the list `l`, forwards and backwards. -/
structure Linked (l : List κ) : Prop where
  nodup : l.Nodup
  first : L.first = l.head?
  last : L.last = l.getLast?
  prev : ∀ pre k post, l = pre ++ k :: post → L.prev k = pre.getLast?
  next : ∀ pre k post, l = pre ++ k :: post → L.next k = post.head?

variable {L} {L' : Links κ} {l : List κ} {k : κ}

/-- Only the links of the listed keys matter. -/
theorem Linked.congr (h : L.Linked l) (hf : L'.first = L.first) (hl : L'.last = L.last)
    (hp : ∀ k ∈ l, L'.prev k = L.prev k) (hn : ∀ k ∈ l, L'.next k = L.next k) : L'.Linked l where
  nodup := h.nodup
  first := hf.trans h.first
  last := hl.trans h.last
  prev pre k post e := (hp k (by simp [e])).trans (h.prev pre k post e)
  next pre k post e := (hn k (by simp [e])).trans (h.next pre k post e)

theorem linked_nil {p n : κ → Option κ} : Linked ⟨p, n, none, none⟩ ([] : List κ) where
  nodup := .nil
  first := rfl
  last := rfl
  prev pre k post e := by simp at e
  next pre k post e := by simp at e

theorem Linked.mem_of_first (h : L.Linked l) (hf : L.first = some k) : k ∈ l :=
  List.mem_of_mem_head? (h.first ▸ hf)

theorem Linked.mem_of_prev (h : L.Linked l) (hk : k ∈ l) {a : κ} (ha : L.prev k = some a) :
    a ∈ l := by
  obtain ⟨pre, post, rfl⟩ := List.append_of_mem hk
  rw [h.prev pre k post rfl] at ha
  exact List.mem_append_left _ (List.mem_of_getLast? ha)

theorem Linked.mem_of_next (h : L.Linked l) (hk : k ∈ l) {b : κ} (hb : L.next k = some b) :
    b ∈ l := by
  obtain ⟨pre, post, rfl⟩ := List.append_of_mem hk
  rw [h.next pre k post rfl] at hb
  exact List.mem_append_right _ (List.mem_cons_of_mem _ (List.mem_of_mem_head? hb))

/-- A key of `pre ++ post` stands in one of the two parts. -/
theorem split_append {pre post pre' post' : List κ} {j : κ} (e : pre ++ post = pre' ++ j :: post') :
    (∃ mid, pre = pre' ++ j :: mid ∧ post' = mid ++ post) ∨
      ∃ mid, post = mid ++ j :: post' ∧ pre' = pre ++ mid := by
  rcases List.append_eq_append_iff.mp e with ⟨mid, hpre, hpost⟩ | ⟨mid, hpre, htail⟩
  · exact .inr ⟨mid, hpost, hpre⟩
  · cases mid with
    | nil =>
        right
        exact ⟨[], by simpa using htail.symm, by simpa using hpre.symm⟩
    | cons b mid =>
        obtain ⟨rfl, rfl⟩ : j = b ∧ post' = mid ++ post := by simpa using htail
        exact .inl ⟨mid, hpre, rfl⟩

variable [DecidableEq κ]

theorem Linked.unlink_split {pre post : List κ} (h : L.Linked (pre ++ k :: post)) :
    (L.unlink k).Linked (pre ++ post) := by
  have hprev : L.prev k = pre.getLast? := h.prev pre k post rfl
  have hnext : L.next k = post.head? := h.next pre k post rfl
  have hnodup : (pre ++ post).Nodup := h.nodup.sublist (by simp)
  obtain ⟨hnpre, hnpost, hdisj⟩ := List.nodup_append.mp hnodup
  refine ⟨hnodup, ?_, ?_, ?_, ?_⟩
  · simp only [unlink, hprev, hnext, h.first]
    cases pre with
    | nil => simp
    | cons a pre => simp
  · simp only [unlink, hprev, hnext, h.last]
    cases post with
    | nil => simp
    | cons b post => simp
  · -- Backwards, only the key after `k` changes.
    intro pre' j post' e
    simp only [unlink, hprev, hnext]
    rcases split_append e with ⟨mid, hpre, -⟩ | ⟨mid, hpost, rfl⟩
    · have hj : post.head? ≠ some j := fun hj =>
        hdisj j (by simp [hpre]) j (List.mem_of_mem_head? hj) rfl
      rw [if_neg hj, h.prev pre' j (mid ++ k :: post) (by simp [hpre])]
    · cases mid with
      | nil => simp [hpost]
      | cons b mid =>
          have hj : post.head? ≠ some j := by
            rw [hpost] at hnpost ⊢
            rintro ⟨⟩
            simp at hnpost
          rw [if_neg hj, h.prev (pre ++ k :: b :: mid) j post' (by simp [hpost])]
          simp [List.getLast?_append, List.getLast?_cons]
  · -- Forwards, only the key before `k` changes.
    intro pre' j post' e
    simp only [unlink, hprev, hnext]
    rcases split_append e with ⟨mid, hpre, rfl⟩ | ⟨mid, hpost, rfl⟩
    · cases mid with
      | nil => simp [hpre]
      | cons b mid =>
          have hj : pre.getLast? ≠ some j := by
            intro hj
            rw [hpre] at hnpre hj
            have hmem : j ∈ b :: mid := by
              rw [List.getLast?_append, List.getLast?_cons_cons,
                List.getLast?_eq_some_getLast (List.cons_ne_nil b mid), Option.some_or] at hj
              exact Option.some.inj hj ▸ List.getLast_mem _
            exact (List.nodup_cons.mp (List.nodup_append.mp hnpre).2.1).1 hmem
          rw [if_neg hj, h.next pre' j (b :: mid ++ k :: post) (by simp [hpre])]
          rfl
    · have hj : pre.getLast? ≠ some j := fun hj =>
        hdisj j (List.mem_of_getLast? hj) j (by simp [hpost]) rfl
      rw [if_neg hj, h.next (pre ++ k :: mid) j post' (by simp [hpost])]

/-- **Taking a listed key out.** -/
theorem Linked.unlink (h : L.Linked l) (hk : k ∈ l) : (L.unlink k).Linked (l.erase k) := by
  obtain ⟨pre, post, rfl, hpre⟩ := List.eq_append_cons_of_mem hk
  have := h.unlink_split
  rwa [List.erase_append_right _ hpre, List.erase_cons_head]

/-- **Putting an unlisted key in front.** -/
theorem Linked.promote (h : L.Linked l) (hk : k ∉ l) : (L.promote k).Linked (k :: l) := by
  refine ⟨List.nodup_cons.mpr ⟨hk, h.nodup⟩, rfl, ?_, ?_, ?_⟩
  · simp only [Links.promote, h.first, h.last]
    cases l with
    | nil => simp
    | cons a l => simp
  · intro pre j post e
    simp only [Links.promote, h.first]
    cases pre with
    | nil =>
        obtain ⟨rfl, rfl⟩ : k = j ∧ l = post := by simpa using e
        have hne : l.head? ≠ some k := fun hne => hk (List.mem_of_mem_head? hne)
        simp [hne]
    | cons b pre =>
        obtain ⟨rfl, rfl⟩ : k = b ∧ l = pre ++ j :: post := by simpa using e
        have hj : j ≠ k := fun e => hk (by simp [e])
        cases pre with
        | nil => simp
        | cons a pre =>
            have hne : (a :: pre ++ j :: post).head? ≠ some j := by
              rintro ⟨⟩
              have := h.nodup
              simp at this
            rw [if_neg hne, if_neg hj, h.prev (a :: pre) j post rfl, List.getLast?_cons_cons]
  · intro pre j post e
    simp only [Links.promote]
    cases pre with
    | nil =>
        obtain ⟨rfl, rfl⟩ : k = j ∧ l = post := by simpa using e
        simp [h.first]
    | cons b pre =>
        obtain ⟨rfl, rfl⟩ : k = b ∧ l = pre ++ j :: post := by simpa using e
        have hj : j ≠ k := fun e => hk (by simp [e])
        rw [if_neg hj, h.next pre j post rfl]

end Links

/-! ## Order of last use -/

variable [DecidableEq κ]

/-- `l` lists keys by their last use in `log`, both newest first. -/
def Recent (log l : List κ) : Prop := l.Pairwise fun a b => log.idxOf a < log.idxOf b

variable {log l l' : List κ} {k : κ}

theorem recent_nil : Recent log ([] : List κ) := List.Pairwise.nil

theorem Recent.sublist (h : Recent log l) (hs : l'.Sublist l) : Recent log l' :=
  List.Pairwise.sublist hs h

/-- **Using a key** puts it in front of the others. -/
theorem Recent.touch (h : Recent log l) (hk : k ∉ l) : Recent (k :: log) (k :: l) := by
  have hne : ∀ a ∈ l, a ≠ k := fun a ha e => hk (e ▸ ha)
  refine List.pairwise_cons.mpr ⟨fun a ha => ?_, ?_⟩
  · rw [List.idxOf_cons_self, List.idxOf_cons_ne _ (hne a ha).symm]
    omega
  · refine (List.pairwise_iff_forall_sublist).mpr fun {a b} hs => ?_
    have hab := (List.pairwise_iff_forall_sublist).mp h hs
    have ha : a ∈ l := hs.subset (by simp)
    have hb : b ∈ l := hs.subset (by simp)
    rw [List.idxOf_cons_ne _ (hne a ha).symm, List.idxOf_cons_ne _ (hne b hb).symm]
    omega

/-- The last key was used before every other one. -/
theorem Recent.oldest (h : Recent log l) (hl : l.getLast? = some k) :
    ∀ a ∈ l, a ≠ k → log.idxOf a < log.idxOf k := by
  obtain ⟨init, rfl⟩ := List.getLast?_eq_some_iff.mp hl
  intro a ha hne
  have ha : a ∈ init := by
    rcases List.mem_append.mp ha with ha | ha
    · exact ha
    · exact absurd (List.mem_singleton.mp ha) hne
  exact (List.pairwise_append.mp h).2.2 a ha k (by simp)

end Recency
