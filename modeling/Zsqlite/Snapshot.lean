import Zsqlite.Lib.Cursor
import Zsqlite.Lib.Machine
import Zsqlite.PinnedView

set_option autoImplicit false

/-! # Reads of a pinned snapshot

The read-only image of `vfs/readonly.rs`: reads at any offset of a pinned view, through a map of
decoded pages. Every cached page carries the stamp of its last use, and a second map goes from
stamps to pages; the page with the smallest stamp is the one to evict. Before the clock would
overflow the stamps are numbered again from zero.

`Coherent` is the invariant: the two maps are inverse to each other, all stamps are in the past,
and stamps are ordered as the pages were last used. One call of `page` keeps it whether or not
the load fails (`page_spec`).
-/

namespace Zsqlite

open ByteVec

structure Snapshot where
  view : PinnedView
  pages : BTreeMap Nat (Bytes × Nat)
  lru : BTreeMap Nat Nat
  clock : Nat
  capacity : Nat

variable (E : Env)

namespace Snapshot

variable (s : Snapshot)

/-- Load a page of the view; `faults` are the loads that fail. -/
def loadPage (faults : Nat → Option StoreError) (number : Nat) : Except StoreError Bytes :=
  match faults number with
  | some error => .error error
  | none => s.view.readPage E number

/-- Give the listed pages the stamps from zero on. -/
def stampAll (numbers : List Nat) (pages : BTreeMap Nat (Bytes × Nat)) :
    Except Stop (BTreeMap Nat (Bytes × Nat) × BTreeMap Nat Nat) :=
  numbers.zipIdx.foldlM (fun maps entry =>
    match maps.1[entry.1]? with
    | none => .error .panicked
    | some page =>
        .ok (maps.1.insert entry.1 (page.1, entry.2), maps.2.insert entry.2 entry.1)) (pages, ∅)

/-- Renumber before overflow. -/
def renumber : Except Stop Snapshot :=
  if s.clock = u64Max then do
    let maps ← stampAll (s.lru.toList.map Prod.snd) s.pages
    return { s with pages := maps.1, lru := maps.2, clock := s.pages.size }
  else .ok s

/-- Drop the page with the smallest stamp when there is no room for another. -/
def evict : Snapshot :=
  if s.capacity ≤ s.pages.size then
    match s.lru.minKey? with
    | some stamp =>
        match s.lru[stamp]? with
        | some victim =>
            { s with pages := s.pages.erase victim, lru := s.lru.erase stamp }
        | none => s
    | none => s
  else s

/-- Put a page under a stamp. -/
def use (number : Nat) (bytes : Bytes) (stamp : Nat) : Snapshot :=
  { s with pages := s.pages.insert number (bytes, stamp), lru := s.lru.insert stamp number }

/-- One page through the cache. A failed load leaves a snapshot behind. -/
def page (faults : Nat → Option StoreError) (number : Nat) :
    Except (Stop × Snapshot) (Bytes × Snapshot) :=
  match s.renumber with
  | .error stop => .error (stop, s)
  | .ok s =>
      let stamp := s.clock
      let s := { s with clock := (s.clock + 1) % 2 ^ 64 }
      match s.pages[number]? with
      | some (bytes, old) =>
          .ok (bytes, { s with lru := s.lru.erase old }.use number bytes stamp)
      | none =>
          match s.loadPage E faults number with
          | .error error => .error (.failed error, s)
          | .ok bytes => .ok (bytes, s.evict.use number bytes stamp)

/-! ## The invariant -/

/-- **The two maps.** `log` lists the pages used, newest first. -/
structure Coherent (s : Snapshot) (log : List Nat) : Prop where
  stamped : ∀ (stamp number : Nat), s.lru[stamp]? = some number ↔
    ∃ bytes, s.pages[number]? = some (bytes, stamp)
  before : ∀ (stamp number : Nat), s.lru[stamp]? = some number → stamp < s.clock
  recent : ∀ (a b p q : Nat), s.lru[a]? = some p → s.lru[b]? = some q → a < b →
    log.idxOf q < log.idxOf p
  loaded : ∀ (number : Nat) bytes stamp, s.pages[number]? = some (bytes, stamp) →
    s.view.readPage E number = .ok bytes
  clock : s.clock ≤ u64Max

variable {s E} {log : List Nat}

namespace Coherent

/-- A page has one stamp. -/
theorem stamp_unique (h : s.Coherent E log) {a b p : Nat} (ha : s.lru[a]? = some p)
    (hb : s.lru[b]? = some p) : a = b := by
  obtain ⟨bytes, hp⟩ := (h.stamped a p).mp ha
  obtain ⟨bytes', hp'⟩ := (h.stamped b p).mp hb
  rw [hp] at hp'
  exact (Prod.mk.inj (Option.some.inj hp')).2

/-- Stamps from zero on: every listed page gets its position. -/
theorem stampAll_spec {numbers : List Nat} (hn : numbers.Nodup)
    {pages : BTreeMap Nat (Bytes × Nat)} (hcached : ∀ n ∈ numbers, n ∈ pages) :
    ∃ pages' lru', stampAll numbers pages = .ok (pages', lru') ∧
      (∀ (i n : Nat), numbers[i]? = some n → ∃ b old, pages[n]? = some (b, old) ∧
        pages'[n]? = some (b, i)) ∧
      (∀ n : Nat, n ∉ numbers → pages'[n]? = pages[n]?) ∧
      ∀ (i n : Nat), lru'[i]? = some n ↔ numbers[i]? = some n := by
  have hmem : ∀ n i, (n, i) ∈ numbers.zipIdx ↔ numbers[i]? = some n := fun n i => by
    rw [List.mk_mem_zipIdx_iff_getElem?]
  obtain ⟨maps, hrun, hold, hnew, hlru⟩ := Except.foldlM_total
    (I := fun done (maps : BTreeMap Nat (Bytes × Nat) × BTreeMap Nat Nat) =>
      (∀ e ∈ done, ∃ b old, pages[e.1]? = some (b, old) ∧ maps.1[e.1]? = some (b, e.2)) ∧
      (∀ (n : Nat), (∀ e ∈ done, e.1 ≠ n) → maps.1[n]? = pages[n]?) ∧
      ∀ (i n : Nat), maps.2[i]? = some n ↔ (n, i) ∈ done)
    (f := fun maps (entry : Nat × Nat) =>
      match maps.1[entry.1]? with
      | none => (.error .panicked : Except Stop _)
      | some page =>
          .ok (maps.1.insert entry.1 (page.1, entry.2), maps.2.insert entry.2 entry.1))
    (l := numbers.zipIdx) (s := (pages, ∅))
    (fun done e rest maps hl hI => by
      obtain ⟨hold, hnew, hlru⟩ := hI
      have hfirst : ((done ++ e :: rest).map Prod.fst).Nodup := by
        rwa [← hl, List.zipIdx_map_fst]
      rw [List.map_append, List.map_cons, List.nodup_append] at hfirst
      have hfresh : ∀ d ∈ done, d.1 ≠ e.1 := fun d hd =>
        hfirst.2.2 d.1 (List.mem_map_of_mem hd) e.1 List.mem_cons_self
      have hin : e ∈ numbers.zipIdx := hl ▸ by simp
      have hindex : ∀ d ∈ done, d.2 ≠ e.2 := by
        intro d hd he
        have hd' : d ∈ numbers.zipIdx := hl ▸ by simp [hd]
        have h₁ := (hmem d.1 d.2).mp hd'
        have h₂ := (hmem e.1 e.2).mp hin
        rw [he, h₂] at h₁
        exact hfresh d hd (Option.some.inj h₁).symm
      have hmine : e.1 ∈ pages :=
        hcached e.1 (List.mem_of_getElem? ((hmem e.1 e.2).mp hin))
      obtain ⟨⟨b, old⟩, hb⟩ := Option.isSome_iff_exists.mp
        (Std.ExtTreeMap.mem_iff_isSome_getElem?.mp hmine)
      have hnow : maps.1[e.1]? = some (b, old) := (hnew e.1 hfresh).trans hb
      refine ⟨(maps.1.insert e.1 (b, e.2), maps.2.insert e.2 e.1), by simp only [hnow], ?_, ?_, ?_⟩
      · intro d hd
        rcases List.mem_append.mp hd with hd | hd
        · obtain ⟨b', old', h₁, h₂⟩ := hold d hd
          exact ⟨b', old', h₁, by rw [getElem?_insert_eq, if_neg (hfresh d hd), h₂]⟩
        · obtain rfl := List.mem_singleton.mp hd
          exact ⟨b, old, hb, by rw [getElem?_insert_eq, if_pos rfl]⟩
      · intro n hn
        rw [getElem?_insert_eq, if_neg (fun he => hn e (by simp) he.symm)]
        exact hnew n fun d hd => hn d (by simp [hd])
      · intro i n
        rw [getElem?_insert_eq, List.mem_append, List.mem_singleton]
        by_cases hi : i = e.2
        · rw [if_pos hi, Option.some.injEq]
          constructor
          · rintro rfl
            exact .inr (by rw [hi])
          · rintro (hd | he)
            · exact absurd hi (hindex _ hd)
            · rw [← he]
        · rw [if_neg hi, hlru]
          exact ⟨.inl, fun h => h.resolve_right fun he => hi (by rw [← he])⟩)
    ⟨by simp, fun _ _ => rfl, by simp⟩
  refine ⟨maps.1, maps.2, hrun, ?_, ?_, ?_⟩
  · intro i n hi
    exact hold (n, i) ((hmem n i).mpr hi)
  · intro n hn
    refine hnew n fun e he hen => hn ?_
    exact hen ▸ List.mem_of_getElem? ((hmem e.1 e.2).mp he)
  · intro i n
    rw [hlru, hmem]

/-- The pages by stamp, oldest first. -/
theorem numbers_spec (h : s.Coherent E log) :
    (s.lru.toList.map Prod.snd).Nodup ∧
    (∀ n, n ∈ s.lru.toList.map Prod.snd ↔ n ∈ s.pages) ∧
    ∀ (i j p q : Nat), (s.lru.toList.map Prod.snd)[i]? = some p →
      (s.lru.toList.map Prod.snd)[j]? = some q → i < j → log.idxOf q < log.idxOf p := by
  have hentry : ∀ e ∈ s.lru.toList, s.lru[e.1]? = some e.2 := fun e he =>
    Std.ExtTreeMap.mem_toList_iff_getElem?_eq_some.mp he
  have hordered : s.lru.toList.Pairwise fun a b => a.1 < b.1 :=
    Std.ExtTreeMap.ordered_keys_toList.imp fun hab => compare_lt_iff_lt.mp hab
  refine ⟨?_, fun n => ?_, fun i j p q hi hj hij => ?_⟩
  · refine List.pairwise_map.mpr (hordered.imp_of_mem fun {a b} ha hb hlt heq => ?_)
    have := h.stamp_unique (hentry a ha) (heq ▸ hentry b hb)
    omega
  · rw [Std.ExtTreeMap.mem_iff_isSome_getElem?, Option.isSome_iff_exists, List.mem_map]
    constructor
    · rintro ⟨e, he, rfl⟩
      obtain ⟨bytes, hp⟩ := (h.stamped e.1 e.2).mp (hentry e he)
      exact ⟨_, hp⟩
    · rintro ⟨⟨bytes, stamp⟩, hp⟩
      refine ⟨(stamp, n), ?_, rfl⟩
      exact Std.ExtTreeMap.mem_toList_iff_getElem?_eq_some.mpr ((h.stamped stamp n).mpr ⟨bytes, hp⟩)
  · rw [List.getElem?_map] at hi hj
    obtain ⟨a, ha, rfl⟩ := Option.map_eq_some_iff.mp hi
    obtain ⟨b, hb, rfl⟩ := Option.map_eq_some_iff.mp hj
    obtain ⟨hi', rfl⟩ := List.getElem?_eq_some_iff.mp ha
    obtain ⟨hj', rfl⟩ := List.getElem?_eq_some_iff.mp hb
    have hlt := List.pairwise_iff_getElem.mp hordered i j hi' hj' hij
    exact h.recent _ _ _ _ (hentry _ (List.getElem_mem hi')) (hentry _ (List.getElem_mem hj')) hlt

/-- Cached pages are pages of the view, so there are fewer than the clock can count. -/
theorem size_lt (h : s.Coherent E log) : s.pages.size < u64Max := by
  have hbound : ∀ n ∈ s.pages.keys, n ∈ List.range u32Max := by
    intro n hn
    obtain ⟨⟨bytes, stamp⟩, hp⟩ := Option.isSome_iff_exists.mp
      (Std.ExtTreeMap.mem_iff_isSome_getElem?.mp (Std.ExtTreeMap.mem_keys.mp hn))
    have hread := h.loaded n bytes stamp hp
    have hle : n ≤ s.view.size.pages := by
      by_contra hlt
      rw [PinnedView.readPage, if_pos (by omega)] at hread
      cases hread
    exact List.mem_range.mpr (hle.trans_lt s.view.size.bounded)
  have := (List.subperm_of_subset Std.ExtTreeMap.nodup_keys hbound).length_le
  rw [Std.ExtTreeMap.length_keys, List.length_range] at this
  exact this.trans_lt (by decide)

/-- **Renumbering** keeps the pages and the order of their last use. -/
theorem renumber (h : s.Coherent E log) :
    ∃ s', s.renumber = .ok s' ∧ s'.Coherent E log ∧ s'.view = s.view ∧
      s'.capacity = s.capacity ∧ s'.clock < u64Max ∧ ∀ n, n ∈ s'.pages ↔ n ∈ s.pages := by
  unfold Snapshot.renumber
  split
  · obtain ⟨hnodup, hmem, horder⟩ := h.numbers_spec
    obtain ⟨pages, lru, hrun, hpage, hother, hlru⟩ := stampAll_spec hnodup
      fun n hn => (hmem n).mp hn
    have hlen : (s.lru.toList.map Prod.snd).length = s.pages.size := by
      rw [← Std.ExtTreeMap.length_keys]
      exact ((List.perm_ext_iff_of_nodup hnodup Std.ExtTreeMap.nodup_keys).mpr fun n => by
        rw [hmem, Std.ExtTreeMap.mem_keys]).length_eq
    -- A cached page has its position as its stamp.
    have hstamp : ∀ (n : Nat) bytes stamp, pages[n]? = some (bytes, stamp) ↔
        (s.lru.toList.map Prod.snd)[stamp]? = some n ∧ ∃ old, s.pages[n]? = some (bytes, old) := by
      intro n bytes stamp
      constructor
      · intro hp
        have hn : n ∈ s.lru.toList.map Prod.snd := by
          by_contra hn
          rw [hother n hn] at hp
          exact hn ((hmem n).mpr (Std.ExtTreeMap.mem_iff_isSome_getElem?.mpr (by rw [hp]; rfl)))
        obtain ⟨i, hi⟩ := List.mem_iff_getElem?.mp hn
        obtain ⟨b, old, hold, hnew⟩ := hpage i n hi
        rw [hnew] at hp
        cases hp
        exact ⟨hi, old, hold⟩
      · rintro ⟨hi, old, hold⟩
        obtain ⟨b, old', hold', hnew⟩ := hpage stamp n hi
        rw [hold] at hold'
        cases hold'
        exact hnew
    refine ⟨{ s with pages, lru, clock := s.pages.size }, by rw [Except.bind_of_ok hrun]; rfl,
      ⟨fun stamp n => ?_, fun stamp n hs => ?_, fun a b p q ha hb hab => ?_,
        fun n bytes stamp hp => ?_, h.size_lt.le⟩, rfl, rfl, h.size_lt, fun n => ?_⟩
    · rw [hlru]
      constructor
      · intro hi
        obtain ⟨b, old, hold, hnew⟩ := hpage stamp n hi
        exact ⟨b, hnew⟩
      · rintro ⟨bytes, hp⟩
        exact ((hstamp n bytes stamp).mp hp).1
    · have hi := (hlru stamp n).mp hs
      rw [← hlen]
      exact (List.getElem?_eq_some_iff.mp hi).1
    · exact horder a b p q ((hlru a p).mp ha) ((hlru b q).mp hb) hab
    · obtain ⟨-, old, hold⟩ := (hstamp n bytes stamp).mp hp
      exact h.loaded n bytes old hold
    · by_cases hn : n ∈ s.lru.toList.map Prod.snd
      · refine iff_of_true ?_ ((hmem n).mp hn)
        obtain ⟨i, hi⟩ := List.mem_iff_getElem?.mp hn
        obtain ⟨b, old, -, hnew⟩ := hpage i n hi
        exact Std.ExtTreeMap.mem_iff_isSome_getElem?.mpr (by rw [hnew]; rfl)
      · rw [Std.ExtTreeMap.mem_iff_isSome_getElem?, Std.ExtTreeMap.mem_iff_isSome_getElem?,
          hother n hn]
  · rename_i hclock
    have := h.clock
    exact ⟨s, rfl, h, rfl, rfl, by omega, fun _ => Iff.rfl⟩

/-- Dropping a page with its stamp. -/
theorem drop (h : s.Coherent E log) {stamp number : Nat} (hs : s.lru[stamp]? = some number) :
    ({ s with pages := s.pages.erase number, lru := s.lru.erase stamp } : Snapshot).Coherent E
      log := by
  have hback : ∀ (a p : Nat), (s.lru.erase stamp)[a]? = some p → a ≠ stamp ∧ s.lru[a]? = some p := by
    intro a p ha
    rw [getElem?_erase_eq] at ha
    split at ha
    · cases ha
    · rename_i hne
      exact ⟨hne, ha⟩
  refine ⟨fun a p => ?_, fun a p ha => h.before a p (hback a p ha).2,
    fun a b p q ha hb => h.recent a b p q (hback a p ha).2 (hback b q hb).2,
    fun n bytes a hp => ?_, h.clock⟩
  · simp only [getElem?_erase_eq]
    by_cases ha : a = stamp
    · rw [if_pos ha]
      refine iff_of_false (by simp) ?_
      rintro ⟨bytes, hp⟩
      split at hp
      · cases hp
      · rename_i hne
        subst ha
        exact hne (Option.some.inj (((h.stamped a p).mpr ⟨bytes, hp⟩).symm.trans hs))
    · rw [if_neg ha]
      by_cases hp : p = number
      · rw [if_pos hp]
        refine iff_of_false (fun hap => ha (h.stamp_unique hap (hp ▸ hs))) (by simp)
      · rw [if_neg hp]
        exact h.stamped a p
  · rw [getElem?_erase_eq] at hp
    split at hp
    · cases hp
    · exact h.loaded n bytes a hp

/-- Using a page that is not cached, under a stamp later than all others. -/
theorem use (h : s.Coherent E log) {number stamp : Nat} {bytes : Bytes}
    (hnew : s.pages[number]? = none) (hlate : ∀ (a p : Nat), s.lru[a]? = some p → a < stamp)
    (hstamp : stamp < s.clock) (hread : s.view.readPage E number = .ok bytes) :
    (s.use number bytes stamp).Coherent E (number :: log) := by
  have hne : ∀ (a p : Nat), s.lru[a]? = some p → p ≠ number := by
    rintro a p ha rfl
    obtain ⟨b, hb⟩ := (h.stamped a p).mp ha
    rw [hnew] at hb
    cases hb
  refine ⟨fun a p => ?_, fun a p ha => ?_, fun a b p q ha hb hab => ?_, fun n b a hp => ?_,
    h.clock⟩
  · simp only [Snapshot.use, getElem?_insert_eq]
    by_cases hp : p = number
    · subst hp
      rw [if_pos rfl]
      constructor
      · intro ha
        split at ha
        · rename_i hs
          exact ⟨bytes, by rw [hs]⟩
        · exact absurd rfl (hne a p ha)
      · rintro ⟨b, hb⟩
        cases hb
        rw [if_pos rfl]
    · rw [if_neg hp, ← h.stamped]
      split
      · rename_i hs
        refine iff_of_false (fun he => hp (Option.some.inj he).symm) fun ha => ?_
        exact absurd (hlate a p ha) (by omega)
      · rfl
  · simp only [Snapshot.use, getElem?_insert_eq] at ha ⊢
    split at ha
    · rename_i hs
      exact hs ▸ hstamp
    · exact h.before a p ha
  · simp only [Snapshot.use, getElem?_insert_eq] at ha hb
    split at ha
    · -- Nothing is later than the new stamp.
      rename_i hs
      split at hb
      · omega
      · have := hlate b q hb
        omega
    · rw [List.idxOf_cons_ne _ (hne a p ha).symm]
      split at hb
      · cases hb
        rw [List.idxOf_cons_self]
        omega
      · rw [List.idxOf_cons_ne _ (hne b q hb).symm]
        exact Nat.succ_lt_succ (h.recent a b p q ha hb hab)
  · simp only [Snapshot.use, getElem?_insert_eq] at hp ⊢
    split at hp
    · rename_i hn
      cases hp
      exact hn ▸ hread
    · exact h.loaded n b a hp

/-- **Eviction** makes room and drops nothing but the page used the longest ago. -/
theorem evict (h : s.Coherent E log) (hsize : s.pages.size ≤ s.capacity) (hcap : s.capacity ≠ 0) :
    s.evict.Coherent E log ∧ s.evict.view = s.view ∧ s.evict.capacity = s.capacity ∧
      s.evict.clock = s.clock ∧ s.evict.pages.size < s.capacity ∧
      (∀ (a p : Nat), s.evict.lru[a]? = some p → s.lru[a]? = some p) ∧
      (∀ n ∈ s.evict.pages, n ∈ s.pages) ∧
      ∀ p ∈ s.pages, p ∉ s.evict.pages → s.pages.size = s.capacity ∧
        ∀ q ∈ s.pages, q ≠ p → log.idxOf q < log.idxOf p := by
  unfold Snapshot.evict
  by_cases hfull : s.capacity ≤ s.pages.size
  · rw [if_pos hfull]
    have hcached : ∀ n ∈ s.pages, ∃ stamp : Nat, s.lru[stamp]? = some n := by
      intro n hn
      obtain ⟨⟨bytes, stamp⟩, hp⟩ := Option.isSome_iff_exists.mp
        (Std.ExtTreeMap.mem_iff_isSome_getElem?.mp hn)
      exact ⟨stamp, (h.stamped stamp n).mpr ⟨bytes, hp⟩⟩
    have hlru : s.lru ≠ ∅ := by
      intro hempty
      have hpages : s.pages.keys ≠ [] := by
        intro hkeys
        have := congrArg List.length hkeys
        rw [Std.ExtTreeMap.length_keys, List.length_nil] at this
        omega
      obtain ⟨n, hn⟩ := List.exists_mem_of_ne_nil _ hpages
      obtain ⟨stamp, hs⟩ := hcached n (Std.ExtTreeMap.mem_keys.mp hn)
      simp [hempty] at hs
    obtain ⟨least, hleast⟩ := Option.isSome_iff_exists.mp
      (Std.ExtTreeMap.isSome_minKey?_iff_ne_empty.mpr hlru)
    obtain ⟨hmem, hmin⟩ := Std.ExtTreeMap.minKey?_eq_some_iff_mem_and_forall.mp hleast
    obtain ⟨victim, hvictim⟩ := Option.isSome_iff_exists.mp
      (Std.ExtTreeMap.mem_iff_isSome_getElem?.mp hmem)
    simp only [hleast, hvictim]
    have hin : victim ∈ s.pages := by
      obtain ⟨bytes, hp⟩ := (h.stamped least victim).mp hvictim
      exact Std.ExtTreeMap.mem_iff_isSome_getElem?.mpr (by rw [hp]; rfl)
    have herase : ∀ n, n ∈ s.pages.erase victim ↔ n ≠ victim ∧ n ∈ s.pages := by
      intro n
      rw [Std.ExtTreeMap.mem_erase, ne_eq, compare_eq_iff_eq, eq_comm]
    refine ⟨h.drop hvictim, trivial, trivial, trivial, ?_, fun a p ha => ?_, fun n hn => ((herase n).mp hn).2,
      fun p hp hgone => ⟨by omega, fun q hq hne => ?_⟩⟩
    · rw [Std.ExtTreeMap.size_erase, if_pos (Std.ExtTreeMap.contains_iff_mem.mpr hin)]
      omega
    · rw [getElem?_erase_eq] at ha
      split at ha
      · cases ha
      · exact ha
    · obtain rfl : p = victim := by
        by_contra hne
        exact hgone ((herase p).mpr ⟨hne, hp⟩)
      obtain ⟨stamp, hs⟩ := hcached q hq
      have hle : least ≤ stamp := by
        have := hmin stamp (Std.ExtTreeMap.mem_iff_isSome_getElem?.mpr (by rw [hs]; rfl))
        exact Nat.isLE_compare.mp this
      refine h.recent least stamp p q hvictim hs (lt_of_le_of_ne hle ?_)
      rintro rfl
      exact hne (Option.some.inj (hs.symm.trans hvictim))
  · rw [if_neg hfull]
    refine ⟨h, rfl, rfl, rfl, by omega, fun _ _ ha => ha, fun _ hn => hn, fun p hp hgone => ?_⟩
    exact absurd hp hgone

/-- Advancing the clock. -/
theorem tick (h : s.Coherent E log) (hclock : s.clock < u64Max) :
    ({ s with clock := (s.clock + 1) % 2 ^ 64 } : Snapshot).Coherent E log ∧
      (s.clock + 1) % 2 ^ 64 = s.clock + 1 := by
  have hmod : (s.clock + 1) % 2 ^ 64 = s.clock + 1 := by
    refine Nat.mod_eq_of_lt ?_
    unfold u64Max at hclock
    omega
  refine ⟨⟨h.stamped, fun a p ha => ?_, h.recent, h.loaded, ?_⟩, hmod⟩
  · have := h.before a p ha
    dsimp only
    omega
  · dsimp only
    omega

/-- A hit drops the old stamp and takes a new one. -/
theorem hit (h : s.Coherent E log) {number old stamp : Nat} {bytes : Bytes}
    (hp : s.pages[number]? = some (bytes, old))
    (hlate : ∀ (a p : Nat), s.lru[a]? = some p → a < stamp) (hstamp : stamp < s.clock) :
    ({ s with lru := s.lru.erase old }.use number bytes stamp).Coherent E (number :: log) := by
  have hold : s.lru[old]? = some number := (h.stamped old number).mpr ⟨bytes, hp⟩
  have hsame : { s with lru := s.lru.erase old }.use number bytes stamp =
      { s with pages := s.pages.erase number, lru := s.lru.erase old }.use number bytes stamp := by
    have hpages : s.pages.insert number (bytes, stamp) =
        (s.pages.erase number).insert number (bytes, stamp) := by
      refine Std.ExtTreeMap.ext_getElem? fun n => ?_
      rw [getElem?_insert_eq, getElem?_insert_eq, getElem?_erase_eq]
      split <;> rfl
    simp only [Snapshot.use, hpages]
  rw [hsame]
  refine (h.drop hold).use ?_ (fun a p ha => ?_) hstamp (h.loaded number bytes old hp)
  · dsimp only
    rw [getElem?_erase_eq, if_pos rfl]
  · dsimp only at ha
    rw [getElem?_erase_eq] at ha
    split at ha
    · cases ha
    · exact hlate a p ha

end Coherent

/-- **One page.** The page is that of the view, a failed load changes no page, and only the page
used the longest ago is evicted, to make room for another. -/
theorem page_spec (h : s.Coherent E log) (hsize : s.pages.size ≤ s.capacity)
    (hcap : s.capacity ≠ 0) (faults : Nat → Option StoreError) (number : Nat) :
    (∃ error s', s.page E faults number = .error (.failed error, s') ∧
      s.loadPage E faults number = .error error ∧ s'.Coherent E log ∧ s'.view = s.view ∧
      s'.capacity = s.capacity ∧ s'.pages.size = s.pages.size ∧
      ∀ n, n ∈ s'.pages ↔ n ∈ s.pages) ∨
    ∃ bytes s', s.page E faults number = .ok (bytes, s') ∧
      s.view.readPage E number = .ok bytes ∧ s'.Coherent E (number :: log) ∧ s'.view = s.view ∧
      s'.capacity = s.capacity ∧ s'.pages.size ≤ s.capacity ∧
      (∀ n ∈ s'.pages, n = number ∨ n ∈ s.pages) ∧
      ∀ p ∈ s.pages, p ∉ s'.pages → number ∉ s.pages ∧ s.pages.size = s.capacity ∧
        ∀ q ∈ s.pages, q ≠ p → log.idxOf q < log.idxOf p := by
  obtain ⟨s₁, h₁, hc₁, hview, hcapacity, hclock, hkeys⟩ := h.renumber
  have hsize₁ : s₁.pages.size = s.pages.size := by
    rw [← Std.ExtTreeMap.length_keys, ← Std.ExtTreeMap.length_keys]
    refine List.Perm.length_eq ?_
    refine (List.perm_ext_iff_of_nodup Std.ExtTreeMap.nodup_keys Std.ExtTreeMap.nodup_keys).mpr ?_
    intro n
    rw [Std.ExtTreeMap.mem_keys, Std.ExtTreeMap.mem_keys, hkeys]
  obtain ⟨hc₂, htick⟩ := hc₁.tick hclock
  have hinsert : ∀ (m : BTreeMap Nat (Bytes × Nat)) v n, n ∈ m.insert number v ↔
      n = number ∨ n ∈ m := by
    intro m v n
    rw [Std.ExtTreeMap.mem_insert, compare_eq_iff_eq, eq_comm]
  simp only [page, h₁]
  cases hp : s₁.pages[number]? with
  | some entry =>
      right
      have hin : number ∈ s₁.pages := Std.ExtTreeMap.mem_iff_isSome_getElem?.mpr (by rw [hp]; rfl)
      refine ⟨_, _, rfl, hview ▸ hc₁.loaded number entry.1 entry.2 hp,
        hc₂.hit hp hc₁.before (by dsimp only; omega), hview, hcapacity, ?_, fun n hn => ?_,
        fun p hps hgone => ?_⟩
      · dsimp only [use]
        rw [Std.ExtTreeMap.size_insert, if_pos (Std.ExtTreeMap.contains_iff_mem.mpr hin)]
        omega
      · dsimp only [use] at hn
        rwa [hinsert, hkeys] at hn
      · refine absurd ?_ hgone
        dsimp only [use]
        rw [hinsert, hkeys]
        exact .inr hps
  | none =>
      have habsent : number ∉ s.pages := by
        rw [← hkeys, Std.ExtTreeMap.mem_iff_isSome_getElem?, hp]
        exact Bool.false_ne_true
      have hload : ({ s₁ with clock := (s₁.clock + 1) % 2 ^ 64 } : Snapshot).loadPage E faults
          number = s.loadPage E faults number := by
        simp only [loadPage, hview]
      rw [hload]
      cases hl : s.loadPage E faults number with
      | error error => exact .inl ⟨error, _, rfl, rfl, hc₂, hview, hcapacity, hsize₁, hkeys⟩
      | ok bytes =>
          right
          have hread : s.view.readPage E number = .ok bytes := by
            unfold loadPage at hl
            split at hl
            · cases hl
            · exact hl
          obtain ⟨hc₃, hv₃, hcap₃, hclock₃, hsize₃, hlru₃, hsub, hgone⟩ := hc₂.evict
            (by dsimp only; omega) (by dsimp only; omega)
          refine ⟨bytes, _, rfl, hread, hc₃.use ?_ (fun a p ha => hc₁.before a p (hlru₃ a p ha)) ?_
            ?_, hv₃.trans hview, hcap₃.trans hcapacity, ?_, fun n hn => ?_,
            fun p hps hnot => ⟨habsent, ?_⟩⟩
          · refine Std.ExtTreeMap.getElem?_eq_none fun hm => habsent ((hkeys _).mp (hsub _ hm))
          · rw [hclock₃]
            dsimp only
            omega
          · rw [hv₃, hview, hread]
          · dsimp only [use]
            have hle := Std.ExtTreeMap.size_insert_le (t := Snapshot.pages (evict
              { s₁ with clock := (s₁.clock + 1) % 2 ^ 64 })) (k := number) (v := (bytes, s₁.clock))
            dsimp only at hsize₃
            omega
          · dsimp only [use] at hn
            rw [hinsert] at hn
            exact hn.imp_right fun hn => (hkeys n).mp (hsub n hn)
          · have hgone' := hgone p ((hkeys p).mpr hps) fun hm => hnot (by
              dsimp only [use]
              exact (hinsert _ _ _).mpr (.inr hm))
            dsimp only at hgone'
            rw [hsize₁, hcapacity] at hgone'
            exact ⟨hgone'.1, fun q hq => hgone'.2 q ((hkeys q).mpr hq)⟩

/-! ## Reads -/

variable (E)

/-- The page at a position: without room for a cache it is loaded each time. -/
def fetch (s : Snapshot) (faults : Nat → Option StoreError) (number : Nat) :
    Except (Stop × Snapshot) (Bytes × Snapshot) :=
  if s.capacity = 0 then
    match s.loadPage E faults number with
    | .ok page => .ok (page, s)
    | .error error => .error (.failed error, s)
  else s.page E faults number

/-- A read under way: the bytes before `copied` are done. -/
structure Reading where
  snapshot : Snapshot
  output : Bytes
  copied : Nat

/-- One page of a read of `available` bytes. -/
def readPart (faults : Nat → Option StoreError) (offset available : Nat) (r : Reading) :
    Except (Stop × Snapshot) Reading := do
  let pageSize := r.snapshot.view.size.pageSize.get
  let position := offset + r.copied
  Except.ensure (position ≤ u64Max) (.failed .range, r.snapshot)
  let number := position / pageSize + 1
  Except.ensure (number ≤ u32Max) (.failed .range, r.snapshot)
  let within := position % pageSize
  let count := min (pageSize - within) (available - r.copied)
  let (page, snapshot) ← r.snapshot.fetch E faults number
  Except.ensure (within + count ≤ page.length) (.panicked, snapshot)
  return ⟨snapshot, overwrite r.output r.copied ((page.drop within).take count), r.copied + count⟩

theorem readPart_advances {faults : Nat → Option StoreError} {offset available : Nat}
    {r r' : Reading} (hlt : r.copied < available)
    (h : readPart E faults offset available r = .ok r') : r.copied < r'.copied := by
  simp only [readPart, Except.bind_eq_ok, Except.ensure_eq_ok, exists_const,
    Except.pure_eq_ok] at h
  obtain ⟨-, -, _, -, -, rfl⟩ := h
  have := Nat.mod_lt (offset + r.copied) r.snapshot.view.size.pageSize.pos
  dsimp only
  omega

/-- `Snapshot::read` of `len` bytes, with what is left behind when a page cannot be had. -/
def read (s : Snapshot) (faults : Nat → Option StoreError) (offset len : Nat) :
    Except (Stop × Snapshot) (Nat × Bytes × Snapshot) := do
  let available := min (s.view.size.get - offset) len
  let r ← Cursor.whileBefore available Reading.copied (readPart E faults offset available)
    (fun _ _ => readPart_advances E) ⟨s, zeros len, 0⟩
  return (r.copied, r.output, r.snapshot)

/-- The snapshots that calls of `page` lead to, each with the log of the pages used. They start
empty with any value of the clock. -/
def pageCalls (view : PinnedView) (capacity : Nat) :
    Machine.System (Snapshot × List Nat) ((Nat → Option StoreError) × Nat) where
  init s := s.1.view = view ∧ s.1.capacity = capacity ∧ s.1.pages = ∅ ∧ s.1.lru = ∅ ∧
    s.1.clock ≤ u64Max ∧ s.2 = []
  step s call t := capacity ≠ 0 ∧
    ((∃ bytes, s.1.page E call.1 call.2 = .ok (bytes, t.1) ∧ t.2 = call.2 :: s.2) ∨
      ∃ stop, s.1.page E call.1 call.2 = .error (stop, t.1) ∧ t.2 = s.2)

/-- What holds of every snapshot in use. -/
structure Usable (view : PinnedView) (capacity : Nat) (s : Snapshot × List Nat) : Prop where
  sameView : s.1.view = view
  sameCapacity : s.1.capacity = capacity
  coherent : s.1.Coherent E s.2
  bounded : s.1.pages.size ≤ capacity

variable {view : PinnedView} {capacity : Nat}

/-- **Run.** By induction on the calls, with `page_spec` for each. -/
theorem usable_of_reach {s : Snapshot × List Nat} (h : (pageCalls E view capacity).Reach s) :
    Usable E view capacity s := by
  refine h.invariant ?_ ?_
  · rintro ⟨s, log⟩ ⟨hview, hcap, hpages, hlru, hclock, rfl⟩
    dsimp only at hview hcap hpages hlru hclock
    refine ⟨hview, hcap, ⟨fun a p => by simp [hlru, hpages], fun a p ha => by simp [hlru] at ha,
      fun a b p q ha => by simp [hlru] at ha, fun n b a ha => by simp [hpages] at ha, hclock⟩, ?_⟩
    simp [hpages]
  · rintro ⟨s, log⟩ call ⟨t, log'⟩ ⟨hview, hcapacity, hco, hsize⟩ - ⟨hcap, hstep⟩
    dsimp only at hview hcapacity hco hsize hstep
    rcases page_spec hco (hcapacity ▸ hsize) (hcapacity ▸ hcap) call.1 call.2 with
      ⟨error, t', hpage, -, hco', hview', hcap', hsize', -⟩ |
      ⟨bytes, t', hpage, -, hco', hview', hcap', hsize', -⟩
    · rcases hstep with ⟨b, hp, -⟩ | ⟨stop, hp, rfl⟩
      · rw [hpage] at hp
        cases hp
      · rw [hpage] at hp
        obtain ⟨-, rfl⟩ := Prod.mk.inj (Except.error.inj hp)
        exact ⟨hview'.trans hview, hcap'.trans hcapacity, hco', hsize'.le.trans hsize⟩
    · rcases hstep with ⟨b, hp, rfl⟩ | ⟨stop, hp, -⟩
      · rw [hpage] at hp
        obtain ⟨-, rfl⟩ := Prod.mk.inj (Except.ok.inj hp)
        exact ⟨hview'.trans hview, hcap'.trans hcapacity, hco', hcapacity ▸ hsize'⟩
      · rw [hpage] at hp
        cases hp

/-- A page of a view, when it can be read. -/
def pageBytes (view : PinnedView) (number : Nat) : Bytes :=
  (view.readPage E number).toOption.getD []

/-- The image of a view: its pages one after the other. -/
def image (view : PinnedView) : Bytes :=
  paged view.size.pageSize.get (pageBytes E view) view.size.get

variable {E}

/-- A page through the cache, or past it. -/
theorem fetch_spec {s : Snapshot × List Nat} (h : (pageCalls E view capacity).Reach s)
    (faults : Nat → Option StoreError) (number : Nat) :
    (∃ error s', s.1.fetch E faults number = .error (.failed error, s'.1) ∧
      (pageCalls E view capacity).Reach s' ∧ s.1.loadPage E faults number = .error error) ∨
    ∃ bytes s', s.1.fetch E faults number = .ok (bytes, s'.1) ∧
      (pageCalls E view capacity).Reach s' ∧ view.readPage E number = .ok bytes := by
  obtain ⟨hview, hcapacity, hco, hsize⟩ := usable_of_reach E h
  unfold fetch
  by_cases hcap : s.1.capacity = 0
  · rw [if_pos hcap]
    cases hl : s.1.loadPage E faults number with
    | error error => exact .inl ⟨error, s, rfl, h, rfl⟩
    | ok bytes =>
        refine .inr ⟨bytes, s, rfl, h, ?_⟩
        unfold loadPage at hl
        split at hl
        · cases hl
        · exact hview ▸ hl
  · rw [if_neg hcap]
    rcases page_spec hco (hcapacity ▸ hsize) hcap faults number with
      ⟨error, t, hpage, hload, -⟩ | ⟨bytes, t, hpage, hread, -⟩
    · exact .inl ⟨error, (t, s.2), hpage,
        h.step (a := (faults, number)) ⟨hcapacity ▸ hcap, .inr ⟨_, hpage, rfl⟩⟩, hload⟩
    · exact .inr ⟨bytes, (t, number :: s.2), hpage,
        h.step (a := (faults, number)) ⟨hcapacity ▸ hcap, .inl ⟨_, hpage, rfl⟩⟩, hview ▸ hread⟩

/-- Filling in the next bytes of a zeroed buffer. -/
theorem overwrite_zeros {a b : Bytes} {n : Nat} (h : b.length ≤ n) :
    overwrite (a ++ zeros n) a.length b = a ++ b ++ zeros (n - b.length) := by
  cases b with
  | nil => simp [overwrite]
  | cons x b =>
      have hlen : ¬ (a ++ zeros n).length < a.length + (x :: b).length := by
        rw [List.length_append, length_zeros]
        omega
      rw [overwrite, if_neg (by simp), if_neg hlen]
      dsimp only
      rw [List.take_left, List.drop_append,
        List.drop_eq_nil_of_le (Nat.le_add_right _ _), List.nil_append, Nat.add_sub_cancel_left,
        zeros, zeros, List.drop_replicate]

/-- The error of a page load. -/
def LoadFails (E : Env) (view : PinnedView) (faults : Nat → Option StoreError) (error : StoreError) : Prop :=
  ∃ number ≤ view.size.pages, faults number = some error ∨
    faults number = none ∧ view.readPage E number = .error error

/-- **One page of a read.** -/
theorem readPart_spec (hv : view.metadata.view.Resolved E) {faults : Nat → Option StoreError}
    {offset len available : Nat} (hsize : available ≤ view.size.get - offset) (hlen : available ≤ len)
    {r : Reading} {log : List Nat} (h : (pageCalls E view capacity).Reach (r.snapshot, log))
    (hout : r.output = window (image E view) offset r.copied ++ zeros (len - r.copied))
    (hlt : r.copied < available) :
    (∃ error s', readPart E faults offset available r = .error (.failed error, s'.1) ∧
      (pageCalls E view capacity).Reach s' ∧ LoadFails E view faults error) ∨
    ∃ r' log', readPart E faults offset available r = .ok r' ∧
      (pageCalls E view capacity).Reach (r'.snapshot, log') ∧ r'.copied ≤ available ∧
      r'.output = window (image E view) offset r'.copied ++ zeros (len - r'.copied) := by
  obtain ⟨hview, -, -, -⟩ := usable_of_reach E h
  dsimp only at hview
  have hpos := view.size.pageSize.pos
  have hdiv : view.size.get = view.size.pages * view.size.pageSize.get :=
    (Nat.div_mul_cancel view.size.aligned).symm
  have hbounded : view.size.pages < u32Max := view.size.bounded
  have hle : view.size.pageSize.get ≤ 65536 := (le_of_validPageSize view.size.pageSize.valid).2
  have hposition : offset + r.copied < view.size.pages * view.size.pageSize.get := by omega
  have hnumber : (offset + r.copied) / view.size.pageSize.get < view.size.pages :=
    (Nat.div_lt_iff_lt_mul hpos).mpr hposition
  have hrange : offset + r.copied ≤ u64Max := by
    have : view.size.pages * view.size.pageSize.get ≤ u32Max * 65536 :=
      Nat.mul_le_mul hbounded.le hle
    have : u32Max * 65536 ≤ u64Max := by decide
    omega
  have hwithin := Nat.mod_lt (offset + r.copied) hpos
  unfold readPart
  rw [hview, Except.bind_of_ok (Except.ensure_of hrange _),
    Except.bind_of_ok (Except.ensure_of (by omega) _)]
  rcases fetch_spec h faults ((offset + r.copied) / view.size.pageSize.get + 1) with
    ⟨error, s', hf, hr, hload⟩ | ⟨bytes, s', hf, hr, hread⟩
  · left
    refine ⟨error, s', by rw [Except.bind_of_error hf], hr, _, hnumber, ?_⟩
    dsimp only [loadPage] at hload
    split at hload
    · rename_i hfault
      cases hload
      exact .inl hfault
    · rename_i hfault
      exact .inr ⟨hfault, hview ▸ hload⟩
  · right
    have hbytes := (PinnedView.readPage_spec hv hread).2.1
    generalize hcount : min (view.size.pageSize.get - (offset + r.copied) % view.size.pageSize.get)
      (available - r.copied) = count
    have hpage : pageBytes E view ((offset + r.copied) / view.size.pageSize.get + 1) = bytes := by
      rw [pageBytes, hread]
      rfl
    have hpiece : (bytes.drop ((offset + r.copied) % view.size.pageSize.get)).take count =
        window (image E view) (offset + r.copied) count := by
      rw [← hpage]
      refine window_paged ?_ ?_ ?_
      · rw [hpage, hbytes]
      · omega
      · omega
    have hfill := overwrite_zeros (a := window (image E view) offset r.copied)
      (b := window (image E view) (offset + r.copied) count) (n := len - r.copied)
      (by rw [length_window]; omega)
    rw [length_window, window_append, length_window, Nat.sub_sub] at hfill
    refine ⟨⟨s'.1, overwrite r.output r.copied
      ((bytes.drop ((offset + r.copied) % view.size.pageSize.get)).take count), r.copied + count⟩,
      s'.2, ?_, hr, by dsimp only; omega, ?_⟩
    · rw [Except.bind_of_ok hf]
      dsimp only
      rw [Except.bind_of_ok (Except.ensure_of (by rw [hbytes]; omega) _), hcount]
      rfl
    · rw [← hfill, hout]
      exact congrArg (overwrite _ r.copied) hpiece

/-- **A read** returns the bytes of the view, zero past its end, unless a page load fails. -/
theorem read_spec (hv : view.metadata.view.Resolved E) {s : Snapshot × List Nat}
    (h : (pageCalls E view capacity).Reach s) (faults : Nat → Option StoreError)
    (offset len : Nat) :
    (∃ error s', s.1.read E faults offset len = .error (.failed error, s'.1) ∧
      (pageCalls E view capacity).Reach s' ∧ LoadFails E view faults error) ∨
    ∃ s', s.1.read E faults offset len =
        .ok (min (view.size.get - offset) len, window (image E view) offset len, s'.1) ∧
      (pageCalls E view capacity).Reach s' := by
  have hview := (usable_of_reach E h).sameView
  unfold read
  rw [hview]
  have hzero : zeros len = window (image E view) offset 0 ++ zeros (len - 0) := rfl
  have hloop := @Cursor.whileBefore_spec _ _ (min (view.size.get - offset) len) Reading.copied
    (readPart E faults offset (min (view.size.get - offset) len))
    (fun _ _ => readPart_advances E) ⟨s.1, zeros len, 0⟩
    (fun r => (∃ log, (pageCalls E view capacity).Reach (r.snapshot, log)) ∧
      r.copied ≤ min (view.size.get - offset) len ∧
      r.output = window (image E view) offset r.copied ++ zeros (len - r.copied))
    (fun e => ∃ error s', e = (.failed error, s'.1) ∧
      (pageCalls E view capacity).Reach s' ∧ LoadFails E view faults error)
    (fun r ⟨⟨log, hr⟩, hle, hout⟩ hlt => by
      rcases readPart_spec hv (by omega) (by omega) hr hout hlt with
        ⟨error, s', hp, hr', hfails⟩ | ⟨r', log', hp, hr', hle', hout'⟩
      · exact .inl ⟨_, hp, error, s', rfl, hr', hfails⟩
      · exact .inr ⟨r', hp, ⟨log', hr'⟩, hle', hout'⟩)
    ⟨⟨s.2, h⟩, Nat.zero_le _, hzero⟩
  rcases hloop with
    ⟨e, he, error, s', rfl, hr, hfails⟩ | ⟨r, hr, ⟨⟨log, hreach⟩, hle, hout⟩, hstop⟩
  · left
    exact ⟨error, s', Except.bind_of_error he, hr, hfails⟩
  · right
    have hcopied : r.copied = min (view.size.get - offset) len := by omega
    refine ⟨(r.snapshot, log), (Except.bind_of_ok hr).trans ?_, hreach⟩
    have hfilled : r.output = window (image E view) offset len := by
      rw [hout]
      by_cases hend : r.copied = len
      · rw [hend, Nat.sub_self]
        exact List.append_nil _
      · have hpast : zeros (len - r.copied) =
            window (image E view) (offset + r.copied) (len - r.copied) := by
          refine (window_eq_zeros ?_).symm
          rw [image, length_paged]
          omega
        rw [hpast, window_append]
        congr 1
        omega
    rw [hcopied, hfilled]
    rfl

/-- The snapshot a read leaves behind. -/
def after (E : Env) (s : Snapshot) (call : (Nat → Option StoreError) × Nat × Nat) : Snapshot :=
  match s.read E call.1 call.2.1 call.2.2 with
  | .ok r => r.2.2
  | .error e => e.2

end Snapshot

end Zsqlite
