import Zsqlite.Lib.Recency
import Zsqlite.Cache

set_option autoImplicit false

/-! # The slot table of the page cache

`Pages` of `cache.rs` as it is stored: decoded pages lie in slots of a private file, a map takes
each cached page to its slot, and the entries of the map carry the links of a doubly linked list
from the newest page to the oldest. Slots that an invalidation gave up wait on a free list.

`WellFormed` is the joint invariant of map, links, slots and free list. Every call keeps it and
no `expect` of the source fails under it. A call that returns an error leaves a table that is
never used again: the cache is turned off (`PageCache.insert`, `PageCache.lookup`), so the calls
below return no table with an error.
-/

namespace Zsqlite

open ByteVec Recency

structure SlotEntry where
  version : PageVersion
  slot : Nat
  used : Bool
  previous : Option Nat
  next : Option Nat

/-- The table with the bytes of its private file. The last freed slot is on top of `free`. -/
structure SlotTable where
  file : Bytes
  manifest : Digest
  pageSize : PageSize
  stride : Nat
  capacity : Nat
  allocated : Nat
  free : List Nat
  entries : BTreeMap Nat SlotEntry
  newest : Option Nat
  oldest : Option Nat

/-- Which operations on the private file fail during a call. -/
structure Faults where
  setLen : Bool
  write : Bool
  read : Bool
  punch : Bool

def i64Max : Nat := 2 ^ 63 - 1

variable (E : Env)

namespace SlotTable

/-- Slots are whole blocks of the file system that holds the private file. -/
def new (manifest : Digest) (pageSize : PageSize) (block budget : Nat) :
    Except StoreError SlotTable := do
  let stride := (pageSize.get + block - 1) / block * block
  Except.ensure (stride ≤ u64Max) .range
  return {
    file := []
    manifest
    pageSize
    stride
    capacity := min budget i64Max / stride
    allocated := 0
    free := []
    entries := ∅
    newest := none
    oldest := none }

variable (t : SlotTable)

/-- The entry of a page that must be cached. -/
def get (id : Nat) : Except Stop SlotEntry :=
  match t.entries[id]? with
  | some entry => .ok entry
  | none => .error .panicked

def edit (id : Nat) (f : SlotEntry → SlotEntry) : Except Stop SlotTable := do
  let entry ← t.get id
  return { t with entries := t.entries.insert id (f entry) }

/-- Let `next` follow a page, or be the newest one. -/
def linkNext (page next : Option Nat) : Except Stop SlotTable :=
  match page with
  | some page => t.edit page fun e => { e with next }
  | none => .ok { t with newest := next }

/-- Let `previous` stand before a page, or be the oldest one. -/
def linkPrevious (page previous : Option Nat) : Except Stop SlotTable :=
  match page with
  | some page => t.edit page fun e => { e with previous }
  | none => .ok { t with oldest := previous }

def unlink (id : Nat) : Except Stop SlotTable := do
  let entry ← t.get id
  let t ← t.linkNext entry.previous entry.next
  t.linkPrevious entry.next entry.previous

def promote (id : Nat) : Except Stop SlotTable := do
  let t ← t.edit id fun e => { e with previous := none, next := t.newest }
  let t ← t.linkPrevious t.newest (some id)
  return { t with newest := some id }

def remove (id : Nat) : Except Stop (Option SlotEntry × SlotTable) :=
  if id ∈ t.entries then do
    let t ← t.unlink id
    let entry ← t.get id
    return (some entry, { t with entries := t.entries.erase id })
  else .ok (none, t)

/-- Punching a hole is best effort; the slot is free either way. -/
def invalidate (faults : Faults) (id : Nat) : Except Stop SlotTable := do
  match ← t.remove id with
  | (none, t) => return t
  | (some entry, t) => return { t with
      file := if faults.punch then t.file else overwrite t.file entry.slot (zeros t.stride)
      free := entry.slot :: t.free }

/-- A hit becomes the newest entry. -/
def read (faults : Faults) (id : Nat) : Except Stop (Option (Bytes × SlotTable)) :=
  match t.entries[id]? with
  | none => .ok none
  | some entry => do
      Except.ensure (faults.read = false ∧ entry.slot + t.pageSize.get ≤ t.file.length)
        (.failed .io)
      let bytes := window t.file entry.slot t.pageSize.get
      Except.ensure (E.hash.checksum id entry.version.txid bytes = entry.version.checksum)
        (.failed (.pageChecksum id))
      let t ← t.unlink id
      let t ← t.promote id
      let t ← t.edit id fun e => { e with used := true }
      return some (bytes, t)

/-- The slot a new page goes to: that of the oldest page of a full table, the last one freed, or
a new one at the end of the file. -/
def vacant (faults : Faults) : Except Stop (Nat × SlotTable) :=
  if t.entries.size = t.capacity then
    match t.oldest with
    | none => .error .panicked
    | some oldest => do
        match ← t.remove oldest with
        | (none, _) => .error .panicked
        | (some evicted, t) => return (evicted.slot, t)
  else
    match t.free with
    | slot :: free => .ok (slot, { t with free })
    | [] => do
        let offset := t.allocated * t.stride
        Except.ensure (offset ≤ u64Max ∧ offset + t.stride ≤ u64Max) (.failed .range)
        Except.ensure (faults.setLen = false) (.failed .io)
        return (offset, { t with
          file := resize t.file (offset + t.stride), allocated := t.allocated + 1 })

/-- Write a page to a vacant slot and make it the newest entry. -/
def store (slot : Nat) (version : PageVersion) (bytes : Bytes) (used : Bool) :
    Except Stop SlotTable :=
  { t with
    file := overwrite t.file slot bytes
    entries := t.entries.insert version.page
      { version, slot, used, previous := none, next := none } }.promote version.page

def insert (faults : Faults) (version : PageVersion) (bytes : Bytes) (used : Bool) :
    Except Stop SlotTable :=
  if t.capacity = 0 ∨ version.page ∈ t.entries then .ok t
  else do
    Except.ensure (bytes.length = t.pageSize.get) (.failed .range)
    let (slot, t) ← t.vacant faults
    Except.ensure (faults.write = false) (.failed .io)
    t.store slot version bytes used

/-! ## Links -/

def links : Links Nat where
  prev id := t.entries[id]?.bind SlotEntry.previous
  next id := t.entries[id]?.bind SlotEntry.next
  first := t.newest
  last := t.oldest

/-- What an entry holds besides its links. -/
def cell (id : Nat) : Option (PageVersion × Nat × Bool) :=
  t.entries[id]?.map fun e => (e.version, e.slot, e.used)

def slotOf (id : Nat) : Option Nat := t.entries[id]?.map SlotEntry.slot

variable {t} {t' : SlotTable} {id : Nat} {order : List Nat}

theorem slotOf_eq_cell : t.slotOf id = (t.cell id).map fun c => c.2.1 := by
  simp only [slotOf, cell, Option.map_map]
  rfl

theorem mem_iff_cell : id ∈ t.entries ↔ (t.cell id).isSome := by
  rw [cell, Option.isSome_map, Std.ExtTreeMap.mem_iff_isSome_getElem?]

/-- `t'` differs from `t` in its links only. -/
structure Relinked (t t' : SlotTable) : Prop where
  file : t'.file = t.file
  manifest : t'.manifest = t.manifest
  pageSize : t'.pageSize = t.pageSize
  stride : t'.stride = t.stride
  capacity : t'.capacity = t.capacity
  allocated : t'.allocated = t.allocated
  free : t'.free = t.free
  cell : ∀ id, t'.cell id = t.cell id

theorem Relinked.trans {t₁ t₂ t₃ : SlotTable} (h : t₁.Relinked t₂) (h' : t₂.Relinked t₃) :
    t₁.Relinked t₃ where
  file := h'.file.trans h.file
  manifest := h'.manifest.trans h.manifest
  pageSize := h'.pageSize.trans h.pageSize
  stride := h'.stride.trans h.stride
  capacity := h'.capacity.trans h.capacity
  allocated := h'.allocated.trans h.allocated
  free := h'.free.trans h.free
  cell id := (h'.cell id).trans (h.cell id)

theorem Relinked.mem (h : t.Relinked t') : id ∈ t'.entries ↔ id ∈ t.entries := by
  rw [mem_iff_cell, mem_iff_cell, h.cell]

theorem get_of_mem (h : id ∈ t.entries) : ∃ e, t.entries[id]? = some e ∧ t.get id = .ok e := by
  obtain ⟨e, he⟩ := Option.isSome_iff_exists.mp (Std.ExtTreeMap.mem_iff_isSome_getElem?.mp h)
  exact ⟨e, he, by simp only [get, he]⟩

/-- Changing the links of one entry. -/
theorem edit_links (h : id ∈ t.entries) (previous next : Option Nat → Option Nat) :
    ∃ t', t.edit id (fun e => { e with previous := previous e.previous, next := next e.next }) =
        .ok t' ∧ t.Relinked t' ∧
      t'.newest = t.newest ∧ t'.oldest = t.oldest ∧
      (∀ j, t'.links.prev j = if j = id then previous (t.links.prev j) else t.links.prev j) ∧
      ∀ j, t'.links.next j = if j = id then next (t.links.next j) else t.links.next j := by
  obtain ⟨e, he, hget⟩ := get_of_mem h
  let e' := { e with previous := previous e.previous, next := next e.next }
  refine ⟨{ t with entries := t.entries.insert id e' }, ?_,
    ⟨rfl, rfl, rfl, rfl, rfl, rfl, rfl, fun j => ?_⟩, rfl, rfl, fun j => ?_, fun j => ?_⟩
  · rw [edit, Except.bind_of_ok hget]
    rfl
  all_goals
    simp only [cell, links, getElem?_insert_eq]
    split
    · rename_i hj
      simp [hj, he, e']
    · rfl

theorem linkNext_spec {page : Option Nat} (h : ∀ a, page = some a → a ∈ t.entries)
    (next : Option Nat) :
    ∃ t', t.linkNext page next = .ok t' ∧ t.Relinked t' ∧
      t'.newest = (if page = none then next else t.newest) ∧ t'.oldest = t.oldest ∧
      (∀ j, t'.links.prev j = t.links.prev j) ∧
      ∀ j, t'.links.next j = if page = some j then next else t.links.next j := by
  cases page with
  | none =>
      exact ⟨{ t with newest := next }, rfl, ⟨rfl, rfl, rfl, rfl, rfl, rfl, rfl, fun _ => rfl⟩,
        rfl, rfl, fun _ => rfl, fun j => by simp [links]⟩
  | some a =>
      obtain ⟨t', h', hr, hf, ho, hp, hn⟩ := edit_links (h a rfl) (fun p => p) (fun _ => next)
      refine ⟨t', h', hr, by simpa using hf, ho, fun j => by simpa using hp j, fun j => ?_⟩
      rw [hn]
      simp only [Option.some.injEq, eq_comm]

theorem linkPrevious_spec {page : Option Nat} (h : ∀ a, page = some a → a ∈ t.entries)
    (previous : Option Nat) :
    ∃ t', t.linkPrevious page previous = .ok t' ∧ t.Relinked t' ∧ t'.newest = t.newest ∧
      t'.oldest = (if page = none then previous else t.oldest) ∧
      (∀ j, t'.links.prev j = if page = some j then previous else t.links.prev j) ∧
      ∀ j, t'.links.next j = t.links.next j := by
  cases page with
  | none =>
      exact ⟨{ t with oldest := previous }, rfl, ⟨rfl, rfl, rfl, rfl, rfl, rfl, rfl, fun _ => rfl⟩,
        rfl, rfl, fun j => by simp [links], fun _ => rfl⟩
  | some a =>
      obtain ⟨t', h', hr, hf, ho, hp, hn⟩ := edit_links (h a rfl) (fun _ => previous) (fun n => n)
      refine ⟨t', h', hr, hf, by simpa using ho, fun j => ?_, fun j => by simpa using hn j⟩
      rw [hp]
      simp only [Option.some.injEq, eq_comm]

/-- **Unlinking.** The page leaves the list, everything else stays. -/
theorem unlink_spec (hl : t.links.Linked order) (hm : ∀ j, j ∈ order ↔ j ∈ t.entries)
    (h : id ∈ order) :
    ∃ t', t.unlink id = .ok t' ∧ t.Relinked t' ∧ t'.links.Linked (order.erase id) := by
  obtain ⟨e, he, hget⟩ := get_of_mem ((hm id).mp h)
  have hprev : t.links.prev id = e.previous := by simp only [links, he, Option.bind_some]
  have hnext : t.links.next id = e.next := by simp only [links, he, Option.bind_some]
  obtain ⟨t₁, h₁, hr₁, hf₁, ho₁, hp₁, hn₁⟩ := linkNext_spec (t := t)
    (fun a (ha : e.previous = some a) => (hm a).mp (hl.mem_of_prev h (hprev.trans ha))) e.next
  obtain ⟨t₂, h₂, hr₂, hf₂, ho₂, hp₂, hn₂⟩ := linkPrevious_spec (t := t₁)
    (fun b (hb : e.next = some b) => hr₁.mem.mpr ((hm b).mp (hl.mem_of_next h (hnext.trans hb)))) e.previous
  refine ⟨t₂, ?_, hr₁.trans hr₂, (hl.unlink h).congr ?_ ?_ (fun j _ => ?_) fun j _ => ?_⟩
  · rw [unlink, Except.bind_of_ok hget, Except.bind_of_ok h₁, h₂]
  · rw [Links.unlink, hprev, hnext]
    exact hf₂.trans hf₁
  · rw [Links.unlink, hprev, hnext]
    exact ho₂.trans (by rw [ho₁]; rfl)
  · rw [hp₂, hp₁, Links.unlink, hprev, hnext]
  · rw [hn₂, hn₁, Links.unlink, hprev, hnext]

/-- **Promoting.** A page that is not listed becomes the newest. -/
theorem promote_spec (hl : t.links.Linked order) (hm : ∀ j ∈ order, j ∈ t.entries)
    (hid : id ∈ t.entries) (h : id ∉ order) :
    ∃ t', t.promote id = .ok t' ∧ t.Relinked t' ∧ t'.links.Linked (id :: order) := by
  obtain ⟨t₁, h₁, hr₁, hf₁, ho₁, hp₁, hn₁⟩ := edit_links hid (fun _ => none) (fun _ => t.newest)
  obtain ⟨t₂, h₂, hr₂, -, ho₂, hp₂, hn₂⟩ := linkPrevious_spec (t := t₁)
    (fun a (ha : t.newest = some a) => hr₁.mem.mpr (hm a (hl.mem_of_first ha))) (some id)
  refine ⟨{ t₂ with newest := some id }, ?_, hr₁.trans (hr₂.trans
    ⟨rfl, rfl, rfl, rfl, rfl, rfl, rfl, fun _ => rfl⟩),
    (hl.promote h).congr rfl ?_ (fun j _ => ?_) fun j _ => ?_⟩
  · rw [promote, Except.bind_of_ok h₁, hf₁, Except.bind_of_ok h₂]
    rfl
  · exact ho₂.trans (by rw [ho₁]; rfl)
  · exact (hp₂ j).trans (by rw [hp₁]; rfl)
  · exact (hn₂ j).trans (hn₁ j)

/-! ## The invariant -/

/-- **The joint invariant.** The links spell `order`, which lists the cached pages, and every
allocated slot belongs to exactly one of the cached pages, the free list and the slots `held` by
the running call. -/
structure WellFormed (t : SlotTable) (held order : List Nat) : Prop where
  linked : t.links.Linked order
  cached : ∀ id, id ∈ order ↔ id ∈ t.entries
  keyed : ∀ id c, t.cell id = some c → c.1.page = id
  owners : (held ++ (order.filterMap t.slotOf ++ t.free)).Perm
    ((List.range t.allocated).map (· * t.stride))
  allocated : t.allocated ≤ t.capacity
  stride : t.pageSize.get ≤ t.stride

/-- What no call changes. -/
structure Static (t t' : SlotTable) : Prop where
  manifest : t'.manifest = t.manifest
  pageSize : t'.pageSize = t.pageSize
  stride : t'.stride = t.stride
  capacity : t'.capacity = t.capacity

theorem Static.trans {t₁ t₂ t₃ : SlotTable} (h : t₁.Static t₂) (h' : t₂.Static t₃) :
    t₁.Static t₃ :=
  ⟨h'.manifest.trans h.manifest, h'.pageSize.trans h.pageSize, h'.stride.trans h.stride,
    h'.capacity.trans h.capacity⟩

theorem Relinked.static (h : t.Relinked t') : t.Static t' :=
  ⟨h.manifest, h.pageSize, h.stride, h.capacity⟩

theorem Relinked.slotOf (h : t.Relinked t') : t'.slotOf id = t.slotOf id := by
  rw [slotOf_eq_cell, slotOf_eq_cell, h.cell]

variable {held : List Nat}

namespace WellFormed

theorem size (h : t.WellFormed held order) : t.entries.size = order.length := by
  rw [← Std.ExtTreeMap.length_keys]
  refine (List.Perm.length_eq ?_).symm
  exact (List.perm_ext_iff_of_nodup h.linked.nodup Std.ExtTreeMap.nodup_keys).mpr fun id => by
    rw [h.cached, Std.ExtTreeMap.mem_keys]

theorem cell_of_mem (h : t.WellFormed held order) (hid : id ∈ order) :
    ∃ c, t.cell id = some c ∧ t.slotOf id = some c.2.1 := by
  obtain ⟨c, hc⟩ := Option.isSome_iff_exists.mp (mem_iff_cell.mp ((h.cached id).mp hid))
  exact ⟨c, hc, by rw [slotOf_eq_cell, hc, Option.map_some]⟩

/-- Each cached page has a slot. -/
theorem length_slots (h : t.WellFormed held order) :
    (order.filterMap t.slotOf).length = order.length := by
  refine List.filterMap_length_eq_length.mpr fun id hid => ?_
  obtain ⟨c, -, hc⟩ := h.cell_of_mem hid
  rw [hc, Option.isSome_some]

theorem count (h : t.WellFormed held order) :
    held.length + (order.length + t.free.length) = t.allocated := by
  have := h.owners.length_eq
  rwa [List.length_append, List.length_append, h.length_slots, List.length_map,
    List.length_range] at this

/-- Links may change as long as they spell the same pages. -/
theorem relinked (h : t.WellFormed held order) (hr : t.Relinked t') {order' : List Nat}
    (hl : t'.links.Linked order') (hp : order'.Perm order) : t'.WellFormed held order' where
  linked := hl
  cached id := by rw [hp.mem_iff, h.cached, hr.mem]
  keyed id c hc := h.keyed id c (hr.cell id ▸ hc)
  owners := by
    rw [hr.free, hr.allocated, hr.stride, List.filterMap_congr (fun _ _ => hr.slotOf)]
    exact (((hp.filterMap _).append_right _).append_left _).trans h.owners
  allocated := hr.allocated ▸ hr.capacity ▸ h.allocated
  stride := hr.pageSize ▸ hr.stride ▸ h.stride

/-- Taking a page out leaves its slot with the caller. -/
theorem remove (h : t.WellFormed held order) (hid : id ∈ order) :
    ∃ e t', t.remove id = .ok (some e, t') ∧ t.cell id = some (e.version, e.slot, e.used) ∧
      t'.WellFormed (e.slot :: held) (order.erase id) ∧ t.Static t' ∧ t'.file = t.file ∧
      ∀ j ≠ id, t'.cell j = t.cell j := by
  have hmem := (h.cached id).mp hid
  obtain ⟨t₁, h₁, hr, hl⟩ := unlink_spec h.linked h.cached hid
  obtain ⟨e, he, hget⟩ := get_of_mem (hr.mem.mpr hmem)
  have hcell : t.cell id = some (e.version, e.slot, e.used) := by
    rw [← hr.cell, cell, he, Option.map_some]
  have herase : ∀ j ≠ id, (t₁.entries.erase id)[j]? = t₁.entries[j]? := by
    intro j hj
    rw [getElem?_erase_eq, if_neg hj]
  have hother : ∀ j ≠ id, ({ t₁ with entries := t₁.entries.erase id } : SlotTable).cell j =
      t.cell j := by
    intro j hj
    rw [← hr.cell]
    simp only [cell, herase j hj]
  have hne : ∀ j ∈ order.erase id, j ≠ id := fun j hj e =>
    (h.linked.nodup.mem_erase_iff.mp hj).1 e
  refine ⟨e, { t₁ with entries := t₁.entries.erase id }, ?_, hcell, ⟨?_, ?_, ?_, ?_, ?_, ?_⟩,
    ⟨hr.manifest, hr.pageSize, hr.stride, hr.capacity⟩, hr.file, hother⟩
  · rw [SlotTable.remove, if_pos hmem, Except.bind_of_ok h₁, Except.bind_of_ok hget]
    rfl
  · refine hl.congr rfl rfl (fun j hj => ?_) fun j hj => ?_
    all_goals simp only [links, herase j (hne j hj)]
  · intro j
    rw [h.linked.nodup.mem_erase_iff, h.cached, Std.ExtTreeMap.mem_erase, hr.mem]
    exact and_congr_left fun _ => by rw [ne_eq, ne_eq, compare_eq_iff_eq, eq_comm]
  · intro j c hc
    by_cases hj : j = id
    · simp [cell, hj] at hc
    · exact h.keyed j c (hother j hj ▸ hc)
  · -- The slot moves from the cached pages to the caller.
    have hslot : t.slotOf id = some e.slot := by rw [slotOf_eq_cell, hcell, Option.map_some]
    have hperm : (order.filterMap t.slotOf).Perm
        (e.slot :: (order.erase id).filterMap t.slotOf) := by
      have := (List.perm_cons_erase hid).filterMap t.slotOf
      rwa [List.filterMap_cons_some hslot] at this
    rw [List.filterMap_congr (g := t.slotOf) fun j hj => by
      rw [slotOf_eq_cell, slotOf_eq_cell, hother j (hne j hj)]]
    dsimp only
    rw [hr.free, hr.allocated, hr.stride]
    refine .trans ?_ h.owners
    refine .trans ?_ ((hperm.append_right _).append_left held).symm
    exact List.perm_middle.symm
  · exact hr.allocated ▸ hr.capacity ▸ h.allocated
  · exact hr.pageSize ▸ hr.stride ▸ h.stride

/-- Two slots do not overlap. -/
theorem disjoint {slot : Nat} (h : t.WellFormed (slot :: held) order) {c : PageVersion × Nat × Bool}
    (hid : id ∈ order) (hc : t.cell id = some c) :
    c.2.1 + t.stride ≤ slot ∨ slot + t.stride ≤ c.2.1 := by
  have hpos : 0 < t.stride := t.pageSize.pos.trans_le h.stride
  have hmem : c.2.1 ∈ held ++ (order.filterMap t.slotOf ++ t.free) := by
    refine List.mem_append_right _ (List.mem_append_left _ ?_)
    exact List.mem_filterMap.mpr ⟨id, hid, by rw [slotOf_eq_cell, hc, Option.map_some]⟩
  have hnodup : (slot :: held ++ (order.filterMap t.slotOf ++ t.free)).Nodup := by
    refine h.owners.nodup_iff.mpr (List.nodup_range.map fun a b hab => ?_)
    exact Nat.eq_of_mul_eq_mul_right hpos hab
  have hne : slot ≠ c.2.1 := fun e => (List.nodup_cons.mp hnodup).1 (e ▸ hmem)
  obtain ⟨a, -, ha⟩ := List.mem_map.mp (h.owners.mem_iff.mp List.mem_cons_self)
  obtain ⟨b, -, hb⟩ := List.mem_map.mp (h.owners.mem_iff.mp (List.mem_cons_of_mem _ hmem))
  subst ha
  rw [← hb] at hne ⊢
  rcases Nat.lt_or_gt_of_ne fun e : a = b => hne (e ▸ rfl) with hlt | hlt
  · right
    calc a * t.stride + t.stride = (a + 1) * t.stride := (Nat.succ_mul a _).symm
      _ ≤ b * t.stride := Nat.mul_le_mul_right _ hlt
  · left
    calc b * t.stride + t.stride = (b + 1) * t.stride := (Nat.succ_mul b _).symm
      _ ≤ a * t.stride := Nat.mul_le_mul_right _ hlt

end WellFormed

/-- The cached page as the cache hands it out. -/
def shown (t : SlotTable) (id : Nat) : Option CacheEntry :=
  (t.cell id).map fun c => ⟨c.1, window t.file c.2.1 t.pageSize.get, c.2.2⟩

/-- Writing to a slot in hand changes no cached page. -/
theorem WellFormed.shown_overwrite {slot : Nat} (h : t.WellFormed (slot :: held) order)
    (hid : id ∈ order) {b : Bytes} (hb : b.length ≤ t.stride)
    (hfile : t'.file = overwrite t.file slot b) (hsize : t'.pageSize = t.pageSize)
    (hcell : t'.cell id = t.cell id) : t'.shown id = t.shown id := by
  obtain ⟨c, hc, -⟩ := h.cell_of_mem hid
  have hwindow : window t'.file c.2.1 t.pageSize.get = window t.file c.2.1 t.pageSize.get := by
    rw [hfile]
    apply window_overwrite_disjoint
    have := h.disjoint hid hc
    have := h.stride
    omega
  simp only [shown, hcell, hsize, hc, Option.map_some, hwindow]

/-! ## The calls -/

/-- **Invalidation.** -/
theorem invalidate_spec (h : t.WellFormed [] order) (faults : Faults) (id : Nat) :
    ∃ t', t.invalidate faults id = .ok t' ∧ t'.WellFormed [] (order.erase id) ∧ t.Static t' ∧
      ∀ j ∈ order.erase id, t'.shown j = t.shown j := by
  by_cases hid : id ∈ order
  · obtain ⟨e, t₁, h₁, -, hw, hs, hf, hcell⟩ := h.remove hid
    have hframe : ∀ j ∈ order.erase id, t₁.shown j = t.shown j := by
      intro j hj
      simp only [shown, hcell j (h.linked.nodup.mem_erase_iff.mp hj).1, hf, hs.pageSize]
    refine ⟨{ t₁ with
      file := if faults.punch then t₁.file else overwrite t₁.file e.slot (zeros t₁.stride)
      free := e.slot :: t₁.free }, ?_, ⟨hw.linked, hw.cached, hw.keyed, ?_, hw.allocated,
        hw.stride⟩, ⟨hs.manifest, hs.pageSize, hs.stride, hs.capacity⟩, fun j hj => ?_⟩
    · rw [invalidate, Except.bind_of_ok h₁]
      rfl
    · refine .trans ?_ hw.owners
      exact List.perm_middle
    · rw [← hframe j hj]
      cases hp : faults.punch with
      | false => exact hw.shown_overwrite hj (by simp) rfl rfl rfl
      | true => rfl
  · refine ⟨t, ?_, ?_, ⟨rfl, rfl, rfl, rfl⟩, fun _ _ => rfl⟩
    · rw [invalidate, remove, if_neg (fun hm => hid ((h.cached id).mpr hm)),
        Except.bind_of_ok rfl]
      rfl
    · rwa [List.erase_of_not_mem hid]

theorem WellFormed.setUsed (h : t.WellFormed held order) (hid : id ∈ order) :
    ∃ t', t.edit id (fun e => { e with used := true }) = .ok t' ∧ t'.WellFormed held order ∧
      t.Static t' ∧ t'.file = t.file ∧
      t'.cell id = (t.cell id).map (fun c => (c.1, c.2.1, true)) ∧
      ∀ j ≠ id, t'.cell j = t.cell j := by
  obtain ⟨e, he, hget⟩ := get_of_mem ((h.cached id).mp hid)
  have hentry := fun j => getElem?_insert_eq t.entries id j { e with used := true }
  have hslot : ∀ j, ({ t with entries := t.entries.insert id { e with used := true } } :
      SlotTable).slotOf j = t.slotOf j := by
    intro j
    simp only [slotOf, hentry]
    split
    · rename_i hj
      simp [hj, he]
    · rfl
  have hcell : ∀ j, ({ t with entries := t.entries.insert id { e with used := true } } :
      SlotTable).cell j = if j = id then some (e.version, e.slot, true) else t.cell j := by
    intro j
    simp only [cell, hentry]
    split <;> rfl
  have hold : t.cell id = some (e.version, e.slot, e.used) := by rw [cell, he, Option.map_some]
  refine ⟨{ t with entries := t.entries.insert id { e with used := true } }, ?_,
    ⟨h.linked.congr rfl rfl (fun j _ => ?_) (fun j _ => ?_), fun j => ?_, fun j c hc => ?_, ?_,
      h.allocated, h.stride⟩, ⟨rfl, rfl, rfl, rfl⟩, rfl, ?_, fun j hj => ?_⟩
  · rw [edit, Except.bind_of_ok hget]
    rfl
  · simp only [links, hentry]
    split
    · rename_i hj
      simp [hj, he]
    · rfl
  · simp only [links, hentry]
    split
    · rename_i hj
      simp [hj, he]
    · rfl
  · rw [h.cached, mem_iff_cell, mem_iff_cell, hcell]
    split
    · rename_i hj
      rw [hj, hold]
      simp
    · rfl
  · rw [hcell] at hc
    split at hc
    · rename_i hj
      cases hc
      exact (h.keyed id _ hold).trans hj.symm
    · exact h.keyed j c hc
  · rw [List.filterMap_congr fun j _ => hslot j]
    exact h.owners
  · rw [hcell, if_pos rfl, hold, Option.map_some]
  · rw [hcell, if_neg hj]

/-- **Reading.** A hit moves the page to the front and marks it used. -/
theorem read_spec (h : t.WellFormed [] order) (faults : Faults) (id : Nat) :
    (id ∉ order ∧ t.read E faults id = .ok none) ∨
    (∃ error, t.read E faults id = .error (.failed error)) ∨
    ∃ e t', id ∈ order ∧ t.shown id = some e ∧
      E.hash.checksum id e.version.txid e.bytes = e.version.checksum ∧
      t.read E faults id = .ok (some (e.bytes, t')) ∧
      t'.WellFormed [] (id :: order.erase id) ∧ t.Static t' ∧
      t'.shown id = some { e with used := true } ∧
      ∀ j ∈ order.erase id, t'.shown j = t.shown j := by
  by_cases hid : id ∈ order
  · obtain ⟨e, he, -⟩ := get_of_mem ((h.cached id).mp hid)
    simp only [read, he]
    refine .inr ?_
    by_cases hio : faults.read = false ∧ e.slot + t.pageSize.get ≤ t.file.length
    · rw [Except.ensure_of hio]
      by_cases hsum : E.hash.checksum id e.version.txid
          (window t.file e.slot t.pageSize.get) = e.version.checksum
      · right
        rw [Except.ensure_of hsum]
        obtain ⟨t₁, h₁, hr₁, hl₁⟩ := unlink_spec h.linked h.cached hid
        have herase : ∀ j, j ∈ order.erase id ↔ j ≠ id ∧ j ∈ order := fun j =>
          h.linked.nodup.mem_erase_iff
        obtain ⟨t₂, h₂, hr₂, hl₂⟩ := promote_spec hl₁
          (fun j hj => hr₁.mem.mpr ((h.cached j).mp ((herase j).mp hj).2))
          (hr₁.mem.mpr ((h.cached id).mp hid)) (fun hj => ((herase id).mp hj).1 rfl)
        have hw : t₂.WellFormed [] (id :: order.erase id) :=
          h.relinked (hr₁.trans hr₂) hl₂ (List.perm_cons_erase hid).symm
        obtain ⟨t₃, h₃, hw₃, hs₃, hf₃, hc₃, ho₃⟩ := hw.setUsed List.mem_cons_self
        have hr := hr₁.trans hr₂
        have hcell : t.cell id = some (e.version, e.slot, e.used) := by
          rw [cell, he, Option.map_some]
        refine ⟨⟨e.version, window t.file e.slot t.pageSize.get, e.used⟩, t₃, hid, ?_, hsum, ?_,
          hw₃, hr.static.trans hs₃, ?_, fun j hj => ?_⟩
        · rw [shown, hcell, Option.map_some]
        · change (t.unlink id >>= fun t => t.promote id >>= fun t => _) = _
          rw [Except.bind_of_ok h₁, Except.bind_of_ok h₂, Except.bind_of_ok h₃]
          rfl
        · rw [shown, hc₃, hr.cell, hcell, hf₃, hr.file, hs₃.pageSize, hr.pageSize]
          rfl
        · rw [shown, ho₃ j ((herase j).mp hj).1, hr.cell, hf₃, hr.file, hs₃.pageSize, hr.pageSize,
            shown]
      · left
        rw [Except.ensure_of_not hsum]
        exact ⟨_, rfl⟩
    · left
      rw [Except.ensure_of_not hio]
      exact ⟨_, rfl⟩
  · left
    refine ⟨hid, ?_⟩
    have : t.entries[id]? = none :=
      Std.ExtTreeMap.getElem?_eq_none fun hm => hid ((h.cached id).mpr hm)
    simp only [read, this]

/-- The pages that stay when a page is added. -/
def keptOrder (capacity : Nat) (order : List Nat) : List Nat :=
  if order.length = capacity then order.dropLast else order

theorem keptOrder_sublist (capacity : Nat) (order : List Nat) :
    (keptOrder capacity order).Sublist order := by
  unfold keptOrder
  split
  · exact List.dropLast_sublist order
  · exact List.Sublist.refl order

/-- The oldest page is the last one. -/
theorem erase_oldest {l : List Nat} {k : Nat} (hn : l.Nodup) (hl : l.getLast? = some k) :
    l.erase k = l.dropLast := by
  obtain ⟨init, rfl⟩ := List.getLast?_eq_some_iff.mp hl
  have hk : k ∉ init := fun hk => (List.nodup_append.mp hn).2.2 k hk k (by simp) rfl
  rw [List.erase_append_right _ hk, List.dropLast_concat, List.erase_cons_head, List.append_nil]

/-- **A vacant slot.** It is in the caller's hand; only a full table gives up a page for it. -/
theorem vacant_spec (h : t.WellFormed [] order) (hcap : t.capacity ≠ 0) (faults : Faults) :
    (∃ error, t.vacant faults = .error (.failed error)) ∨
    ∃ slot t', t.vacant faults = .ok (slot, t') ∧
      t'.WellFormed [slot] (keptOrder t.capacity order) ∧ t.Static t' ∧
      ∀ j ∈ keptOrder t.capacity order, t'.shown j = t.shown j := by
  unfold vacant keptOrder
  rw [h.size]
  by_cases hfull : order.length = t.capacity
  · right
    rw [if_pos hfull, if_pos hfull]
    have hne : order ≠ [] := by
      rintro rfl
      exact hcap hfull.symm
    have hlast : order.getLast? = some (order.getLast hne) := List.getLast?_eq_some_getLast hne
    obtain ⟨e, t₁, h₁, -, hw, hs, hf, hcell⟩ := h.remove (List.getLast_mem hne)
    rw [erase_oldest h.linked.nodup hlast] at hw
    refine ⟨e.slot, t₁, ?_, hw, hs, fun j hj => ?_⟩
    · rw [show t.oldest = some (order.getLast hne) from h.linked.last.trans hlast]
      dsimp only
      rw [Except.bind_of_ok h₁]
      rfl
    · rw [← erase_oldest h.linked.nodup hlast] at hj
      rw [shown, hcell j (h.linked.nodup.mem_erase_iff.mp hj).1, hf, hs.pageSize, shown]
  · rw [if_neg hfull, if_neg hfull]
    cases hfree : t.free with
    | cons slot free =>
        refine .inr ⟨slot, { t with free }, rfl, ⟨h.linked, h.cached, h.keyed, ?_, h.allocated,
          h.stride⟩, ⟨rfl, rfl, rfl, rfl⟩, fun _ _ => rfl⟩
        have := h.owners
        rw [hfree] at this
        have hmid : (slot :: (order.filterMap t.slotOf ++ free)).Perm
            (order.filterMap t.slotOf ++ slot :: free) := List.perm_middle.symm
        exact hmid.trans this
    | nil =>
        dsimp only
        by_cases hrange : t.allocated * t.stride ≤ u64Max ∧
            t.allocated * t.stride + t.stride ≤ u64Max
        · rw [Except.ensure_of hrange]
          cases hlen : faults.setLen with
          | true => exact .inl ⟨_, rfl⟩
          | false =>
              right
              refine ⟨_, _, rfl, ⟨h.linked, h.cached, h.keyed, ?_, ?_, h.stride⟩,
                ⟨rfl, rfl, rfl, rfl⟩, fun j hj => ?_⟩
              · have := h.owners
                rw [hfree] at this
                dsimp only
                rw [List.range_succ, List.map_append, List.map_singleton]
                exact (this.cons _).trans (List.perm_append_singleton _ _).symm
              · -- Without free slots every allocated one holds a page.
                have hcount := h.count
                have := h.allocated
                rw [hfree] at hcount
                simp only [List.length_nil] at hcount
                dsimp only
                omega
              · obtain ⟨c, hc, hslot⟩ := h.cell_of_mem hj
                have hmem : c.2.1 ∈ (List.range t.allocated).map (· * t.stride) := by
                  refine h.owners.mem_iff.mp ?_
                  rw [List.nil_append]
                  exact List.mem_append_left _ (List.mem_filterMap.mpr ⟨j, hj, hslot⟩)
                obtain ⟨i, hi, hi'⟩ := List.mem_map.mp hmem
                have hle : c.2.1 ≤ t.allocated * t.stride :=
                  hi' ▸ Nat.mul_le_mul_right _ (List.mem_range.mp hi).le
                have := h.stride
                have hwindow := window_resize t.file (t.allocated * t.stride + t.stride) c.2.1
                  t.pageSize.get (by omega)
                change (t.cell j).map _ = (t.cell j).map _
                rw [hc, Option.map_some, Option.map_some, hwindow]
        · left
          rw [Except.ensure_of_not hrange]
          exact ⟨_, rfl⟩

/-- A page stored in the slot in hand becomes the newest. -/
theorem store_spec {slot : Nat} (h : t.WellFormed [slot] order) {version : PageVersion}
    (hnew : version.page ∉ order) {bytes : Bytes} (hlen : bytes.length = t.pageSize.get)
    (used : Bool) :
    ∃ t', t.store slot version bytes used = .ok t' ∧
      t'.WellFormed [] (version.page :: order) ∧ t.Static t' ∧
      t'.shown version.page = some ⟨version, bytes, used⟩ ∧
      ∀ j ∈ order, t'.shown j = t.shown j := by
  let entry : SlotEntry := { version, slot, used, previous := none, next := none }
  let t₁ : SlotTable := { t with
    file := overwrite t.file slot bytes
    entries := t.entries.insert version.page entry }
  have hentry : ∀ j, t₁.entries[j]? = if j = version.page then some entry else t.entries[j]? :=
    fun j => getElem?_insert_eq t.entries version.page j entry
  have hne : ∀ j ∈ order, j ≠ version.page := fun j hj e => hnew (e ▸ hj)
  have hold : ∀ j ∈ order, t₁.entries[j]? = t.entries[j]? := fun j hj => by
    rw [hentry, if_neg (hne j hj)]
  have hcell : ∀ j, t₁.cell j =
      if j = version.page then some (version, slot, used) else t.cell j := by
    intro j
    rw [cell, hentry]
    split <;> rfl
  have hmem : ∀ j, j ∈ t₁.entries ↔ j ∈ version.page :: order := by
    intro j
    rw [mem_iff_cell, hcell, List.mem_cons, h.cached, mem_iff_cell]
    split
    · rename_i hj
      simp [hj]
    · rename_i hj
      simp [hj]
  have hlinked : t₁.links.Linked order := by
    refine h.linked.congr rfl rfl (fun j hj => ?_) fun j hj => ?_
    all_goals simp only [links, hold j hj]
  obtain ⟨t₂, h₂, hr, hl⟩ := promote_spec hlinked
    (fun j hj => (hmem j).mpr (List.mem_cons_of_mem _ hj)) ((hmem _).mpr List.mem_cons_self) hnew
  have hslots : (version.page :: order).filterMap t₂.slotOf =
      slot :: order.filterMap t.slotOf := by
    rw [List.filterMap_congr fun j _ => hr.slotOf, List.filterMap_cons_some (b := slot)]
    · refine congrArg _ (List.filterMap_congr fun j hj => ?_)
      simp only [slotOf, hold j hj]
    · rw [slotOf, hentry, if_pos rfl, Option.map_some]
  refine ⟨t₂, h₂, ⟨hl, fun j => ?_, fun j c hc => ?_, ?_, ?_, ?_⟩,
    ⟨hr.manifest, hr.pageSize, hr.stride, hr.capacity⟩, ?_, fun j hj => ?_⟩
  · rw [hr.mem, hmem]
  · rw [hr.cell, hcell] at hc
    split at hc
    · rename_i hj
      cases hc
      exact hj.symm
    · exact h.keyed j c hc
  · rw [hslots, hr.free, hr.allocated, hr.stride]
    exact h.owners
  · exact hr.allocated ▸ hr.capacity ▸ h.allocated
  · exact hr.pageSize ▸ hr.stride ▸ h.stride
  · rw [shown, hr.cell, hcell, if_pos rfl, hr.file, hr.pageSize, Option.map_some]
    simp only [t₁, ← hlen, window_overwrite_self]
  · refine h.shown_overwrite hj (hlen ▸ h.stride) hr.file hr.pageSize ?_
    rw [hr.cell, hcell, if_neg (hne j hj)]

/-- **Insertion.** A new page becomes the newest; a full table gives up its oldest page. -/
theorem insert_spec (h : t.WellFormed [] order) (faults : Faults) (version : PageVersion)
    (bytes : Bytes) (used : Bool) :
    ((t.capacity = 0 ∨ version.page ∈ order) ∧ t.insert faults version bytes used = .ok t) ∨
    (∃ error, t.insert faults version bytes used = .error (.failed error)) ∨
    ∃ t', t.capacity ≠ 0 ∧ version.page ∉ order ∧ bytes.length = t.pageSize.get ∧
      t.insert faults version bytes used = .ok t' ∧
      t'.WellFormed [] (version.page :: keptOrder t.capacity order) ∧ t.Static t' ∧
      t'.shown version.page = some ⟨version, bytes, used⟩ ∧
      ∀ j ∈ keptOrder t.capacity order, t'.shown j = t.shown j := by
  unfold insert
  by_cases hskip : t.capacity = 0 ∨ version.page ∈ t.entries
  · left
    exact ⟨hskip.imp_right (h.cached _).mpr, if_pos hskip⟩
  right
  rw [if_neg hskip]
  rw [not_or, ← h.cached] at hskip
  by_cases hlen : bytes.length = t.pageSize.get
  · rw [Except.bind_of_ok (Except.ensure_of hlen _)]
    rcases vacant_spec h hskip.1 faults with ⟨error, hv⟩ | ⟨slot, t₁, hv, hw, hs, hshown⟩
    · left
      exact ⟨error, by rw [Except.bind_of_error hv]⟩
    · rw [Except.bind_of_ok hv]
      dsimp only
      by_cases hwrite : faults.write = false
      · right
        have hnew : version.page ∉ keptOrder t.capacity order := fun hm =>
          hskip.2 ((keptOrder_sublist _ _).subset hm)
        obtain ⟨t₂, h₂, hw₂, hs₂, hpage, hrest⟩ :=
          store_spec hw hnew (hlen.trans (by rw [hs.pageSize])) used
        refine ⟨t₂, hskip.1, hskip.2, hlen, ?_, hw₂, hs.trans hs₂, hpage, fun j hj => ?_⟩
        · rw [Except.bind_of_ok (Except.ensure_of hwrite _), h₂]
        · rw [hrest j hj, hshown j hj]
      · left
        rw [Except.bind_of_error (Except.ensure_of_not hwrite _)]
        exact ⟨_, rfl⟩
  · left
    rw [Except.bind_of_error (Except.ensure_of_not hlen _)]
    exact ⟨_, rfl⟩

/-! ## Runs -/

/-- A call on the table. -/
inductive Call where
  | insert (version : PageVersion) (bytes : Bytes) (used : Bool)
  | read (id : Nat)
  | invalidate (id : Nat)

/-- Make a call; with the table comes the page the call used, if any. -/
def apply (t : SlotTable) (faults : Faults) : Call → Except Stop (SlotTable × List Nat)
  | .insert version bytes used => do
      let t' ← t.insert faults version bytes used
      return (t', if t.capacity = 0 ∨ version.page ∈ t.entries then [] else [version.page])
  | .read id => do
      match ← t.read E faults id with
      | none => return (t, [])
      | some (_, t') => return (t', [id])
  | .invalidate id => do
      let t' ← t.invalidate faults id
      return (t', [])

/-- A call, with the log of the pages used so far, newest first. -/
def step (s : SlotTable × List Nat) (call : Faults × Call) :
    Except Stop (SlotTable × List Nat) := do
  let r ← s.1.apply E call.1 call.2
  return (r.1, r.2 ++ s.2)

/-- Calls one after the other, each with the file operations that fail in it. The first error
ends the life of the table. -/
def run (calls : List (Faults × Call)) (start : SlotTable × List Nat) :
    Except Stop (SlotTable × List Nat) :=
  calls.foldlM (step E) start

/-- **Step.** -/
theorem apply_spec (h : t.WellFormed [] order) {log : List Nat} (hrecent : Recent log order)
    (faults : Faults) (call : Call) :
    (∃ error, t.apply E faults call = .error (.failed error)) ∨
    ∃ t' used order', t.apply E faults call = .ok (t', used) ∧ t'.WellFormed [] order' ∧
      Recent (used ++ log) order' := by
  cases call with
  | insert version bytes used =>
      rcases insert_spec h faults version bytes used with
        ⟨hskip, hi⟩ | ⟨error, hi⟩ | ⟨t', hcap, hnew, -, hi, hw, -⟩
      · right
        refine ⟨t, [], order, ?_, h, hrecent⟩
        rw [apply, Except.bind_of_ok hi, if_pos (hskip.imp_right (h.cached _).mp)]
        rfl
      · left
        exact ⟨error, by rw [apply, Except.bind_of_error hi]⟩
      · right
        have hkept := keptOrder_sublist t.capacity order
        refine ⟨t', [version.page], _, ?_, hw,
          (hrecent.sublist hkept).touch fun hm => hnew (hkept.subset hm)⟩
        rw [apply, Except.bind_of_ok hi, if_neg]
        · rfl
        · exact not_or.mpr ⟨hcap, fun hm => hnew ((h.cached _).mpr hm)⟩
  | read id =>
      rcases read_spec E h faults id with ⟨-, hr⟩ | ⟨error, hr⟩ | ⟨e, t', -, -, -, hr, hw, -⟩
      · right
        refine ⟨t, [], order, ?_, h, hrecent⟩
        rw [apply, Except.bind_of_ok hr]
        rfl
      · left
        exact ⟨error, by rw [apply, Except.bind_of_error hr]⟩
      · right
        refine ⟨t', [id], _, ?_, hw, (hrecent.sublist List.erase_sublist).touch
          fun hm => (h.linked.nodup.mem_erase_iff.mp hm).1 rfl⟩
        rw [apply, Except.bind_of_ok hr]
        rfl
  | invalidate id =>
      obtain ⟨t', hi, hw, -⟩ := invalidate_spec h faults id
      right
      refine ⟨t', [], _, ?_, hw, hrecent.sublist List.erase_sublist⟩
      rw [apply, Except.bind_of_ok hi]
      rfl

/-- **Run.** By induction on the calls, with the step for each. -/
theorem run_spec (calls : List (Faults × Call)) : ∀ {t : SlotTable} {log order : List Nat},
    t.WellFormed [] order → Recent log order →
    (∃ error, run E calls (t, log) = .error (.failed error)) ∨
    ∃ t' log' order', run E calls (t, log) = .ok (t', log') ∧ t'.WellFormed [] order' ∧
      Recent log' order' := by
  induction calls with
  | nil => exact fun h hrecent => .inr ⟨_, _, _, rfl, h, hrecent⟩
  | cons call calls ih =>
      intro t log order h hrecent
      rw [run, List.foldlM_cons]
      rcases apply_spec E h hrecent call.1 call.2 with ⟨error, ha⟩ | ⟨t₁, used, order₁, ha, h₁, hr₁⟩
      · left
        exact ⟨error, by rw [step, Except.bind_of_error ha, Except.bind_of_error rfl]⟩
      · have hstep : step E (t, log) call = .ok (t₁, used ++ log) := by
          rw [step, Except.bind_of_ok ha]
          rfl
        rw [Except.bind_of_ok hstep]
        exact ih h₁ hr₁

/-- A new table is empty. -/
theorem wellFormed_new {manifest : Digest} {pageSize : PageSize} {block budget : Nat}
    (hblock : 0 < block) (h : new manifest pageSize block budget = .ok t) :
    t.WellFormed [] [] := by
  simp only [new, Except.bind_eq_ok, Except.ensure_eq_ok, exists_const, Except.pure_eq_ok] at h
  obtain ⟨-, rfl⟩ := h
  refine ⟨Links.linked_nil, fun id => by simp, fun id c hc => by simp [cell] at hc, .refl _,
    Nat.zero_le _, ?_⟩
  -- The stride is the page size rounded up to whole blocks.
  have := Nat.div_add_mod (pageSize.get + block - 1) block
  have hmod := Nat.mod_lt (pageSize.get + block - 1) hblock
  rw [Nat.mul_comm] at this
  dsimp only
  omega

/-- **The slot table.** Whatever calls are made and whichever file operations fail in them, no
`expect` fails, and as long as no call has returned an error the table is well formed with its
pages in the order of their last use; a further page inserted into a full table takes the place
of the page whose last use is the longest ago, and of no other. -/
theorem slot_table {manifest : Digest} {pageSize : PageSize} {block budget : Nat}
    {start : SlotTable} (hblock : 0 < block)
    (hnew : new manifest pageSize block budget = .ok start) (calls : List (Faults × Call)) :
    (∃ error, run E calls (start, []) = .error (.failed error)) ∨
    ∃ t log order, run E calls (start, []) = .ok (t, log) ∧ t.WellFormed [] order ∧
      Recent log order ∧
      ∀ faults version bytes used t', t.capacity ≠ 0 → t.entries.size = t.capacity →
        version.page ∉ t.entries → t.insert faults version bytes used = .ok t' →
        ∃ victim, order = order.dropLast ++ [victim] ∧
          (∀ page ∈ order, page ≠ victim → log.idxOf page < log.idxOf victim) ∧
          t'.WellFormed [] (version.page :: order.dropLast) := by
  rcases run_spec E calls (wellFormed_new hblock hnew) recent_nil with
    herror | ⟨t, log, order, hrun, hw, hrecent⟩
  · exact .inl herror
  refine .inr ⟨t, log, order, hrun, hw, hrecent, ?_⟩
  intro faults version bytes used t' hcap hfull habsent hi
  have hlen : order.length = t.capacity := hw.size ▸ hfull
  have hne : order ≠ [] := by
    rintro rfl
    exact hcap hlen.symm
  refine ⟨order.getLast hne, (List.dropLast_append_getLast hne).symm,
    hrecent.oldest (List.getLast?_eq_some_getLast hne), ?_⟩
  rcases insert_spec hw faults version bytes used with
    ⟨hskip, -⟩ | ⟨error, he⟩ | ⟨t₁, -, -, -, h₁, hw₁, -⟩
  · rcases hskip with h0 | hm
    · exact absurd h0 hcap
    · exact absurd ((hw.cached _).mp hm) habsent
  · rw [hi] at he
    cases he
  · rw [hi] at h₁
    cases h₁
    rwa [keptOrder, if_pos hlen] at hw₁

/-- Three pages inserted into a table of two slots. -/
def threeInserts : List (Faults × Call) :=
  [3, 4, 5].map fun page => (⟨false, false, false, false⟩, .insert ⟨page, 1, 0⟩ (zeros 512) true)

theorem slot_table_three : ∃ start, new 7 ⟨512, by decide⟩ 512 1024 = .ok start ∧
    ∃ t log order, run Env.coded threeInserts (start, []) = .ok (t, log) ∧
      t.WellFormed [] order ∧ Recent log order ∧ log = [5, 4, 3] ∧ t.newest = some 5 ∧
      t.oldest = some 4 := by
  have hnew : new 7 ⟨512, by decide⟩ 512 1024 = .ok
      { file := [], manifest := 7, pageSize := ⟨512, by decide⟩, stride := 512, capacity := 2
        allocated := 0, free := [], entries := ∅, newest := none, oldest := none } := rfl
  refine ⟨_, hnew, ?_⟩
  have hrun : ((run Env.coded threeInserts
      ({ file := [], manifest := 7, pageSize := ⟨512, by decide⟩, stride := 512, capacity := 2
         allocated := 0, free := [], entries := ∅, newest := none, oldest := none }, [])).toOption.any
      fun r => r.2 = [5, 4, 3] ∧ r.1.newest = some 5 ∧ r.1.oldest = some 4) = true := by
    decide +kernel
  obtain ⟨r, hr, hends⟩ := Except.exists_of_any hrun
  rcases slot_table Env.coded (by decide) hnew threeInserts with
    ⟨error, he⟩ | ⟨t, log, order, h, hw, hrecent, -⟩
  · rw [he] at hr
    cases hr
  · obtain rfl := Except.ok.inj (hr.symm.trans h)
    exact ⟨t, log, order, h, hw, hrecent, by simpa using hends⟩

end SlotTable

end Zsqlite
