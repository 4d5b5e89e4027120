import Zsqlite.Objects
import Zsqlite.Lib.Chain
import Zsqlite.Lib.Machine
import Zsqlite.Lib.Outcome

set_option autoImplicit false

/-! # Catalog indexes

The catalog keeps its tables (placements, endpoints, retained roots, advisory placements,
heads) as chains of immutable objects (`catalog.rs`). A flush writes the keys changed since the
last one as a run over the previous head, a removed key as a tombstone; the sixteenth run is
followed by a checkpoint of all entries, which drops the chain and its tombstones. Loading walks
from the head to the checkpoint and keeps the first value it meets for a key.

* `Index.load_of_chain`: a head determines what loading it returns, in whatever state the
  backend is.
* `Index.Backed.flush`: a flush keeps the relation of entries, changed keys, depth and chain,
  also when it fails.
* `Index.load_flushed`: over all runs of edits, flushes, reloads and changes of the backend by
  others, a flushed head that loads yields the newest write of every key.

An index object is modelled by the record its envelope carries; `IndexFormat` has its identity
and its stored length.
-/

namespace Zsqlite

/-- An ordered set. -/
abbrev BTreeSet (α : Type) [Ord α] := Std.ExtTreeSet α

def indexLimit : Nat := 64 * 1024 * 1024

def maxDepth : Nat := 64

def checkpointDepth : Nat := 16

/-- The record of an index object: its predecessor and its keys, `none` for a tombstone. -/
structure IndexRecord where
  parent : Option Digest
  records : List (Bytes × Option Bytes)
  deriving DecidableEq

/-- Length of one encoded key: its length, the key, a tag, and the value with its length. -/
def IndexRecord.entryLength (e : Bytes × Option Bytes) : Nat :=
  4 + e.1.length + 1 + e.2.elim 0 fun value => 4 + value.length

/-- Length of the encoded record. -/
def IndexRecord.rawLength (r : IndexRecord) : Nat :=
  (r.parent.elim 1 fun _ => 33) + 4 + (r.records.map entryLength).sum

/-- What a record says about a key. -/
def IndexRecord.find (r : IndexRecord) (key : Bytes) : Option (Option Bytes) :=
  r.records.lookup key

/-- Identity and stored length of index objects. -/
structure IndexFormat where
  hash : IndexRecord → Digest
  hash_injective : Function.Injective hash
  storedLength : IndexRecord → Nat

/-- The index objects of a backend. -/
abbrev IndexObjects := BTreeMap Digest IndexRecord

/-- How a backend answers a `put`: it stores the object, it refuses, or it stores the object
and the answer is lost. -/
inductive PutOutcome where
  | stored
  | refused
  | lost
  deriving DecidableEq, Repr

def IndexObjects.put (objects : IndexObjects) (outcome : PutOutcome) (id : Digest)
    (r : IndexRecord) : Except StoreError Unit × IndexObjects :=
  match outcome with
  | .stored => (.ok (), objects.insert id r)
  | .refused => (.error .backend, objects)
  | .lost => (.error .backend, objects.insert id r)

structure Index where
  head : Option Digest
  objects : BTreeSet Digest
  entries : BTreeMap Bytes Bytes
  dirty : BTreeMap Bytes (Option Bytes)
  depth : Nat

def Index.empty : Index := ⟨none, ∅, ∅, ∅, 0⟩

theorem IndexObjects.put_eq_ok {objects objects' : IndexObjects} {outcome : PutOutcome}
    {id : Digest} {r : IndexRecord} (h : objects.put outcome id r = (.ok (), objects')) :
    objects' = objects.insert id r := by
  cases outcome <;> simp_all [IndexObjects.put]

/-! ## Loading -/

section Load

variable (F : IndexFormat) (backend : IndexObjects)

/-- `read_all` and the check of the hash. -/
def readIndex (id : Digest) : Except StoreError IndexRecord :=
  match backend[id]? with
  | none => .error .backend
  | some r => do
      Except.ensure (F.storedLength r ≠ 0 ∧ F.storedLength r ≤ indexLimit) .range
      Except.ensure (F.hash r = id) (.corrupt 0)
      return r

/-- The keys of a record are short and increase. -/
def IndexRecord.checkKeys : Option Bytes → List (Bytes × Option Bytes) → Except StoreError Unit
  | _, [] => .ok ()
  | previous, (key, _) :: rest => do
      Except.ensure (key.length ≠ 0 ∧ key.length ≤ 256) .range
      Except.ensure (previous.all fun p => compare p key == .lt) (.corrupt 0)
      checkKeys (some key) rest

/-- The variables of the loop of `load`. -/
structure Index.Loading where
  objects : BTreeSet Digest
  resolved : BTreeMap Bytes (Option Bytes)
  decodedBytes : Nat
  depth : Nat

/-- A key keeps the value of the newest record that has it. -/
def IndexRecord.merge (r : IndexRecord) (resolved : BTreeMap Bytes (Option Bytes)) :
    BTreeMap Bytes (Option Bytes) :=
  r.records.foldl (fun resolved e => resolved.insertIfNew e.1 e.2) resolved

/-- The loop of `load`, with what is left of `MAX_DEPTH` as fuel. -/
def Index.walk : Nat → Option Digest → Loading → Except StoreError Loading
  | _, none, s => .ok s
  | 0, some _, _ => .error .range
  | fuel + 1, some id, s => do
      Except.ensure (id ∉ s.objects) .range
      let r ← readIndex F backend id
      Except.ensure (r.rawLength ≤ indexLimit - s.decodedBytes) .range
      Except.ensure (r.records.length ≤ r.rawLength / 9) .range
      IndexRecord.checkKeys none r.records
      walk fuel r.parent
        { objects := s.objects.insert id
          resolved := r.merge s.resolved
          decodedBytes := s.decodedBytes + r.rawLength
          depth := s.depth + 1 }

def Index.load (head : Option Digest) : Except StoreError Index := do
  let s ← walk F backend maxDepth head ⟨∅, ∅, 0, 0⟩
  return ⟨head, s.objects, s.resolved.filterMap fun _ value => value, ∅, s.depth⟩

end Load

/-! ## Edits and flushes -/

namespace Index

/-- The edits of an index. -/
inductive Edit where
  | insert (key value : Bytes)
  | remove (key : Bytes)
  deriving DecidableEq

variable (ix : Index)

def insert (key value : Bytes) : Index :=
  if ix.entries[key]? ≠ some value then
    { ix with entries := ix.entries.insert key value, dirty := ix.dirty.insert key (some value) }
  else ix

def remove (key : Bytes) : Index :=
  if ix.entries.contains key then
    { ix with entries := ix.entries.erase key, dirty := ix.dirty.insert key none }
  else ix

def apply : Edit → Index
  | .insert key value => ix.insert key value
  | .remove key => ix.remove key

/-- The next object starts a chain of its own. -/
def checkpoint : Bool := ix.head.isNone || decide (checkpointDepth ≤ ix.depth)

def records : List (Bytes × Option Bytes) :=
  if ix.checkpoint then ix.entries.toList.map fun e => (e.1, some e.2) else ix.dirty.toList

def record : IndexRecord := ⟨if ix.checkpoint then none else ix.head, ix.records⟩

/-- The record of a flush, with the checks made while it is written. -/
def encode : Except StoreError IndexRecord := do
  Except.ensure (ix.records.length ≤ u32Max) .range
  ix.records.forM fun (key, value) => do
    Except.ensure (key.length ≠ 0 ∧ key.length ≤ 256) .range
    Except.ensure (value.all fun value => value.length ≤ u32Max) .range
  Except.ensure (ix.record.rawLength ≤ indexLimit) .range
  return ix.record

/-- The index after its record has been stored. -/
def advance (id : Digest) : Index where
  head := some id
  objects := (if ix.checkpoint then ∅ else ix.objects).insert id
  entries := ix.entries
  dirty := ∅
  depth := (if ix.checkpoint then 0 else ix.depth) + 1

/-- A flush changes the index only when it returns; the backend may have the object anyway. -/
def flush (F : IndexFormat) (outcome : PutOutcome) (backend : IndexObjects) :
    Except StoreError Index × IndexObjects :=
  if ix.dirty.isEmpty ∧ ix.depth < checkpointDepth then (.ok ix, backend)
  else
    match ix.encode with
    | .error e => (.error e, backend)
    | .ok r =>
        match backend.put outcome (F.hash r) r with
        | (.error e, backend) => (.error e, backend)
        | (.ok (), backend) => (.ok (ix.advance (F.hash r)), backend)

end Index

/-! ## Records as maps -/

section Records

variable {r : IndexRecord} {key : Bytes}

theorem lookup_eq_some_iff {l : List (Bytes × Option Bytes)} {v : Option Bytes}
    (hl : (l.map Prod.fst).Nodup) : l.lookup key = some v ↔ (key, v) ∈ l := by
  induction l with
  | nil => simp
  | cons e l ih =>
      obtain ⟨k, w⟩ := e
      rw [List.map_cons, List.nodup_cons] at hl
      rw [List.lookup_cons]
      by_cases hk : key = k
      · subst hk
        simp only [beq_self_eq_true, List.mem_cons, Prod.mk.injEq, true_and]
        constructor
        · intro h
          exact .inl (Option.some.inj h).symm
        · rintro (rfl | h)
          · rfl
          · exact absurd (List.mem_map_of_mem (f := Prod.fst) h) hl.1
      · simp [beq_eq_false_iff_ne.mpr hk, hk, ih hl.2]

/-- Merging a record keeps what is resolved and adds the rest. -/
theorem IndexRecord.getElem?_merge (resolved : BTreeMap Bytes (Option Bytes)) :
    (r.merge resolved)[key]? = (resolved[key]?).or (r.find key) := by
  unfold merge find
  generalize r.records = l
  induction l generalizing resolved with
  | nil => simp
  | cons e l ih =>
      rw [List.foldl_cons, ih, Std.ExtTreeMap.getElem?_insertIfNew, List.lookup_cons]
      by_cases hk : key = e.1
      · subst hk
        cases hres : resolved[e.1]? with
        | none => simp [Std.ExtTreeMap.mem_iff_isSome_getElem?, hres]
        | some v => simp [Std.ExtTreeMap.mem_iff_isSome_getElem?, hres]
      · simp [Ne.symm hk, beq_eq_false_iff_ne.mpr hk]

theorem Index.nodup_records (ix : Index) : (ix.records.map Prod.fst).Nodup := by
  unfold records
  split
  · rw [List.map_map]
    show (ix.entries.toList.map Prod.fst).Nodup
    rw [Std.ExtTreeMap.map_fst_toList_eq_keys]
    exact Std.ExtTreeMap.nodup_keys
  · rw [Std.ExtTreeMap.map_fst_toList_eq_keys]
    exact Std.ExtTreeMap.nodup_keys

/-- A checkpoint has the entries. -/
theorem Index.find_record_checkpoint {ix : Index} (h : ix.checkpoint = true) :
    ix.record.find key = (ix.entries[key]?).map some := by
  refine Option.ext fun v => ?_
  unfold IndexRecord.find record
  rw [lookup_eq_some_iff ix.nodup_records, records, if_pos h, List.mem_map, Option.map_eq_some_iff]
  constructor
  · rintro ⟨⟨k, w⟩, hmem, he⟩
    cases he
    exact ⟨w, Std.ExtTreeMap.mem_toList_iff_getElem?_eq_some.mp hmem, rfl⟩
  · rintro ⟨w, hget, rfl⟩
    exact ⟨(key, w), Std.ExtTreeMap.mem_toList_iff_getElem?_eq_some.mpr hget, rfl⟩

/-- A run has the changed keys. -/
theorem Index.find_record_run {ix : Index} (h : ix.checkpoint = false) :
    ix.record.find key = ix.dirty[key]? := by
  refine Option.ext fun v => ?_
  unfold IndexRecord.find record
  rw [lookup_eq_some_iff ix.nodup_records, records, if_neg (by simp [h]),
    Std.ExtTreeMap.mem_toList_iff_getElem?_eq_some]

end Records

/-! ## A head determines what loading returns -/

/-- Index objects as a chain of records. -/
def IndexFormat.chain (F : IndexFormat) : HashChain.Format IndexRecord Digest :=
  ⟨F.hash, IndexRecord.parent, F.hash_injective⟩

section Chain

open HashChain

variable {F : IndexFormat} {backend : IndexObjects} {head : Option Digest} {chain : List IndexRecord}

theorem readIndex_eq_ok {id : Digest} {r : IndexRecord} :
    readIndex F backend id = .ok r ↔ backend[id]? = some r ∧ F.storedLength r ≠ 0 ∧
      F.storedLength r ≤ indexLimit ∧ F.hash r = id := by
  unfold readIndex
  split
  · rename_i h
    simp [h]
  · rename_i r' h
    simp only [Except.bind_eq_ok, Except.ensure_eq_ok, exists_const, h, Option.some.injEq]
    constructor
    · rintro ⟨⟨h₁, h₂⟩, h₃, h⟩
      cases h
      exact ⟨rfl, h₁, h₂, h₃⟩
    · rintro ⟨rfl, h₁, h₂, h₃⟩
      exact ⟨⟨h₁, h₂⟩, h₃, rfl⟩

/-- What the loop has collected after a part of a chain. -/
structure Index.Loading.After (F : IndexFormat) (s : Index.Loading) (chain : List IndexRecord)
    (t : Index.Loading) : Prop where
  objects : ∀ id, id ∈ t.objects ↔ id ∈ s.objects ∨ id ∈ chain.map F.hash
  resolved : ∀ key, (t.resolved[key]?).join =
    (s.resolved[key]?).getD (resolve IndexRecord.find chain key)
  depth : t.depth = s.depth + chain.length

theorem Index.walk_of_chain {fuel : Nat} {s t : Index.Loading} (hc : Chain F.chain head chain)
    (h : Index.walk F backend fuel head s = .ok t) : s.After F chain t := by
  -- the loop reads the records of the chain, since a record found under an id is the one hashed
  induction hc generalizing fuel s with
  | nil =>
      have h : s = t := by
        cases fuel <;> exact Except.ok.inj h
      subst h
      refine ⟨by simp, fun key => ?_, rfl⟩
      cases s.resolved[key]? <;> simp [resolve]
  | @cons r rest _ ih =>
      cases fuel with
      | zero => cases h
      | succ fuel =>
          simp only [Index.walk, Except.bind_eq_ok, Except.ensure_eq_ok, exists_const] at h
          obtain ⟨_, r', hread, _, _, _, _, h⟩ := h
          obtain rfl : r' = r := F.hash_injective (readIndex_eq_ok.mp hread).2.2.2
          have hafter := ih h
          refine ⟨fun id => ?_, fun key => ?_, ?_⟩
          · rw [hafter.objects, List.map_cons, List.mem_cons]
            simp only [Std.ExtTreeSet.mem_insert, Nat.compare_eq_eq]
            constructor
            · rintro ((rfl | h) | h)
              · exact .inr (.inl rfl)
              · exact .inl h
              · exact .inr (.inr h)
            · rintro (h | rfl | h)
              · exact .inl (.inr h)
              · exact .inl (.inl rfl)
              · exact .inr h
          · rw [hafter.resolved, IndexRecord.getElem?_merge, resolve]
            cases s.resolved[key]? <;> simp
          · rw [hafter.depth, List.length_cons]
            simp only
            omega

/-- What loading the head of a chain returns. -/
theorem Index.load_of_chain {ix : Index} (hc : Chain F.chain head chain)
    (h : Index.load F backend head = .ok ix) :
    ix.head = head ∧ (∀ id, id ∈ ix.objects ↔ id ∈ chain.map F.hash) ∧ ix.depth = chain.length ∧
      ix.dirty = ∅ ∧ ∀ key, ix.entries[key]? = resolve IndexRecord.find chain key := by
  simp only [Index.load, Except.bind_eq_ok] at h
  obtain ⟨t, hwalk, h⟩ := h
  cases h
  have hafter := Index.walk_of_chain hc hwalk
  refine ⟨rfl, fun id => ?_, ?_, rfl, fun key => ?_⟩
  · rw [hafter.objects]
    simp
  · rw [hafter.depth]
    exact Nat.zero_add _
  · have := hafter.resolved key
    rw [Std.ExtTreeMap.getElem?_filterMap]
    cases hres : t.resolved[key]? with
    | none => simpa [hres] using this
    | some v => simpa [hres] using this

end Chain

/-! ## Edits -/

namespace Index

variable {ix : Index} {key : Bytes}

theorem entries_insert (k v : Bytes) :
    (ix.insert k v).entries[key]? = if k = key then some v else ix.entries[key]? := by
  unfold insert
  split
  · rw [Std.ExtTreeMap.getElem?_insert]
    simp
  · rename_i h
    rw [not_not] at h
    split
    · rename_i hk
      rw [← hk, h]
    · rfl

theorem entries_remove (k : Bytes) :
    (ix.remove k).entries[key]? = if k = key then none else ix.entries[key]? := by
  unfold remove
  split
  · rw [Std.ExtTreeMap.getElem?_erase]
    simp only [Std.LawfulEqCmp.compare_eq_iff_eq]
  · rename_i h
    split
    · rename_i hk
      rw [Std.ExtTreeMap.contains_eq_isSome_getElem?, hk, Option.not_isSome_iff_eq_none] at h
      exact h
    · rfl

/-- What the newest edit of a key leaves it at. -/
def latest : List Edit → Bytes → Option Bytes
  | [], _ => none
  | .insert k v :: log, key => if k = key then some v else latest log key
  | .remove k :: log, key => if k = key then none else latest log key

theorem entries_apply {log : List Edit} (h : ∀ key, ix.entries[key]? = latest log key) (e : Edit)
    (key : Bytes) : (ix.apply e).entries[key]? = latest (e :: log) key := by
  cases e with
  | insert k v => rw [apply, entries_insert, h, latest]
  | remove k => rw [apply, entries_remove, h, latest]

/-! ## The entries and the chain -/

open HashChain

/-- An index over a chain: its objects and depth are those of the chain, and its entries are
what the chain resolves to, except for the changed keys. -/
structure Backed (F : IndexFormat) (ix : Index) (chain : List IndexRecord) : Prop where
  linked : Chain F.chain ix.head chain
  objects : ∀ id, id ∈ ix.objects ↔ id ∈ chain.map F.hash
  depth : ix.depth = chain.length
  bounded : chain.length ≤ checkpointDepth
  entries : ∀ key, ix.entries[key]? = (ix.dirty[key]?).getD (resolve IndexRecord.find chain key)

variable {F : IndexFormat} {chain : List IndexRecord}

theorem backed_empty : Backed F empty [] where
  linked := .nil
  objects := by simp [empty]
  depth := rfl
  bounded := Nat.zero_le _
  entries := by simp [empty, resolve]

theorem Backed.apply (h : ix.Backed F chain) (e : Edit) : (ix.apply e).Backed F chain := by
  cases e with
  | insert k v =>
      show (ix.insert k v).Backed F chain
      unfold insert
      split
      · refine ⟨h.linked, h.objects, h.depth, h.bounded, fun key => ?_⟩
        rw [Std.ExtTreeMap.getElem?_insert, Std.ExtTreeMap.getElem?_insert]
        split
        · rfl
        · exact h.entries key
      · exact h
  | remove k =>
      show (ix.remove k).Backed F chain
      unfold remove
      split
      · refine ⟨h.linked, h.objects, h.depth, h.bounded, fun key => ?_⟩
        rw [Std.ExtTreeMap.getElem?_erase, Std.ExtTreeMap.getElem?_insert]
        split
        · rfl
        · exact h.entries key
      · exact h

/-- Storing the record of an index: a checkpoint resolves to the entries by itself, a run
resolves the changed keys and leaves the others to the chain. -/
theorem Backed.advance (h : ix.Backed F chain) :
    (ix.advance (F.hash ix.record)).Backed F
      (ix.record :: if ix.checkpoint then [] else chain) := by
  cases hcp : ix.checkpoint with
  | true =>
      have hparent : ix.record.parent = none := by simp [record, hcp]
      refine ⟨?_, fun id => ?_, ?_, by simp [checkpointDepth], fun key => ?_⟩
      · refine Chain.cons (F := F.chain) ix.record ?_
        show Chain F.chain ix.record.parent []
        rw [hparent]
        exact .nil
      · simp only [Index.advance, hcp, if_pos, Std.ExtTreeSet.mem_insert, Nat.compare_eq_eq]
        simp [eq_comm]
      · simp [Index.advance, hcp]
      · simp only [Index.advance, if_pos, resolve, find_record_checkpoint hcp]
        cases ix.entries[key]? <;> simp
  | false =>
      have hparent : ix.record.parent = ix.head := by simp [record, hcp]
      have hdepth : ix.depth < checkpointDepth := by
        simp only [checkpoint, Bool.or_eq_false_iff, decide_eq_false_iff_not] at hcp
        exact Nat.lt_of_not_le hcp.2
      refine ⟨?_, fun id => ?_, ?_, ?_, fun key => ?_⟩
      · refine Chain.cons (F := F.chain) ix.record ?_
        show Chain F.chain ix.record.parent _
        rw [hparent]
        exact h.linked
      · simp only [Index.advance, hcp, Std.ExtTreeSet.mem_insert, Nat.compare_eq_eq, Bool.false_eq_true,
          if_false, h.objects]
        simp [eq_comm]
      · simp [Index.advance, hcp, h.depth]
      · rw [h.depth] at hdepth
        exact hdepth
      · simp only [Index.advance, Bool.false_eq_true, if_false, resolve, find_record_run hcp,
          h.entries key]
        simp

theorem encode_eq_ok {r : IndexRecord} (h : ix.encode = .ok r) : r = ix.record := by
  simp only [encode, Except.bind_eq_ok, Except.ensure_eq_ok, exists_const] at h
  obtain ⟨_, _, _, _, h⟩ := h
  exact (Except.ok.inj h).symm

/-- A flush that returns leaves the index as it is or stores its record. -/
theorem flush_eq_ok {outcome : PutOutcome} {backend backend' : IndexObjects} {ix' : Index}
    (h : ix.flush F outcome backend = (.ok ix', backend')) :
    ix.dirty = ∅ ∧ ix' = ix ∧ backend' = backend ∨
    ix.encode = .ok ix.record ∧ ix' = ix.advance (F.hash ix.record) ∧
      backend' = backend.insert (F.hash ix.record) ix.record := by
  unfold flush at h
  split at h
  · rename_i hclean
    cases h
    exact .inl ⟨by simpa using hclean.1, rfl, rfl⟩
  · split at h
    · cases h
    · rename_i r hr
      obtain rfl := encode_eq_ok hr
      split at h
      · cases h
      · rename_i objects hput
        cases h
        exact .inr ⟨hr, rfl, IndexObjects.put_eq_ok hput⟩

/-- After a flush that returns, the chain of the new head resolves to the entries. -/
theorem Backed.flush (h : ix.Backed F chain) {outcome : PutOutcome}
    {backend backend' : IndexObjects} {ix' : Index}
    (hf : ix.flush F outcome backend = (.ok ix', backend')) :
    ix'.entries = ix.entries ∧ ix'.dirty = ∅ ∧ ∃ chain', ix'.Backed F chain' := by
  rcases flush_eq_ok hf with ⟨hclean, rfl, -⟩ | ⟨-, rfl, -⟩
  · exact ⟨rfl, hclean, chain, h⟩
  · exact ⟨rfl, rfl, _, h.advance⟩

theorem Backed.resolve_eq (h : ix.Backed F chain) (hclean : ix.dirty = ∅) (key : Bytes) :
    resolve IndexRecord.find chain key = ix.entries[key]? := by
  rw [h.entries, hclean]
  simp

/-- Loading the head of a bounded chain gives an index over it. -/
theorem backed_of_load {backend : IndexObjects} {head : Option Digest}
    (hc : Chain F.chain head chain) (hb : chain.length ≤ checkpointDepth)
    (h : load F backend head = .ok ix) : ix.Backed F chain ∧ ix.dirty = ∅ := by
  obtain ⟨hhead, hobjects, hdepth, hdirty, hentries⟩ := load_of_chain hc h
  refine ⟨⟨hhead ▸ hc, hobjects, hdepth, hb, fun key => ?_⟩, hdirty⟩
  rw [hentries, hdirty]
  simp

end Index

/-! ## Runs -/

/-- One client's index, the edits that led to it, the backend, and the heads flushed so far
with the edits they stand for. Edits are listed newest first. -/
structure IndexWorld where
  index : Index
  log : List Index.Edit
  backend : IndexObjects
  flushed : List (Option Digest × List Index.Edit)

namespace Index

inductive Call where
  | edit (e : Edit)
  | flush (outcome : PutOutcome)
  /-- Load a head that was flushed at some time. -/
  | reload (head : Option Digest) (log : List Edit)
  /-- The objects of the backend change, by other clients, a collection or damage. -/
  | elsewhere (backend : IndexObjects)

/-- Edits, flushes with any answer of the backend, and reloads, from an empty index. -/
def system (F : IndexFormat) : Machine.System IndexWorld Call where
  init w := w.index = empty ∧ w.log = [] ∧ w.flushed = [(none, [])]
  step w c w' :=
    match c with
    | .edit e => w' = { w with index := w.index.apply e, log := e :: w.log }
    | .flush outcome =>
        match w.index.flush F outcome w.backend with
        | (.ok index, backend) =>
            w' = { w with
              index := index
              backend := backend
              flushed := (index.head, w.log) :: w.flushed }
        | (.error _, backend) => w' = { w with backend := backend }
    | .reload head log =>
        (head, log) ∈ w.flushed ∧ ∃ index, load F w.backend head = .ok index ∧
          w' = { w with index := index, log := log }
    | .elsewhere backend => w' = { w with backend := backend }

open HashChain

/-- A head stands for a sequence of edits. -/
def Records (F : IndexFormat) (head : Option Digest) (log : List Edit) : Prop :=
  ∃ chain, Chain F.chain head chain ∧ chain.length ≤ checkpointDepth ∧
    ∀ key, resolve IndexRecord.find chain key = latest log key

structure Invariant (F : IndexFormat) (w : IndexWorld) : Prop where
  backed : ∃ chain, w.index.Backed F chain
  entries : ∀ key, w.index.entries[key]? = latest w.log key
  flushed : ∀ head log, (head, log) ∈ w.flushed → Records F head log

variable {F : IndexFormat} {w w' : IndexWorld}

theorem Invariant.step (h : Invariant F w) {c : Call} (hs : (system F).step w c w') :
    Invariant F w' := by
  obtain ⟨⟨chain, hbacked⟩, hentries, hflushed⟩ := h
  cases c with
  | edit e =>
      cases hs
      exact ⟨⟨chain, hbacked.apply e⟩, entries_apply hentries e, hflushed⟩
  | flush outcome =>
      simp only [system] at hs
      split at hs
      · rename_i index backend hflush
        cases hs
        obtain ⟨hsame, hclean, chain', hbacked'⟩ := hbacked.flush hflush
        have hlog : ∀ key, index.entries[key]? = latest w.log key := fun key => by
          rw [hsame, hentries]
        refine ⟨⟨chain', hbacked'⟩, hlog, fun head log hmem => ?_⟩
        rcases List.mem_cons.mp hmem with heq | hmem
        · cases heq
          exact ⟨chain', hbacked'.linked, hbacked'.bounded, fun key => by
            rw [hbacked'.resolve_eq hclean, hlog]⟩
        · exact hflushed head log hmem
      · cases hs
        exact ⟨⟨chain, hbacked⟩, hentries, hflushed⟩
  | reload head log =>
      obtain ⟨hmem, index, hload, rfl⟩ := hs
      obtain ⟨chain', hchain, hbound, hlog⟩ := hflushed head log hmem
      obtain ⟨hbacked', hclean⟩ := backed_of_load hchain hbound hload
      exact ⟨⟨chain', hbacked'⟩, fun key => (hbacked'.resolve_eq hclean key).symm.trans (hlog key),
        hflushed⟩
  | elsewhere backend =>
      cases hs
      exact ⟨⟨chain, hbacked⟩, hentries, hflushed⟩

theorem invariant_of_reach (h : (system F).Reach w) : Invariant F w := by
  refine h.invariant ?_ fun s c t hI _ hs => hI.step hs
  rintro w ⟨hindex, hlog, hflushed⟩
  refine ⟨⟨[], hindex ▸ backed_empty⟩, fun key => by simp [hindex, hlog, empty, latest], ?_⟩
  intro head log hmem
  rw [hflushed, List.mem_singleton] at hmem
  cases hmem
  exact ⟨[], .nil, Nat.zero_le _, fun key => rfl⟩

/-- **Flushed heads.** In every state of every run: whatever flushed head loads, loading it
returns for each key the newest edit made up to its flush, the recorded objects are those
reachable from the head, and the depth is at most the checkpoint depth. The index in memory
agrees with its own edits, objects and depth in the same way, after failed flushes too. -/
theorem load_flushed (h : (system F).Reach w) :
    (∀ head log ix, (head, log) ∈ w.flushed → load F w.backend head = .ok ix →
      ix.head = head ∧ (∀ key, ix.entries[key]? = latest log key) ∧
        (∀ id, id ∈ ix.objects ↔ F.chain.Reachable head id) ∧ ix.depth ≤ checkpointDepth) ∧
    (∀ key, w.index.entries[key]? = latest w.log key) ∧
    (∀ id, id ∈ w.index.objects ↔ F.chain.Reachable w.index.head id) ∧
    w.index.depth ≤ checkpointDepth := by
  obtain ⟨⟨chain, hbacked⟩, hentries, hflushed⟩ := invariant_of_reach h
  refine ⟨fun head log ix hmem hload => ?_, hentries, fun id => ?_, ?_⟩
  · obtain ⟨chain', hchain, hbound, hlog⟩ := hflushed head log hmem
    obtain ⟨hhead, hobjects, hdepth, -, hload⟩ := load_of_chain hchain hload
    exact ⟨hhead, fun key => (hload key).trans (hlog key),
      fun id => (hobjects id).trans hchain.mem_iff, hdepth ▸ hbound⟩
  · exact (hbacked.objects id).trans hbacked.linked.mem_iff
  · exact hbacked.depth ▸ hbacked.bounded

theorem reach_init (backend : IndexObjects) : (system F).Reach ⟨empty, [], backend, [(none, [])]⟩ :=
  .init ⟨rfl, rfl, rfl⟩

theorem step_edit (w : IndexWorld) (e : Edit) :
    (system F).step w (.edit e) { w with index := w.index.apply e, log := e :: w.log } := rfl

theorem step_flush {outcome : PutOutcome} {index : Index}
    (h : (w.index.flush F outcome w.backend).1 = .ok index) :
    (system F).step w (.flush outcome)
      { w with
        index := index
        backend := (w.index.flush F outcome w.backend).2
        flushed := (index.head, w.log) :: w.flushed } := by
  simp only [system]
  split
  · rename_i index' backend hflush
    rw [hflush] at h ⊢
    cases h
    rfl
  · rename_i hflush
    rw [hflush] at h
    cases h

end Index

/-- Codes as hashes, and records stored uncompressed in their envelope. -/
def IndexFormat.coded : IndexFormat where
  hash r := Code.code (r.parent, r.records)
  hash_injective := by
    rintro ⟨p, l⟩ ⟨p', l'⟩ h
    cases Code.code_inj.mp h
    rfl
  storedLength r := 48 + r.rawLength

/-- Two keys are flushed, and the removal of one of them in a run over that checkpoint. -/
theorem Index.load_flushed_tombstone :
    ∃ (w : IndexWorld) (head : Digest) (ix : Index), (Index.system IndexFormat.coded).Reach w ∧
      (some head, [.remove [1], .insert [2] [8], .insert [1] [7]]) ∈ w.flushed ∧
      Index.load IndexFormat.coded w.backend (some head) = .ok ix ∧
      ix.entries[([1] : Bytes)]? = none ∧ ix.entries[([2] : Bytes)]? = some [8] := by
  let F := IndexFormat.coded
  let first := (Index.empty.insert [1] [7]).insert [2] [8]
  have h : ((first.flush F .stored ∅).1.toOption.any fun second =>
      ((second.remove [1]).flush F .stored (first.flush F .stored ∅).2).1.toOption.any fun third =>
      third.head.any fun head =>
      (Index.load F ((second.remove [1]).flush F .stored (first.flush F .stored ∅).2).2
        (some head)).toOption.any fun _ => true) = true := by
    decide +kernel
  obtain ⟨second, hsecond, h⟩ := Except.exists_of_any h
  obtain ⟨third, hthird, h⟩ := Except.exists_of_any h
  obtain ⟨head, hhead, h⟩ := (Option.any_eq_true _ _).mp h
  obtain ⟨ix, hload, -⟩ := Except.exists_of_any h
  have hedited : (Index.system F).Reach ⟨first, [.insert [2] [8], .insert [1] [7]], ∅, [(none, [])]⟩ :=
    ((Index.reach_init ∅).step (Index.step_edit _ (.insert [1] [7]))).step
      (Index.step_edit _ (.insert [2] [8]))
  have hreach := ((hedited.step (Index.step_flush hsecond)).step
    (Index.step_edit _ (.remove [1]))).step (Index.step_flush hthird)
  have hmem : ((some head, [.remove [1], .insert [2] [8], .insert [1] [7]]) :
      Option Digest × List Index.Edit) ∈ [(third.head, [.remove [1], .insert [2] [8], .insert [1] [7]]),
        (second.head, [.insert [2] [8], .insert [1] [7]]), (none, [])] := by
    rw [hhead]
    exact List.mem_cons_self
  obtain ⟨hflushed, -⟩ := Index.load_flushed hreach
  obtain ⟨-, hentries, -⟩ := hflushed _ _ ix hmem hload
  exact ⟨_, head, ix, hreach, hmem, hload, hentries [1], hentries [2]⟩

end Zsqlite
