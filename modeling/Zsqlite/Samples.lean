import Zsqlite.Lib.Smallest
import Zsqlite.Envelope

set_option autoImplicit false

/-! # The sample reservoir

`samples.rs`: a bounded sample of committed pages, kept by content digest. A page is rejected at
once when there is no room and its digest is not below the largest one kept; otherwise it is added
and the largest digests are dropped until the bytes fit again.

For pages of one size the reservoir is the set of the smallest digests that fit, whatever the order
of the insertions and however often it is written out and read back (`reservoir_smallest`). For
pages of any sizes the byte counter is right, and so the trimming loop, which would not end with
bytes left and no page, always ends (`load_total`, `Kept.insert`).
-/

namespace Zsqlite

open ByteVec Wire Sampling

/-! ## Totals over a map -/

section Total

variable {β : Type}

/-- The sum of a weight over the values of a map. -/
def total (weight : β → Nat) (m : BTreeMap Nat β) : Nat := (m.toList.map fun e => weight e.2).sum

/-- The keys of a map. -/
def keySet (m : BTreeMap Nat β) : Finset Nat := m.keys.toFinset

variable {weight : β → Nat} {m : BTreeMap Nat β} {k : Nat} {v : β}

theorem mem_keySet {j : Nat} : j ∈ keySet m ↔ j ∈ m := by
  rw [keySet, List.mem_toFinset, Std.ExtTreeMap.mem_keys]

theorem card_keySet : (keySet m).card = m.size := by
  rw [keySet, List.toFinset_card_of_nodup Std.ExtTreeMap.nodup_keys, Std.ExtTreeMap.length_keys]

theorem nodup_toList : m.toList.Nodup := by
  refine List.Nodup.of_map Prod.fst ?_
  rw [Std.ExtTreeMap.map_fst_toList_eq_keys]
  exact Std.ExtTreeMap.nodup_keys

theorem toList_insert (hk : k ∉ m) : (m.insert k v).toList.Perm ((k, v) :: m.toList) := by
  have hnot : (k, v) ∉ m.toList := fun h => hk (Std.ExtTreeMap.mem_iff_isSome_getElem?.mpr
    (by rw [Std.ExtTreeMap.mem_toList_iff_getElem?_eq_some.mp h]; rfl))
  refine (List.perm_ext_iff_of_nodup nodup_toList (List.nodup_cons.mpr ⟨hnot, nodup_toList⟩)).mpr ?_
  rintro ⟨j, w⟩
  rw [Std.ExtTreeMap.mem_toList_iff_getElem?_eq_some, List.mem_cons,
    Std.ExtTreeMap.mem_toList_iff_getElem?_eq_some, getElem?_insert_eq, Prod.mk.injEq]
  by_cases hj : j = k
  · subst hj
    rw [if_pos rfl, Std.ExtTreeMap.getElem?_eq_none hk]
    simp [eq_comm]
  · rw [if_neg hj]
    simp [hj]

theorem total_empty : total weight (∅ : BTreeMap Nat β) = 0 := by
  rw [total, Std.ExtTreeMap.toList_eq_nil_iff.mpr rfl]
  rfl

theorem keySet_insert : keySet (m.insert k v) = insert k (keySet m) := by
  ext j
  rw [mem_keySet, Finset.mem_insert, mem_keySet, Std.ExtTreeMap.mem_insert, compare_eq_iff_eq,
    eq_comm]

theorem keySet_erase : keySet (m.erase k) = (keySet m).erase k := by
  ext j
  rw [mem_keySet, Finset.mem_erase, mem_keySet, Std.ExtTreeMap.mem_erase, ne_eq,
    compare_eq_iff_eq, eq_comm]

theorem total_insert (hk : k ∉ m) : total weight (m.insert k v) = weight v + total weight m := by
  rw [total, ((toList_insert hk).map _).sum_eq, List.map_cons, List.sum_cons, total]

theorem insert_erase_self (h : m[k]? = some v) : (m.erase k).insert k v = m := by
  refine Std.ExtTreeMap.ext_getElem? fun j => ?_
  rw [getElem?_insert_eq, getElem?_erase_eq]
  by_cases hj : j = k
  · rw [if_pos hj, hj, h]
  · rw [if_neg hj, if_neg hj]

theorem total_erase (h : m[k]? = some v) : total weight m = weight v + total weight (m.erase k) := by
  have hk : k ∉ m.erase k := by
    rw [Std.ExtTreeMap.mem_erase]
    exact fun h => h.1 (compare_eq_iff_eq.mpr rfl)
  rw [← total_insert hk, insert_erase_self h]

/-- A value replaced by one of the same weight. -/
theorem total_overwrite {w : β} (h : m[k]? = some v) (hw : weight w = weight v) :
    total weight (m.insert k w) = total weight m := by
  have hin : (m.insert k w)[k]? = some w := by rw [getElem?_insert_eq, if_pos rfl]
  have herase : (m.insert k w).erase k = m.erase k := by
    refine Std.ExtTreeMap.ext_getElem? fun j => ?_
    rw [getElem?_erase_eq, getElem?_erase_eq, getElem?_insert_eq]
    by_cases hj : j = k
    · rw [if_pos hj, if_pos hj]
    · rw [if_neg hj, if_neg hj, if_neg hj]
  rw [total_erase h, total_erase hin, herase, hw]

/-- Values of one weight. -/
theorem total_const {w : Nat} (h : ∀ (j : Nat) v, m[j]? = some v → weight v = w) :
    total weight m = m.size * w := by
  have hmap : (m.toList.map fun e => weight e.2) = m.toList.map fun _ => w :=
    List.map_congr_left fun e he => h e.1 e.2 (Std.ExtTreeMap.mem_toList_iff_getElem?_eq_some.mp he)
  rw [total, hmap, List.map_const', List.sum_replicate, Std.ExtTreeMap.length_toList, smul_eq_mul]

/-- The largest key. -/
theorem exists_maxKey (h : m ≠ ∅) : ∃ last v, m.maxKey? = some last ∧ m[last]? = some v ∧
    ∀ j ∈ keySet m, j ≤ last := by
  obtain ⟨last, hlast⟩ := Option.isSome_iff_exists.mp
    (Std.ExtTreeMap.isSome_maxKey?_iff_ne_empty.mpr h)
  obtain ⟨hmem, hmax⟩ := Std.ExtTreeMap.maxKey?_eq_some_iff_mem_and_forall.mp hlast
  obtain ⟨v, hv⟩ := Option.isSome_iff_exists.mp (Std.ExtTreeMap.mem_iff_isSome_getElem?.mp hmem)
  exact ⟨last, v, hlast, hv, fun j hj => Nat.isLE_compare.mp (hmax j (mem_keySet.mp hj))⟩

end Total

/-! ## The reservoir -/

/-- A supported number of sample bytes. -/
structure SampleBudget where
  get : Nat
  least : 1024 * 1024 ≤ get
  most : get ≤ maxSampleBytes

structure Samples where
  pages : BTreeMap Digest Bytes
  bytes : Nat
  fresh : Nat
  budget : SampleBudget
  dirty : Bool

namespace Samples

def new (budget : SampleBudget) : Samples := ⟨∅, 0, 0, budget, false⟩

/-- Drop the largest digests until the bytes fit; `none` is a loop that does not end. -/
def trim (s : Samples) : Option Samples :=
  if s.bytes ≤ s.budget.get then some s
  else
    match _h : s.pages.maxKey? with
    | none => none
    | some last =>
        trim { s with
          pages := s.pages.erase last
          bytes := s.bytes - (s.pages[last]?.map List.length).getD 0
          dirty := true }
termination_by s.pages.size
decreasing_by
  have hmem : last ∈ s.pages := Std.ExtTreeMap.maxKey?_mem _h
  have hpos : s.pages.size ≠ 0 := by
    intro h0
    rw [Std.ExtTreeMap.eq_empty_iff_size_eq_zero.mpr h0] at hmem
    exact Std.ExtTreeMap.not_mem_empty hmem
  rw [Std.ExtTreeMap.size_erase, if_pos (Std.ExtTreeMap.contains_iff_mem.mpr hmem)]
  omega

variable (hash : Bytes → Digest) (zstd : Zstd)

/-- Add a page. What has no page size is ignored, and so is what is kept already. -/
def insert (s : Samples) (bytes : Bytes) : Option Samples :=
  if ¬ (bytes.length ≤ u32Max ∧ validPageSize bytes.length = true) then some s
  else if hash bytes ∈ s.pages then some s
  else if s.budget.get < s.bytes + bytes.length ∧
      (s.pages.maxKey?.any fun last => last ≤ hash bytes) = true then some s
  else
    trim { s with
      bytes := s.bytes + bytes.length
      fresh := min (s.fresh + bytes.length) s.budget.get
      pages := s.pages.insert (hash bytes) bytes
      dirty := true }

def ready (s : Samples) : Bool := decide (1024 * 1024 ≤ s.fresh ∧ 32 ≤ s.pages.size)

/-- What an evaluation changes. -/
def evaluation (s : Samples) : Samples :=
  if s.ready then { s with fresh := 0, dirty := true } else s

/-! ### The file -/

def sampleMagic : Bytes := [90, 83, 65, 77, 80, 76, 69, 49]

def pageEntry (bytes : Bytes) : Bytes := leBytes 4 bytes.length ++ bytes

def rawEncoding (fresh : Nat) (pages : List Bytes) : Bytes :=
  leBytes 8 fresh ++ (leBytes 4 pages.length ++ pages.flatMap pageEntry)

/-- Nothing is written for a reservoir that has not changed. -/
def encode (s : Samples) : Except StoreError (Option Bytes) :=
  if s.dirty = false then .ok none
  else do
    Except.ensure (s.pages.size ≤ u32Max) .range
    Except.ensure (∀ e ∈ s.pages.toList, e.2.length ≤ u32Max) .range
    return some (Envelope.envelope hash zstd sampleMagic
      (rawEncoding s.fresh (s.pages.toList.map Prod.snd)))

/-- A length that is a page size, and so many bytes. -/
def pageParser : Parser StoreError Bytes := do
  let length ← u32
  check (Except.ensure (validPageSize length = true) .value)
  Wire.take StoreError.corrupt length

/-- Count a page and put it under its digest. -/
def collect (r : Nat × BTreeMap Digest Bytes) (bytes : Bytes) :
    Except StoreError (Nat × BTreeMap Digest Bytes) :=
  if maxSampleBytes < r.1 + bytes.length ∨ hash bytes ∈ r.2 then .error (.corrupt 0)
  else .ok (r.1 + bytes.length, r.2.insert (hash bytes) bytes)

def parser : Parser StoreError (Nat × List Bytes) := do
  let fresh ← u64
  let count ← u32
  check (Except.ensure (count ≤ maxSampleBytes / 512) .range)
  let pages ← many pageParser (collect hash) count (0, ∅)
  return (fresh, pages)

/-- `Samples::decode` of the file, if there is one. -/
def decode (file : Option Bytes) (budget : SampleBudget) : Except StoreError (Option Samples) :=
  match file with
  | none => .error .io
  | some encoded => do
      Except.ensure (encoded.length ≤ maxSampleBytes + 2 * 1024 * 1024) .range
      let raw ← Envelope.openEnvelope hash zstd sampleMagic encoded (maxSampleBytes + 1024 * 1024)
      let (fresh, pages) ← decodeAll (parser hash) StoreError.corrupt raw
      let (bytes, pages) ← pages.foldlM (collect hash) (0, ∅)
      return trim ⟨pages, bytes, min fresh budget.get, budget, decide (budget.get < fresh)⟩

/-- A file that cannot be read is an empty reservoir. -/
def load (file : Option Bytes) (budget : SampleBudget) : Option Samples :=
  match decode hash zstd file budget with
  | .ok samples => samples
  | .error _ => some (new budget)

/-! ## Trimming ends -/

/-- The byte counter is right. -/
def Counted (s : Samples) : Prop := s.bytes = total List.length s.pages

variable {hash zstd} {s : Samples}

theorem trim_done (h : s.bytes ≤ s.budget.get) : s.trim = some s := by
  rw [trim, if_pos h]

theorem trim_pop (h : s.budget.get < s.bytes) {last : Digest} {b : Bytes}
    (hlast : s.pages.maxKey? = some last) (hb : s.pages[last]? = some b) :
    s.trim = trim { s with
      pages := s.pages.erase last, bytes := s.bytes - b.length, dirty := true } := by
  rw [trim, if_neg (by omega)]
  split
  · rename_i hnone
    rw [hlast] at hnone
    cases hnone
  · rename_i last' hlast'
    rw [hlast] at hlast'
    cases hlast'
    rw [hb, Option.map_some, Option.getD_some]

/-- **Trimming ends** with a right counter within the budget, and drops pages only. -/
theorem trim_total (h : s.Counted) : ∃ s', s.trim = some s' ∧ s'.Counted ∧
    s'.bytes ≤ s'.budget.get ∧ s'.budget = s.budget ∧ s'.fresh = s.fresh ∧
    (∀ (d : Digest) b, s'.pages[d]? = some b → s.pages[d]? = some b) ∧
    (s'.dirty = false → s' = s) := by
  -- By induction on the number of pages; without pages there are no bytes.
  induction hn : s.pages.size using Nat.strongRecOn generalizing s with
  | _ n ih =>
      by_cases hfit : s.bytes ≤ s.budget.get
      · exact ⟨s, trim_done hfit, h, hfit, rfl, rfl, fun _ _ hb => hb, fun _ => rfl⟩
      · have hne : s.pages ≠ ∅ := by
          intro hempty
          rw [Counted, hempty, total_empty] at h
          omega
        obtain ⟨last, b, hlast, hb, -⟩ := exists_maxKey hne
        have htotal : total List.length s.pages = b.length + _ := total_erase hb
        have hmem : last ∈ s.pages := Std.ExtTreeMap.maxKey?_mem hlast
        have hsize : (s.pages.erase last).size < n := by
          have hpos : s.pages.size ≠ 0 := fun h0 =>
            hne (Std.ExtTreeMap.eq_empty_iff_size_eq_zero.mpr h0)
          rw [Std.ExtTreeMap.size_erase, if_pos (Std.ExtTreeMap.contains_iff_mem.mpr hmem)]
          omega
        have hcounted : Counted { s with
            pages := s.pages.erase last, bytes := s.bytes - b.length, dirty := true } := by
          unfold Counted at h ⊢
          dsimp only
          omega
        obtain ⟨s', htrim, hc, hbound, hbudget, hfresh, hsub, hdirty⟩ :=
          ih _ hsize hcounted rfl
        refine ⟨s', (trim_pop (by omega) hlast hb).trans htrim, hc, hbound, hbudget, hfresh,
          fun d b' hd => ?_, fun hclean => ?_⟩
        · have := hsub d b' hd
          dsimp only at this
          rw [getElem?_erase_eq] at this
          split at this
          · cases this
          · exact this
        · rw [hdirty hclean] at hclean
          cases hclean

/-! ## Insertion -/

/-- The reservoir after the pages `inserted`, of any sizes. -/
structure Kept (hash : Bytes → Digest) (inserted : List Bytes) (s : Samples) : Prop where
  keyed : ∀ (d : Digest) b, s.pages[d]? = some b →
    hash b = d ∧ b ∈ inserted ∧ validPageSize b.length = true
  counted : s.Counted
  bounded : s.bytes ≤ s.budget.get
  fresh : s.fresh ≤ s.budget.get

theorem kept_new (budget : SampleBudget) (inserted : List Bytes) :
    Kept hash inserted (new budget) where
  keyed d b hb := by simp [new] at hb
  counted := total_empty.symm
  bounded := Nat.zero_le _
  fresh := Nat.zero_le _

variable {inserted : List Bytes}

theorem Kept.mono (h : s.Kept hash inserted) {inserted' : List Bytes}
    (hsub : ∀ b ∈ inserted, b ∈ inserted') : s.Kept hash inserted' :=
  ⟨fun d b hb => let h' := h.keyed d b hb; ⟨h'.1, hsub b h'.2.1, h'.2.2⟩, h.counted, h.bounded,
    h.fresh⟩

/-- **Insertion of a page of any size.** -/
theorem Kept.insert (h : s.Kept hash inserted) (bytes : Bytes) :
    ∃ s', s.insert hash bytes = some s' ∧ s'.Kept hash (bytes :: inserted) ∧
      s'.budget = s.budget ∧ (s'.dirty = false → s' = s) := by
  have hsame := h.mono fun b hb => List.mem_cons_of_mem bytes hb
  unfold Samples.insert
  by_cases hsize : bytes.length ≤ u32Max ∧ validPageSize bytes.length = true
  · rw [if_neg (not_not.mpr hsize)]
    by_cases hdup : hash bytes ∈ s.pages
    · exact ⟨s, if_pos hdup, hsame, rfl, fun _ => rfl⟩
    · rw [if_neg hdup]
      by_cases hreject : s.budget.get < s.bytes + bytes.length ∧
          (s.pages.maxKey?.any fun last => last ≤ hash bytes) = true
      · exact ⟨s, if_pos hreject, hsame, rfl, fun _ => rfl⟩
      · rw [if_neg hreject]
        have hcounted : Counted { s with
            bytes := s.bytes + bytes.length
            fresh := min (s.fresh + bytes.length) s.budget.get
            pages := s.pages.insert (hash bytes) bytes
            dirty := true } := by
          have := h.counted
          unfold Counted at this ⊢
          dsimp only
          rw [total_insert hdup]
          omega
        obtain ⟨s', htrim, hc, hbound, hbudget, hfresh, hsub, hdirty⟩ := trim_total hcounted
        refine ⟨s', htrim, ⟨fun d b hb => ?_, hc, hbound, ?_⟩, hbudget, fun hclean => ?_⟩
        · have hin := hsub d b hb
          dsimp only at hin
          rw [getElem?_insert_eq] at hin
          split at hin
          · rename_i hd
            cases hin
            exact ⟨hd.symm, List.mem_cons_self, hsize.2⟩
          · obtain ⟨h₁, h₂, h₃⟩ := h.keyed d b hin
            exact ⟨h₁, List.mem_cons_of_mem _ h₂, h₃⟩
        · rw [hfresh, hbudget]
          exact Nat.min_le_right _ _
        · rw [hdirty hclean] at hclean
          cases hclean
  · exact ⟨s, if_pos hsize, hsame, rfl, fun _ => rfl⟩

/-- **Insertion of a page of the one size** keeps the smallest digests that fit. -/
theorem Kept.smallest_insert (h : s.Kept hash inserted) {size : Nat}
    (hvalid : validPageSize size = true)
    (huniform : ∀ (d : Digest) b, s.pages[d]? = some b → b.length = size) {S : Finset Digest}
    (hS : Smallest (s.budget.get / size) S (keySet s.pages)) {bytes : Bytes}
    (hbytes : bytes.length = size) {s' : Samples} (hi : s.insert hash bytes = some s') :
    Smallest (s.budget.get / size) (Insert.insert (hash bytes) S) (keySet s'.pages) := by
  have hbound := le_of_validPageSize hvalid
  have hpos : 0 < size := by omega
  have htotal : s.bytes = s.pages.size * size := h.counted.trans (total_const huniform)
  have hle : s.pages.size ≤ s.budget.get / size := by
    rw [Nat.le_div_iff_mul_le hpos, ← htotal]
    exact h.bounded
  have hsize : bytes.length ≤ u32Max ∧ validPageSize bytes.length = true :=
    ⟨by rw [hbytes]; exact hbound.2.trans (by decide), hbytes ▸ hvalid⟩
  unfold Samples.insert at hi
  rw [if_neg (not_not.mpr hsize)] at hi
  by_cases hdup : hash bytes ∈ s.pages
  · rw [if_pos hdup] at hi
    cases hi
    exact hS.insert_mem (mem_keySet.mpr hdup)
  have hnew : hash bytes ∉ keySet s.pages := fun hm => hdup (mem_keySet.mp hm)
  rw [if_neg hdup] at hi
  by_cases hroom : s.bytes + bytes.length ≤ s.budget.get
  · -- There is room, so nothing is dropped.
    rw [if_neg (fun hr => by omega), trim_done (by exact hroom)] at hi
    cases hi
    rw [keySet_insert]
    refine hS.insert_of_card_lt hnew ?_
    rw [card_keySet, ← Nat.succ_le_iff, Nat.le_div_iff_mul_le hpos, Nat.succ_mul]
    omega
  -- There is none, so exactly as many pages are kept as fit.
  have hcount : s.budget.get / size < s.pages.size + 1 := by
    rw [Nat.div_lt_iff_lt_mul hpos, Nat.succ_mul]
    omega
  have hfull : (keySet s.pages).card = s.budget.get / size := by
    rw [card_keySet]
    omega
  have hne : s.pages ≠ ∅ := by
    intro hempty
    have hleast := s.budget.least
    rw [hempty, Std.ExtTreeMap.size_empty] at htotal
    omega
  obtain ⟨last, b, hlast, hb, hmax⟩ := exists_maxKey hne
  have hin : last ∈ keySet s.pages :=
    mem_keySet.mpr (Std.ExtTreeMap.mem_iff_isSome_getElem?.mpr (by rw [hb]; rfl))
  by_cases hle : last ≤ hash bytes
  · rw [if_pos ⟨by omega, by rw [hlast]; exact decide_eq_true hle⟩] at hi
    cases hi
    exact hS.insert_of_le hnew hfull fun d hd => (hmax d hd).trans hle
  · rw [if_neg fun hr => hle (by have := hr.2; rw [hlast] at this; exact of_decide_eq_true this)] at hi
    have hlt : hash bytes < last := Nat.lt_of_not_le hle
    -- The largest digest is still that of the page `b`, which makes room.
    have hlast' : (s.pages.insert (hash bytes) bytes).maxKey? = some last := by
      refine Std.ExtTreeMap.maxKey?_eq_some_iff_mem_and_forall.mpr ⟨?_, fun d hd => ?_⟩
      · rw [← mem_keySet, keySet_insert]
        exact Finset.mem_insert_of_mem hin
      · rw [← mem_keySet, keySet_insert] at hd
        refine Nat.isLE_compare.mpr ?_
        rcases Finset.mem_insert.mp hd with rfl | hd
        · exact hlt.le
        · exact hmax d hd
    have hb' : (s.pages.insert (hash bytes) bytes)[last]? = some b := by
      rw [getElem?_insert_eq, if_neg hlt.ne', hb]
    have hover : s.budget.get < s.bytes + bytes.length := by omega
    rw [trim_pop hover hlast' hb', trim_done] at hi
    · cases hi
      rw [keySet_erase, keySet_insert]
      exact hS.insert_erase hnew hfull hin hmax hlt
    · have := huniform last b hb
      have := h.bounded
      dsimp only
      omega

/-! ## The file -/

theorem pageParser_exact :
    Exact pageParser pageEntry (fun b => validPageSize b.length = true) := by
  have h := exact_u32.bind List.length (fun length _ => Exact.ensure (e := StoreError.value)
    (P := validPageSize length = true) fun _ => Exact.take StoreError.corrupt length)
    fun _ _ h => h.2
  refine h.congr (fun b => ?_) fun _ _ => rfl
  simp only [and_true]
  refine ⟨fun h => h.2, fun hb => ⟨?_, hb⟩⟩
  have := (le_of_validPageSize hb).2
  omega

theorem parser_exact : Exact (parser hash) (fun r => rawEncoding r.1 r.2) (fun r =>
    r.1 < 2 ^ 64 ∧ r.2.length ≤ maxSampleBytes / 512 ∧
    (∀ b ∈ r.2, validPageSize b.length = true) ∧
    ∃ final, r.2.foldlM (collect hash) (0, ∅) = .ok final) := by
  have hpages := fun fresh count => (pageParser_exact.many (collect hash) count (0, ∅)).bind Prod.snd
    (fun pages _ => Exact.pure (ε := StoreError) ((fresh, pages) : Nat × List Bytes))
    fun _ _ h => by rw [h]
  have hcount := fun fresh => exact_u32.bind (fun r : Nat × List Bytes => r.2.length)
    (fun count _ => Exact.ensure (e := StoreError.range) (P := count ≤ maxSampleBytes / 512)
      fun _ => hpages fresh count) fun _ _ h => h.2.1.1
  have hfresh := exact_u64.bind Prod.fst (fun fresh _ => hcount fresh) fun _ _ h => by
    rw [h.2.2.2]
  refine hfresh.congr (fun r => ?_) fun r _ => by simp [rawEncoding]
  constructor
  · rintro ⟨h₁, h₂, h₃, ⟨h₄, h₅, h₆⟩, -⟩
    exact ⟨h₁, h₃, h₅, h₆⟩
  · rintro ⟨h₁, h₃, h₅, h₆⟩
    have hmax : maxSampleBytes / 512 < 2 ^ 32 := by decide
    exact ⟨h₁, by omega, h₃, ⟨rfl, h₅, h₆⟩, rfl⟩

/-- Whatever a file holds, its pages are counted and keyed by their digests. -/
theorem collect_spec {pages : List Bytes} (hvalid : ∀ b ∈ pages, validPageSize b.length = true)
    {r : Nat × BTreeMap Digest Bytes} (h : pages.foldlM (collect hash) (0, ∅) = .ok r) :
    r.1 = total List.length r.2 ∧ r.1 ≤ maxSampleBytes ∧ ∀ (d : Digest) b, r.2[d]? = some b →
      hash b = d ∧ b ∈ pages ∧ validPageSize b.length = true := by
  refine Except.foldlM_invariant
    (I := fun r : Nat × BTreeMap Digest Bytes => r.1 = total List.length r.2 ∧
      r.1 ≤ maxSampleBytes ∧ ∀ (d : Digest) b, r.2[d]? = some b →
        hash b = d ∧ b ∈ pages ∧ validPageSize b.length = true)
    (fun b hb r r' hr hstep => ?_) ⟨total_empty.symm, Nat.zero_le _, fun d b hb => by simp at hb⟩ h
  obtain ⟨hcount, hmax, hkeyed⟩ := hr
  unfold collect at hstep
  split at hstep
  · cases hstep
  · rename_i hno
    rw [not_or] at hno
    cases hstep
    refine ⟨?_, by dsimp only; omega, fun d b' hd => ?_⟩
    · dsimp only
      rw [total_insert hno.2]
      omega
    · dsimp only at hd
      rw [getElem?_insert_eq] at hd
      split at hd
      · rename_i hd'
        cases hd
        exact ⟨hd'.symm, hb, hvalid b hb⟩
      · exact hkeyed d b' hd

/-- **Loading returns** whatever the file holds, with a reservoir in order. -/
theorem load_total (file : Option Bytes) (budget : SampleBudget) :
    ∃ s pages, load hash zstd file budget = some s ∧ s.Kept hash pages ∧ s.budget = budget := by
  unfold load
  cases hd : decode hash zstd file budget with
  | error e => exact ⟨new budget, [], rfl, kept_new budget [], rfl⟩
  | ok samples =>
      cases file with
      | none => cases hd
      | some encoded =>
          obtain ⟨_, -, hd⟩ := Except.bind_eq_ok.mp hd
          obtain ⟨raw, -, hd⟩ := Except.bind_eq_ok.mp hd
          obtain ⟨⟨fresh, pages⟩, hparse, hd⟩ := Except.bind_eq_ok.mp hd
          obtain ⟨⟨bytes, map⟩, hfold, hd⟩ := Except.bind_eq_ok.mp hd
          obtain rfl := Except.pure_eq_ok.mp hd
          obtain ⟨⟨-, -, hvalid, -⟩, -⟩ := parser_exact.decodeAll_eq_ok.mp hparse
          obtain ⟨hcount, hmax, hkeyed⟩ := collect_spec hvalid hfold
          obtain ⟨s, htrim, hc, hbound, hbudget, hfresh, hsub, -⟩ := trim_total
            (s := ⟨map, bytes, min fresh budget.get, budget, decide (budget.get < fresh)⟩) hcount
          refine ⟨s, pages, htrim, ⟨fun d b hb => hkeyed d b (hsub d b hb), hc, hbound, ?_⟩, hbudget⟩
          rw [hfresh, hbudget]
          exact Nat.min_le_right _ _

/-- The pages of a reservoir in digest order, collected again. -/
theorem collect_values {inserted : List Bytes} (h : s.Kept hash inserted) :
    (s.pages.toList.map Prod.snd).foldlM (collect hash) (0, ∅) = .ok (s.bytes, s.pages) := by
  have hentry : ∀ e ∈ s.pages.toList, s.pages[e.1]? = some e.2 := fun e he =>
    Std.ExtTreeMap.mem_toList_iff_getElem?_eq_some.mp he
  have hvalue : ∀ b, b ∈ s.pages.toList.map Prod.snd ↔ s.pages[hash b]? = some b := by
    intro b
    constructor
    · intro hb
      obtain ⟨e, he, rfl⟩ := List.mem_map.mp hb
      rw [(h.keyed e.1 e.2 (hentry e he)).1]
      exact hentry e he
    · exact fun hb => List.mem_map.mpr
        ⟨(hash b, b), Std.ExtTreeMap.mem_toList_iff_getElem?_eq_some.mpr hb, rfl⟩
  have hnodup : (s.pages.toList.map Prod.snd).Nodup := by
    refine nodup_toList.map_on fun e he f hf heq => ?_
    have hkey : e.1 = f.1 := by
      rw [← (h.keyed e.1 e.2 (hentry e he)).1, ← (h.keyed f.1 f.2 (hentry f hf)).1, heq]
    exact Prod.ext hkey heq
  have hsum : ((s.pages.toList.map Prod.snd).map List.length).sum = s.bytes := by
    rw [h.counted, total, List.map_map]
    rfl
  -- The pages done are in the map under their digests, and no other ones.
  obtain ⟨r, hrun, hcount, hmap⟩ := Except.foldlM_total
    (I := fun done (r : Nat × BTreeMap Digest Bytes) => r.1 = (done.map List.length).sum ∧
      ∀ (d : Digest) b, r.2[d]? = some b ↔ b ∈ done ∧ hash b = d)
    (f := collect hash) (l := s.pages.toList.map Prod.snd) (s := (0, ∅))
    (fun done b rest r hl hI => by
      obtain ⟨hcount, hmap⟩ := hI
      rw [hl] at hnodup hsum
      have hfresh : hash b ∉ r.2 := by
        intro hm
        obtain ⟨b', hb'⟩ := Option.isSome_iff_exists.mp
          (Std.ExtTreeMap.mem_iff_isSome_getElem?.mp hm)
        obtain ⟨hdone, hhash⟩ := (hmap _ _).mp hb'
        have h₁ := (hvalue b').mp (by rw [hl]; simp [hdone])
        have h₂ := (hvalue b).mp (by rw [hl]; simp)
        rw [hhash, h₂] at h₁
        cases h₁
        exact (List.nodup_append.mp hnodup).2.2 b hdone b (by simp) rfl
      have hfits : r.1 + b.length ≤ maxSampleBytes := by
        rw [List.map_append, List.sum_append, List.map_cons, List.sum_cons] at hsum
        have := h.bounded
        have := s.budget.most
        omega
      refine ⟨(r.1 + b.length, r.2.insert (hash b) b), if_neg (by
        rw [not_or]
        exact ⟨by omega, hfresh⟩), ?_, fun d b' => ?_⟩
      · simp [hcount]
      · dsimp only
        rw [getElem?_insert_eq, List.mem_append, List.mem_singleton]
        by_cases hd : d = hash b
        · rw [if_pos hd, Option.some.injEq]
          constructor
          · rintro rfl
            exact ⟨.inr rfl, hd.symm⟩
          · rintro ⟨hb' | rfl, hhash⟩
            · have := (hmap d b').mpr ⟨hb', hhash⟩
              exact absurd (Std.ExtTreeMap.mem_iff_isSome_getElem?.mpr (by rw [this]; rfl))
                (hd ▸ hfresh)
            · rfl
        · rw [if_neg hd, hmap]
          refine and_congr_left fun hhash => ⟨.inl, fun hb' => hb'.resolve_right ?_⟩
          rintro rfl
          exact hd hhash.symm)
    ⟨rfl, fun d b => by simp⟩
  have hbytes : r.1 = s.bytes := hcount.trans hsum
  have hpages : r.2 = s.pages := by
    refine Std.ExtTreeMap.ext_getElem? fun d => Option.ext fun b => ?_
    rw [hmap, hvalue]
    constructor
    · rintro ⟨hb, rfl⟩
      exact hb
    · intro hb
      have := (h.keyed d b hb).1
      exact ⟨this ▸ hb, this⟩
  rw [hrun, ← hbytes, ← hpages]

theorem length_rawEncoding (fresh : Nat) (pages : List Bytes) :
    (rawEncoding fresh pages).length =
      12 + 4 * pages.length + (pages.map List.length).sum := by
  have hentries : (pages.flatMap pageEntry).length = 4 * pages.length + (pages.map List.length).sum := by
    induction pages with
    | nil => rfl
    | cons b pages ih =>
        rw [List.flatMap_cons, List.length_append, ih, pageEntry, List.length_append,
          length_leBytes, List.length_cons, List.map_cons, List.sum_cons]
        omega
  rw [rawEncoding, List.length_append, List.length_append, hentries, length_leBytes, length_leBytes]
  omega

/-! The pages in digest order are few and of page sizes, and so the content has a bounded length. -/

theorem length_values (s : Samples) : (s.pages.toList.map Prod.snd).length = s.pages.size := by
  rw [List.length_map, Std.ExtTreeMap.length_toList]

theorem Kept.valid_values (h : s.Kept hash inserted) :
    ∀ b ∈ s.pages.toList.map Prod.snd, validPageSize b.length = true := by
  intro b hb
  obtain ⟨e, he, rfl⟩ := List.mem_map.mp hb
  exact (h.keyed e.1 e.2 (Std.ExtTreeMap.mem_toList_iff_getElem?_eq_some.mp he)).2.2

theorem Kept.sum_values (h : s.Kept hash inserted) :
    ((s.pages.toList.map Prod.snd).map List.length).sum = s.bytes := by
  rw [h.counted, total, List.map_map]
  rfl

/-- Pages have at least 512 bytes. -/
theorem Kept.size_le (h : s.Kept hash inserted) : s.pages.size ≤ maxSampleBytes / 512 := by
  have hcount : s.pages.size * 512 ≤ s.bytes := by
    rw [← h.sum_values, ← s.length_values]
    refine le_trans (le_of_eq ?_) (List.card_nsmul_le_sum _ 512 fun n hn => ?_)
    · rw [smul_eq_mul, List.length_map (f := List.length)]
    · obtain ⟨b, hb, rfl⟩ := List.mem_map.mp hn
      exact (le_of_validPageSize (h.valid_values b hb)).1
  have := h.bounded
  have := s.budget.most
  omega

theorem Kept.length_rawEncoding_le (h : s.Kept hash inserted) :
    (rawEncoding s.fresh (s.pages.toList.map Prod.snd)).length ≤ maxSampleBytes + 1024 * 1024 := by
  rw [length_rawEncoding, s.length_values, h.sum_values]
  have hmax : maxSampleBytes = 100663296 := rfl
  have := h.size_le
  have := h.bounded
  have := s.budget.most
  omega

/-- zstd's bound on the length of compressed data. -/
def CompressBound (zstd : Zstd) : Prop :=
  ∀ raw, (zstd.compress 3 none raw).length ≤ raw.length + raw.length / 256 + 64

/-- **Writing out and reading back** changes nothing but the mark that something changed. -/
theorem load_encode (hdigest : ∀ raw, hash raw < 2 ^ 256) (hzstd : CompressBound zstd)
    {inserted : List Bytes} (h : s.Kept hash inserted) (hdirty : s.dirty = true) :
    ∃ encoded, s.encode hash zstd = .ok (some encoded) ∧
      load hash zstd (some encoded) s.budget = some { s with dirty := false } := by
  have hvalid := h.valid_values
  have hlength := s.length_values
  have hfew := h.size_le
  have hraw := h.length_rawEncoding_le
  have hmax : maxSampleBytes = 100663296 := rfl
  have hfresh : s.fresh < 2 ^ 64 := by
    have := h.fresh
    have := s.budget.most
    omega
  refine ⟨Envelope.envelope hash zstd sampleMagic
    (rawEncoding s.fresh (s.pages.toList.map Prod.snd)), ?_, ?_⟩
  · rw [encode, if_neg (by rw [hdirty]; decide), Except.bind_of_ok (Except.ensure_of _ _),
      Except.bind_of_ok (Except.ensure_of _ _)]
    · rfl
    · intro e he
      have := (le_of_validPageSize (hvalid e.2 (List.mem_map_of_mem he))).2
      exact this.trans (by decide)
    · have : maxSampleBytes / 512 ≤ u32Max := by decide
      omega
  · have hopen : Envelope.openEnvelope hash zstd sampleMagic (Envelope.envelope hash zstd sampleMagic
        (rawEncoding s.fresh (s.pages.toList.map Prod.snd))) (maxSampleBytes + 1024 * 1024) =
        .ok (rawEncoding s.fresh (s.pages.toList.map Prod.snd)) := by
      refine (Envelope.openEnvelope_eq_ok rfl).mpr ⟨_, ⟨?_, ?_⟩, hdigest _, rfl,
        zstd.round_trip 3 none _⟩
      · omega
      · omega
    have hparse : decodeAll (parser hash) StoreError.corrupt
        (rawEncoding s.fresh (s.pages.toList.map Prod.snd)) =
        .ok (s.fresh, s.pages.toList.map Prod.snd) :=
      parser_exact.decodeAll_eq_ok.mpr
        ⟨⟨hfresh, hlength.le.trans hfew, hvalid, _, collect_values h⟩, rfl⟩
    have hfile : (Envelope.envelope hash zstd sampleMagic
        (rawEncoding s.fresh (s.pages.toList.map Prod.snd))).length ≤
        maxSampleBytes + 2 * 1024 * 1024 := by
      have := hzstd (rawEncoding s.fresh (s.pages.toList.map Prod.snd))
      rw [Envelope.envelope, List.length_append, List.length_append, List.length_append,
        length_leBytes, length_leBytes, show sampleMagic.length = 8 from rfl]
      omega
    rw [load, decode, Except.bind_of_ok (Except.ensure_of hfile _), Except.bind_of_ok hopen,
      Except.bind_of_ok hparse]
    dsimp only
    rw [Except.bind_of_ok (collect_values h)]
    have hclean : decide (s.budget.get < s.fresh) = false := decide_eq_false (Nat.not_lt.mpr h.fresh)
    have htrim : trim ⟨s.pages, s.bytes, min s.fresh s.budget.get, s.budget,
        decide (s.budget.get < s.fresh)⟩ = some _ := trim_done h.bounded
    rw [Nat.min_eq_left h.fresh, hclean] at htrim
    rw [Nat.min_eq_left h.fresh, hclean]
    exact htrim

/-! ## Runs -/

/-- What is done with a reservoir and its file. -/
inductive Op where
  | insert (bytes : Bytes)
  | evaluate
  | reopen

section Runs

variable (hash : Bytes → Digest) (zstd : Zstd)

/-- `reopen` writes the reservoir out, if it has changed, and loads the file. -/
def step (state : Option Bytes × Samples) : Op → Option (Option Bytes × Samples)
  | .insert bytes => (state.2.insert hash bytes).map fun s => (state.1, s)
  | .evaluate => some (state.1, state.2.evaluation)
  | .reopen =>
      let file := match state.2.encode hash zstd with
        | .ok (some encoded) => some encoded
        | _ => state.1
      (load hash zstd file state.2.budget).map fun s => (file, s)

def run (ops : List Op) (state : Option Bytes × Samples) : Option (Option Bytes × Samples) :=
  ops.foldlM (step hash zstd) state

end Runs

/-- The pages that operations insert, the last one first. -/
def insertedBy (ops : List Op) (before : List Bytes) : List Bytes :=
  ops.foldl (fun inserted op => match op with
    | .insert bytes => bytes :: inserted
    | _ => inserted) before

/-- A reservoir with its file: what has not changed is what the file holds. -/
structure Session (hash : Bytes → Digest) (zstd : Zstd) (budget : SampleBudget)
    (inserted : List Bytes) (state : Option Bytes × Samples) : Prop where
  kept : state.2.Kept hash inserted
  sameBudget : state.2.budget = budget
  stored : state.2.dirty = false → load hash zstd state.1 budget = some state.2

/-- Pages of one size are kept by the smallest digests that fit. -/
def BySize (hash : Bytes → Digest) (budget : SampleBudget) (inserted : List Bytes) (s : Samples) :
    Prop :=
  ∀ size, validPageSize size = true → (∀ b ∈ inserted, b.length = size) →
    Smallest (budget.get / size) (inserted.map hash).toFinset (keySet s.pages)

/-- **Step.** -/
theorem Session.step (hdigest : ∀ raw, hash raw < 2 ^ 256) (hzstd : CompressBound zstd)
    {budget : SampleBudget} {inserted : List Bytes} {state : Option Bytes × Samples}
    (h : Session hash zstd budget inserted state) (op : Op) :
    ∃ state', Samples.step hash zstd state op = some state' ∧
      Session hash zstd budget (insertedBy [op] inserted) state' ∧
      (BySize hash budget inserted state.2 →
        BySize hash budget (insertedBy [op] inserted) state'.2) := by
  obtain ⟨hkept, rfl, hstored⟩ := h
  cases op with
  | insert bytes =>
      obtain ⟨s', hi, hk, hbudget, hclean⟩ := hkept.insert bytes
      refine ⟨(state.1, s'), by rw [Samples.step, hi]; rfl, ⟨hk, hbudget, fun hd => ?_⟩, ?_⟩
      · obtain rfl := hclean hd
        exact hstored hd
      · intro hby size hvalid huniform
        have hold : ∀ b ∈ inserted, b.length = size := fun b hb =>
          huniform b (List.mem_cons_of_mem _ hb)
        have := hkept.smallest_insert hvalid
          (fun d b hb => hold b (hkept.keyed d b hb).2.1) (hby size hvalid hold)
          (huniform bytes List.mem_cons_self) hi
        rwa [← List.toFinset_cons] at this
  | evaluate =>
      refine ⟨(state.1, state.2.evaluation), rfl, ?_, ?_⟩
      · unfold evaluation
        split
        · exact ⟨⟨hkept.keyed, hkept.counted, hkept.bounded, Nat.zero_le _⟩, rfl,
            fun hd => by cases hd⟩
        · exact ⟨hkept, rfl, hstored⟩
      · intro hby size hvalid huniform
        unfold evaluation
        split
        · exact hby size hvalid huniform
        · exact hby size hvalid huniform
  | reopen =>
      cases hd : state.2.dirty with
      | true =>
          obtain ⟨encoded, he, hload⟩ := load_encode hdigest hzstd hkept hd
          refine ⟨(some encoded, { state.2 with dirty := false }), ?_,
            ⟨⟨hkept.keyed, hkept.counted, hkept.bounded, hkept.fresh⟩, rfl, fun _ => hload⟩,
            fun hby => hby⟩
          simp only [Samples.step, he, hload]
          rfl
      | false =>
          have he : state.2.encode hash zstd = .ok none := if_pos hd
          refine ⟨state, ?_, ⟨hkept, rfl, hstored⟩, fun hby => hby⟩
          simp only [Samples.step, he, hstored hd]
          rfl

/-- **Run.** By induction on the operations. -/
theorem Session.run (hdigest : ∀ raw, hash raw < 2 ^ 256) (hzstd : CompressBound zstd)
    {budget : SampleBudget} (ops : List Op) {inserted : List Bytes}
    {state : Option Bytes × Samples} (h : Session hash zstd budget inserted state) :
    ∃ state', Samples.run hash zstd ops state = some state' ∧
      Session hash zstd budget (insertedBy ops inserted) state' ∧
      (BySize hash budget inserted state.2 →
        BySize hash budget (insertedBy ops inserted) state'.2) := by
  induction ops generalizing inserted state with
  | nil => exact ⟨state, rfl, h, fun hby => hby⟩
  | cons op ops ih =>
      obtain ⟨next, hstep, hnext, hby⟩ := h.step hdigest hzstd op
      obtain ⟨state', hrun, h', hby'⟩ := ih hnext
      refine ⟨state', ?_, h', fun hb => hby' (hby hb)⟩
      rw [Samples.run, List.foldlM_cons, hstep]
      exact hrun

/-- **The reservoir.** Every run returns, from any file: the trimming loop ends whatever the pages'
sizes, and the counter is the total of the kept bytes and within the budget. For pages of one
size, inserted in any order, with repeats, and written out and read back any number of times, the
kept digests are the smallest of those inserted, as many as fit; each is that of a kept page that
was inserted, and unless two inserted pages have one digest, any other run that inserts the same
pages keeps the same ones. -/
theorem reservoir_smallest (hdigest : ∀ raw, hash raw < 2 ^ 256) (hzstd : CompressBound zstd)
    (budget : SampleBudget) :
    (∀ file, ∃ start, load hash zstd file budget = some start ∧ ∀ ops, ∃ state,
      run hash zstd ops (file, start) = some state ∧
      state.2.bytes = total List.length state.2.pages ∧ state.2.bytes ≤ budget.get) ∧
    ∀ ops size, validPageSize size = true → (∀ b ∈ insertedBy ops [], b.length = size) →
      ∃ state, run hash zstd ops (none, new budget) = some state ∧
        Smallest (budget.get / size) ((insertedBy ops []).map hash).toFinset
          (keySet state.2.pages) ∧
        (∀ (d : Digest) b, state.2.pages[d]? = some b → hash b = d ∧ b ∈ insertedBy ops []) ∧
        ((∀ a ∈ insertedBy ops [], ∀ b ∈ insertedBy ops [], hash a = hash b → a = b) →
          ∀ ops' state', (∀ b, b ∈ insertedBy ops' [] ↔ b ∈ insertedBy ops []) →
            run hash zstd ops' (none, new budget) = some state' →
            state'.2.pages = state.2.pages) := by
  refine ⟨fun file => ?_, fun ops size hvalid huniform => ?_⟩
  · obtain ⟨start, pages, hload, hkept, hbudget⟩ := load_total file budget
    refine ⟨start, hload, fun ops => ?_⟩
    have hstart : Session hash zstd budget pages (file, start) := ⟨hkept, hbudget, fun _ => hload⟩
    obtain ⟨state, hrun, hs, -⟩ := hstart.run hdigest hzstd ops
    exact ⟨state, hrun, hs.kept.counted, hs.sameBudget ▸ hs.kept.bounded⟩
  · have hstart : Session hash zstd budget [] (none, new budget) :=
      ⟨kept_new budget [], rfl, fun _ => rfl⟩
    have hempty : BySize hash budget [] (new budget) := by
      intro size _ _
      have hkeys : keySet (new budget).pages = ∅ := by
        ext d
        simp [mem_keySet, new]
      rw [hkeys]
      exact Smallest.empty _
    obtain ⟨state, hrun, hs, hby⟩ := hstart.run hdigest hzstd ops
    refine ⟨state, hrun, hby hempty size hvalid huniform, fun d b hb => ?_, ?_⟩
    · obtain ⟨h₁, h₂, -⟩ := hs.kept.keyed d b hb
      exact ⟨h₁, h₂⟩
    · intro hinjective ops' state' hsame hrun'
      obtain ⟨state'', hrun'', hs', hby'⟩ := hstart.run hdigest hzstd ops'
      obtain rfl := Option.some.inj (hrun'.symm.trans hrun'')
      have hkeys : keySet state'.2.pages = keySet state.2.pages := by
        have h₁ := hby' hempty size hvalid fun b hb => huniform b ((hsame b).mp hb)
        have h₂ := hby hempty size hvalid huniform
        have hdigests : ((insertedBy ops' []).map hash).toFinset =
            ((insertedBy ops []).map hash).toFinset := by
          ext d
          simp only [List.mem_toFinset, List.mem_map, hsame]
        rw [hdigests] at h₁
        exact h₁.unique h₂
      have hvalue : ∀ (d : Digest) b b', state'.2.pages[d]? = some b →
          state.2.pages[d]? = some b' → b = b' := by
        intro d b b' hb hb'
        obtain ⟨h₁, h₂, -⟩ := hs'.kept.keyed d b hb
        obtain ⟨h₁', h₂', -⟩ := hs.kept.keyed d b' hb'
        exact hinjective b ((hsame b).mp h₂) b' h₂' (h₁.trans h₁'.symm)
      refine Std.ExtTreeMap.ext_getElem? fun d => ?_
      have hmem : d ∈ state'.2.pages ↔ d ∈ state.2.pages := by
        rw [← mem_keySet, ← mem_keySet, hkeys]
      rw [Std.ExtTreeMap.mem_iff_isSome_getElem?, Std.ExtTreeMap.mem_iff_isSome_getElem?] at hmem
      cases hb : state'.2.pages[d]? with
      | none =>
          cases hb' : state.2.pages[d]? with
          | none => rfl
          | some b' => simp [hb, hb'] at hmem
      | some b =>
          cases hb' : state.2.pages[d]? with
          | none => simp [hb, hb'] at hmem
          | some b' => rw [hvalue d b b' hb hb']

/-- A page inserted twice, with the reservoir written out and read back in between. -/
theorem reservoir_smallest_onePage : ∃ state,
    run (fun b => (b.headD 0).toNat) Zstd.stored
      [.insert (List.replicate 512 1), .reopen, .insert (List.replicate 512 1)]
      (none, new ⟨1048576, le_rfl, by decide⟩) = some state ∧ keySet state.2.pages = {1} := by
  have hdigest : ∀ raw : Bytes, (raw.headD 0).toNat < 2 ^ 256 := fun raw =>
    (UInt8.toNat_lt _).trans (by decide)
  have hzstd : CompressBound Zstd.stored := fun raw => by
    change raw.length ≤ _
    omega
  have huniform : ∀ b ∈ insertedBy [.insert (List.replicate 512 1), .reopen,
      .insert (List.replicate 512 1)] [], b.length = 512 := by
    intro b hb
    simp only [insertedBy, List.foldl_cons, List.foldl_nil, List.mem_cons, List.not_mem_nil,
      or_false, or_self] at hb
    rw [hb, List.length_replicate]
  obtain ⟨state, hrun, hsmallest, -⟩ := (reservoir_smallest hdigest hzstd
    ⟨1048576, le_rfl, by decide⟩).2 _ 512 (by decide) huniform
  refine ⟨state, hrun, hsmallest.unique ?_⟩
  have hdigests : ((insertedBy [.insert (List.replicate 512 1), .reopen,
      .insert (List.replicate 512 1)] []).map fun b : Bytes => (b.headD 0).toNat).toFinset =
      {1} := rfl
  rw [hdigests]
  exact ⟨Finset.Subset.refl _, rfl, fun a _ b hb hnb => absurd hb hnb⟩

end Samples

end Zsqlite
