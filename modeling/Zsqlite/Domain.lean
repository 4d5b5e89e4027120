import Mathlib
import Zsqlite.Lib.Bytes

set_option autoImplicit false

/-! # Validated storage values

The values of `domain.rs` and the small numeric helpers of `store.rs`. Integers are natural
numbers; where the source converts to `u32` or adds in `u64` with a check, so does the model.
A hash is a number; the zero digest, where it stands for absence, is `none`.
-/

namespace Zsqlite

/-- A run of bytes. -/
abbrev Bytes := List UInt8

/-- A 32-byte hash or random identity. -/
abbrev Digest := Nat

/-- An ordered map. -/
abbrev BTreeMap (α β : Type) [Ord α] := Std.ExtTreeMap α β

/-- Map lookups, with the equality test in the open. -/
theorem getElem?_insert_eq {β : Type} (m : BTreeMap Nat β) (k j : Nat) (v : β) :
    (m.insert k v)[j]? = if j = k then some v else m[j]? := by
  rw [Std.ExtTreeMap.getElem?_insert]
  by_cases hj : j = k
  · simp [hj]
  · rw [if_neg hj, if_neg (fun hc => hj (compare_eq_iff_eq.mp hc).symm)]

theorem getElem?_erase_eq {β : Type} (m : BTreeMap Nat β) (k j : Nat) :
    (m.erase k)[j]? = if j = k then none else m[j]? := by
  rw [Std.ExtTreeMap.getElem?_erase]
  by_cases hj : j = k
  · simp [hj]
  · rw [if_neg hj, if_neg (fun hc => hj (compare_eq_iff_eq.mp hc).symm)]

/-- The errors of the store, with the data the source attaches to them. -/
inductive StoreError where
  | backend
  | noSealedHead
  | staleAttachment
  | value
  | publicationUncertain
  | io
  | format
  | missingSidecar
  | identityMismatch
  | corrupt (offset : Nat)
  | busy
  | unknownPageSize
  | invalidPageSize (size : Nat)
  | invalidPageLength (pageNo actual expected : Nat)
  | pageChecksum (pageNo : Nat)
  | range
  | zstd
  | notZsqlite
  | readOnly
  | invalidConfiguration
  deriving DecidableEq, Repr

/-- How a call ends without a result: an `expect` of the source fails, or an error is returned. -/
inductive Stop where
  | panicked
  | failed (error : StoreError)
  deriving DecidableEq

def u32Max : Nat := 2 ^ 32 - 1

def u64Max : Nat := 2 ^ 64 - 1

/-- `u32::try_from`. -/
def toU32 (n : Nat) : Except StoreError Nat := if n ≤ u32Max then .ok n else .error .range

/-- `u64::checked_add`. -/
def checkedAdd (a b : Nat) : Except StoreError Nat :=
  if a + b ≤ u64Max then .ok (a + b) else .error .range

theorem toU32_eq_ok {n m : Nat} : toU32 n = .ok m ↔ n ≤ u32Max ∧ m = n := by
  unfold toU32
  split
  · rename_i h
    constructor
    · intro e
      cases e
      exact ⟨h, rfl⟩
    · rintro ⟨_, rfl⟩
      rfl
  · rename_i h
    simp [h]

theorem checkedAdd_eq_ok {a b c : Nat} : checkedAdd a b = .ok c ↔ a + b ≤ u64Max ∧ c = a + b := by
  unfold checkedAdd
  split
  · rename_i h
    constructor
    · intro e
      cases e
      exact ⟨h, rfl⟩
    · rintro ⟨_, rfl⟩
      rfl
  · rename_i h
    simp [h]

/-! ## Page sizes and page numbers -/

/-- The largest sample budget, and so the most bytes a sample file describes. -/
def maxSampleBytes : Nat := 96 * 1024 * 1024

/-- A power of two from 512 to 65536. -/
def validPageSize (size : Nat) : Bool :=
  decide (512 ≤ size) && decide (size ≤ 65536) && decide (2 ^ Nat.log 2 size = size)

/-- SQLite's page-size domain. -/
structure PageSize where
  get : Nat
  valid : validPageSize get = true
  deriving DecidableEq

/-- The smallest page size. -/
def PageSize.smallest : PageSize := ⟨512, by decide⟩

def PageSize.new (size : Nat) : Except StoreError PageSize :=
  if h : validPageSize size = true then .ok ⟨size, h⟩ else .error .value

theorem le_of_validPageSize {size : Nat} (h : validPageSize size = true) :
    512 ≤ size ∧ size ≤ 65536 := by
  simp only [validPageSize, Bool.and_eq_true, decide_eq_true_eq] at h
  exact h.1

theorem PageSize.eq_of_get {a b : PageSize} (h : a.get = b.get) : a = b := by
  cases a
  cases b
  simpa using h

theorem PageSize.bounds (s : PageSize) : 512 ≤ s.get ∧ s.get ≤ 65536 :=
  le_of_validPageSize s.valid

theorem PageSize.pos (s : PageSize) : 0 < s.get := by
  have := s.bounds
  omega

theorem PageSize.dvd (s : PageSize) : 512 ∣ s.get := by
  have hv := s.valid
  simp only [validPageSize, Bool.and_eq_true, decide_eq_true_eq] at hv
  obtain ⟨⟨hmin, -⟩, hpow⟩ := hv
  rw [← hpow]
  exact Nat.pow_dvd_pow 2 (Nat.le_log_of_pow_le (by decide) hmin : 9 ≤ Nat.log 2 s.get)

theorem PageSize.new_eq_ok {size : Nat} {s : PageSize} (h : PageSize.new size = .ok s) :
    s.get = size := by
  unfold PageSize.new at h
  split at h
  · cases h
    rfl
  · cases h

theorem PageSize.new_get (s : PageSize) : PageSize.new s.get = .ok s := by
  simp [PageSize.new, s.valid]

/-- SQLite reserves `0xffffffff`; zero is not a page. -/
def PageNumber.new (number : Nat) : Except StoreError Nat :=
  if number = u32Max ∨ number = 0 then .error .value else .ok number

theorem PageNumber.new_eq_ok {n m : Nat} :
    PageNumber.new n = .ok m ↔ n ≠ u32Max ∧ n ≠ 0 ∧ m = n := by
  unfold PageNumber.new
  split
  · rename_i h
    constructor
    · intro e
      cases e
    · rintro ⟨h₁, h₂, _⟩
      exact absurd h (by simp [h₁, h₂])
  · rename_i h
    simp only [not_or] at h
    constructor
    · intro e
      cases e
      exact ⟨h.1, h.2, rfl⟩
    · rintro ⟨_, _, rfl⟩
      rfl

/-- An aligned logical size, including an empty image. -/
structure LogicalBytes where
  get : Nat
  pageSize : PageSize
  aligned : pageSize.get ∣ get
  bounded : get / pageSize.get < u32Max
  deriving DecidableEq

def LogicalBytes.new (bytes : Nat) (pageSize : PageSize) : Except StoreError LogicalBytes :=
  if h : pageSize.get ∣ bytes ∧ bytes / pageSize.get < u32Max then
    .ok ⟨bytes, pageSize, h.1, h.2⟩
  else .error .value

def LogicalBytes.pages (s : LogicalBytes) : Nat := s.get / s.pageSize.get

theorem LogicalBytes.new_get (s : LogicalBytes) : LogicalBytes.new s.get s.pageSize = .ok s := by
  simp [LogicalBytes.new, s.aligned, s.bounded]

theorem LogicalBytes.new_eq_ok {bytes : Nat} {ps : PageSize} {s : LogicalBytes}
    (h : LogicalBytes.new bytes ps = .ok s) : s.get = bytes ∧ s.pageSize = ps := by
  unfold LogicalBytes.new at h
  split at h
  · cases h
    exact ⟨rfl, rfl⟩
  · cases h

theorem LogicalBytes.eq_of_get {a b : LogicalBytes} (hg : a.get = b.get)
    (hp : a.pageSize.get = b.pageSize.get) : a = b := by
  obtain ⟨_, ⟨_, _⟩, _, _⟩ := a
  obtain ⟨_, ⟨_, _⟩, _, _⟩ := b
  simp only at hg hp
  subst hg hp
  rfl

theorem LogicalBytes.pages_mul (s : LogicalBytes) : s.pages * s.pageSize.get = s.get :=
  Nat.div_mul_cancel s.aligned

/-- `page_count` of `store.rs`: it admits `u32::MAX` pages. -/
def pageCount (size pageSize : Nat) : Except StoreError Nat :=
  if size = 0 then .ok 0
  else if ¬ validPageSize pageSize = true ∨ ¬ pageSize ∣ size then .error (.invalidPageSize pageSize)
  else toU32 (size / pageSize)

theorem pageCount_eq_ok {size ps k : Nat} (h : pageCount size ps = .ok k) :
    size = k * ps ∧ k ≤ u32Max := by
  unfold pageCount at h
  split at h
  · cases h
    exact ⟨by omega, Nat.zero_le _⟩
  · split at h
    · cases h
    · rename_i hd
      simp only [not_or, not_not] at hd
      obtain ⟨hk, rfl⟩ := toU32_eq_ok.mp h
      exact ⟨(Nat.div_mul_cancel hd.2).symm, hk⟩

/-- `SQLite format 3\0` -/
def sqliteMagic : Bytes :=
  [0x53, 0x51, 0x4c, 0x69, 0x74, 0x65, 0x20, 0x66, 0x6f, 0x72, 0x6d, 0x61, 0x74, 0x20, 0x33, 0x00]

/-- The page size the first page of a database declares. -/
def parsePageSize (page : Bytes) : Option Nat :=
  if page.take 16 ≠ sqliteMagic then none
  else
    match page.drop 16 with
    | hi :: lo :: _ =>
        let encoded := hi.toNat * 256 + lo.toNat
        (some (if encoded = 1 then 65536 else encoded)).filter validPageSize
    | _ => none

theorem validPageSize_of_parsePageSize {page : Bytes} {size : Nat}
    (h : parsePageSize page = some size) : validPageSize size = true := by
  unfold parsePageSize at h
  split at h
  · cases h
  · split at h
    · exact (Option.filter_eq_some_iff.mp h).2
    · cases h

end Zsqlite
