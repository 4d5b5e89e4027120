import Zsqlite.Format
import Zsqlite.Lib.Outcome

set_option autoImplicit false

/-! # The active page file on disk

An active file is a header sector, two state sectors and a sequence of fixed-size raw
records, one per slot. A slot whose 24-byte frame header does not decode has no page number.
`readActiveState` selects the newest state; `loadActiveRecords` scans the committed records
into the map from page numbers to offsets that the store keeps in memory. `Indexed` relates
the two: a map indexes a list of slots when it sends the page of every slot to the slot's
offset and has no other entry.
-/

namespace Zsqlite

/-- One record slot: the page its header names, if it decodes, and the page bytes after it. -/
structure RawRecord where
  pageNo : Option Nat
  payload : Bytes
  deriving DecidableEq, Repr

structure PageFile where
  header : ActiveHeader
  stateA : Sector
  stateB : Sector
  slots : List RawRecord

/-- The length of a record of this page size. -/
def recordLen (pageSize : Nat) : Nat := frameHeaderSize + pageSize

/-- The offset of slot `i`. -/
def recordOffset (pageSize i : Nat) : Nat := activeMetadataEnd + i * recordLen pageSize

/-- The slot at an offset. -/
def slotIndex (pageSize offset : Nat) : Nat := (offset - activeMetadataEnd) / recordLen pageSize

namespace PageFile

variable (f : PageFile)

def len : Nat := recordOffset f.header.pageSize f.slots.length

/-- `File::set_len` at a record boundary: new slots are zero bytes. -/
def setLen (n : Nat) : PageFile :=
  let k := slotIndex f.header.pageSize n
  { f with
    slots := f.slots.take k ++
      List.replicate (k - f.slots.length) ⟨none, ByteVec.zeros f.header.pageSize⟩ }

/-- The page number in the frame header at an offset. -/
def readFrameHeader (offset : Nat) : Option Nat :=
  f.slots[slotIndex f.header.pageSize offset]?.bind RawRecord.pageNo

/-- The page bytes of the record at an offset. -/
def readPayload (offset : Nat) : Option Bytes :=
  f.slots[slotIndex f.header.pageSize offset]?.map RawRecord.payload

def writePayload (offset : Nat) (page : Bytes) : PageFile :=
  { f with
    slots := f.slots.modify (slotIndex f.header.pageSize offset) fun r =>
      { r with payload := page } }

def writeFrameHeader (offset pageNo : Nat) : PageFile :=
  { f with
    slots := f.slots.modify (slotIndex f.header.pageSize offset) fun r =>
      { r with pageNo := some pageNo } }

/-- Write a state sector. -/
def writeState (s : ActiveState) : PageFile :=
  if s.sequence % 2 = 0 then { f with stateB := .state s } else { f with stateA := .state s }

end PageFile

def readActiveHeader (f : PageFile) : Except StoreError ActiveHeader :=
  if f.header.valid then .ok f.header else .error .format

/-- Decode one state sector: `none` when it is all zeros. -/
def readSector (databaseId : Digest) (offset : Nat) :
    Sector → Except StoreError (Option ActiveState)
  | .empty => .ok none
  | .torn => .error (.corrupt offset)
  | .state s =>
      if ¬ s.valid then .error (.corrupt offset)
      else if s.databaseId ≠ databaseId then .error .identityMismatch
      else .ok (some s)

/-- The newest of the two states. An empty sector is accepted only beside sequence one. -/
def readActiveState (f : PageFile) (databaseId : Digest) : Except StoreError ActiveState := do
  let a ← readSector databaseId activeStateAOffset f.stateA
  let b ← readSector databaseId activeStateBOffset f.stateB
  match a, b with
  | none, none => .error (.corrupt activeStateAOffset)
  | some s, none | none, some s =>
      if s.sequence ≠ 1 then .error (.corrupt activeStateAOffset) else .ok s
  | some s, some t => .ok (if s.sequence ≤ t.sequence then t else s)

/-- The record scan of `load_active_records`: `count` records from `cursor` on. -/
def loadSlots (recLen : Nat) :
    List RawRecord → Nat → Nat → BTreeMap Nat Nat → Except StoreError (BTreeMap Nat Nat × Nat)
  | _, 0, cursor, records => .ok (records, cursor)
  | [], _ + 1, _, _ => .error .io
  | r :: rs, n + 1, cursor, records =>
      match r.pageNo with
      | none => .error .format
      | some p =>
          if records.contains p then .error (.corrupt cursor)
          else loadSlots recLen rs n (cursor + recLen) (records.insert p cursor)

def loadActiveRecords (f : PageFile) (recordsOffset pageSize recordCount : Nat) :
    Except StoreError (BTreeMap Nat Nat × Nat) :=
  if pageSize = 0 then
    if recordCount ≠ 0 then .error (.corrupt recordsOffset) else .ok (∅, recordsOffset)
  else if f.header.pageSize ≠ pageSize ∧ recordCount ≠ 0 then .error (.corrupt recordsOffset)
  else loadSlots (recordLen pageSize) f.slots recordCount recordsOffset ∅

/-! ## The newest state -/

/-- The sector that a state of this sequence number is written to. -/
def PageFile.sector (f : PageFile) (sequence : Nat) : Sector :=
  if sequence % 2 = 0 then f.stateB else f.stateA

/-- `s` is in its sector and the other sector holds no newer state. -/
structure PageFile.Current (f : PageFile) (s : ActiveState) : Prop where
  here : f.sector s.sequence = .state s
  older : ∀ t, f.sector (s.sequence + 1) = .state t → t.sequence < s.sequence

theorem readSector_eq_ok {databaseId : Digest} {offset : Nat} {x : Sector} {s : Option ActiveState}
    (h : readSector databaseId offset x = .ok s) :
    x = .empty ∧ s = none ∨ ∃ t, x = .state t ∧ s = some t ∧ t.valid = true ∧
      t.databaseId = databaseId := by
  cases x with
  | empty =>
      cases h
      exact .inl ⟨rfl, rfl⟩
  | torn => cases h
  | state t =>
      simp only [readSector] at h
      split at h
      · cases h
      · split at h
        · cases h
        · cases h
          simp_all

/-- **Loads find the newest state.** -/
theorem PageFile.Current.readActiveState {f : PageFile} {s t : ActiveState} (h : f.Current s)
    {databaseId : Digest} (hr : readActiveState f databaseId = .ok t) : t = s := by
  simp only [Zsqlite.readActiveState, Except.bind_eq_ok] at hr
  obtain ⟨a, ha, b, hb, hr⟩ := hr
  have hmod : (s.sequence + 1) % 2 = 0 ↔ s.sequence % 2 ≠ 0 := by omega
  obtain ⟨here, older⟩ := h
  simp only [PageFile.sector, hmod] at here older
  rcases readSector_eq_ok ha with ⟨ha, rfl⟩ | ⟨s₁, ha, rfl, hv₁, hd₁⟩ <;>
  rcases readSector_eq_ok hb with ⟨hb, rfl⟩ | ⟨s₂, hb, rfl, hv₂, hd₂⟩
  · cases hr
  · grind
  · grind
  · grind

/-- An accepted state passes its checks. -/
theorem readActiveState_valid {f : PageFile} {databaseId : Digest} {t : ActiveState}
    (h : readActiveState f databaseId = .ok t) : t.valid = true ∧ t.databaseId = databaseId := by
  simp only [readActiveState, Except.bind_eq_ok] at h
  obtain ⟨a, ha, b, hb, h⟩ := h
  rcases readSector_eq_ok ha with ⟨ha, rfl⟩ | ⟨s₁, ha, rfl, hv₁, hd₁⟩ <;>
  rcases readSector_eq_ok hb with ⟨hb, rfl⟩ | ⟨s₂, hb, rfl, hv₂, hd₂⟩
  · cases h
  · grind
  · grind
  · grind

/-- The states of the file can be read. -/
def PageFile.Readable (f : PageFile) : Prop :=
  ∃ s, readActiveState f f.header.databaseId = .ok s

/-- What is read is the newest state. -/
theorem PageFile.Current.read {f : PageFile} {s : ActiveState} (h : f.Current s) (hr : f.Readable) :
    Zsqlite.readActiveState f f.header.databaseId = .ok s := by
  obtain ⟨t, ht⟩ := hr
  cases h.readActiveState ht
  exact ht

/-- The next state goes into the other sector. -/
theorem PageFile.Current.writeState {f : PageFile} {s t : ActiveState} (h : f.Current s)
    (ht : t.sequence = s.sequence + 1) : (f.writeState t).Current t := by
  have here := h.here
  by_cases hm : s.sequence % 2 = 0
  · have hm' : ¬ t.sequence % 2 = 0 := by omega
    have hm'' : (t.sequence + 1) % 2 = 0 := by omega
    simp only [PageFile.sector, hm, if_true] at here
    refine ⟨by simp [PageFile.sector, PageFile.writeState, hm'], fun u hu => ?_⟩
    simp only [PageFile.sector, PageFile.writeState, hm', hm'', if_true, if_false, here,
      Sector.state.injEq] at hu
    rw [← hu]
    omega
  · have hm' : t.sequence % 2 = 0 := by omega
    have hm'' : ¬ (t.sequence + 1) % 2 = 0 := by omega
    simp only [PageFile.sector, hm, if_false] at here
    refine ⟨by simp [PageFile.sector, PageFile.writeState, hm'], fun u hu => ?_⟩
    simp only [PageFile.sector, PageFile.writeState, hm', hm'', if_true, if_false, here,
      Sector.state.injEq] at hu
    rw [← hu]
    omega

/-- The state written next can be read exactly when it passes its checks. -/
theorem PageFile.Current.readable_writeState {f : PageFile} {s t : ActiveState} (h : f.Current s)
    (hr : f.Readable) (ht : t.sequence = s.sequence + 1) (hdb : t.databaseId = f.header.databaseId) :
    (f.writeState t).Readable ↔ t.valid = true := by
  have hheader : (f.writeState t).header = f.header := by
    unfold PageFile.writeState
    split <;> rfl
  constructor
  · rintro ⟨u, hu⟩
    cases (h.writeState ht).readActiveState hu
    exact (readActiveState_valid hu).1
  · intro hvalid
    obtain ⟨hs, hsdb⟩ := readActiveState_valid (h.read hr)
    have here := h.here
    refine ⟨t, ?_⟩
    rw [hheader]
    by_cases hm : s.sequence % 2 = 0
    · have hm' : ¬ t.sequence % 2 = 0 := by omega
      have hlt : ¬ t.sequence ≤ s.sequence := by omega
      simp only [PageFile.sector, hm, if_true] at here
      rw [PageFile.writeState, if_neg hm']
      simp [Zsqlite.readActiveState, here, readSector, hvalid, hs, hdb, hsdb, hlt]
    · have hm' : t.sequence % 2 = 0 := by omega
      have hlt : s.sequence ≤ t.sequence := by omega
      simp only [PageFile.sector, hm, if_false] at here
      rw [PageFile.writeState, if_pos hm']
      simp [Zsqlite.readActiveState, here, readSector, hvalid, hs, hdb, hsdb, hlt]

/-! ## Offsets and slots -/

theorem recordLen_pos (ps : Nat) : 0 < recordLen ps := by
  simp [recordLen, frameHeaderSize]

@[simp] theorem slotIndex_recordOffset (ps i : Nat) : slotIndex ps (recordOffset ps i) = i := by
  simp [slotIndex, recordOffset, Nat.mul_div_cancel _ (recordLen_pos ps)]

theorem recordOffset_lt {ps i j : Nat} : recordOffset ps i < recordOffset ps j ↔ i < j := by
  simp [recordOffset, Nat.mul_lt_mul_right (recordLen_pos ps)]

theorem recordOffset_mono {ps i j : Nat} (h : i ≤ j) : recordOffset ps i ≤ recordOffset ps j :=
  Nat.add_le_add_left (Nat.mul_le_mul_right _ h) _

theorem recordOffset_inj {ps i j : Nat} : recordOffset ps i = recordOffset ps j ↔ i = j := by
  constructor
  · intro h
    have := congrArg (slotIndex ps) h
    simpa using this
  · rintro rfl
    rfl

theorem recordOffset_succ (ps i : Nat) :
    recordOffset ps (i + 1) = recordOffset ps i + recordLen ps := by
  simp [recordOffset, Nat.add_mul, Nat.add_assoc]

@[simp] theorem recordOffset_zero (ps : Nat) : recordOffset ps 0 = activeMetadataEnd := by
  simp [recordOffset]

/-! ## Editing records -/

theorem modify_append_length {α : Type} (l : List α) (a : α) (g : α → α) :
    (l ++ [a]).modify l.length g = l ++ [g a] := by
  induction l with
  | nil => rfl
  | cons b l ih => simp [ih]

namespace PageFile
@[simp] theorem header_writePayload (f : PageFile) (offset : Nat) (b : Bytes) :
    (f.writePayload offset b).header = f.header := by
  unfold writePayload
  rfl

theorem writePayload_eq (f : PageFile) (offset : Nat) (b : Bytes) :
    f.writePayload offset b = { f with slots := (f.writePayload offset b).slots } := by
  unfold writePayload
  rfl

theorem readPayload_writePayload (f : PageFile) (b : Bytes) (i j : Nat) :
    (f.writePayload (recordOffset f.header.pageSize i) b).readPayload
      (recordOffset f.header.pageSize j) =
    if i = j then (f.readPayload (recordOffset f.header.pageSize j)).map fun _ => b
    else f.readPayload (recordOffset f.header.pageSize j) := by
  simp only [readPayload, writePayload, slotIndex_recordOffset, List.getElem?_modify]
  split
  · cases f.slots[j]? <;> rfl
  · simp

/-- Cutting the file at a record. -/
theorem setLen_recordOffset (f : PageFile) {n : Nat} (hn : n ≤ f.slots.length) :
    f.setLen (recordOffset f.header.pageSize n) = { f with slots := f.slots.take n } := by
  simp [setLen, Nat.sub_eq_zero_of_le hn]

/-- Growing the file by one record and filling it in. -/
theorem append_record (f : PageFile) (page : Nat) (b : Bytes) :
    ((f.setLen (f.len + recordLen f.header.pageSize)).writePayload f.len b).writeFrameHeader
      f.len page = { f with slots := f.slots ++ [⟨some page, b⟩] } := by
  have hk : slotIndex f.header.pageSize (f.len + recordLen f.header.pageSize) =
      f.slots.length + 1 := by
    rw [len, ← recordOffset_succ, slotIndex_recordOffset]
  have hi : slotIndex f.header.pageSize f.len = f.slots.length := slotIndex_recordOffset _ _
  simp only [setLen, writePayload, writeFrameHeader, hk, hi]
  congr 1
  rw [List.take_of_length_le (by omega), Nat.add_sub_cancel_left]
  simp [modify_append_length]
end PageFile

/-! ## The record map -/

/-- `m` sends the page of every slot to the slot's offset and has no other entry. -/
structure Indexed (ps : Nat) (slots : List RawRecord) (m : BTreeMap Nat Nat) : Prop where
  page : ∀ i r, slots[i]? = some r → ∃ p, r.pageNo = some p ∧ m[p]? = some (recordOffset ps i)
  slot : ∀ p off : Nat, m[p]? = some off →
    ∃ i r, slots[i]? = some r ∧ r.pageNo = some p ∧ off = recordOffset ps i

namespace Indexed

variable {ps n : Nat} {slots done rest : List RawRecord} {m m' acc : BTreeMap Nat Nat}

theorem nil : Indexed ps [] ∅ where
  page := by simp
  slot := by simp

/-- A list of slots has at most one index. -/
theorem unique (h : Indexed ps slots m) (h' : Indexed ps slots m') : m = m' := by
  have le : ∀ {m m' : BTreeMap Nat Nat}, Indexed ps slots m → Indexed ps slots m' →
      ∀ p off : Nat, m[p]? = some off → m'[p]? = some off := by
    intro m m' h h' p off hp
    obtain ⟨i, r, hr, hrp, rfl⟩ := h.slot p off hp
    obtain ⟨q, hq, hm⟩ := h'.page i r hr
    rw [hrp] at hq
    cases hq
    exact hm
  refine Std.ExtTreeMap.ext_getElem? fun p => ?_
  exact Option.ext fun off => ⟨le h h' p off, le h' h p off⟩

/-- A page is in one slot only. -/
theorem slot_inj (h : Indexed ps slots m) {i j : Nat} {r s : RawRecord}
    (hi : slots[i]? = some r) (hj : slots[j]? = some s) (hp : r.pageNo = s.pageNo) : i = j := by
  obtain ⟨p, hrp, hm⟩ := h.page i r hi
  obtain ⟨q, hsq, hm'⟩ := h.page j s hj
  have hpq : p = q := by
    have := hrp.symm.trans (hp.trans hsq)
    simpa using this
  subst hpq
  have := hm.symm.trans hm'
  simpa [recordOffset_inj] using this

/-- Appending a record for a page without one. -/
theorem append (h : Indexed ps slots m) {p : Nat} (hp : m[p]? = none) (b : Bytes) :
    Indexed ps (slots ++ [⟨some p, b⟩]) (m.insert p (recordOffset ps slots.length)) where
  page := by
    intro i r hr
    rcases Nat.lt_or_ge i slots.length with hi | hi
    · rw [List.getElem?_append_left hi] at hr
      obtain ⟨q, hq, hm⟩ := h.page i r hr
      refine ⟨q, hq, ?_⟩
      have hne : p ≠ q := by
        rintro rfl
        rw [hp] at hm
        cases hm
      rw [Std.ExtTreeMap.getElem?_insert, if_neg (by simpa using hne), hm]
    · rw [List.getElem?_append_right hi] at hr
      have hi' : i - slots.length = 0 := by
        by_contra hne
        rw [List.getElem?_eq_none (by simp; omega)] at hr
        cases hr
      rw [hi'] at hr
      simp only [List.getElem?_cons_zero, Option.some.injEq] at hr
      subst hr
      refine ⟨p, rfl, ?_⟩
      rw [Std.ExtTreeMap.getElem?_insert, if_pos (by simp)]
      congr 2
      omega
  slot := by
    intro q off hq
    rw [Std.ExtTreeMap.getElem?_insert] at hq
    by_cases e : p = q
    · subst e
      rw [if_pos (by simp)] at hq
      cases hq
      exact ⟨slots.length, ⟨some p, b⟩, by simp, rfl, rfl⟩
    · rw [if_neg (by simpa using e)] at hq
      obtain ⟨i, r, hr, hrp, hoff⟩ := h.slot q off hq
      have hi : i < slots.length := (List.getElem?_eq_some_iff.mp hr).1
      exact ⟨i, r, by rw [List.getElem?_append_left hi, hr], hrp, hoff⟩

/-- Changing payloads leaves the index alone. -/
theorem modify (h : Indexed ps slots m) (i : Nat) (page : Bytes) :
    Indexed ps (slots.modify i fun r => { r with payload := page }) m where
  page := by
    intro j r hr
    rw [List.getElem?_modify] at hr
    cases hs : slots[j]? with
    | none => simp [hs] at hr
    | some s =>
        obtain ⟨p, hp, hm⟩ := h.page j s hs
        refine ⟨p, ?_, hm⟩
        rw [hs] at hr
        simp only [Option.map_eq_map, Option.map_some, Option.some.injEq] at hr
        rw [← hr, ← hp]
        split <;> rfl
  slot := by
    intro p off hp
    obtain ⟨j, r, hr, hrp, hoff⟩ := h.slot p off hp
    refine ⟨j, _, by rw [List.getElem?_modify, hr]; rfl, ?_, hoff⟩
    rw [← hrp]
    split <;> rfl

/-- Changing a payload behind or inside the first `n` slots. -/
theorem take_modify (h : Indexed ps (slots.take n) m) (i : Nat) (page : Bytes) :
    Indexed ps ((slots.modify i fun r => { r with payload := page }).take n) m := by
  have : (slots.modify i fun r => { r with payload := page }).take n =
      (slots.take n).modify i fun r => { r with payload := page } := by
    refine List.ext_getElem? fun j => ?_
    simp only [List.getElem?_take, List.getElem?_modify]
    split <;> simp
  rw [this]
  exact h.modify i page

/-- The index of the first `n` slots. -/
theorem take (h : Indexed ps slots m) (n : Nat) :
    Indexed ps (slots.take n) (m.filter fun _ off => off < recordOffset ps n) where
  page := by
    intro i r hr
    rw [List.getElem?_take] at hr
    split at hr
    · rename_i hi
      obtain ⟨p, hp, hm⟩ := h.page i r hr
      exact ⟨p, hp, by simp [hm, recordOffset_lt, hi]⟩
    · cases hr
  slot := by
    intro p off hp
    simp only [Std.ExtTreeMap.getElem?_filter', Option.filter_eq_some_iff,
      decide_eq_true_eq] at hp
    obtain ⟨i, r, hr, hrp, rfl⟩ := h.slot p off hp.1
    exact ⟨i, r, by rw [List.getElem?_take, if_pos (recordOffset_lt.mp hp.2), hr], hrp, rfl⟩

end Indexed

/-! ## The scan computes the index -/

section Scan

variable {ps : Nat} {done rest : List RawRecord} {m acc : BTreeMap Nat Nat}

/-- **A successful scan returns the index of the slots it read.** -/
theorem loadSlots_eq_ok {n e : Nat} (hd : Indexed ps done acc)
    (h : loadSlots (recordLen ps) rest n (recordOffset ps done.length) acc = .ok (m, e)) :
    n ≤ rest.length ∧ e = recordOffset ps (done.length + n) ∧
      Indexed ps (done ++ rest.take n) m ∧ m.size = acc.size + n := by
  induction rest generalizing done acc n with
  | nil =>
      cases n with
      | zero =>
          simp only [loadSlots, Except.ok.injEq, Prod.mk.injEq] at h
          obtain ⟨rfl, rfl⟩ := h
          exact ⟨Nat.le_refl _, rfl, by simpa using hd, rfl⟩
      | succ n => simp [loadSlots] at h
  | cons r rs ih =>
      cases n with
      | zero =>
          simp only [loadSlots, Except.ok.injEq, Prod.mk.injEq] at h
          obtain ⟨rfl, rfl⟩ := h
          exact ⟨Nat.zero_le _, rfl, by simpa using hd, rfl⟩
      | succ n =>
          obtain ⟨pageNo, b⟩ := r
          cases pageNo with
          | none => simp [loadSlots] at h
          | some p =>
              simp only [loadSlots] at h
              split at h
              · cases h
              · rename_i hc
                have hp : acc[p]? = none := by simpa using hc
                rw [← recordOffset_succ] at h
                have hd' := hd.append hp b
                have hlen : (done ++ [(⟨some p, b⟩ : RawRecord)]).length = done.length + 1 := by
                  simp
                rw [← hlen] at h
                obtain ⟨h₁, h₂, h₃, h₄⟩ := ih hd' h
                refine ⟨by simp; omega, by rw [h₂, hlen]; congr 1; omega, by simpa using h₃, ?_⟩
                rw [h₄, Std.ExtTreeMap.size_insert, if_neg (by simpa using hc)]
                omega

/-- **The scan of indexed slots succeeds** and returns their index. -/
theorem loadSlots_of_indexed (hm : Indexed ps (done ++ rest) m) (hd : Indexed ps done acc) :
    loadSlots (recordLen ps) rest rest.length (recordOffset ps done.length) acc =
      .ok (m, recordOffset ps (done ++ rest).length) := by
  induction rest generalizing done acc with
  | nil =>
      have : acc = m := hd.unique (by simpa using hm)
      simp [loadSlots, this]
  | cons r rs ih =>
      obtain ⟨p, hp, hmp⟩ := hm.page done.length r (by simp)
      obtain ⟨pageNo, b⟩ := r
      simp only at hp
      subst hp
      have hc : acc[p]? = none := by
        by_contra hne
        obtain ⟨off, hoff⟩ := Option.ne_none_iff_exists'.mp hne
        obtain ⟨i, s, hs, hsp, -⟩ := hd.slot p off hoff
        have hi : i < done.length := (List.getElem?_eq_some_iff.mp hs).1
        have := hm.slot_inj (i := i) (j := done.length) (s := ⟨some p, b⟩)
          (by rw [List.getElem?_append_left hi, hs]) (by simp) hsp
        omega
      have hm' : Indexed ps ((done ++ [⟨some p, b⟩]) ++ rs) m := by simpa using hm
      have hstep := ih hm' (hd.append hc b)
      have hlen : (done ++ [(⟨some p, b⟩ : RawRecord)]).length = done.length + 1 := by simp
      rw [hlen, recordOffset_succ] at hstep
      have hc' : p ∉ acc := by simpa using hc
      simpa [loadSlots, hc'] using hstep

/-- A scan reads only as many slots as it is asked for. -/
theorem loadSlots_take {recLen : Nat} (n cursor : Nat) :
    loadSlots recLen (rest.take n) n cursor acc = loadSlots recLen rest n cursor acc := by
  induction rest generalizing n cursor acc with
  | nil => simp
  | cons r rs ih =>
      cases n with
      | zero => simp [loadSlots]
      | succ n =>
          obtain ⟨pageNo, b⟩ := r
          cases pageNo with
          | none => simp [loadSlots]
          | some p => simp [loadSlots, ih]

/-- **A successful load returns the index of the committed slots** and where they end. -/
theorem loadActiveRecords_eq_ok {f : PageFile} {count e : Nat}
    (h : loadActiveRecords f activeMetadataEnd ps count = .ok (m, e)) :
    count ≤ f.slots.length ∧ e = recordOffset ps count ∧ Indexed ps (f.slots.take count) m ∧
      m.size = count := by
  unfold loadActiveRecords at h
  split at h
  · split at h
    · cases h
    · rename_i hcount
      cases h
      have : count = 0 := by omega
      subst this
      exact ⟨Nat.zero_le _, (recordOffset_zero ps).symm, Indexed.nil, rfl⟩
  · split at h
    · cases h
    · have hscan : loadSlots (recordLen ps) f.slots count
          (recordOffset ps ([] : List RawRecord).length) ∅ = .ok (m, e) := by
        simpa only [List.length_nil, recordOffset_zero] using h
      simpa using loadSlots_eq_ok Indexed.nil hscan

/-- **The load of indexed slots succeeds.** -/
theorem loadActiveRecords_of_indexed {f : PageFile} {count : Nat} (hps : f.header.pageSize = ps)
    (h₀ : ps = 0 → m = ∅) (hcount : count ≤ f.slots.length) (h : Indexed ps (f.slots.take count) m) :
    loadActiveRecords f activeMetadataEnd ps count = .ok (m, recordOffset ps count) := by
  have hlen : (f.slots.take count).length = count := by simp [hcount]
  have hm : Indexed ps ([] ++ f.slots.take count) m := by simpa using h
  have hscan := loadSlots_of_indexed hm Indexed.nil
  simp only [hlen, loadSlots_take, List.nil_append, List.length_nil, recordOffset_zero] at hscan
  unfold loadActiveRecords
  split
  · rename_i hzero
    -- the index of a file without a page size is empty, so nothing is counted
    have hnone : count = 0 := by
      cases count with
      | zero => rfl
      | succ n =>
          obtain ⟨r, hr⟩ : ∃ r, (f.slots.take (n + 1))[0]? = some r :=
            ⟨_, List.getElem?_eq_getElem (by omega)⟩
          obtain ⟨p, -, hp⟩ := h.page 0 r hr
          rw [h₀ hzero] at hp
          simp at hp
    subst hnone
    simp [h₀ hzero]
  · rw [if_neg (by simp [hps])]
    exact hscan

/-- The index has one entry per slot. -/
theorem Indexed.size_eq {slots : List RawRecord} (h : Indexed ps slots m) :
    m.size = slots.length := by
  have hm : Indexed ps ([] ++ slots) m := by simpa using h
  have hs := loadSlots_of_indexed hm Indexed.nil
  simpa using (loadSlots_eq_ok Indexed.nil hs).2.2.2

end Scan

end Zsqlite
