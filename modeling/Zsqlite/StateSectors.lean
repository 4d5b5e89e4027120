import Zsqlite.ActiveCodec
import Zsqlite.PageFile

set_option autoImplicit false

/-! # The two state sectors as bytes

Publications go alternately to two sectors, and the last sector write may be torn.
`StateSectors.readActiveState` reads the bytes as `read_active_state` does; through
`Sector.ofBytes` it is the selection that the page file model uses (`readActiveState_ofBytes`).

`Published` are the contents after complete publications. What a reader finds after one more
write, complete or torn, is the last state that was fully written, or an error
(`StateSectors.read_last_written`): an older sector is never a fallback, because the records of
the file are overwritten in place.
-/

namespace Zsqlite

open ByteVec Wire

variable (crc : Bytes → UInt32)

structure StateSectors where
  a : Bytes
  b : Bytes
  deriving DecidableEq

namespace StateSectors

/-- The state with the largest sequence number, the later one among equals. -/
def newest : List ActiveState → Option ActiveState :=
  List.foldl (fun best state =>
    match best with
    | none => some state
    | some other => if other.sequence ≤ state.sequence then some state else some other) none

/-- Read one sector into the states found and whether a sector was empty. -/
def readSector (databaseId : Digest) (found : List ActiveState × Bool) (sector : Nat × Bytes) :
    Except StoreError (List ActiveState × Bool) := do
  if sector.2.all (· == 0) then return (found.1, true)
  let state ← (ActiveState.decode crc sector.2).mapError fun _ => .corrupt sector.1
  Except.ensure (state.databaseId = databaseId) .identityMismatch
  return (found.1 ++ [state], found.2)

/-- The newest state found. An empty sector is accepted only beside sequence one. -/
def select (found : List ActiveState × Bool) : Except StoreError ActiveState :=
  match newest found.1 with
  | none => .error (.corrupt activeStateAOffset)
  | some state =>
      if found.2 = true ∧ state.sequence ≠ 1 then .error (.corrupt activeStateAOffset)
      else .ok state

def readActiveState (sectors : StateSectors) (databaseId : Digest) :
    Except StoreError ActiveState := do
  let found ← [(activeStateAOffset, sectors.a), (activeStateBOffset, sectors.b)].foldlM
    (readSector crc databaseId) ([], false)
  select found

/-- The sector that a state of this sequence number is written to. -/
def sector (sectors : StateSectors) (sequence : Nat) : Bytes :=
  if sequence % 2 = 0 then sectors.b else sectors.a

def write (sectors : StateSectors) (sequence : Nat) (bytes : Bytes) : StateSectors :=
  if sequence % 2 = 0 then { sectors with b := bytes } else { sectors with a := bytes }

end StateSectors

/-- What a sector holds, for the model that does not look at bytes. -/
def Sector.ofBytes (bytes : Bytes) : Sector :=
  if bytes.all (· == 0) then .empty
  else
    match ActiveState.decode crc bytes with
    | .ok s => .state s
    | .error _ => .torn

variable {crc}

theorem ActiveState.valid_of_decode {bytes : Bytes} {s : ActiveState}
    (h : ActiveState.decode crc bytes = .ok s) : s.valid = true := by
  obtain ⟨_, _, h⟩ := Except.bind_eq_ok.mp h
  obtain ⟨_, _, h⟩ := Except.bind_eq_ok.mp h
  obtain ⟨_, hensure, h⟩ := Except.bind_eq_ok.mp h
  rw [Except.pure_eq_ok.mp h]
  exact (Except.ensure_eq_ok.mp hensure).1

/-- Reading the bytes of a sector is reading what the sector holds. -/
theorem readSector_ofBytes (databaseId : Digest) (offset : Nat) (bytes : Bytes)
    (found : List ActiveState × Bool) :
    StateSectors.readSector crc databaseId found (offset, bytes) =
      (readSector databaseId offset (Sector.ofBytes crc bytes)).map fun
        | none => (found.1, true)
        | some s => (found.1 ++ [s], found.2) := by
  unfold StateSectors.readSector Sector.ofBytes
  split
  · rfl
  · cases hd : ActiveState.decode crc bytes with
    | error e => rfl
    | ok s =>
        have hvalid := ActiveState.valid_of_decode hd
        by_cases hdb : s.databaseId = databaseId
        · simp only [readSector, hvalid, hdb, not_true_eq_false, ne_eq, if_false, Except.mapError,
            Except.ok_bind]
          rw [Except.bind_of_ok (Except.ensure_of trivial _)]
          rfl
        · simp only [readSector, hvalid, not_true_eq_false, ne_eq, hdb, not_false_eq_true, if_false,
            if_true, Except.mapError, Except.ok_bind]
          rw [Except.bind_of_error (Except.ensure_of_not not_false _)]
          rfl

theorem StateSectors.select_two (s t : ActiveState) :
    select ([s, t], false) = .ok (if s.sequence ≤ t.sequence then t else s) := by
  by_cases h : s.sequence ≤ t.sequence <;> simp [select, newest, h]

/-- **Bytes and sectors agree.** Selecting the newest state from the bytes is selecting it from
what the sectors hold. -/
theorem readActiveState_ofBytes (sectors : StateSectors) (f : PageFile) (databaseId : Digest)
    (ha : f.stateA = Sector.ofBytes crc sectors.a) (hb : f.stateB = Sector.ofBytes crc sectors.b) :
    sectors.readActiveState crc databaseId = readActiveState f databaseId := by
  unfold StateSectors.readActiveState readActiveState
  rw [ha, hb, List.foldlM_cons, readSector_ofBytes]
  cases hA : readSector databaseId activeStateAOffset (Sector.ofBytes crc sectors.a) with
  | error e => rfl
  | ok a =>
      show (List.foldlM (StateSectors.readSector crc databaseId) _ [_] >>= _) = _
      rw [List.foldlM_cons, readSector_ofBytes]
      cases hB : readSector databaseId activeStateBOffset (Sector.ofBytes crc sectors.b) with
      | error e => rfl
      | ok b =>
          cases a with
          | none =>
              cases b with
              | none => rfl
              | some t =>
                  show StateSectors.select ([t], true) = _
                  simp [StateSectors.select, StateSectors.newest]
          | some s =>
              cases b with
              | none =>
                  show StateSectors.select ([s], true) = _
                  simp [StateSectors.select, StateSectors.newest]
              | some t => exact StateSectors.select_two s t

/-! ## What a reader finds -/

/-- What a reader finds in a sector: nothing, or a state of this database. -/
def Found (crc : Bytes → UInt32) (databaseId : Digest) (bytes : Bytes) :
    Option ActiveState → Prop
  | none => bytes.all (· == 0) = true
  | some s => ActiveState.decode crc bytes = .ok s ∧ s.databaseId = databaseId

section Reader

open StateSectors

variable {databaseId : Digest} {sectors : StateSectors} {bytes : Bytes} {o p : Option ActiveState}
  {s t : ActiveState}

theorem ActiveState.decode_of_empty (h : bytes.all (· == 0) = true) :
    ActiveState.decode crc bytes ≠ .ok s := by
  intro hd
  obtain ⟨_, hsector, _⟩ := Except.bind_eq_ok.mp hd
  obtain ⟨_, hmagic, _⟩ := Except.bind_eq_ok.mp hsector
  have hzeros : bytes = zeros bytes.length := by
    refine List.eq_replicate_iff.mpr ⟨rfl, fun b hb => ?_⟩
    exact eq_of_beq (List.all_eq_true.mp h b hb)
  have hempty : window bytes 0 8 = zeros 8 := by
    rw [hzeros]
    exact window_zeros _ _ _
  exact absurd (hempty.symm.trans (Except.ensure_eq_ok.mp hmagic)) (by decide)

theorem StateSectors.readSector_eq_ok {found result : List ActiveState × Bool} {offset : Nat} :
    StateSectors.readSector crc databaseId found (offset, bytes) = .ok result ↔
      ∃ o, Found crc databaseId bytes o ∧
        result = (found.1 ++ o.toList, found.2 || o.isNone) := by
  unfold StateSectors.readSector
  by_cases h : bytes.all (· == 0) = true
  · simp only [h, if_true, Except.pure_eq_ok]
    constructor
    · intro hr
      exact ⟨none, h, by simp [hr]⟩
    · rintro ⟨_ | s, hf, hr⟩
      · simpa using hr
      · exact absurd hf.1 (ActiveState.decode_of_empty h)
  · simp only [h, Bool.false_eq_true, if_false, Except.bind_eq_ok, Except.ensure_eq_ok,
      exists_const, Except.pure_eq_ok, Except.mapError_eq_ok]
    constructor
    · rintro ⟨s, hd, hdb, rfl⟩
      exact ⟨some s, ⟨hd, hdb⟩, by simp⟩
    · rintro ⟨_ | s, hf, rfl⟩
      · exact absurd hf h
      · exact ⟨s, hf.1, hf.2, by simp⟩

theorem StateSectors.readActiveState_eq_ok :
    sectors.readActiveState crc databaseId = .ok s ↔
      ∃ o p, Found crc databaseId sectors.a o ∧ Found crc databaseId sectors.b p ∧
        select (o.toList ++ p.toList, o.isNone || p.isNone) = .ok s := by
  simp only [readActiveState, List.foldlM_cons, List.foldlM_nil, Except.bind_eq_ok,
    Except.pure_eq_ok, readSector_eq_ok]
  constructor
  · rintro ⟨_, ⟨_, ⟨o, ho, rfl⟩, _, ⟨p, hp, rfl⟩, rfl⟩, hs⟩
    exact ⟨o, p, ho, hp, by simpa using hs⟩
  · rintro ⟨o, p, ho, hp, hs⟩
    exact ⟨_, ⟨_, ⟨o, ho, rfl⟩, _, ⟨p, hp, rfl⟩, rfl⟩, by simpa using hs⟩

/-- The state selected from two sectors, the first holding the larger sequence number if both
hold a state. -/
def newestOf : Option ActiveState → Option ActiveState → Option ActiveState
  | some t, some _ => some t
  | some t, none => if t.sequence = 1 then some t else none
  | none, some t => if t.sequence = 1 then some t else none
  | none, none => none

theorem StateSectors.select_newestOf
    (hnewer : ∀ t u, o = some t → p = some u → u.sequence < t.sequence) :
    (select (o.toList ++ p.toList, o.isNone || p.isNone) = .ok s ↔ newestOf o p = some s) ∧
      (select (p.toList ++ o.toList, p.isNone || o.isNone) = .ok s ↔ newestOf o p = some s) := by
  cases o with
  | none =>
      cases p with
      | none => simp [select, newest, newestOf]
      | some u => by_cases h : u.sequence = 1 <;> simp [select, newest, newestOf, h]
  | some t =>
      cases p with
      | none => by_cases h : t.sequence = 1 <;> simp [select, newest, newestOf, h]
      | some u =>
          have hlt := hnewer t u rfl rfl
          have h₁ := select_two t u
          have h₂ := select_two u t
          rw [if_neg (by omega)] at h₁
          rw [if_pos (by omega)] at h₂
          simp [h₁, h₂, newestOf]

/-- The reader's result from the sector of sequence `n` and the other sector. -/
theorem StateSectors.readActiveState_eq_newestOf (n : Nat)
    (hnewer : ∀ t u, Found crc databaseId (sectors.sector n) (some t) →
      Found crc databaseId (sectors.sector (n + 1)) (some u) → u.sequence < t.sequence) :
    sectors.readActiveState crc databaseId = .ok s ↔
      ∃ o p, Found crc databaseId (sectors.sector n) o ∧
        Found crc databaseId (sectors.sector (n + 1)) p ∧ newestOf o p = some s := by
  have hselect : ∀ o p, Found crc databaseId (sectors.sector n) o →
      Found crc databaseId (sectors.sector (n + 1)) p →
      ∀ t u, o = some t → p = some u → u.sequence < t.sequence := by
    rintro o p ho hp t u rfl rfl
    exact hnewer t u ho hp
  rw [readActiveState_eq_ok]
  rcases Nat.mod_two_eq_zero_or_one n with hn | hn
  · have hb : sectors.sector n = sectors.b := if_pos hn
    have ha : sectors.sector (n + 1) = sectors.a := if_neg (by omega)
    rw [ha, hb] at hselect ⊢
    constructor
    · rintro ⟨p, o, hp, ho, hs⟩
      exact ⟨o, p, ho, hp, (select_newestOf (hselect o p ho hp)).2.mp hs⟩
    · rintro ⟨o, p, ho, hp, hs⟩
      exact ⟨p, o, hp, ho, (select_newestOf (hselect o p ho hp)).2.mpr hs⟩
  · have ha : sectors.sector n = sectors.a := if_neg (by omega)
    have hb : sectors.sector (n + 1) = sectors.b := if_pos (by omega)
    rw [ha, hb] at hselect ⊢
    constructor
    · rintro ⟨o, p, ho, hp, hs⟩
      exact ⟨o, p, ho, hp, (select_newestOf (hselect o p ho hp)).1.mp hs⟩
    · rintro ⟨o, p, ho, hp, hs⟩
      exact ⟨o, p, ho, hp, (select_newestOf (hselect o p ho hp)).1.mpr hs⟩

end Reader

/-! ## Publications -/

/-- A state that the code publishes next, after these states. -/
structure Publishable (databaseId : Digest) (states : List ActiveState) (s : ActiveState) :
    Prop where
  sequence : s.sequence = states.length + 1
  typed : s.Typed
  valid : s.valid = true
  databaseId : s.databaseId = databaseId

/-- The sectors after complete publications, the newest state first. The file starts with empty
sectors; the state written with its creation has sequence one. -/
inductive Published (crc : Bytes → UInt32) (databaseId : Digest) :
    List ActiveState → StateSectors → Prop
  | empty : Published crc databaseId [] ⟨zeros sectorSize, zeros sectorSize⟩
  | publish {states : List ActiveState} {sectors : StateSectors} (s : ActiveState) :
      Published crc databaseId states sectors → Publishable databaseId states s →
      Published crc databaseId (s :: states) (sectors.write s.sequence (s.encode crc))

/-- The bytes that a write of `new` over `old` may leave: the checksum tells a torn write from both
of them. -/
structure Torn (crc : Bytes → UInt32) (old new bytes : Bytes) : Prop where
  length : bytes.length = sectorSize
  detected : ∀ s, ActiveState.decode crc bytes = .ok s → bytes = old ∨ bytes = new

/-- The bytes of a sector that was last written with this state. -/
def image (crc : Bytes → UInt32) : Option ActiveState → Bytes
  | none => zeros sectorSize
  | some s => s.encode crc

namespace StateSectors

variable {sectors : StateSectors} {bytes : Bytes}

theorem sector_write_self (n : Nat) : (sectors.write n bytes).sector n = bytes := by
  unfold write sector
  split <;> rfl

theorem sector_write_succ (n : Nat) :
    (sectors.write n bytes).sector (n + 1) = sectors.sector (n + 1) := by
  unfold write sector
  split <;> split <;> first | rfl | omega

theorem sector_succ_succ (n : Nat) : sectors.sector (n + 1 + 1) = sectors.sector n := by
  unfold sector
  rw [show n + 1 + 1 = n + 2 from rfl, Nat.add_mod_right]

end StateSectors

namespace Published

open StateSectors

variable {databaseId : Digest} {states : List ActiveState} {sectors : StateSectors}
  {s t : ActiveState}

/-- The newest state is in its sector and the one before in the other; a sector that was never
written is zeros. -/
theorem sectors_eq (h : Published crc databaseId states sectors) :
    sectors.sector states.length = image crc states[0]? ∧
      sectors.sector (states.length + 1) = image crc states[1]? := by
  induction h with
  | empty => exact ⟨rfl, rfl⟩
  | @publish states sectors s h hs ih =>
      rw [List.length_cons, ← hs.sequence, sector_write_self, sector_write_succ, hs.sequence,
        sector_succ_succ]
      exact ⟨rfl, ih.1⟩

/-- Every published state is one that the code publishes after the ones before it. -/
theorem publishable {i : Nat} (h : Published crc databaseId states sectors)
    (hs : states[i]? = some s) : Publishable databaseId (states.drop (i + 1)) s := by
  induction h generalizing i with
  | empty => simp at hs
  | @publish states sectors t h ht ih =>
      cases i with
      | zero =>
          obtain rfl := Option.some.inj hs
          exact ht
      | succ i => exact ih hs

theorem sequence_add {i : Nat} (h : Published crc databaseId states sectors)
    (hs : states[i]? = some s) : s.sequence + i = states.length := by
  have hlt := (List.getElem?_eq_some_iff.mp hs).1
  have hseq := (h.publishable hs).sequence
  rw [List.length_drop] at hseq
  omega

/-- What a reader finds in the two sectors. -/
theorem found_image {i : Nat} {o : Option ActiveState} (h : Published crc databaseId states sectors) :
    Found crc databaseId (image crc states[i]?) o ↔ o = states[i]? := by
  cases hi : states[i]? with
  | none =>
      have hempty : (zeros sectorSize).all (· == 0) = true := by
        simp [zeros]
      cases o with
      | none => simpa [image, Found] using hempty
      | some u => simpa [image, Found] using fun hd => absurd hd (ActiveState.decode_of_empty hempty)
  | some s =>
      have hs := h.publishable hi
      have hd : ActiveState.decode crc (s.encode crc) = .ok s :=
        (ActiveState.decode_eq_ok crc (s.length_encode crc)).mpr ⟨hs.typed, hs.valid, rfl⟩
      cases o with
      | none => simpa [image, Found] using fun hempty => ActiveState.decode_of_empty hempty hd
      | some u =>
          simp only [image, Found, hd, Except.ok.injEq, Option.some.injEq]
          constructor
          · rintro ⟨rfl, -⟩
            rfl
          · rintro rfl
            exact ⟨rfl, hs.databaseId⟩

end Published

namespace StateSectors

variable {databaseId : Digest} {states : List ActiveState} {sectors : StateSectors}
  {s t : ActiveState} {x : Bytes}

theorem forall_sectors (P : Bytes → Prop) (n : Nat) :
    P sectors.a ∧ P sectors.b ↔ P (sectors.sector n) ∧ P (sectors.sector (n + 1)) := by
  rcases Nat.mod_two_eq_zero_or_one n with hn | hn
  · rw [show sectors.sector n = sectors.b from if_pos hn,
      show sectors.sector (n + 1) = sectors.a from if_neg (by omega), and_comm]
  · rw [show sectors.sector n = sectors.a from if_neg (by omega),
      show sectors.sector (n + 1) = sectors.b from if_pos (by omega)]

/-- Complete publications: the reader finds the newest state. -/
theorem readActiveState_published (h : Published crc databaseId states sectors) :
    sectors.readActiveState crc databaseId = .ok s ↔ states[0]? = some s := by
  rw [readActiveState_eq_newestOf states.length, h.sectors_eq.1, h.sectors_eq.2]
  · simp only [h.found_image]
    cases hv : states[0]? with
    | none =>
        obtain rfl : states = [] := by simpa using hv
        simp [newestOf]
    | some v =>
        have hseq := h.sequence_add hv
        cases hw : states[1]? with
        | none =>
            have hlen := List.getElem?_eq_none_iff.mp hw
            have hlt := (List.getElem?_eq_some_iff.mp hv).1
            simp [newestOf, show v.sequence = 1 by omega]
        | some w => simp [newestOf]
  · intro v w hv hw
    rw [h.sectors_eq.1, h.found_image] at hv
    rw [h.sectors_eq.2, h.found_image] at hw
    have := h.sequence_add hv.symm
    have := h.sequence_add hw.symm
    omega

/-- A torn write: the reader finds the newest complete state if the torn sector decodes, which is
then its old content, or if it is empty and only one state was ever complete. -/
theorem readActiveState_torn (h : Published crc databaseId states sectors)
    (ht : Publishable databaseId states t)
    (hx : Torn crc (sectors.sector t.sequence) (t.encode crc) x) (hne : x ≠ t.encode crc) :
    (sectors.write t.sequence x).readActiveState crc databaseId = .ok s ↔
      states[0]? = some s ∧
        ((∃ u, ActiveState.decode crc x = .ok u) ∨ x.all (· == 0) = true ∧ s.sequence = 1) := by
  have hnew : (sectors.write t.sequence x).sector (t.sequence + 1) = image crc states[0]? := by
    rw [sector_write_succ, ht.sequence, sector_succ_succ]
    exact h.sectors_eq.1
  have hold : (sectors.write t.sequence x).sector (t.sequence + 1 + 1) = x := by
    rw [sector_succ_succ, sector_write_self]
  -- A torn sector that decodes holds what the sector held before.
  have hprevious : ∀ u, ActiveState.decode crc x = .ok u →
      Found crc databaseId x (some u) ∧ states[1]? = some u := by
    intro u hu
    have hxold := (hx.detected u hu).resolve_right hne
    rw [ht.sequence, h.sectors_eq.2] at hxold
    have hfound : Found crc databaseId x states[1]? := by
      rw [hxold]
      exact h.found_image.mpr rfl
    cases hw : states[1]? with
    | none =>
        rw [hw] at hfound
        exact absurd hu (ActiveState.decode_of_empty hfound)
    | some w =>
        rw [hw] at hfound
        obtain rfl := Except.ok.inj (hfound.1.symm.trans hu)
        exact ⟨hfound, rfl⟩
  rw [readActiveState_eq_newestOf (t.sequence + 1), hnew, hold]
  · constructor
    · rintro ⟨o, p, ho, hp, hs⟩
      obtain rfl := h.found_image.mp ho
      cases hv : states[0]? with
      | none =>
          cases p with
          | none => simp [hv, newestOf] at hs
          | some u =>
              have := h.sequence_add (hprevious u hp.1).2
              obtain rfl : states = [] := by simpa using hv
              simp at this
      | some v =>
          rw [hv] at hs
          cases p with
          | none =>
              obtain ⟨hseq, rfl⟩ : v.sequence = 1 ∧ v = s := by simpa [newestOf] using hs
              exact ⟨rfl, .inr ⟨hp, hseq⟩⟩
          | some u => exact ⟨hs, .inl ⟨u, hp.1⟩⟩
    · rintro ⟨hs, ⟨u, hu⟩ | ⟨hempty, hseq⟩⟩
      · exact ⟨some s, some u, h.found_image.mpr hs.symm, (hprevious u hu).1, rfl⟩
      · exact ⟨some s, none, h.found_image.mpr hs.symm, hempty, if_pos hseq⟩
  · intro v w hv hw
    rw [hnew, h.found_image] at hv
    rw [hold] at hw
    have := h.sequence_add hv.symm
    have := h.sequence_add (hprevious w hw.1).2
    omega

theorem b_write_one : (sectors.write 1 x).b = sectors.sector 2 := rfl

theorem b_write_two : (sectors.write 2 x).b = x := rfl

/-- Both sectors decode after a write exactly when the written one does and there was a state
before. -/
theorem decodes_write (h : Published crc databaseId states sectors)
    (ht : Publishable databaseId states t) :
    ((∃ s, ActiveState.decode crc (sectors.write t.sequence x).a = .ok s) ∧
      ∃ s, ActiveState.decode crc (sectors.write t.sequence x).b = .ok s) ↔
    (∃ s, ActiveState.decode crc x = .ok s) ∧ ∃ s, states[0]? = some s := by
  rw [forall_sectors (fun bytes => ∃ s, ActiveState.decode crc bytes = .ok s) t.sequence,
    sector_write_self, sector_write_succ, ht.sequence, sector_succ_succ, h.sectors_eq.1]
  refine and_congr_right fun _ => ?_
  have hfound : Found crc databaseId (image crc states[0]?) states[0]? := h.found_image.mpr rfl
  cases hv : states[0]? with
  | none =>
      rw [hv] at hfound
      simpa using fun s => ActiveState.decode_of_empty hfound
  | some v =>
      rw [hv] at hfound
      exact iff_of_true ⟨v, hfound.1⟩ ⟨v, rfl⟩

theorem all_zero_iff (hlen : x.length = sectorSize) :
    x.all (· == 0) = true ↔ x = zeros sectorSize := by
  rw [zeros, List.eq_replicate_iff, and_iff_right hlen, List.all_eq_true]
  simp only [beq_iff_eq]

/-- The state written last in full: the new one if its write completed. -/
def lastWritten (crc : Bytes → UInt32) (states : List ActiveState) (t : ActiveState) (x : Bytes) :
    Option ActiveState :=
  if x = t.encode crc then some t else states[0]?

/-- **The last complete state or an error.** After any publications and one more write, complete
or torn, the reader returns the state written last in full if both sectors decode, or if that is
the first state and sector B was never written; in every other case it returns an error. -/
theorem read_last_written (h : Published crc databaseId states sectors)
    (ht : Publishable databaseId states t)
    (hx : Torn crc (sectors.sector t.sequence) (t.encode crc) x) :
    let after := sectors.write t.sequence x
    let decodes := (∃ s, ActiveState.decode crc after.a = .ok s) ∧
      ∃ s, ActiveState.decode crc after.b = .ok s
    (∀ s, after.readActiveState crc databaseId = .ok s ↔
      lastWritten crc states t x = some s ∧
        (decodes ∨ s.sequence = 1 ∧ after.b = zeros sectorSize)) ∧
    (decodes → ∃ s, after.readActiveState crc databaseId = .ok s) := by
  intro after decodes
  have hdecodes : decodes ↔ _ := decodes_write h ht
  have hread : ∀ s, after.readActiveState crc databaseId = .ok s ↔
      lastWritten crc states t x = some s ∧
        (decodes ∨ s.sequence = 1 ∧ after.b = zeros sectorSize) := by
    intro s
    rw [hdecodes]
    by_cases hne : x = t.encode crc
    · have hpub : Published crc databaseId (t :: states) after := by
        subst hne
        exact h.publish t ht
      have hd : ActiveState.decode crc x = .ok t := by
        rw [hne]
        exact (hpub.found_image (i := 0) (o := some t) |>.mpr rfl).1
      rw [readActiveState_published hpub, lastWritten, if_pos hne]
      refine (and_iff_left_of_imp fun hs => ?_).symm
      obtain rfl := Option.some.inj hs
      cases hv : states[0]? with
      | none =>
          -- The first state: the other sector is still empty.
          obtain rfl : states = [] := by simpa using hv
          refine .inr ⟨ht.sequence, ?_⟩
          have hone : t.sequence = 1 := ht.sequence
          rw [show after.b = sectors.sector 2 by simp only [after, hone, b_write_one]]
          exact h.sectors_eq.1
      | some v => exact .inl ⟨⟨t, hd⟩, v, rfl⟩
    · rw [readActiveState_torn h ht hx hne, lastWritten, if_neg hne]
      refine and_congr_right fun hs => ?_
      rw [all_zero_iff hx.length, and_iff_left (Exists.intro s hs), and_comm (b := s.sequence = 1)]
      refine or_congr_right (and_congr_right fun hseq => ?_)
      -- After the first state the write goes to sector B.
      have hlen := h.sequence_add hs
      have htwo : t.sequence = 2 := by
        rw [ht.sequence]
        omega
      rw [show after.b = x by simp only [after, htwo, b_write_two]]
  refine ⟨hread, fun hd => ?_⟩
  obtain ⟨s, hs⟩ : ∃ s, lastWritten crc states t x = some s := by
    unfold lastWritten
    split
    · exact ⟨t, rfl⟩
    · exact (hdecodes.mp hd).2
  exact ⟨s, (hread s).mpr ⟨hs, .inl hd⟩⟩

/-- A state of a database without pages. -/
def emptyState (sequence : Nat) : ActiveState :=
  { databaseId := 7
    sequence
    txid := 1
    logicalSize := 0
    pageSize := 0
    history := 0
    commitUnix := 0
    firstCommitUnix := 0
    recordCount := 0
    truncatePages := none }

theorem emptyState_typed {n : Nat} (hn : n < 2 ^ 64) : (emptyState n).Typed where
  databaseId := show 7 < 2 ^ 256 by decide
  sequence := hn
  txid := show 1 < 2 ^ 64 by decide
  logicalSize := Nat.two_pow_pos 64
  pageSize := Nat.two_pow_pos 32
  history := Nat.two_pow_pos 256
  commitUnix := Nat.two_pow_pos 64
  firstCommitUnix := Nat.two_pow_pos 64
  recordCount := Nat.two_pow_pos 64
  truncatePages := by simp [emptyState]

theorem emptyState_publishable : Publishable 7 [] (emptyState 1) :=
  ⟨rfl, emptyState_typed (by decide), by decide, rfl⟩

/-- A new file: sector A with the first state, sector B empty. -/
def createdSectors : StateSectors :=
  (⟨zeros sectorSize, zeros sectorSize⟩ : StateSectors).write 1 ((emptyState 1).encode crc32)

theorem createdSectors_published : Published crc32 7 [emptyState 1] createdSectors :=
  Published.empty.publish (emptyState 1) emptyState_publishable

theorem torn_of_magic {old new : Bytes} (hlen : x.length = sectorSize)
    (hx : window x 0 8 ≠ activeStateMagic) : Torn crc old new x := by
  refine ⟨hlen, fun s hd => ?_⟩
  obtain ⟨_, hsector, _⟩ := Except.bind_eq_ok.mp hd
  obtain ⟨_, hmagic, _⟩ := Except.bind_eq_ok.mp hsector
  exact absurd (Except.ensure_eq_ok.mp hmagic) hx

/-- The second write, torn or not started. -/
theorem read_last_written_second :
    (createdSectors.write 2 (zeros sectorSize)).readActiveState crc32 7 = .ok (emptyState 1) := by
  have hmagic : window (zeros sectorSize) 0 8 ≠ activeStateMagic := by
    rw [window_zeros]
    decide
  have hne : zeros sectorSize ≠ (emptyState 2).encode crc32 := by
    intro h
    have htyped : (emptyState 2).Typed := emptyState_typed (by decide)
    have hd : ActiveState.decode crc32 (zeros sectorSize) = .ok (emptyState 2) := by
      rw [h]
      exact (ActiveState.decode_eq_ok crc32 (ActiveState.length_encode crc32 _)).mpr
        ⟨htyped, by decide, rfl⟩
    exact ActiveState.decode_of_empty ((all_zero_iff (length_zeros _)).mpr rfl) hd
  have h := (read_last_written createdSectors_published
    (t := emptyState 2) ⟨rfl, emptyState_typed (by decide), by decide, rfl⟩
    (torn_of_magic (length_zeros _) hmagic)).1 (emptyState 1)
  exact h.mpr ⟨if_neg hne, .inr ⟨rfl, rfl⟩⟩

/-- A new file is read although its second sector does not decode. -/
theorem created_read :
    createdSectors.readActiveState crc32 7 = .ok (emptyState 1) ∧
      ∀ s, ActiveState.decode crc32 createdSectors.b ≠ .ok s := by
  refine ⟨(readActiveState_published createdSectors_published).mpr rfl, fun s => ?_⟩
  exact ActiveState.decode_of_empty ((all_zero_iff (length_zeros _)).mpr rfl)

end StateSectors

end Zsqlite
