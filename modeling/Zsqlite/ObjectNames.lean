import Zsqlite.Placement
import Zsqlite.SegmentCodec
import Mathlib.Data.List.Sort

set_option autoImplicit false

/-! # Names of objects

`adapter.rs`: an object is a file in one directory, named by the digits of its id and an extension
for its kind. The directory is listed by reading the names back. Names are written with lower-case
digits; the reader of digit pairs also takes upper-case digits, and a plus in front of a single
digit, so an object has more names than the one it is stored under.
-/

namespace Zsqlite

open ByteVec Wire

/-- The errors of a listing. -/
inductive BackendError where
  | io
  | invalidData
  | range
  deriving DecidableEq, Repr

/-! ## Names -/

/-- `blob` -/
def blobExtension : Bytes := [98, 108, 111, 98]

/-- `segment` -/
def segmentExtension : Bytes := [115, 101, 103, 109, 101, 110, 116]

/-- `dict` -/
def dictExtension : Bytes := [100, 105, 99, 116]

/-- `index` -/
def indexExtension : Bytes := [105, 110, 100, 101, 120]

/-- The parts before and after the first separator. -/
def splitOnce (separator : UInt8) : Bytes → Option (Bytes × Bytes)
  | [] => none
  | b :: rest =>
      if b = separator then some ([], rest)
      else (splitOnce separator rest).map fun parts => (b :: parts.1, parts.2)

namespace ObjectKey

def id : ObjectKey → Digest
  | .blob id => id
  | .manifest id => id
  | .dictionary id => id
  | .index id => id

def extension : ObjectKey → Bytes
  | .blob _ => blobExtension
  | .manifest _ => segmentExtension
  | .dictionary _ => dictExtension
  | .index _ => indexExtension

def name (key : ObjectKey) : Bytes := hex key.id ++ 46 :: key.extension

/-- The key of an id under an extension. -/
def ofExtension (extension : Bytes) (id : Digest) : Except BackendError ObjectKey :=
  if extension = blobExtension then .ok (.blob id)
  else if extension = segmentExtension then .ok (.manifest id)
  else if extension = dictExtension then .ok (.dictionary id)
  else if extension = indexExtension then .ok (.index id)
  else .error .invalidData

def parse (name : Bytes) : Except BackendError ObjectKey := do
  let parts ← ((splitOnce 46 name).elim (.error .invalidData) .ok :
    Except BackendError (Bytes × Bytes))
  let id ← (parseHex parts.1).mapError fun _ => .invalidData
  ofExtension parts.2 id

/-! ### Order -/

def rank : ObjectKey → Nat
  | .blob _ => 0
  | .manifest _ => 1
  | .dictionary _ => 2
  | .index _ => 3

/-- Kinds first, then the bytes of the id. -/
def order (a b : ObjectKey) : Ordering :=
  (compare a.rank b.rank).then (compare (leBytes 32 a.id) (leBytes 32 b.id))

end ObjectKey

/-! ## Listing -/

/-- What reading the directory gives; reading an entry may fail as well. -/
inductive ReadDir where
  | notFound
  | failed
  | entries (names : List (Except BackendError Bytes))

section Listing

variable (utf8 : Bytes → Bool) (after : Option ObjectKey)

/-- One entry. Names that start with a dot are skipped. -/
def listEntry (keys : List ObjectKey) (entry : Except BackendError Bytes) :
    Except BackendError (List ObjectKey) := do
  let name ← entry
  Except.ensure (utf8 name = true) .invalidData
  if name.head? = some 46 then return keys
  else do
    let key ← ObjectKey.parse name
    return if after.all fun after => key.order after = .gt then keys ++ [key] else keys

def inventory (limit : Nat) (dir : ReadDir) : Except BackendError (List ObjectKey) := do
  Except.ensure (limit ≠ 0 ∧ limit ≤ 4096) .range
  match dir with
  | .notFound => return []
  | .failed => .error .io
  | .entries names => do
      let keys ← names.foldlM (listEntry utf8 after) []
      return (keys.insertionSort fun a b => (a.order b).isLE = true).take limit

end Listing

/-! ## Spellings -/

theorem splitOnce_eq_some {separator : UInt8} {text left right : Bytes} :
    splitOnce separator text = some (left, right) ↔
      text = left ++ separator :: right ∧ separator ∉ left := by
  induction text generalizing left with
  | nil => simp [splitOnce]
  | cons b rest ih =>
      rw [splitOnce]
      split
      · rename_i hb
        subst hb
        constructor
        · intro h
          cases h
          simp
        · rintro ⟨heq, hnot⟩
          cases left with
          | nil =>
              cases heq
              rfl
          | cons c left =>
              rw [List.cons_append, List.cons.injEq] at heq
              exact absurd (heq.1 ▸ List.mem_cons_self) hnot
      · rename_i hb
        rw [Option.map_eq_some_iff]
        constructor
        · rintro ⟨⟨l, r⟩, hparts, heq⟩
          cases heq
          obtain ⟨rfl, hnot⟩ := ih.mp hparts
          exact ⟨rfl, by simp [Ne.symm hb, hnot]⟩
        · rintro ⟨heq, hnot⟩
          cases left with
          | nil =>
              cases heq
              exact absurd rfl hb
          | cons c left =>
              rw [List.cons_append, List.cons.injEq] at heq
              obtain ⟨rfl, rfl⟩ := heq
              rw [List.mem_cons, not_or] at hnot
              exact ⟨(left, right), ih.mpr ⟨rfl, hnot.2⟩, rfl⟩

/-- The chunks of a text of whole chunks. -/
theorem flatten_chunks {ps n : Nat} {v : Bytes} (hps : 0 < ps) (h : v.length = n * ps) :
    (∀ chunk ∈ chunks ps v, chunk.length = ps) ∧ (chunks ps v).flatten = v := by
  have hcount : v.length / ps = n := by rw [h, Nat.mul_div_cancel _ hps]
  have hchunks : ∀ chunk ∈ chunks ps v, chunk.length = ps := by
    intro chunk hchunk
    rw [chunks, hcount, List.mem_map] at hchunk
    obtain ⟨i, hi, rfl⟩ := hchunk
    have hroom : (i + 1) * ps ≤ n * ps := Nat.mul_le_mul_right ps (List.mem_range.mp hi)
    rw [slice, List.length_take, List.length_drop]
    rw [Nat.succ_mul] at hroom
    omega
  have hlength : (chunks ps v).length = n := by rw [chunks, List.length_map, List.length_range, hcount]
  refine ⟨hchunks, eq_of_slice (n := n) ?_ h fun i hi => slice_flatten hchunks ?_⟩
  · rw [length_flatten_const hchunks, hlength]
  · rw [chunks, hcount, List.getElem?_map, List.getElem?_range hi]
    rfl

/-- Pairs of characters that are read as bytes are the spelling of the bytes exactly when all of
them are lower-case digits. By induction on the pairs. -/
theorem spelling_of_pairs {pairs : List Bytes} {bytes : List Nat}
    (h : List.Forall₂ (fun pair n => fromStrRadix 255 pair = .ok n) pairs bytes)
    (hpairs : ∀ pair ∈ pairs, pair.length = 2) :
    (∀ n ∈ bytes, n < 256) ∧
      (bytes.flatMap (Hex.toHex 2) = pairs.flatten ↔ ∀ b ∈ pairs.flatten, Hex.Lower b) := by
  induction h with
  | nil => simp
  | @cons pair n pairs bytes hpair _ ih =>
      obtain ⟨hbytes, hrest⟩ := ih fun p hp => hpairs p (List.mem_cons_of_mem _ hp)
      obtain ⟨a, b, rfl⟩ := List.length_eq_two.mp (hpairs pair List.mem_cons_self)
      have hread : Hex.fromHex 255 [a, b] = some n := by
        rw [fromStrRadix] at hpair
        cases hx : Hex.fromHex 255 [a, b] with
        | none =>
            rw [hx] at hpair
            cases hpair
        | some m =>
            rw [hx] at hpair
            cases hpair
            rfl
      obtain ⟨hn, hfirst⟩ := Hex.toHex_of_fromHex hread
      refine ⟨List.forall_mem_cons.mpr ⟨hn, hbytes⟩, ?_⟩
      rw [List.flatMap_cons, List.flatten_cons, List.forall_mem_append, ← hrest]
      have hlower : (∀ x ∈ [a, b], Hex.Lower x) ↔ Hex.Lower a ∧ Hex.Lower b := by simp
      rw [hlower, ← hfirst]
      constructor
      · intro heq
        exact List.append_inj heq (Hex.length_toHex 2 n)
      · rintro ⟨hpair, hpairs⟩
        rw [hpair, hpairs]

/-- **What is read as an id is its spelling** exactly when it has lower-case digits only. -/
theorem hex_of_parseHex {text : Bytes} {digest : Digest} (h : parseHex text = .ok digest) :
    text.length = 64 ∧ digest < 2 ^ 256 ∧ (hex digest = text ↔ ∀ b ∈ text, Hex.Lower b) := by
  unfold parseHex at h
  obtain ⟨_, hensure, h⟩ := Except.bind_eq_ok.mp h
  obtain ⟨bytes, hbytes, h⟩ := Except.bind_eq_ok.mp h
  have hdigest := Except.pure_eq_ok.mp h
  have hlen := (Except.ensure_eq_ok.mp hensure).1
  obtain ⟨hpairs, hflat⟩ := flatten_chunks (n := 32) (by decide : 0 < 2) hlen
  have hforall := Except.mapM_eq_ok.mp hbytes
  obtain ⟨hsmall, hspelling⟩ := spelling_of_pairs hforall hpairs
  have hcount : (bytes.map UInt8.ofNat).length = 32 := by
    rw [List.length_map, ← hforall.length_eq, chunks, List.length_map, List.length_range, hlen]
  have hlt : digest < 256 ^ 32 := by
    rw [hdigest]
    exact leNat_lt_of_length hcount
  refine ⟨hlen, lt_of_lt_of_eq hlt (by norm_num), ?_⟩
  have hhex : hex digest = bytes.flatMap (Hex.toHex 2) := by
    rw [hex, hdigest, leBytes_leNat_of_length hcount, List.flatMap_def, List.flatMap_def,
      List.map_map]
    congr 1
    refine List.map_congr_left fun n hn => ?_
    rw [Function.comp_apply, UInt8.toNat_ofNat', Nat.mod_eq_of_lt (hsmall n hn)]
  rw [hhex]
  rw [hflat] at hspelling
  exact hspelling

namespace ObjectKey

theorem ofExtension_eq_ok {text : Bytes} {digest : Digest} {key : ObjectKey} :
    ofExtension text digest = .ok key ↔ key.id = digest ∧ key.extension = text := by
  unfold ofExtension
  constructor
  · intro h
    split at h
    · cases h
      exact ⟨rfl, Eq.symm ‹_›⟩
    · split at h
      · cases h
        exact ⟨rfl, Eq.symm ‹_›⟩
      · split at h
        · cases h
          exact ⟨rfl, Eq.symm ‹_›⟩
        · split at h
          · cases h
            exact ⟨rfl, Eq.symm ‹_›⟩
          · cases h
  · rintro ⟨rfl, rfl⟩
    cases key <;> rfl

/-- A name that is read has the extension of the key, and digits that denote its id. -/
theorem digits_of_parse {text : Bytes} {key : ObjectKey} (h : parse text = .ok key) :
    ∃ digits, text = digits ++ 46 :: key.extension ∧ parseHex digits = .ok key.id := by
  unfold parse at h
  obtain ⟨⟨digits, rest⟩, hsplit, h⟩ := Except.bind_eq_ok.mp h
  obtain ⟨digest, hdigest, h⟩ := Except.bind_eq_ok.mp h
  obtain ⟨hid, hextension⟩ := ofExtension_eq_ok.mp h
  cases hparts : splitOnce 46 text with
  | none =>
      rw [hparts] at hsplit
      cases hsplit
  | some parts =>
      rw [hparts] at hsplit
      cases hsplit
      refine ⟨digits, ?_, ?_⟩
      · rw [hextension]
        exact (splitOnce_eq_some.mp hparts).1
      · rw [hid]
        exact Except.mapError_eq_ok.mp hdigest

/-- **Every key is read back from its name.** -/
theorem parse_name {key : ObjectKey} (h : key.id < 2 ^ 256) : parse key.name = .ok key := by
  have hdot : (46 : UInt8) ∉ hex key.id := by
    intro hmem
    obtain ⟨_, -, hb⟩ := List.mem_flatMap.mp hmem
    exact absurd (Hex.lower_of_mem hb) (by decide)
  have hsplit : splitOnce 46 key.name = some (hex key.id, key.extension) :=
    splitOnce_eq_some.mpr ⟨rfl, hdot⟩
  have hid : (parseHex (hex key.id)).mapError (fun _ => BackendError.invalidData) = .ok key.id :=
    Except.mapError_eq_ok.mpr (parseHex_hex h)
  unfold parse
  rw [hsplit]
  exact (Except.bind_of_ok hid).trans (ofExtension_eq_ok.mpr ⟨rfl, rfl⟩)

/-- **A name that is read is the name of the key** exactly when its digits are lower-case ones. -/
theorem name_of_parse {text : Bytes} {key : ObjectKey} (h : parse text = .ok key) :
    key.name = text ↔ ∀ b ∈ text.take 64, Hex.Lower b := by
  obtain ⟨digits, rfl, hdigits⟩ := digits_of_parse h
  obtain ⟨hlen, -, hspelling⟩ := hex_of_parseHex hdigits
  rw [List.take_left' hlen, ← hspelling, name]
  exact List.append_left_inj _

end ObjectKey

/-! ## Listings -/

section Inventory

variable {utf8 : Bytes → Bool} {after : Option ObjectKey}

/-- One entry more. -/
theorem listEntry_eq_ok {keys keys' : List ObjectKey} {entry : Except BackendError Bytes}
    (h : listEntry utf8 after keys entry = .ok keys') : keys' = keys ∨
      ∃ name key, entry = .ok name ∧ name.head? ≠ some 46 ∧ ObjectKey.parse name = .ok key ∧
        keys' = keys ++ [key] := by
  unfold listEntry at h
  obtain ⟨name, hname, h⟩ := Except.bind_eq_ok.mp h
  obtain ⟨-, -, h⟩ := Except.bind_eq_ok.mp h
  split at h
  · exact .inl (Except.pure_eq_ok.mp h)
  · rename_i hdot
    obtain ⟨key, hkey, h⟩ := Except.bind_eq_ok.mp h
    have hkeys := Except.pure_eq_ok.mp h
    split at hkeys
    · exact .inr ⟨name, key, hname, hdot, hkey, hkeys⟩
    · exact .inl hkeys

/-- The keys of a listing are read from names in the directory, each from a name of its own. -/
theorem names_of_list {entries : List (Except BackendError Bytes)} {keys : List ObjectKey}
    (h : entries.foldlM (listEntry utf8 after) [] = .ok keys) :
    ∃ names : List Bytes, (names.map Except.ok).Sublist entries ∧
      (∀ name ∈ names, name.head? ≠ some 46) ∧
      List.Forall₂ (fun name key => ObjectKey.parse name = .ok key) names keys := by
  refine Except.foldlM_prefix (I := fun done keys => ∃ names : List Bytes,
    (names.map Except.ok).Sublist done ∧ (∀ name ∈ names, name.head? ≠ some 46) ∧
      List.Forall₂ (fun name key => ObjectKey.parse name = .ok key) names keys)
    (fun done entry keys keys' _ hdone hentry => ?_) ⟨[], .slnil, by simp, .nil⟩ h
  obtain ⟨names, hsub, hdots, hparsed⟩ := hdone
  rcases listEntry_eq_ok hentry with rfl | ⟨name, key, rfl, hdot, hkey, rfl⟩
  · exact ⟨names, hsub.trans (List.sublist_append_left _ _), hdots, hparsed⟩
  · refine ⟨names ++ [name], ?_, ?_, List.rel_append hparsed (.cons hkey .nil)⟩
    · rw [List.map_append]
      exact hsub.append (List.Sublist.refl _)
    · intro n hn
      rcases List.mem_append.mp hn with hn | hn
      · exact hdots n hn
      · rw [List.mem_singleton.mp hn]
        exact hdot

/-- **Listings.** In a directory whose names have lower-case digits, the keys that are listed are
those of files, each of its own. -/
theorem keys_of_inventory {limit : Nat} {entries : List (Except BackendError Bytes)}
    {keys : List ObjectKey} (h : inventory utf8 after limit (.entries entries) = .ok keys)
    (hnodup : entries.Nodup) (hlower : ∀ name, .ok name ∈ entries → name.head? ≠ some 46 →
      ∀ b ∈ name.take 64, Hex.Lower b) :
    (∀ key ∈ keys, .ok key.name ∈ entries) ∧ keys.Nodup := by
  unfold inventory at h
  obtain ⟨-, -, h⟩ := Except.bind_eq_ok.mp h
  obtain ⟨listed, hlisted, h⟩ := Except.bind_eq_ok.mp h
  have hkeys := Except.pure_eq_ok.mp h
  obtain ⟨names, hsub, hdots, hparsed⟩ := names_of_list hlisted
  have hperm := List.perm_insertionSort (fun a b : ObjectKey => (a.order b).isLE = true) listed
  -- The names of the keys are the names that were read.
  have hnames : listed.map ObjectKey.name = names := by
    have hentries : ∀ name ∈ names, .ok name ∈ entries := fun name hn =>
      hsub.subset (List.mem_map_of_mem hn)
    clear hlisted hsub hperm h hkeys
    induction hparsed with
    | nil => rfl
    | @cons name key names listed hparse _ ih =>
        have hname : key.name = name := (ObjectKey.name_of_parse hparse).mpr
          (hlower name (hentries name List.mem_cons_self) (hdots name List.mem_cons_self))
        rw [List.map_cons, hname, ih (fun n hn => hdots n (List.mem_cons_of_mem _ hn)) fun n hn =>
          hentries n (List.mem_cons_of_mem _ hn)]
  have hdistinct : names.Nodup := (hnodup.sublist hsub).of_map _
  rw [hkeys]
  refine ⟨fun key hkey => ?_, ?_⟩
  · have hmem := hperm.mem_iff.mp (List.mem_of_mem_take hkey)
    refine hsub.subset (List.mem_map_of_mem ?_)
    rw [← hnames]
    exact List.mem_map_of_mem hmem
  · refine List.Nodup.sublist (List.take_sublist _ _) (hperm.nodup_iff.mpr ?_)
    rw [← hnames] at hdistinct
    exact hdistinct.of_map _

end Inventory

/-- **Object names.** Every key is read back from its name. A name that is read is the name of its
key exactly when its digits are lower-case ones, and a directory of such names is listed exactly. -/
theorem object_names (key : ObjectKey) (name : Bytes) (utf8 : Bytes → Bool)
    (after : Option ObjectKey) (limit : Nat) (entries : List (Except BackendError Bytes)) :
    (key.id < 2 ^ 256 → ObjectKey.parse key.name = .ok key) ∧
    (ObjectKey.parse name = .ok key → (key.name = name ↔ ∀ b ∈ name.take 64, Hex.Lower b)) ∧
    ∀ keys, inventory utf8 after limit (.entries entries) = .ok keys →
      entries.Nodup → (∀ name, .ok name ∈ entries → name.head? ≠ some 46 →
        ∀ b ∈ name.take 64, Hex.Lower b) →
      (∀ key ∈ keys, .ok key.name ∈ entries) ∧ keys.Nodup :=
  ⟨ObjectKey.parse_name, ObjectKey.name_of_parse, fun _ => keys_of_inventory⟩

/-- The id whose bytes are all 170. -/
def repeatedId : Digest := leNat (List.replicate 32 170)

/-- The name with 64 times the character `c`. -/
def repeatedName (c : UInt8) : Bytes := List.replicate 64 c ++ 46 :: blobExtension

/-- The directory with the one file that the key of `repeatedId` is stored in. -/
theorem object_names_repeated :
    ObjectKey.parse (ObjectKey.blob repeatedId).name = .ok (.blob repeatedId) ∧
      (ObjectKey.blob repeatedId).name = repeatedName 97 ∧
      ∀ keys, inventory (fun _ => true) none 4096 (.entries [.ok (repeatedName 97)]) = .ok keys →
        (∀ key ∈ keys, .ok key.name ∈ [(.ok (repeatedName 97) : Except BackendError Bytes)]) ∧
          keys.Nodup := by
  have hlower : ∀ b ∈ (repeatedName 97).take 64, Hex.Lower b := by decide +kernel
  have hid : repeatedId < 2 ^ 256 := by decide +kernel
  have hparse : ObjectKey.parse (repeatedName 97) = .ok (.blob repeatedId) := by decide +kernel
  have hnames := object_names (.blob repeatedId) (repeatedName 97) (fun _ => true) none 4096
    [.ok (repeatedName 97)]
  refine ⟨hnames.1 hid, (hnames.2.1 hparse).mpr hlower, fun keys hkeys => ?_⟩
  refine hnames.2.2 keys hkeys (List.nodup_singleton _) fun name hname _ => ?_
  rw [List.mem_singleton, Except.ok.injEq] at hname
  rw [hname]
  exact hlower

/-- Upper-case digits are read as well: a key is listed whose file does not exist, and one key is
listed for two names. -/
theorem object_names_upper :
    ObjectKey.parse (repeatedName 65) = .ok (.blob repeatedId) ∧
      (ObjectKey.blob repeatedId).name ≠ repeatedName 65 ∧
      inventory (fun _ => true) none 4096 (.entries [.ok (repeatedName 65)]) =
        .ok [.blob repeatedId] ∧
      inventory (fun _ => true) none 4096
        (.entries [.ok (repeatedName 65), .ok (repeatedName 97)]) =
          .ok [.blob repeatedId, .blob repeatedId] := by
  decide +kernel

end Zsqlite
