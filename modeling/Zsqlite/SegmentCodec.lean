import Zsqlite.FrameCodec
import Zsqlite.Lib.Hex

set_option autoImplicit false

/-! # Segment containers

The file of a manifest (`segment.rs`): a header of 128 bytes, a footer, and a trailer with the
offset of the footer. `Container.read` works on a file, `Container.readBytes` on bytes in memory;
they accept the same containers with the same result, which are those that `Container.build`
writes (`Container.read_exact`). A header also names the file of its container; the name gives
back the id (`SegmentHeader.parseFilename_filename`).
-/

namespace Zsqlite

open ByteVec Wire

def segmentMagic : Bytes := [0x5a, 0x53, 0x45, 0x47, 0x30, 0x30, 0x30, 0x31]

def headerSize : Nat := 128

/-! ## Headers -/

namespace SegmentHeader

variable (h : SegmentHeader)

def entries : Entries :=
  match h.parent with
  | .checkpoint =>
      [(0, segmentMagic), (16, leBytes 8 h.spanBegin), (24, leBytes 8 h.spanEnd),
        (64, leBytes 8 h.representedBegin), (80, leBytes 32 h.logicalHash)]
  | .previous parent =>
      [(0, segmentMagic), (9, [1]), (16, leBytes 8 h.spanBegin), (24, leBytes 8 h.spanEnd),
        (32, leBytes 32 parent.hash), (64, leBytes 8 h.representedBegin),
        (72, leBytes 8 parent.txid), (80, leBytes 32 h.logicalHash)]

def encode : Bytes := puts (zeros headerSize) h.entries

/-- A checkpoint leaves the fields of the parent empty. -/
def decodeParent (bytes : Bytes) : Except StoreError Parent :=
  if window bytes 9 1 = [0] ∧ window bytes 32 32 = zeros 32 ∧ window bytes 72 8 = zeros 8 then
    .ok .checkpoint
  else if window bytes 9 1 = [1] then do
    let txid ← TransactionId.new (getU64 bytes 72)
    return .previous ⟨getDigest bytes 32, txid⟩
  else .error (.corrupt 0)

def decode (bytes : Bytes) : Except StoreError SegmentHeader := do
  Except.ensure (window bytes 0 8 = segmentMagic ∧ window bytes 8 1 = zeros 1) (.corrupt 0)
  Except.ensure (window bytes 10 6 = zeros 6 ∧ window bytes 112 16 = zeros 16) (.corrupt 0)
  let parent ← decodeParent bytes
  SegmentHeader.new (getU64 bytes 16) (getU64 bytes 24) (getU64 bytes 64) (getDigest bytes 80)
    parent

/-- What `Header::new` admits, with fields of their stored widths. -/
structure Admissible : Prop where
  new : SegmentHeader.new h.spanBegin h.spanEnd h.representedBegin h.logicalHash h.parent = .ok h
  spanEnd : h.spanEnd < 2 ^ 64
  logicalHash : h.logicalHash < 2 ^ 256
  parent : ∀ parent, h.parent = .previous parent → parent.hash < 2 ^ 256

variable {h}

theorem fits_entries (h : SegmentHeader) : Fits headerSize 0 h.entries := by
  unfold entries
  split <;> simp [Fits, segmentMagic, headerSize]

theorem fields_of_new {spanBegin spanEnd representedBegin : Nat} {logicalHash : Digest}
    {parent : Parent}
    (hnew : SegmentHeader.new spanBegin spanEnd representedBegin logicalHash parent = .ok h) :
    h = ⟨spanBegin, spanEnd, representedBegin, logicalHash, parent⟩ ∧ spanBegin ≠ 0 ∧
      spanBegin ≤ representedBegin ∧ representedBegin ≤ spanEnd ∧
      ∀ reference, parent = .previous reference →
        spanBegin ≤ reference.txid ∧ reference.txid ≤ spanEnd := by
  obtain ⟨_, hspan, hnew⟩ := Except.bind_eq_ok.mp hnew
  obtain ⟨_, hrepresented, hnew⟩ := Except.bind_eq_ok.mp hnew
  obtain ⟨hzero, -⟩ := Except.ensure_eq_ok.mp hspan
  obtain ⟨hbegin, hend⟩ := Except.ensure_eq_ok.mp hrepresented
  cases parent with
  | checkpoint =>
      obtain ⟨_, -, hnew⟩ := Except.bind_eq_ok.mp hnew
      exact ⟨Except.pure_eq_ok.mp hnew, hzero, hbegin, hend, by simp⟩
  | previous reference =>
      obtain ⟨_, htxid, hnew⟩ := Except.bind_eq_ok.mp hnew
      obtain ⟨_, -, hnew⟩ := Except.bind_eq_ok.mp hnew
      refine ⟨Except.pure_eq_ok.mp hnew, hzero, hbegin, hend, ?_⟩
      intro _ heq
      cases heq
      exact Except.ensure_eq_ok.mp htxid

/-- The bytes of the fields that every header has. -/
structure Stored (h : SegmentHeader) (bytes : Bytes) : Prop where
  magic : window bytes 0 8 = segmentMagic
  reserved : window bytes 8 1 = zeros 1
  reserved' : window bytes 10 6 = zeros 6
  spanBegin : window bytes 16 8 = leBytes 8 h.spanBegin
  spanEnd : window bytes 24 8 = leBytes 8 h.spanEnd
  representedBegin : window bytes 64 8 = leBytes 8 h.representedBegin
  logicalHash : window bytes 80 32 = leBytes 32 h.logicalHash
  padding : window bytes 112 16 = zeros 16

/-- The bytes of the parent fields. -/
def StoredParent (bytes : Bytes) : Parent → Prop
  | .checkpoint =>
      window bytes 9 1 = [0] ∧ window bytes 32 32 = zeros 32 ∧ window bytes 72 8 = zeros 8
  | .previous parent =>
      window bytes 9 1 = [1] ∧ window bytes 32 32 = leBytes 32 parent.hash ∧
        window bytes 72 8 = leBytes 8 parent.txid

theorem eq_encode_iff {bytes : Bytes} (hlen : bytes.length = headerSize) :
    bytes = h.encode ↔ h.Stored bytes ∧ StoredParent bytes h.parent := by
  rw [encode, eq_puts_iff h.fits_entries hlen, entries]
  cases hp : h.parent with
  | checkpoint =>
      -- One gap of zeros covers the flag and the reserved bytes around it.
      have hgap : window bytes 8 8 = zeros 8 ↔
          window bytes 8 1 = zeros 1 ∧ window bytes 9 1 = [0] ∧ window bytes 10 6 = zeros 6 := by
        rw [show 8 = 1 + (1 + 6) from rfl, window_eq_zeros_add, window_eq_zeros_add]
        exact Iff.rfl
      simp only [Matches, length_leBytes]
      constructor
      · rintro ⟨-, hmagic, hzero, hbegin, -, hend, hparent, hrepresented, htxid, hhash, hpad⟩
        obtain ⟨h8, h9, h10⟩ := hgap.mp hzero
        exact ⟨⟨hmagic, h8, h10, hbegin, hend, hrepresented, hhash, hpad⟩, h9, hparent, htxid⟩
      · rintro ⟨⟨hmagic, h8, h10, hbegin, hend, hrepresented, hhash, hpad⟩, h9, hparent, htxid⟩
        exact ⟨rfl, hmagic, hgap.mpr ⟨h8, h9, h10⟩, hbegin, rfl, hend, hparent, hrepresented, htxid,
          hhash, hpad⟩
  | previous parent =>
      simp only [Matches, length_leBytes]
      constructor
      · rintro ⟨-, hmagic, h8, h9, h10, hbegin, -, hend, -, hparent, -, hrepresented, -, htxid, -,
          hhash, hpad⟩
        exact ⟨⟨hmagic, h8, h10, hbegin, hend, hrepresented, hhash, hpad⟩, h9, hparent, htxid⟩
      · rintro ⟨⟨hmagic, h8, h10, hbegin, hend, hrepresented, hhash, hpad⟩, h9, hparent, htxid⟩
        exact ⟨rfl, hmagic, h8, h9, h10, hbegin, rfl, hend, rfl, hparent, rfl, hrepresented, rfl,
          htxid, rfl, hhash, hpad⟩

theorem decodeParent_eq_ok {bytes : Bytes} {parent : Parent} :
    decodeParent bytes = .ok parent ↔ StoredParent bytes parent ∧
      ∀ reference, parent = .previous reference →
        reference.txid ≠ 0 ∧ reference.txid < 2 ^ 64 ∧ reference.hash < 2 ^ 256 := by
  unfold decodeParent
  cases parent with
  | checkpoint =>
      simp only [StoredParent, reduceCtorEq, false_implies, implies_true, and_true]
      split
      · rename_i hzero
        simp [hzero]
      · rename_i hzero
        refine iff_of_false (fun heq => ?_) hzero
        split at heq
        · obtain ⟨_, -, heq⟩ := Except.bind_eq_ok.mp heq
          cases heq
        · cases heq
  | previous reference =>
      by_cases hflag : window bytes 9 1 = [1]
      · rw [if_neg (by simp [hflag]), if_pos hflag, Except.bind_eq_ok]
        simp only [TransactionId.new_eq_ok, Except.pure_eq_ok, StoredParent, hflag, true_and]
        constructor
        · rintro ⟨txid, ⟨hne, htxid⟩, hparent⟩
          obtain rfl := Parent.previous.inj hparent
          refine ⟨⟨(getDigest_eq (getDigest_lt bytes 32)).mp rfl, ?_⟩, ?_⟩
          · exact (getU64_eq (htxid ▸ getU64_lt bytes 72)).mp htxid
          · rintro _ heq
            obtain rfl := Parent.previous.inj heq
            exact ⟨hne, htxid ▸ getU64_lt bytes 72, getDigest_lt bytes 32⟩
        · rintro ⟨⟨hhash, htxid⟩, hparent⟩
          obtain ⟨hne, hlt, hhash'⟩ := hparent reference rfl
          refine ⟨reference.txid, ⟨hne, (getU64_eq hlt).mpr htxid⟩, ?_⟩
          rw [(getDigest_eq hhash').mpr hhash]
      · rw [if_neg hflag]
        simp only [StoredParent, hflag, false_and, iff_false]
        split <;> simp

theorem decode_eq_ok {bytes : Bytes} (hlen : bytes.length = headerSize) :
    decode bytes = .ok h ↔ h.Admissible ∧ bytes = h.encode := by
  rw [eq_encode_iff hlen]
  simp only [decode, Except.bind_eq_ok, Except.ensure_eq_ok, exists_const, decodeParent_eq_ok]
  constructor
  · rintro ⟨⟨hmagic, h8⟩, ⟨h10, hpad⟩, parent, ⟨hparent, hreference⟩, hnew⟩
    obtain ⟨rfl, -⟩ := fields_of_new hnew
    have u64 : ∀ off, window bytes off 8 = leBytes 8 (getU64 bytes off) :=
      fun off => (getU64_eq (getU64_lt bytes off)).mp rfl
    exact ⟨⟨hnew, getU64_lt _ _, getDigest_lt _ _, fun _ h => (hreference _ h).2.2⟩,
      ⟨hmagic, h8, h10, u64 16, u64 24, u64 64, (getDigest_eq (getDigest_lt bytes 80)).mp rfl, hpad⟩,
      hparent⟩
  · rintro ⟨hadmissible, hstored, hparent⟩
    obtain ⟨-, hzero, hbegin, hend, hreference⟩ := fields_of_new hadmissible.new
    have hlt := hadmissible.spanEnd
    refine ⟨⟨hstored.magic, hstored.reserved⟩, ⟨hstored.reserved', hstored.padding⟩, h.parent,
      ⟨hparent, fun reference href => ?_⟩, ?_⟩
    · have := hreference reference href
      exact ⟨by omega, by omega, hadmissible.parent reference href⟩
    · rw [(getU64_eq (by omega)).mpr hstored.spanBegin, (getU64_eq hlt).mpr hstored.spanEnd,
        (getU64_eq (by omega)).mpr hstored.representedBegin,
        (getDigest_eq hadmissible.logicalHash).mpr hstored.logicalHash]
      exact hadmissible.new

theorem length_encode (h : SegmentHeader) : h.encode.length = headerSize :=
  length_puts (by simp) h.fits_entries

end SegmentHeader

/-! ## Containers -/

def endMagic : Bytes := [0x5a, 0x45, 0x4e, 0x44, 0x30, 0x30, 0x30, 0x31]

def containerLimit : Nat := 512 * 1024 * 1024

/-- What a builder has written of an object that is not a pack. -/
abbrev Building := Bytes

def Building.append (b : Building) (bytes : Bytes) : Except StoreError Building := do
  Except.ensure (b.length + bytes.length ≤ containerLimit) .range
  return b ++ bytes

/-- Write the header over the space left for it. -/
def Building.segmentHeader (b : Building) (header : SegmentHeader) : Except StoreError Building := do
  Except.ensure (headerSize ≤ b.length) .range
  return overwrite b 0 header.encode

structure Container where
  header : SegmentHeader
  footer : Bytes
  id : Digest
  deriving DecidableEq

namespace Container

variable (hash : Bytes → Digest)

/-- The file of a manifest, as a view is finalized. -/
def build (header : SegmentHeader) (footer : Bytes) : Except StoreError Bytes := do
  let b ← Building.append [] (zeros headerSize)
  let b ← b.segmentHeader header
  let b ← b.append footer
  let b ← b.append (leBytes 8 headerSize)
  b.append endMagic

def read (file : Bytes) : Except StoreError Container := do
  let length := file.length
  Except.ensure (headerSize + 16 ≤ length ∧ length ≤ containerLimit) .range
  let encoded := window file 0 headerSize
  let header ← SegmentHeader.decode encoded
  let tail := window file (length - 16) 16
  Except.ensure (tail.drop 8 = endMagic) (.corrupt (length - 16))
  let offset := leNat (tail.take 8)
  Except.ensure (offset = headerSize) .range
  let footer := window file offset (length - 16 - offset)
  return { header, footer, id := hash (encoded ++ footer) }

def readBytes (bytes : Bytes) : Except StoreError Container := do
  Except.ensure (headerSize + 16 ≤ bytes.length ∧ bytes.length ≤ containerLimit) .range
  let encoded := bytes.take headerSize
  let header ← SegmentHeader.decode encoded
  let tail := bytes.drop (bytes.length - 16)
  Except.ensure (tail.drop 8 = endMagic ∧ leNat (tail.take 8) = headerSize) (.corrupt 0)
  let stop := bytes.length - 16
  let footer := (bytes.drop headerSize).take (stop - headerSize)
  let id := hash (encoded ++ footer)
  -- The footer is moved to the front and the rest cut off.
  return { header, footer := (overwrite bytes 0 footer).take (stop - headerSize), id }

variable {hash} {file footer : Bytes} {header : SegmentHeader} {c : Container}

def trailer : Bytes := leBytes 8 headerSize ++ endMagic

theorem overwrite_header (h : SegmentHeader) : overwrite (zeros headerSize) 0 h.encode = h.encode := by
  have hne : h.encode ≠ [] := List.ne_nil_of_length_pos (by rw [h.length_encode]; decide)
  have hlen : (overwrite (zeros headerSize) 0 h.encode).length = h.encode.length := by
    rw [length_overwrite hne, length_zeros, h.length_encode]
    rfl
  rw [← window_all (overwrite (zeros headerSize) 0 h.encode), hlen, window_overwrite_self]

theorem build_eq_ok : build header footer = .ok file ↔
    file = header.encode ++ (footer ++ trailer) ∧ file.length ≤ containerLimit := by
  have hheader := header.length_encode
  have hend : endMagic.length = 8 := rfl
  simp only [build, Building.append, Building.segmentHeader, Except.bind_eq_ok,
    Except.ensure_eq_ok, exists_const, Except.pure_eq_ok, List.nil_append,
    and_assoc, exists_and_left, exists_eq_left, overwrite_header, List.length_append,
    length_leBytes, length_zeros, List.length_nil, hheader, hend, trailer]
  constructor
  · rintro ⟨-, -, -, -, hle, rfl⟩
    refine ⟨by simp, ?_⟩
    simpa [hheader, hend, Nat.add_assoc] using hle
  · rintro ⟨rfl, hle⟩
    simp only [List.length_append, length_leBytes, hheader, hend] at hle
    exact ⟨by decide, le_refl _, by omega, by omega, by omega, by simp⟩

/-- The parts of a file, as both readers take them. -/
structure Parts (hash : Bytes → Digest) (file : Bytes) (c : Container) : Prop where
  length : headerSize + 16 ≤ file.length ∧ file.length ≤ containerLimit
  header : SegmentHeader.decode (file.take headerSize) = .ok c.header
  tail : file.drop (file.length - 16) = trailer
  footer : c.footer = (file.drop headerSize).take (file.length - 16 - headerSize)
  id : c.id = hash (file.take headerSize ++ c.footer)

theorem tail_eq_iff {tail : Bytes} (h : tail.length = 16) :
    tail = trailer ↔ tail.drop 8 = endMagic ∧ leNat (tail.take 8) = headerSize := by
  constructor
  · rintro rfl
    exact ⟨by decide, by decide⟩
  · rintro ⟨hmagic, hoffset⟩
    have hlen : (tail.take 8).length = 8 := by simp [h]
    rw [← List.take_append_drop 8 tail, hmagic, ← leBytes_leNat_of_length hlen, hoffset]
    rfl

/-- Moving bytes to the front and cutting off the rest. -/
theorem take_overwrite (v b : Bytes) : (overwrite v 0 b).take b.length = b := by
  by_cases hb : b = []
  · simp [hb]
  · have hlen : 0 + b.length ≤ (overwrite v 0 b).length := by
      rw [length_overwrite hb]
      exact le_max_right _ _
    have := take_drop_eq_window hlen
    rw [List.drop_zero] at this
    rw [this, window_overwrite_self]

theorem length_footer (hlen : headerSize + 16 ≤ file.length) :
    ((file.drop headerSize).take (file.length - 16 - headerSize)).length =
      file.length - 16 - headerSize := by
  rw [List.length_take, List.length_drop]
  omega

theorem readBytes_eq_ok : readBytes hash file = .ok c ↔ Parts hash file c := by
  simp only [readBytes, Except.bind_eq_ok, Except.ensure_eq_ok, exists_const, Except.pure_eq_ok]
  constructor
  · rintro ⟨hlen, header, hheader, htail, rfl⟩
    have hmoved := take_overwrite file ((file.drop headerSize).take (file.length - 16 - headerSize))
    rw [length_footer hlen.1] at hmoved
    refine ⟨hlen, hheader, (tail_eq_iff (by rw [List.length_drop]; omega)).mpr htail, ?_, ?_⟩
    · dsimp only
      rw [hmoved]
    · dsimp only
      rw [hmoved]
  · rintro ⟨hlen, hheader, htail, hfooter, hid⟩
    have hmoved := take_overwrite file ((file.drop headerSize).take (file.length - 16 - headerSize))
    rw [length_footer hlen.1] at hmoved
    refine ⟨hlen, c.header, hheader, (tail_eq_iff (by rw [List.length_drop]; omega)).mp htail, ?_⟩
    rw [hmoved, ← hfooter, ← hid]

theorem read_eq_ok : read hash file = .ok c ↔ Parts hash file c := by
  have hwindow : headerSize + 16 ≤ file.length → window file 0 headerSize = file.take headerSize ∧
      window file (file.length - 16) 16 = file.drop (file.length - 16) ∧
      window file headerSize (file.length - 16 - headerSize) =
        (file.drop headerSize).take (file.length - 16 - headerSize) := by
    intro hlen
    refine ⟨?_, ?_, ?_⟩
    · rw [← take_drop_eq_window (by omega), List.drop_zero]
    · rw [← take_drop_eq_window (by omega), List.take_of_length_le]
      rw [List.length_drop]
      omega
    · rw [← take_drop_eq_window (by omega)]
  simp only [read, Except.bind_eq_ok, Except.ensure_eq_ok, exists_const, Except.pure_eq_ok]
  constructor
  · rintro ⟨hlen, header, hheader, hmagic, hoffset, rfl⟩
    obtain ⟨hhead, htail, hfooter⟩ := hwindow hlen.1
    rw [hhead] at hheader
    rw [htail] at hmagic hoffset
    rw [htail, hoffset, hhead, hfooter]
    refine ⟨hlen, hheader, (tail_eq_iff (by rw [List.length_drop]; omega)).mpr ⟨hmagic, hoffset⟩,
      ?_, ?_⟩
    · dsimp only
    · dsimp only
  · rintro ⟨hlen, hheader, htail, hfooter, hid⟩
    obtain ⟨hhead, htail', hfooter'⟩ := hwindow hlen.1
    obtain ⟨hmagic, hoffset⟩ := (tail_eq_iff (by rw [List.length_drop]; omega)).mp htail
    rw [hhead, htail', hoffset, hfooter', ← hfooter, ← hid]
    exact ⟨hlen, c.header, hheader, hmagic, rfl, rfl⟩

/-- The parts of a file are those of a container that was built. -/
theorem parts_iff : Parts hash file c ↔ c.header.Admissible ∧
    build c.header c.footer = .ok file ∧ c.id = hash (c.header.encode ++ c.footer) := by
  rw [build_eq_ok]
  constructor
  · rintro ⟨hlen, hheader, htail, hfooter, hid⟩
    obtain ⟨hadmissible, hhead⟩ :=
      (SegmentHeader.decode_eq_ok (by rw [List.length_take]; omega)).mp hheader
    refine ⟨hadmissible, ⟨?_, hlen.2⟩, by rw [← hhead, hid]⟩
    have hrest : (file.drop headerSize).drop (file.length - 16 - headerSize) = trailer := by
      rw [List.drop_drop, ← htail,
        show headerSize + (file.length - 16 - headerSize) = file.length - 16 by omega]
    rw [← hhead, hfooter, ← hrest, List.take_append_drop, List.take_append_drop]
  · rintro ⟨hadmissible, ⟨hfile, hlimit⟩, hid⟩
    have hheader := c.header.length_encode
    have htrailer : trailer.length = 16 := rfl
    have hlen : file.length = headerSize + (c.footer.length + 16) := by
      rw [hfile, List.length_append, List.length_append, hheader, htrailer]
    have htake : file.take headerSize = c.header.encode := by
      rw [hfile, List.take_left' hheader]
    have hdrop : file.drop headerSize = c.footer ++ trailer := by
      rw [hfile, List.drop_left' hheader]
    refine ⟨⟨by omega, hlimit⟩, ?_, ?_, ?_, by rw [htake, hid]⟩
    · rw [htake]
      exact (SegmentHeader.decode_eq_ok hheader).mpr ⟨hadmissible, rfl⟩
    · rw [show file.length - 16 = headerSize + c.footer.length by omega, ← List.drop_drop, hdrop,
        List.drop_left]
    · rw [hdrop, show file.length - 16 - headerSize = c.footer.length by omega, List.take_left]

end Container

/-! ## File names -/

def segmentSuffix : Bytes := [0x2e, 0x73, 0x65, 0x67, 0x6d, 0x65, 0x6e, 0x74]

/-- The 32 bytes of a digest, two digits each. -/
def hex (digest : Digest) : Bytes := (leBytes 32 digest).flatMap fun b => Hex.toHex 2 b.toNat

/-- A number in base sixteen. -/
def fromStrRadix (max : Nat) (text : Bytes) : Except StoreError Nat :=
  (Hex.fromHex max text).elim (.error (.corrupt 0)) .ok

def parseHex (text : Bytes) : Except StoreError Digest := do
  Except.ensure (text.length = 64 ∧ text.all (· < 128)) (.corrupt 0)
  let bytes ← (chunks 2 text).mapM (fromStrRadix 255)
  return leNat (bytes.map UInt8.ofNat)

theorem fromStrRadix_toHex {k n max : Nat} (hk : 0 < k) (h : n < 16 ^ k) (hmax : n ≤ max) :
    fromStrRadix max (Hex.toHex k n) = .ok n := by
  rw [fromStrRadix, Hex.fromHex_toHex hk h hmax]
  rfl

theorem ascii_of_mem_hex {digest : Digest} {b : UInt8} (h : b ∈ hex digest) :
    b ≠ 45 ∧ b < 128 := by
  obtain ⟨_, -, hb⟩ := List.mem_flatMap.mp h
  exact (Hex.ascii_of_mem hb).2

theorem parseHex_hex {digest : Digest} (h : digest < 2 ^ 256) : parseHex (hex digest) = .ok digest := by
  have hpairs : ∀ text ∈ (leBytes 32 digest).map fun b => Hex.toHex 2 b.toNat, text.length = 2 := by
    intro text htext
    obtain ⟨b, -, rfl⟩ := List.mem_map.mp htext
    exact Hex.length_toHex 2 _
  have hlen : (hex digest).length = 64 := by
    rw [hex, List.flatMap_def, length_flatten_const hpairs, List.length_map, length_leBytes]
  have hascii : (hex digest).all (· < 128) = true := by
    rw [List.all_eq_true]
    exact fun b hb => decide_eq_true (ascii_of_mem_hex hb).2
  have hbytes : (chunks 2 (hex digest)).mapM (fromStrRadix 255) =
      .ok ((leBytes 32 digest).map UInt8.toNat) := by
    rw [hex, List.flatMap_def, chunks_flatten (by decide) hpairs, Except.mapM_eq_ok,
      List.forall₂_map_left_iff, List.forall₂_map_right_iff, List.forall₂_same]
    intro b _
    have := b.toNat_lt
    exact fromStrRadix_toHex (by decide) (by omega) (by omega)
  rw [parseHex, Except.bind_of_ok (Except.ensure_of ⟨hlen, hascii⟩ _), Except.bind_of_ok hbytes,
    List.map_map]
  have hid : UInt8.ofNat ∘ UInt8.toNat = id := by
    funext b
    simp
  rw [hid, List.map_id, leNat_leBytes h]
  rfl

def stripSuffix (name suffix : Bytes) : Option Bytes :=
  if name.drop (name.length - suffix.length) = suffix then
    some (name.take (name.length - suffix.length))
  else none

namespace SegmentHeader

/-- The fields of a file name. -/
def nameFields (h : SegmentHeader) (id : Digest) : List Bytes :=
  [Hex.toHex 16 h.representedBegin, Hex.toHex 16 h.spanEnd, hex h.logicalHash, hex id]

def filename (h : SegmentHeader) (id : Digest) : Bytes :=
  [0x2d].intercalate (h.nameFields id) ++ segmentSuffix

def parseFilename (name : Bytes) : Except StoreError Digest := do
  let bare ← ((stripSuffix name segmentSuffix).elim (.error (.corrupt 0)) .ok :
    Except StoreError Bytes)
  match bare.splitOn 0x2d with
  | [first, last, logical, physical] => do
      Except.ensure (first.length = 16 ∧ last.length = 16) (.corrupt 0)
      let first ← TransactionId.new (← fromStrRadix u64Max first)
      let last ← TransactionId.new (← fromStrRadix u64Max last)
      Except.ensure (first ≤ last) .value
      let logicalHash ← parseHex logical
      let physical ← parseHex physical
      let header ← SegmentHeader.new first last first logicalHash .checkpoint
      Except.ensure (header.filename physical = name) (.corrupt 0)
      return physical
  | _ => .error (.corrupt 0)

theorem stripSuffix_append (name suffix : Bytes) :
    stripSuffix (name ++ suffix) suffix = some name := by
  unfold stripSuffix
  rw [List.length_append, Nat.add_sub_cancel, List.drop_left, if_pos rfl, List.take_left]

theorem dash_not_mem_nameFields {h : SegmentHeader} {id : Digest} :
    ∀ field ∈ h.nameFields id, (0x2d : UInt8) ∉ field := by
  have hnumber : ∀ n, (0x2d : UInt8) ∉ Hex.toHex 16 n :=
    fun n hmem => (Hex.ascii_of_mem hmem).2.1 rfl
  have hdigest : ∀ d, (0x2d : UInt8) ∉ hex d := fun d hmem => (ascii_of_mem_hex hmem).1 rfl
  simp [nameFields, hnumber, hdigest]

/-- **Names.** The name of a container gives back its id. -/
theorem parseFilename_filename {h : SegmentHeader} {id : Digest} (hadmissible : h.Admissible)
    (hid : id < 2 ^ 256) : parseFilename (h.filename id) = .ok id := by
  obtain ⟨-, hzero, hbegin, hend, -⟩ := fields_of_new hadmissible.new
  have hlt := hadmissible.spanEnd
  have hnew : SegmentHeader.new h.representedBegin h.spanEnd h.representedBegin h.logicalHash
      .checkpoint = .ok ⟨h.representedBegin, h.spanEnd, h.representedBegin, h.logicalHash,
        .checkpoint⟩ := by
    unfold SegmentHeader.new
    rw [Except.bind_of_ok (Except.ensure_of ⟨by omega, hend⟩ _),
      Except.bind_of_ok (Except.ensure_of ⟨le_rfl, hend⟩ _)]
    exact Except.bind_of_ok (Except.ensure_of rfl _)
  have hfirst : fromStrRadix u64Max (Hex.toHex 16 h.representedBegin) = .ok h.representedBegin :=
    fromStrRadix_toHex (by decide) (by omega) (by unfold u64Max; omega)
  have hlast : fromStrRadix u64Max (Hex.toHex 16 h.spanEnd) = .ok h.spanEnd :=
    fromStrRadix_toHex (by decide) (by omega) (by unfold u64Max; omega)
  unfold parseFilename filename
  rw [stripSuffix_append]
  simp only [Option.elim_some, Except.ok_bind]
  rw [List.splitOn_intercalate _ dash_not_mem_nameFields (by simp [nameFields])]
  simp only [nameFields]
  rw [Except.bind_of_ok (Except.ensure_of ⟨Hex.length_toHex 16 _, Hex.length_toHex 16 _⟩ _),
    Except.bind_of_ok hfirst, Except.bind_of_ok (TransactionId.new_eq_ok.mpr ⟨by omega, rfl⟩),
    Except.bind_of_ok hlast, Except.bind_of_ok (TransactionId.new_eq_ok.mpr ⟨by omega, rfl⟩),
    Except.bind_of_ok (Except.ensure_of hend _),
    Except.bind_of_ok (parseHex_hex hadmissible.logicalHash), Except.bind_of_ok (parseHex_hex hid),
    Except.bind_of_ok hnew]
  exact Except.bind_of_ok (Except.ensure_of rfl _)

end SegmentHeader

/-- **Segment containers are exact.** Headers decode from their encoding and names give back ids.
The readers of files and of bytes accept the same containers with the same result, namely those
that the builder writes for the header and the footer, under the hash of both. -/
theorem containers_exact (hash : Bytes → Digest) :
    (∀ h : SegmentHeader, h.Admissible → SegmentHeader.decode h.encode = .ok h ∧
      ∀ id < 2 ^ 256, SegmentHeader.parseFilename (h.filename id) = .ok id) ∧
    (∀ file c, Container.read hash file = .ok c ↔ Container.readBytes hash file = .ok c) ∧
    ∀ file c, Container.read hash file = .ok c ↔ c.header.Admissible ∧
      Container.build c.header c.footer = .ok file ∧ c.id = hash (c.header.encode ++ c.footer) := by
  refine ⟨fun h hadmissible => ⟨?_, fun id hid => ?_⟩, fun file c => ?_, fun file c => ?_⟩
  · exact (SegmentHeader.decode_eq_ok h.length_encode).mpr ⟨hadmissible, rfl⟩
  · exact SegmentHeader.parseFilename_filename hadmissible hid
  · rw [Container.read_eq_ok, Container.readBytes_eq_ok]
  · rw [Container.read_eq_ok, Container.parts_iff]

/-- The header of a run on top of transaction 4. -/
def runHeader : SegmentHeader := ⟨1, 6, 5, 11, .previous ⟨10, 4⟩⟩

theorem runHeader_admissible : runHeader.Admissible where
  new := by decide
  spanEnd := by decide
  logicalHash := show 11 < 2 ^ 256 by decide
  parent := by
    intro parent h
    cases h
    exact (show 10 < 2 ^ 256 by decide)

theorem containers_exact_run :
    SegmentHeader.decode runHeader.encode = .ok runHeader ∧
      SegmentHeader.parseFilename (runHeader.filename 12) = .ok 12 := by
  have h := (containers_exact fun _ => 0).1 runHeader runHeader_admissible
  exact ⟨h.1, h.2 12 (show 12 < 2 ^ 256 by decide)⟩

end Zsqlite
