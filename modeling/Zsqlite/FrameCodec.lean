import Zsqlite.ActiveCodec
import Zsqlite.PinnedView

set_option autoImplicit false

/-! # Frame metadata as bytes

The record of a frame as it is stored in packs and manifests (`FrameMetadata::encode`,
`FrameMetadata::decode`): a shape, an encoding with an optional dictionary, the length and hash
of the payload, and one version per page. The decoder accepts exactly the encodings of metadata
that passes its checks (`FrameMetadata.parser_exact`), so on records it is the decoder of the
frame model (`FrameMetadata.decodeBytes_encode`).
-/

namespace Zsqlite

open ByteVec Wire

/-! ## Fields -/

def u8 : Parser StoreError Nat := number .corrupt 1

def u32 : Parser StoreError Nat := number .corrupt 4

def u64 : Parser StoreError Nat := number .corrupt 8

/-- A digest is 32 bytes. -/
def array : Parser StoreError Digest := number .corrupt 32

theorem exact_u8 : Exact u8 (leBytes 1) (· < 2 ^ 8) := Exact.number StoreError.corrupt 1

theorem exact_u32 : Exact u32 (leBytes 4) (· < 2 ^ 32) := Exact.number StoreError.corrupt 4

theorem exact_u64 : Exact u64 (leBytes 8) (· < 2 ^ 64) := Exact.number StoreError.corrupt 8

theorem exact_array : Exact array (leBytes 32) (· < 2 ^ 256) := Exact.number StoreError.corrupt 32

/-- A fixed text at the start of a record. -/
def magic (bytes : Bytes) : Parser StoreError Unit := do
  let found ← take .corrupt bytes.length
  check (Except.ensure (found = bytes) (.corrupt 0))

theorem exact_magic (bytes : Bytes) : Exact (magic bytes) (fun _ => bytes) (fun _ => True) := by
  have h := (Exact.take StoreError.corrupt bytes.length).convert
    (c := fun found => Except.ensure (found = bytes) (StoreError.corrupt 0)) (fun _ => bytes)
    (P := fun _ => True) fun found _ => by simp
  exact h.congr (fun _ => by simp) fun _ _ => rfl

def TransactionId.new (value : Nat) : Except StoreError Nat :=
  if value = 0 then .error .value else .ok value

theorem TransactionId.new_eq_ok {n m : Nat} : TransactionId.new n = .ok m ↔ m ≠ 0 ∧ n = m := by
  unfold TransactionId.new
  split <;> simp <;> omega

/-! ## Checked fields -/

def readPageNumber : Parser StoreError Nat := do check (PageNumber.new (← u32))

def readTransactionId : Parser StoreError Nat := do check (TransactionId.new (← u64))

def readPageSize : Parser StoreError PageSize := do check (PageSize.new (← u32))

theorem exact_readPageNumber : Exact readPageNumber (leBytes 4) (fun page => page ≠ 0 ∧ page < u32Max) := by
  have h := exact_u32.convert (c := PageNumber.new) id (P := fun page => page ≠ 0 ∧ page ≠ u32Max)
    fun n m => by rw [PageNumber.new_eq_ok]; constructor <;> (rintro ⟨h₁, h₂⟩; simp_all)
  refine h.congr (fun page => ?_) fun _ _ => rfl
  simp only [id, u32Max]
  omega

theorem exact_readTransactionId :
    Exact readTransactionId (leBytes 8) (fun txid => txid ≠ 0 ∧ txid < 2 ^ 64) :=
  (exact_u64.convert id fun _ _ => TransactionId.new_eq_ok).congr (fun _ => and_comm) fun _ _ => rfl

theorem exact_readPageSize : Exact readPageSize (fun size => leBytes 4 size.get) (fun _ => True) := by
  have h := exact_u32.convert (c := PageSize.new) PageSize.get (P := fun _ => True) fun n size => by
    constructor
    · exact fun h => ⟨trivial, (PageSize.new_eq_ok h).symm⟩
    · rintro ⟨-, rfl⟩
      exact PageSize.new_get size
  refine h.congr (fun size => ?_) fun _ _ => rfl
  have := size.bounds
  simp only [and_true, iff_true]
  omega

/-! ## Page versions -/

namespace PageVersion

def encode (v : PageVersion) : Bytes := leBytes 4 v.page ++ leBytes 8 v.txid ++ leBytes 32 v.checksum

def decode : Parser StoreError PageVersion := do
  let page ← readPageNumber
  let txid ← readTransactionId
  let checksum ← array
  return { page, txid, checksum }

/-- What the types of the fields allow. -/
structure Typed (v : PageVersion) : Prop where
  page : v.page ≠ 0 ∧ v.page < u32Max
  txid : v.txid ≠ 0 ∧ v.txid < 2 ^ 64
  checksum : v.checksum < 2 ^ 256

theorem decode_exact : Exact decode encode Typed := by
  -- From the last field to the first.
  have hchecksum := fun page txid => exact_array.bind PageVersion.checksum
    (fun checksum _ => Exact.pure (PageVersion.mk page txid checksum)) fun _ _ h => by rw [h]
  have htxid := fun page => exact_readTransactionId.bind PageVersion.txid
    (fun txid _ => hchecksum page txid) fun _ _ h => by rw [h.2]
  have hpage := exact_readPageNumber.bind PageVersion.page (fun page _ => htxid page)
    fun _ _ h => by rw [h.2.2]
  refine hpage.congr (fun v => ?_) fun v _ => by simp [encode]
  constructor
  · rintro ⟨hpage, htxid, hchecksum, -⟩
    exact ⟨hpage, htxid, hchecksum⟩
  · rintro ⟨hpage, htxid, hchecksum⟩
    exact ⟨hpage, htxid, hchecksum, rfl⟩

theorem length_encode (v : PageVersion) : v.encode.length = 44 := by
  simp [encode]

end PageVersion

/-! ## Shapes and encodings -/

namespace FrameShape

def encode (shape : FrameShape) : Bytes := leBytes 4 shape.pageSize.get ++ leBytes 4 shape.pages

def decode : Parser StoreError FrameShape := do
  let size ← readPageSize
  check (FrameShape.new size (← u32))

theorem new_eq_ok_iff {size : PageSize} {n : Nat} {shape : FrameShape} :
    FrameShape.new size n = .ok shape ↔ shape.pageSize = size ∧ n = shape.pages := by
  constructor
  · intro h
    obtain ⟨hsize, hpages⟩ := new_eq_ok h
    exact ⟨hsize, hpages.symm⟩
  · rintro ⟨rfl, rfl⟩
    exact dif_pos ⟨shape.nonempty, shape.bounded⟩

theorem pages_lt (shape : FrameShape) : shape.pages < 2 ^ 32 := by
  have hb := shape.bounded
  have hs := shape.pageSize.bounds
  nlinarith

theorem decode_exact : Exact decode encode (fun _ => True) := by
  have hpages := fun size => exact_u32.convert FrameShape.pages
    (P := fun shape => shape.pageSize = size) fun _ _ => new_eq_ok_iff
  have h := exact_readPageSize.bind FrameShape.pageSize (fun size _ => hpages size) fun _ _ h => h.2
  exact h.congr (fun shape => by simpa using shape.pages_lt) fun _ _ => rfl

end FrameShape

namespace PayloadEncoding

def tag : PayloadEncoding → Nat
  | .raw => 0
  | .zstandard .none => 1
  | .zstandard (.shared _) => 2

/-- The id of a shared dictionary follows the tag. -/
def dictionaryBytes : PayloadEncoding → Bytes
  | .zstandard (.shared id) => leBytes 32 id
  | _ => []

def encode (e : PayloadEncoding) : Bytes := leBytes 1 e.tag ++ e.dictionaryBytes

def ofTag : Nat → Parser StoreError PayloadEncoding
  | 0 => return .raw
  | 1 => return .zstandard .none
  | 2 => return .zstandard (.shared (← array))
  | _ => check (.error (.corrupt 0))

def decode : Parser StoreError PayloadEncoding := do ofTag (← u8)

def Typed (e : PayloadEncoding) : Prop := ∀ id, e = .zstandard (.shared id) → id < 2 ^ 256

def sharedId : PayloadEncoding → Digest
  | .zstandard (.shared id) => id
  | _ => 0

theorem ofTag_exact (n : Nat) :
    Exact (ofTag n) dictionaryBytes (fun e => e.tag = n ∧ e.Typed) := by
  match n with
  | 0 =>
      refine (Exact.pure PayloadEncoding.raw).congr (fun e => ?_) ?_
      · rcases e with _ | _ | _ <;> simp [tag, Typed]
      · rintro (_ | _ | _) ⟨h, -⟩ <;> simp_all [tag, dictionaryBytes]
  | 1 =>
      refine (Exact.pure (PayloadEncoding.zstandard .none)).congr (fun e => ?_) ?_
      · rcases e with _ | _ | _ <;> simp [tag, Typed]
      · rintro (_ | _ | _) ⟨h, -⟩ <;> simp_all [tag, dictionaryBytes]
  | 2 =>
      have h := exact_array.bind sharedId
        (fun id _ => Exact.pure (PayloadEncoding.zstandard (.shared id))) fun _ _ h => by
          rw [h, sharedId]
      refine h.congr (fun e => ?_) ?_
      · rcases e with _ | _ | _ <;> simp [tag, Typed, sharedId]
      · rintro (_ | _ | _) ⟨h, -⟩ <;> simp_all [tag, dictionaryBytes, sharedId]
  | n + 3 =>
      refine (Exact.fail _ dictionaryBytes).congr (fun e => ?_) fun _ _ => rfl
      rcases e with _ | _ | _ <;> simp [tag]

theorem tag_lt (e : PayloadEncoding) : e.tag < 2 ^ 8 := by
  rcases e with _ | _ | _ <;> simp [tag]

theorem decode_exact : Exact decode encode Typed := by
  have h := exact_u8.bind tag (fun n _ => ofTag_exact n) fun _ _ h => h.1
  exact h.congr (fun e => by simpa using fun _ => e.tag_lt) fun _ _ => rfl

end PayloadEncoding

/-! ## Frame metadata -/

namespace FrameMetadata

def frameRecordMagic : Bytes := [0x5a, 0x46, 0x52, 0x41, 0x4d, 0x45, 0x30, 0x31]

def encode (m : FrameMetadata) : Bytes :=
  frameRecordMagic ++ m.shape.encode ++ m.encoding.encode ++ leBytes 8 m.payloadBytes ++
    leBytes 32 m.payloadHash ++ m.pages.flatMap PageVersion.encode

/-- Remember the page of a version; a page may occur only once. -/
def distinct (seen : List Nat) (version : PageVersion) : Except StoreError (List Nat) :=
  if version.page ∈ seen then .error (.corrupt 0) else .ok (version.page :: seen)

/-- Whether the payload length suits the shape and the encoding. -/
def payloadFits (shape : FrameShape) (encoding : PayloadEncoding) (payloadBytes : Nat) : Bool :=
  payloadBytes ≠ 0 && decide (payloadBytes ≤ shape.decoded) &&
    (encoding ≠ .raw || payloadBytes == shape.decoded)

def parser : Parser StoreError FrameMetadata := do
  magic frameRecordMagic
  let shape ← FrameShape.decode
  let encoding ← PayloadEncoding.decode
  let payloadBytes ← u64
  check (Except.ensure (payloadFits shape encoding payloadBytes = true) (.corrupt 0))
  let payloadHash ← array
  let pages ← many PageVersion.decode distinct shape.pages []
  return { shape, encoding, payloadBytes, payloadHash, pages }

/-- `FrameMetadata::decode`: the bytes of the record have the hash `expected`. -/
def decodeBytes (hash : Bytes → Digest) (bytes : Bytes) (expected : Digest) :
    Except StoreError FrameMetadata := do
  Except.ensure (hash bytes = expected) (.corrupt 0)
  decodeAll parser .corrupt bytes

/-- What the types of the fields allow. -/
structure Typed (m : FrameMetadata) : Prop where
  encoding : m.encoding.Typed
  payloadHash : m.payloadHash < 2 ^ 256
  versions : ∀ version ∈ m.pages, version.Typed

/-- What the types of the fields and the checks of the decoder allow. -/
structure Admissible (m : FrameMetadata) : Prop extends m.Typed where
  payload : payloadFits m.shape m.encoding m.payloadBytes = true
  count : m.pages.length = m.shape.pages
  distinct : (m.pages.map PageVersion.page).Nodup

theorem payloadFits_iff {shape : FrameShape} {encoding : PayloadEncoding} {n : Nat} :
    payloadFits shape encoding n = true ↔
      (n ≠ 0 ∧ n ≤ shape.decoded) ∧ (encoding = .raw → n = shape.decoded) := by
  simp only [payloadFits, Bool.and_eq_true, decide_eq_true_eq, Bool.or_eq_true, beq_iff_eq, ne_eq]
  rw [← Decidable.imp_iff_not_or]

theorem foldlM_distinct {l : List PageVersion} {seen : List Nat} :
    (∃ final, l.foldlM distinct seen = .ok final) ↔
      (l.map PageVersion.page).Nodup ∧ ∀ version ∈ l, version.page ∉ seen := by
  induction l generalizing seen with
  | nil => simp [pure, Except.pure]
  | cons v l ih =>
      by_cases h : v.page ∈ seen
      · simp [List.foldlM_cons, distinct, h, bind, Except.bind]
      · have hstep : distinct seen v = .ok (v.page :: seen) := if_neg h
        simp only [List.foldlM_cons, Except.bind_of_ok hstep, ih, List.map_cons, List.nodup_cons,
          List.mem_cons, not_or, List.mem_map, forall_eq_or_imp, h, not_false_eq_true, true_and]
        constructor
        · rintro ⟨hnodup, hl⟩
          refine ⟨⟨?_, hnodup⟩, fun w hw => (hl w hw).2⟩
          rintro ⟨w, hw, heq⟩
          exact (hl w hw).1 heq
        · rintro ⟨⟨hv, hnodup⟩, hl⟩
          exact ⟨hnodup, fun w hw => ⟨fun heq => hv ⟨w, hw, heq⟩, hl w hw⟩⟩

/-- The decoder with any check between the page versions. -/
def parserWith {σ : Type} (step : σ → PageVersion → Except StoreError σ) (seen : σ) :
    Parser StoreError FrameMetadata := do
  magic frameRecordMagic
  let shape ← FrameShape.decode
  let encoding ← PayloadEncoding.decode
  let payloadBytes ← u64
  check (Except.ensure (payloadFits shape encoding payloadBytes = true) (.corrupt 0))
  let payloadHash ← array
  let pages ← many PageVersion.decode step shape.pages seen
  return { shape, encoding, payloadBytes, payloadHash, pages }

/-- What the decoder asks for, the check between the versions apart. -/
structure Formed (m : FrameMetadata) : Prop extends m.Typed where
  payload : payloadFits m.shape m.encoding m.payloadBytes = true
  count : m.pages.length = m.shape.pages

theorem Admissible.formed {m : FrameMetadata} (h : m.Admissible) : m.Formed :=
  ⟨h.toTyped, h.payload, h.count⟩

theorem parserWith_exact {σ : Type} (step : σ → PageVersion → Except StoreError σ) (seen : σ) :
    Exact (parserWith step seen) encode
      (fun m => m.Formed ∧ ∃ final, m.pages.foldlM step seen = .ok final) := by
  have hpages := fun shape encoding payloadBytes payloadHash =>
    (PageVersion.decode_exact.many step (FrameShape.pages shape) seen).bind FrameMetadata.pages
      (fun pages _ => Exact.pure (FrameMetadata.mk shape encoding payloadBytes payloadHash pages))
      fun _ _ h => by rw [h]
  have hhash := fun shape encoding payloadBytes => exact_array.bind FrameMetadata.payloadHash
    (fun payloadHash _ => hpages shape encoding payloadBytes payloadHash) fun _ _ h => by rw [h.2]
  have hbytes := fun shape encoding => exact_u64.bind FrameMetadata.payloadBytes
    (fun payloadBytes _ => Exact.ensure (e := .corrupt 0)
      (P := payloadFits shape encoding payloadBytes = true)
      fun _ => hhash shape encoding payloadBytes) fun _ _ h => by rw [h.2.2.2]
  have hencoding := fun shape => PayloadEncoding.decode_exact.bind FrameMetadata.encoding
    (fun encoding _ => hbytes shape encoding) fun _ _ h => by rw [h.2.2.2.2]
  have hshape := FrameShape.decode_exact.bind FrameMetadata.shape (fun shape _ => hencoding shape)
    fun _ _ h => by rw [h.2.2.2.2.2]
  have hmagic := (exact_magic frameRecordMagic).bind (fun _ => ()) (fun _ _ => hshape) fun _ _ _ => rfl
  refine hmagic.congr (fun m => ?_) fun m _ => by simp [encode]
  simp only [and_true, true_and]
  constructor
  · rintro ⟨hencoding, _, hfits, hhash, hcount, hversions, hfold⟩
    exact ⟨⟨⟨hencoding, hhash, hversions⟩, hfits, hcount⟩, hfold⟩
  · rintro ⟨⟨⟨hencoding, hhash, hversions⟩, hfits, hcount⟩, hfold⟩
    have hle := (payloadFits_iff.mp hfits).1.2
    have hmax : m.shape.decoded ≤ 8 * 1024 * 1024 := m.shape.bounded
    exact ⟨hencoding, by omega, hfits, hhash, hcount, hversions, hfold⟩

/-- **Frame records.** The decoder accepts exactly the encodings of admissible metadata. -/
theorem parser_exact : Exact parser encode Admissible := by
  refine (parserWith_exact distinct []).congr (fun m => ?_) fun _ _ => rfl
  simp only [foldlM_distinct, List.not_mem_nil, not_false_eq_true, implies_true, and_true]
  constructor
  · rintro ⟨h, hdistinct⟩
    exact ⟨h.toTyped, h.payload, h.count, hdistinct⟩
  · rintro ⟨ht, hfits, hcount, hdistinct⟩
    exact ⟨⟨ht, hfits, hcount⟩, hdistinct⟩

/-- An encoding determines the metadata, also where the decoder rejects it. -/
theorem eq_of_encode {m m' : FrameMetadata} (hm : m.Formed) (hm' : m'.Formed)
    (h : m.encode = m'.encode) : m = m' := by
  have hexact := parserWith_exact (fun (_ : Unit) _ => .ok ()) ()
  have hfold : ∀ l : List PageVersion, ∃ final,
      l.foldlM (fun (_ : Unit) _ => (.ok () : Except StoreError Unit)) () = .ok final := by
    intro l
    induction l with
    | nil => exact ⟨(), rfl⟩
    | cons v l ih => exact ih
  have hd : decodeAll (parserWith (fun (_ : Unit) _ => .ok ()) ()) StoreError.corrupt m.encode =
      .ok m := hexact.decodeAll_eq_ok.mpr ⟨⟨hm, hfold _⟩, rfl⟩
  have hd' : decodeAll (parserWith (fun (_ : Unit) _ => .ok ()) ()) StoreError.corrupt m.encode =
      .ok m' := hexact.decodeAll_eq_ok.mpr ⟨⟨hm', hfold _⟩, h⟩
  exact Except.ok.inj (hd.symm.trans hd')

theorem decodeBytes_eq_ok {hash : Bytes → Digest} {bytes : Bytes} {expected : Digest}
    {m : FrameMetadata} : decodeBytes hash bytes expected = .ok m ↔
      m.Admissible ∧ bytes = m.encode ∧ hash bytes = expected := by
  simp only [decodeBytes, Except.bind_eq_ok, Except.ensure_eq_ok, exists_const,
    parser_exact.decodeAll_eq_ok]
  rw [and_comm, and_assoc]

theorem length_encode (m : FrameMetadata) : m.encode.length = m.encodedLen := by
  have hpages : (m.pages.flatMap PageVersion.encode).length = m.pages.length * 44 := by
    rw [List.length_flatMap, List.map_congr_left fun v _ => v.length_encode]
    simp
  simp only [encode, List.length_append, hpages, length_leBytes, FrameShape.encode,
    PayloadEncoding.encode, encodedLen, frameRecordMagic, List.length_cons, List.length_nil]
  rcases m.encoding with _ | _ | _
  all_goals
    simp only [PayloadEncoding.dictionaryBytes, length_leBytes, List.length_nil]
    omega

/-- On the bytes of a record, the decoder is the one of the frame model. -/
theorem decodeBytes_encode {E : Env} {hash : Bytes → Digest} {m : FrameMetadata} {expected : Digest}
    (ht : m.Typed) (hid : m.id E = hash m.encode) :
    decodeBytes hash m.encode expected = .ok m ↔ m.decode E expected = .ok m := by
  rw [decodeBytes_eq_ok]
  simp only [decode, Except.bind_eq_ok, Except.ensure_eq_ok, Except.forM_eq_ok, exists_const,
    Except.pure_eq_ok, and_true, hid]
  constructor
  · rintro ⟨h, -, hexpected⟩
    obtain ⟨hbytes, hraw⟩ := payloadFits_iff.mp h.payload
    refine ⟨hexpected, hbytes, hraw, h.count, fun v hv => ?_, h.distinct⟩
    have hv := ht.versions v hv
    exact ⟨v.page, PageNumber.new_eq_ok.mpr ⟨by have := hv.page; omega, hv.page.1, rfl⟩, hv.txid.1⟩
  · rintro ⟨hexpected, hbytes, hraw, hcount, -, hdistinct⟩
    exact ⟨⟨ht, payloadFits_iff.mpr ⟨hbytes, hraw⟩, hcount, hdistinct⟩, trivial, hexpected⟩

end FrameMetadata

/-! ## Built frames -/

/-- Compressed data is never empty. -/
def Zstd.Nonempty (z : Zstd) : Prop :=
  ∀ level dictionary raw, raw ≠ [] → z.compress level dictionary raw ≠ []

namespace FrameEncoder

variable {E : Env} {e : FrameEncoder} {size : PageSize} {pages : FramePages} {f : EncodedFrame}

theorem encodePayload_fits (hz : E.zstd.Nonempty) {raw payload : Bytes} {encoding : PayloadEncoding}
    (hraw : raw ≠ []) (h : e.encodePayload E raw = (encoding, payload)) :
    (payload.length ≠ 0 ∧ payload.length ≤ raw.length) ∧
      (encoding = .raw → payload.length = raw.length) := by
  have hpos := List.length_pos_iff.mpr hraw
  unfold encodePayload at h
  split at h
  · dsimp only at h
    split at h
    · rename_i hlt
      obtain ⟨rfl, rfl⟩ := Prod.mk.inj h
      have hne := List.length_pos_iff.mpr (hz e.level (e.dictionary.map Prod.snd) raw hraw)
      exact ⟨⟨by omega, by omega⟩, by simp⟩
    · obtain ⟨rfl, rfl⟩ := Prod.mk.inj h
      exact ⟨⟨by omega, le_rfl⟩, fun _ => rfl⟩
  · obtain ⟨rfl, rfl⟩ := Prod.mk.inj h
    exact ⟨⟨by omega, le_rfl⟩, fun _ => rfl⟩

/-- The payload length of a built frame suits its shape. -/
theorem build_payloadFits (hz : E.zstd.Nonempty) (h : e.build E size pages = .ok f) :
    FrameMetadata.payloadFits f.metadata.shape f.metadata.encoding f.metadata.payloadBytes = true := by
  obtain ⟨hb, hp, hsize, hn, hbytes, -, -⟩ := build_eq_ok h
  have hraw : (pages.map Prod.snd).flatten.length = f.metadata.shape.decoded := by
    rw [hb.length_flatten, FrameShape.decoded, hn, hsize]
  have hne : (pages.map Prod.snd).flatten ≠ [] := by
    rw [← List.length_pos_iff, hraw]
    exact Nat.mul_pos f.metadata.shape.nonempty f.metadata.shape.pageSize.pos
  have hfits := encodePayload_fits hz hne hp
  rw [hraw] at hfits
  rw [FrameMetadata.payloadFits_iff, hbytes]
  exact hfits

/-- **Frame records are exact.** The record of a built frame has the predicted length, and it
decodes under its own id exactly when its pages are distinct; a record is accepted only if it is
the encoding of the result and has the id. -/
theorem build_record_exact (hz : E.zstd.Nonempty) :
    (∀ e size pages f, build E e size pages = .ok f → f.metadata.Typed →
      f.metadata.encode.length = f.metadata.encodedLen ∧
      (FrameMetadata.decodeBytes E.hash.bytes f.metadata.encode (E.hash.bytes f.metadata.encode) =
        .ok f.metadata ↔ (pages.map fun q => q.1.page).Nodup)) ∧
    ∀ bytes expected m, FrameMetadata.decodeBytes E.hash.bytes bytes expected = .ok m →
      m.encode = bytes ∧ E.hash.bytes m.encode = expected := by
  refine ⟨fun e size pages f h ht => ⟨f.metadata.length_encode, ?_⟩, ?_⟩
  · obtain ⟨-, -, -, hn, -, -, hpages⟩ := build_eq_ok h
    have hmap : f.metadata.pages.map PageVersion.page = pages.map fun q => q.1.page := by
      rw [hpages, List.map_map]
      rfl
    have hcount : f.metadata.pages.length = f.metadata.shape.pages := by
      rw [hpages, hn, List.length_map]
    rw [FrameMetadata.decodeBytes_eq_ok, ← hmap]
    constructor
    · exact fun h => h.1.distinct
    · exact fun hdistinct => ⟨⟨ht, build_payloadFits hz h, hcount, hdistinct⟩, rfl, rfl⟩
  · intro bytes expected m h
    obtain ⟨-, rfl, hexpected⟩ := FrameMetadata.decodeBytes_eq_ok.mp h
    exact ⟨rfl, hexpected⟩

/-- A page filled with ones. -/
def onesPage : Bytes := List.replicate 512 1

def size512 : PageSize := .smallest

/-- An encoder without a dictionary. -/
def plainEncoder : FrameEncoder := ⟨3, none⟩

theorem stored_nonempty : Env.coded.zstd.Nonempty := fun _ _ _ h => h

theorem onesPage_digest : pageCode onesPage = 3 := by
  decide +kernel

theorem ones_buildable {E : Env} (hsum : ∀ page txid, E.hash.checksum page txid = pageCode)
    {versions : List PageVersion} (hne : versions ≠ []) (hlen : versions.length ≤ 16384)
    (hv : ∀ v ∈ versions, v.checksum = 3) :
    Buildable E size512 (versions.map fun v => (v, onesPage)) := by
  refine ⟨by simpa using hne, ?_, fun v b hvb => ?_⟩
  · rw [List.length_map, show size512.get = 512 from rfl]
    omega
  · obtain ⟨w, hw, heq⟩ := List.mem_map.mp hvb
    obtain ⟨rfl, rfl⟩ := Prod.mk.inj heq
    exact ⟨List.length_replicate, by rw [hsum, onesPage_digest, hv w hw]⟩

/-- Frames of pages filled with ones, without compression. -/
theorem ones_built {E : Env} (hz : E.zstd = Zstd.stored)
    (hsum : ∀ page txid, E.hash.checksum page txid = pageCode) {versions : List PageVersion}
    (hne : versions ≠ []) (hlen : versions.length ≤ 16384)
    (hv : ∀ v ∈ versions, v.checksum = 3 ∧ v.Typed)
    (hhash : E.hash.bytes (versions.map fun _ => onesPage).flatten < 2 ^ 256) :
    ∃ f, plainEncoder.build E size512 (versions.map fun v => (v, onesPage)) = .ok f ∧
      f.metadata.Typed ∧ f.metadata.pages = versions := by
  have hb := ones_buildable hsum hne hlen fun v hv' => (hv v hv').1
  obtain ⟨f, hf⟩ := build_total (e := plainEncoder) hb
  obtain ⟨-, hp, -, -, -, hpayload, hpages⟩ := build_eq_ok hf
  obtain ⟨hencoding, hraw⟩ : f.metadata.encoding = .raw ∧
      f.payload = (versions.map fun _ => onesPage).flatten := by
    simp only [encodePayload, hz, Zstd.stored, Bool.false_eq_true, if_false, List.map_map,
      Prod.mk.injEq] at hp
    exact ⟨hp.1.symm, hp.2.symm⟩
  have hpages : f.metadata.pages = versions := by
    rw [hpages, List.map_map]
    exact List.map_id versions
  refine ⟨f, hf, ⟨?_, ?_, ?_⟩, hpages⟩
  · simp [PayloadEncoding.Typed, hencoding]
  · rwa [hpayload, hraw]
  · rw [hpages]
    exact fun v hv' => (hv v hv').2

theorem typed_one : (PageVersion.mk 1 1 3).Typed := ⟨by decide, by decide, by decide⟩

/-- A frame of one page. -/
theorem onePage_built :
    ∃ f, plainEncoder.build Env.coded size512 [(⟨1, 1, 3⟩, onesPage)] = .ok f ∧
      f.metadata.Typed := by
  obtain ⟨f, hf, ht, -⟩ := ones_built (E := Env.coded) rfl (fun _ _ => rfl)
    (by simp : [PageVersion.mk 1 1 3] ≠ []) (by simp) (by simp [typed_one]) (by
      simp only [List.map_cons, List.map_nil, List.flatten_cons, List.flatten_nil, List.append_nil,
        Env.coded, Hashing.coded, onesPage_digest]
      decide)
  exact ⟨f, hf, ht⟩

theorem build_record_exact_onePage :
    ∃ f, plainEncoder.build Env.coded size512 [(⟨1, 1, 3⟩, onesPage)] = .ok f ∧
      FrameMetadata.decodeBytes Env.coded.hash.bytes f.metadata.encode
        (Env.coded.hash.bytes f.metadata.encode) = .ok f.metadata := by
  obtain ⟨f, hf, ht⟩ := onePage_built
  exact ⟨f, hf, (((build_record_exact stored_nonempty).1 _ _ _ f hf ht).2).mpr (by simp)⟩

/-- Exchange the hash of `payload` and zero. -/
def relabel (payload : Bytes) : Env :=
  { Env.coded with
    hash :=
      { Hashing.coded with
        bytes := fun bytes => Equiv.swap (pageCode payload) 0 (pageCode bytes)
        bytes_injective := (Equiv.swap _ _).injective.comp pageCode_injective } }

/-- A frame that holds page 1 twice is built, and its record is not accepted. -/
theorem build_record_duplicate :
    ∃ E f, E.zstd.Nonempty ∧
      plainEncoder.build E size512 [(⟨1, 1, 3⟩, onesPage), (⟨1, 1, 3⟩, onesPage)] = .ok f ∧
      f.metadata.Typed ∧ FrameMetadata.decodeBytes E.hash.bytes f.metadata.encode
        (E.hash.bytes f.metadata.encode) ≠ .ok f.metadata := by
  obtain ⟨f, hf, ht, hpages⟩ := ones_built (E := relabel ([onesPage, onesPage].flatten)) rfl
    (fun _ _ => rfl) (by simp : [PageVersion.mk 1 1 3, PageVersion.mk 1 1 3] ≠ []) (by simp)
    (by simp [typed_one]) (by
      show Equiv.swap (pageCode [onesPage, onesPage].flatten) 0
        (pageCode [onesPage, onesPage].flatten) < 2 ^ 256
      rw [Equiv.swap_apply_left]
      exact Nat.two_pow_pos 256)
  refine ⟨_, f, fun _ _ _ h => h, hf, ht, fun hd => ?_⟩
  have hdistinct := (FrameMetadata.decodeBytes_eq_ok.mp hd).1.distinct
  simp [hpages] at hdistinct

/-! ## Integrity -/

/-- The record header of a built frame passes the checks of the header decoder. -/
theorem build_recordHeader (hz : E.zstd.Nonempty) (h : e.build E size pages = .ok f)
    (hpage : ∀ v b, (v, b) ∈ pages → v.page ≠ 0 ∧ v.page < u32Max) :
    ∃ header, f.metadata.recordHeader = .ok header ∧ header.Typed ∧ header.valid = true := by
  obtain ⟨⟨hne, -, -⟩, hp, hsize, hn, hbytes, -, hpages⟩ := build_eq_ok h
  have hfits := FrameMetadata.payloadFits_iff.mp (build_payloadFits hz h)
  have hmax : f.metadata.shape.decoded ≤ 8 * 1024 * 1024 := f.metadata.shape.bounded
  have hstored : toU32 f.metadata.payloadBytes = .ok f.metadata.payloadBytes :=
    toU32_eq_ok.mpr ⟨by unfold u32Max; omega, rfl⟩
  have hraw : toU32 f.metadata.shape.decoded = .ok f.metadata.shape.decoded :=
    toU32_eq_ok.mpr ⟨by unfold u32Max; omega, rfl⟩
  obtain ⟨⟨first, b⟩, rest, rfl⟩ := List.exists_cons_of_ne_nil hne
  have hfirst := hpage first b (by simp)
  unfold FrameMetadata.recordHeader
  simp only [hpages, List.map_cons, List.head?_cons, Except.bind_of_ok hstored,
    Except.bind_of_ok hraw]
  refine ⟨_, rfl, ⟨lt_trans hfirst.2 (by decide), ?_⟩, ?_⟩
  · dsimp only
    split <;> decide
  · have hpages := f.metadata.shape.nonempty
    have hdvd : 512 ∣ f.metadata.shape.decoded :=
      f.metadata.shape.pageSize.dvd.mul_left f.metadata.shape.pages
    have hle : 512 ≤ f.metadata.shape.decoded :=
      Nat.le_of_dvd (Nat.mul_pos hpages f.metadata.shape.pageSize.pos) hdvd
    simp only [FrameHeader.valid, Bool.and_eq_true, Bool.or_eq_true, decide_eq_true_eq, ne_eq,
      beq_iff_eq]
    refine ⟨⟨⟨⟨⟨⟨⟨hfirst.1, hle⟩, hmax⟩, hdvd⟩, hfits.1.1⟩, hfits.1.2⟩, hfits.1.2.trans hmax⟩, ?_⟩
    by_cases hencoding : f.metadata.encoding = .raw
    · exact .inr ⟨by simp [FrameMetadata.dictionary, hencoding, u16Max], hfits.2 hencoding⟩
    · exact .inl hencoding

/-- A built frame refers to no dictionary but the encoder's. -/
theorem build_dictionary (h : e.build E size pages = .ok f) {id : Digest}
    (hid : f.metadata.dictionary = some id) : ∃ bytes, e.dictionary = some (id, bytes) := by
  have hp := (build_eq_ok h).2.1
  have hraw : f.metadata.encoding ≠ .raw := by
    intro hraw
    simp [FrameMetadata.dictionary, hraw] at hid
  unfold encodePayload at hp
  split at hp
  · dsimp only at hp
    split at hp
    · have hencoding := (Prod.mk.inj hp).1
      cases hdict : e.dictionary with
      | none => simp [FrameMetadata.dictionary, ← hencoding, encoding, hdict] at hid
      | some d =>
          obtain rfl : d.1 = id := by
            simpa [FrameMetadata.dictionary, ← hencoding, encoding, hdict] using hid
          exact ⟨d.2, rfl⟩
    · exact absurd (Prod.mk.inj hp).1.symm hraw
  · exact absurd (Prod.mk.inj hp).1.symm hraw

/-- **Frame integrity.** A group of pages with matching versions within the frame limit is built;
its payload verifies to the concatenated pages under the dictionary of the encoder; its record
header is accepted; and whatever bytes verify as its payload are pages with the checksums of the
versions, which are the pages it was built from. -/
theorem build_integrity (crc : Bytes → UInt32) (he : e.Authentic E) (hz : E.zstd.Nonempty)
    (hb : Buildable E size pages)
    (hpage : ∀ v b, (v, b) ∈ pages → v.page ≠ 0 ∧ v.page < u32Max) :
    ∃ f header, e.build E size pages = .ok f ∧
      (∀ dictionaries : Dictionaries,
        (∀ id bytes, e.dictionary = some (id, bytes) → dictionaries[id]? = some bytes) →
        f.metadata.verifyPayload E f.payload dictionaries = .ok (pages.map Prod.snd).flatten) ∧
      f.metadata.recordHeader = .ok header ∧
      FrameHeader.decode crc (header.encode crc) = .ok header ∧
      ∀ payload dictionaries raw, f.metadata.verifyPayload E payload dictionaries = .ok raw →
        raw = (pages.map Prod.snd).flatten ∧
        ∀ i v, f.metadata.pages[i]? = some v → (slice size.get raw i).length = size.get ∧
          E.hash.checksum v.page v.txid (slice size.get raw i) = v.checksum := by
  obtain ⟨f, hf⟩ := build_total (e := e) hb
  obtain ⟨header, hheader, htyped, hvalid⟩ := build_recordHeader hz hf hpage
  refine ⟨f, header, hf, fun dictionaries hd => ?_, hheader, ?_, fun payload dictionaries raw hr => ?_⟩
  · refine build_verifyPayload he hf fun id hid => ?_
    obtain ⟨bytes, hbytes⟩ := build_dictionary hf hid
    exact ⟨bytes, hd id bytes hbytes, (he id bytes hbytes).symm⟩
  · exact (FrameHeader.decode_eq_ok crc (FrameHeader.length_encode crc header)).mpr ⟨htyped, hvalid, rfl⟩
  · obtain ⟨-, -, hsize, hn, -, -, hpages⟩ := build_eq_ok hf
    have hchunk : ∀ i v, f.metadata.pages[i]? = some v → (slice size.get raw i).length = size.get ∧
        E.hash.checksum v.page v.txid (slice size.get raw i) = v.checksum := by
      intro i v hv
      have hi : i < pages.length := by
        simpa [hpages] using (List.getElem?_eq_some_iff.mp hv).1
      have := FrameMetadata.verifyPayload_chunk hr hv (hn ▸ hi)
      rwa [hsize] at this
    have hlen := (FrameMetadata.verifyPayload_eq_ok.mp hr).2.2.1
    rw [FrameShape.decoded, hn, hsize] at hlen
    refine ⟨eq_of_slice hlen hb.length_flatten fun i hi => ?_, hchunk⟩
    -- Both chunks have the checksum of the version.
    obtain ⟨⟨v, b⟩, hvb⟩ : ∃ q, pages[i]? = some q := ⟨_, List.getElem?_eq_getElem hi⟩
    rw [slice_flatten hb.length_of_mem (b := b) (by simp [hvb])]
    refine E.hash.checksum_injective v.page v.txid ?_
    rw [(hchunk i v (by simp [hpages, hvb])).2]
    exact (hb.verified v b (List.mem_of_getElem? hvb)).2.symm

theorem build_integrity_onePage :
    ∃ f, plainEncoder.build Env.coded size512 [(⟨1, 1, 3⟩, onesPage)] = .ok f ∧
      f.metadata.verifyPayload Env.coded f.payload ∅ = .ok onesPage := by
  have hb : Buildable Env.coded size512 [(⟨1, 1, 3⟩, onesPage)] :=
    ones_buildable (fun _ _ => rfl) (by simp : [PageVersion.mk 1 1 3] ≠ []) (by simp) (by simp)
  obtain ⟨f, _, hf, hverify, -⟩ := build_integrity crc32 (e := plainEncoder)
    (by simp [Authentic, plainEncoder]) stored_nonempty hb fun v b hvb => by
      obtain ⟨rfl, rfl⟩ := Prod.mk.inj (List.mem_singleton.mp hvb)
      decide
  refine ⟨f, hf, ?_⟩
  simpa using hverify ∅ (by simp [plainEncoder])

end FrameEncoder

end Zsqlite
