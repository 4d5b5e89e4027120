import Zsqlite.FrameCodec

set_option autoImplicit false

/-! # Authenticated envelopes

The envelope of `wire.rs`: a magic, the length and the hash of the content, and the content
compressed. It is opened at once, or through a decoder that reads the content in pieces of any
size while it is decompressed and compares length, end and hash only when it is finished.

Both readers are reduced to the same equation (`openEnvelope_eq_ok`, `decode_eq_ok`): the bytes
are an envelope whose compressed part decodes to content of the stated length and hash.
-/

namespace Zsqlite

open ByteVec Wire

namespace Envelope

variable (hash : Bytes → Digest) (zstd : Zstd)

/-- `envelope`: magic, length and hash of the content, and the content at level 3. -/
def envelope (text raw : Bytes) : Bytes :=
  text ++ (leBytes 8 raw.length ++ (leBytes 32 (hash raw) ++ zstd.compress 3 none raw))

/-- The fields before the compressed content. -/
def header (text : Bytes) (limit : Nat) : Parser StoreError (Nat × Digest) := do
  magic text
  let length ← u64
  check (Except.ensure (length ≤ limit) .range)
  let expected ← array
  return (length, expected)

/-- What both readers do first: length, hash and the compressed content. -/
def openHeader (text encoded : Bytes) (limit : Nat) :
    Except StoreError ((Nat × Digest) × Bytes) := do
  let (fields, position, rest) ← header text limit (0, encoded)
  Except.ensure (48 ≤ encoded.length) .range
  let (compressed, _) ← Wire.take StoreError.corrupt (encoded.length - 48) (position, rest)
  return (fields, compressed)

/-- `open_envelope`: the content at once. -/
def openEnvelope (text encoded : Bytes) (limit : Nat) : Except StoreError Bytes := do
  let ((length, expected), compressed) ← openHeader text encoded limit
  match zstd.decompress none compressed length with
  | none => .error .zstd
  | some raw =>
      Except.ensure (raw.length = length ∧ hash raw = expected) (.corrupt 0)
      return raw

/-! ## The streaming reader -/

/-- What a reader has still to give, and whether it ends there or fails. -/
structure Stream where
  rest : Bytes
  clean : Bool
  deriving DecidableEq

structure ReadDecoder where
  reader : Stream
  length : Nat
  position : Nat
  hashed : Bytes
  expected : Option Digest

namespace ReadDecoder

def new (reader : Stream) (length : Nat) : ReadDecoder := ⟨reader, length, 0, [], none⟩

variable (d : ReadDecoder)

def readExact (n : Nat) : Except StoreError (Bytes × ReadDecoder) := do
  Except.ensure (d.position + n ≤ u64Max) .range
  Except.ensure (d.position + n ≤ d.length) (.corrupt d.position)
  Except.ensure (n ≤ d.reader.rest.length) (.corrupt d.position)
  let output := d.reader.rest.take n
  return (output, { d with
    reader := { d.reader with rest := d.reader.rest.drop n }
    hashed := if d.expected.isSome then d.hashed ++ output else d.hashed
    position := d.position + n })

def take (count : Nat) : Except StoreError (Bytes × ReadDecoder) := do
  Except.ensure (count ≤ d.length - d.position) (.corrupt d.position)
  d.readExact count

def array (n : Nat) : Except StoreError (Bytes × ReadDecoder) := d.readExact n

/-- The whole content has been read, the reader ends there, and the hash is the expected one. -/
def finish : Except StoreError Unit :=
  Except.ensure (d.position = d.length ∧ (d.reader.rest = [] ∧ d.reader.clean = true) ∧
    (d.expected.all fun expected => hash d.hashed == expected) = true) (.corrupt d.position)

end ReadDecoder

/-- `open_envelope_reader`; `stream` is the decompressing reader of the compressed content. -/
def openEnvelopeReader (stream : Bytes → Stream) (text encoded : Bytes) (limit : Nat) :
    Except StoreError ReadDecoder := do
  let ((length, expected), compressed) ← openHeader text encoded limit
  return { ReadDecoder.new (stream compressed) length with expected := some expected }

/-- A request for bytes: a vector of any length, or an array. -/
inductive Chunk where
  | take (count : Nat)
  | array (n : Nat)

def Chunk.size : Chunk → Nat
  | .take count => count
  | .array n => n

def ReadDecoder.read (d : ReadDecoder) : Chunk → Except StoreError (Bytes × ReadDecoder)
  | .take count => d.take count
  | .array n => d.array n

/-- Requests one after the other, with the bytes so far. -/
def ReadDecoder.readAll (chunks : List Chunk) (d : ReadDecoder) :
    Except StoreError (Bytes × ReadDecoder) :=
  chunks.foldlM (fun done chunk => do
    let next ← done.2.read chunk
    return (done.1 ++ next.1, next.2)) ([], d)

/-- Decode an envelope in pieces, then finish. -/
def decode (stream : Bytes → Stream) (text encoded : Bytes) (limit : Nat) (chunks : List Chunk) :
    Except StoreError Bytes := do
  let d ← openEnvelopeReader stream text encoded limit
  let (bytes, d) ← d.readAll chunks
  d.finish hash
  return bytes

/-! ## The header -/

variable {hash zstd}

theorem header_exact (text : Bytes) (limit : Nat) :
    Exact (header text limit) (fun f => text ++ (leBytes 8 f.1 ++ leBytes 32 f.2))
      (fun f => (f.1 < 2 ^ 64 ∧ f.1 ≤ limit) ∧ f.2 < 2 ^ 256) := by
  have hhash := fun length => exact_array.bind Prod.snd
    (fun expected _ => Exact.pure (ε := StoreError) ((length, expected) : Nat × Digest))
    fun _ _ h => by rw [h]
  have hlength := exact_u64.bind Prod.fst
    (fun length _ => Exact.ensure (e := StoreError.range) (P := length ≤ limit) fun _ =>
      hhash length) fun _ _ h => by rw [h.2.2]
  have hmagic := (exact_magic text).bind (fun _ => ()) (fun _ _ => hlength) fun _ _ _ => rfl
  refine hmagic.congr (fun f => ?_) fun f _ => by simp
  simp only [true_and, and_true]
  exact and_assoc.symm

theorem openHeader_eq_ok {text : Bytes} (htext : text.length = 8) {encoded : Bytes} {limit : Nat}
    {fields : Nat × Digest} {compressed : Bytes} :
    openHeader text encoded limit = .ok (fields, compressed) ↔
      ((fields.1 < 2 ^ 64 ∧ fields.1 ≤ limit) ∧ fields.2 < 2 ^ 256) ∧
      encoded = text ++ (leBytes 8 fields.1 ++ (leBytes 32 fields.2 ++ compressed)) := by
  have hexact := fun rest position fields =>
    header_exact text limit (0, encoded) (position, rest) fields
  have htake := fun n position rest left position' compressed =>
    Exact.take StoreError.corrupt n (position, rest) (position', left) compressed
  constructor
  · intro h
    obtain ⟨⟨fields', position, rest⟩, hrun, h⟩ := Except.bind_eq_ok.mp h
    obtain ⟨_, hlen, h⟩ := Except.bind_eq_ok.mp h
    obtain ⟨⟨found, position', left⟩, hrest, h⟩ := Except.bind_eq_ok.mp h
    obtain ⟨rfl, rfl⟩ := Prod.mk.inj (Except.pure_eq_ok.mp h)
    obtain ⟨hok, hbytes, -⟩ := (hexact rest position fields).mp hrun
    obtain ⟨hfound, hleft, -⟩ := (htake _ _ _ _ _ _).mp hrest
    dsimp only at hbytes hleft
    refine ⟨hok, ?_⟩
    have hempty : left = [] := by
      have hl := congrArg List.length hbytes
      rw [hleft] at hl
      simp only [List.length_append, length_leBytes, htext, hfound] at hl
      refine List.eq_nil_of_length_eq_zero ?_
      have := Except.ensure_eq_ok.mp hlen
      omega
    rw [hbytes, hleft, hempty, List.append_nil]
    simp only [List.append_assoc]
  · rintro ⟨hok, hbytes⟩
    have hlen : encoded.length = 48 + compressed.length := by
      rw [hbytes]
      simp only [List.length_append, length_leBytes, htext]
      omega
    have hrun := (hexact compressed 48 fields).mpr ⟨hok, by simp only [hbytes, List.append_assoc],
      by simp [htext]⟩
    have hrest := (htake compressed.length 48 compressed [] (48 + compressed.length) compressed).mpr
      ⟨rfl, by simp, by simp⟩
    have hsub : encoded.length - 48 = compressed.length := by omega
    unfold openHeader
    rw [Except.bind_of_ok hrun]
    dsimp only
    rw [Except.bind_of_ok (Except.ensure_of (by omega) _), hsub, Except.bind_of_ok hrest]
    rfl

/-- **The bulk reader** accepts the envelopes of content with the stated length and hash. -/
theorem openEnvelope_eq_ok {text : Bytes} (htext : text.length = 8) {encoded : Bytes} {limit : Nat}
    {raw : Bytes} : openEnvelope hash zstd text encoded limit = .ok raw ↔
      ∃ compressed, (raw.length < 2 ^ 64 ∧ raw.length ≤ limit) ∧ hash raw < 2 ^ 256 ∧
        encoded = text ++ (leBytes 8 raw.length ++ (leBytes 32 (hash raw) ++ compressed)) ∧
        zstd.decompress none compressed raw.length = some raw := by
  constructor
  · intro h
    obtain ⟨⟨⟨length, expected⟩, compressed⟩, hheader, h⟩ := Except.bind_eq_ok.mp h
    obtain ⟨hok, hbytes⟩ := (openHeader_eq_ok htext).mp hheader
    dsimp only at h
    split at h
    · cases h
    · rename_i content hcontent
      obtain ⟨_, hcheck, h⟩ := Except.bind_eq_ok.mp h
      obtain rfl := Except.pure_eq_ok.mp h
      obtain ⟨rfl, rfl⟩ := Except.ensure_eq_ok.mp hcheck
      exact ⟨compressed, hok.1, hok.2, hbytes, hcontent⟩
  · rintro ⟨compressed, hlen, hhash, hbytes, hcontent⟩
    have hheader : openHeader text encoded limit = .ok ((raw.length, hash raw), compressed) :=
      (openHeader_eq_ok htext).mpr ⟨⟨hlen, hhash⟩, hbytes⟩
    rw [openEnvelope, Except.bind_of_ok hheader]
    dsimp only
    rw [hcontent]
    dsimp only
    rw [Except.bind_of_ok (Except.ensure_of ⟨rfl, rfl⟩ _)]
    rfl

/-! ## Reading in pieces -/

namespace ReadDecoder

variable {d : ReadDecoder}

/-- A request is served when so many bytes are left, of the length and of the reader. -/
theorem read_eq_ok (hlen : d.length ≤ u64Max) (hpos : d.position ≤ d.length)
    (hexpected : d.expected.isSome = true) {chunk : Chunk} {bytes : Bytes} {d' : ReadDecoder} :
    d.read chunk = .ok (bytes, d') ↔
      d.position + chunk.size ≤ d.length ∧ chunk.size ≤ d.reader.rest.length ∧
      bytes = d.reader.rest.take chunk.size ∧
      d' = { d with
        reader := { d.reader with rest := d.reader.rest.drop chunk.size }
        hashed := d.hashed ++ bytes
        position := d.position + chunk.size } := by
  have hexact : ∀ n, d.readExact n = .ok (bytes, d') ↔ d.position + n ≤ d.length ∧
      n ≤ d.reader.rest.length ∧ bytes = d.reader.rest.take n ∧
      d' = { d with
        reader := { d.reader with rest := d.reader.rest.drop n }
        hashed := d.hashed ++ bytes
        position := d.position + n } := by
    intro n
    simp only [readExact, Except.bind_eq_ok, Except.ensure_eq_ok, exists_const, Except.pure_eq_ok,
      Prod.mk.injEq, hexpected, if_true]
    constructor
    · rintro ⟨-, hfits, hrest, rfl, rfl⟩
      exact ⟨hfits, hrest, rfl, rfl⟩
    · rintro ⟨hfits, hrest, rfl, rfl⟩
      exact ⟨by omega, hfits, hrest, rfl, rfl⟩
  cases chunk with
  | array n => exact hexact n
  | take count =>
      simp only [read, take, Except.bind_eq_ok, Except.ensure_eq_ok, exists_const, hexact]
      constructor
      · exact fun h => h.2
      · exact fun h => ⟨by have := h.1; simp only [Chunk.size] at this; omega, h⟩

/-- The decoder of an envelope after `k` bytes. -/
def upTo (stream : Stream) (length : Nat) (expected : Digest) (k : Nat) : ReadDecoder :=
  ⟨{ stream with rest := stream.rest.drop k }, length, k, stream.rest.take k, some expected⟩

variable {stream : Stream} {length : Nat} {expected : Digest}

theorem read_upTo (hlen : length ≤ u64Max) {k : Nat} (hk : k ≤ length)
    (hrest : k ≤ stream.rest.length) (chunk : Chunk) (next : Bytes × ReadDecoder) :
    (upTo stream length expected k).read chunk = .ok next ↔
      k + chunk.size ≤ length ∧ k + chunk.size ≤ stream.rest.length ∧
      stream.rest.take k ++ next.1 = stream.rest.take (k + chunk.size) ∧
      next.2 = upTo stream length expected (k + chunk.size) := by
  rw [read_eq_ok hlen hk rfl]
  simp only [upTo, List.length_drop, List.drop_drop, List.take_add]
  constructor
  · rintro ⟨h₁, h₂, h₃, h₄⟩
    rw [h₄, h₃]
    exact ⟨h₁, by omega, rfl, rfl⟩
  · rintro ⟨h₁, h₂, h₃, h₄⟩
    have h₃ := List.append_cancel_left h₃
    rw [h₄, h₃]
    exact ⟨h₁, by omega, rfl, rfl⟩

/-- **Requests in a row** give the next bytes of the reader, however they are cut. By induction
on the requests, from any number of bytes read before. -/
theorem foldlM_read (stream : Stream) (expected : Digest) (hlen : length ≤ u64Max)
    (chunks : List Chunk) {k : Nat} (hk : k ≤ length) (hrest : k ≤ stream.rest.length) (done : Bytes × ReadDecoder) :
    chunks.foldlM (fun done chunk => do
        let next ← done.2.read chunk
        return (done.1 ++ next.1, next.2)) (stream.rest.take k, upTo stream length expected k) =
        (.ok done : Except StoreError _) ↔
      k + (chunks.map Chunk.size).sum ≤ length ∧
      k + (chunks.map Chunk.size).sum ≤ stream.rest.length ∧
      done = (stream.rest.take (k + (chunks.map Chunk.size).sum),
        upTo stream length expected (k + (chunks.map Chunk.size).sum)) := by
  induction chunks generalizing k with
  | nil =>
      rw [List.foldlM_nil, Except.pure_eq_ok]
      simp only [List.map_nil, List.sum_nil, Nat.add_zero]
      exact ⟨fun h => ⟨hk, hrest, h⟩, fun h => h.2.2⟩
  | cons chunk chunks ih =>
      rw [List.foldlM_cons, Except.bind_eq_ok]
      simp only [List.map_cons, List.sum_cons, ← Nat.add_assoc]
      constructor
      · rintro ⟨next, hnext, hfold⟩
        obtain ⟨read, hread, hnext⟩ := Except.bind_eq_ok.mp hnext
        obtain rfl := Except.pure_eq_ok.mp hnext
        obtain ⟨h₁, h₂, h₃, h₄⟩ := (read_upTo hlen hk hrest chunk read).mp hread
        rw [h₃, h₄] at hfold
        exact (ih h₁ h₂).mp hfold
      · intro h
        have h₁ : k + chunk.size ≤ length := by omega
        have h₂ : k + chunk.size ≤ stream.rest.length := by omega
        have hread := (read_upTo hlen hk hrest chunk ((stream.rest.drop k).take chunk.size,
          upTo stream length expected (k + chunk.size))).mpr ⟨h₁, h₂, List.take_add.symm, rfl⟩
        refine ⟨(stream.rest.take (k + chunk.size), upTo stream length expected (k + chunk.size)),
          ?_, (ih h₁ h₂).mpr h⟩
        rw [Except.bind_of_ok hread, ← List.take_add]
        rfl

end ReadDecoder

/-- **The streaming reader** accepts the envelopes of content with the stated length and hash,
when that much is asked for and the reader of the compressed part gives the content and ends. -/
theorem decode_eq_ok {text : Bytes} (htext : text.length = 8) {stream : Bytes → Stream}
    {encoded : Bytes} {limit : Nat} (hlimit : limit ≤ u64Max) {chunks : List Chunk} {raw : Bytes} :
    decode hash stream text encoded limit chunks = .ok raw ↔
      ∃ compressed, (raw.length < 2 ^ 64 ∧ raw.length ≤ limit) ∧ hash raw < 2 ^ 256 ∧
        encoded = text ++ (leBytes 8 raw.length ++ (leBytes 32 (hash raw) ++ compressed)) ∧
        stream compressed = ⟨raw, true⟩ ∧ (chunks.map Chunk.size).sum = raw.length := by
  have hfold : ∀ compressed length expected, length ≤ limit → ∀ done,
      ReadDecoder.readAll chunks (.upTo (stream compressed) length expected 0) = .ok done ↔
      (chunks.map Chunk.size).sum ≤ length ∧
      (chunks.map Chunk.size).sum ≤ (stream compressed).rest.length ∧
      done = ((stream compressed).rest.take (chunks.map Chunk.size).sum,
        .upTo (stream compressed) length expected (chunks.map Chunk.size).sum) := by
    intro compressed length expected hlen done
    have := ReadDecoder.foldlM_read (stream compressed) expected (hlen.trans hlimit) chunks
      (Nat.zero_le _) (Nat.zero_le _) done
    rwa [Nat.zero_add] at this
  constructor
  · intro h
    obtain ⟨d, hopen, h⟩ := Except.bind_eq_ok.mp h
    obtain ⟨⟨⟨length, expected⟩, compressed⟩, hheader, hopen⟩ := Except.bind_eq_ok.mp hopen
    obtain rfl := Except.pure_eq_ok.mp hopen
    obtain ⟨⟨bytes, d⟩, hread, h⟩ := Except.bind_eq_ok.mp h
    obtain ⟨_, hfinish, h⟩ := Except.bind_eq_ok.mp h
    obtain rfl := Except.pure_eq_ok.mp h
    obtain ⟨hok, hbytes⟩ := (openHeader_eq_ok htext).mp hheader
    dsimp only at hok hbytes
    obtain ⟨-, hrest, hdone⟩ := (hfold compressed length expected hok.1.2 _).mp hread
    obtain ⟨rfl, rfl⟩ := Prod.mk.inj hdone
    obtain ⟨hsum, ⟨hend, hclean⟩, hhash⟩ := Except.ensure_eq_ok.mp hfinish
    dsimp only [ReadDecoder.upTo] at hsum hend hclean hhash
    have hall : (stream compressed).rest.take (chunks.map Chunk.size).sum =
        (stream compressed).rest := List.take_of_length_le (List.drop_eq_nil_iff.mp hend)
    have hlength : (stream compressed).rest.length = (chunks.map Chunk.size).sum :=
      le_antisymm (List.drop_eq_nil_iff.mp hend) hrest
    rw [hall] at hhash ⊢
    have hhash : hash (stream compressed).rest = expected := by simpa using hhash
    rw [hlength, hhash, hsum]
    refine ⟨compressed, hok.1, hok.2, hbytes, ?_, rfl⟩
    rw [← hclean]
  · rintro ⟨compressed, hlen, hhash, hbytes, hstream, hsum⟩
    have hheader : openHeader text encoded limit = .ok ((raw.length, hash raw), compressed) :=
      (openHeader_eq_ok htext).mpr ⟨⟨hlen, hhash⟩, hbytes⟩
    have hread := (hfold compressed raw.length (hash raw) hlen.2 (raw,
      ReadDecoder.upTo ⟨raw, true⟩ raw.length (hash raw) raw.length)).mpr (by
        rw [hstream, hsum, List.take_length]
        exact ⟨le_rfl, le_rfl, rfl⟩)
    have hopen : openEnvelopeReader stream text encoded limit =
        .ok (.upTo (stream compressed) raw.length (hash raw) 0) := by
      rw [openEnvelopeReader, Except.bind_of_ok hheader]
      rfl
    rw [decode, Except.bind_of_ok hopen, Except.bind_of_ok hread]
    dsimp only
    rw [ReadDecoder.finish, Except.bind_of_ok (Except.ensure_of _ _)]
    · rfl
    · simp [ReadDecoder.upTo]

/-! ## The two readers -/

/-- The streaming and the bulk decompressor accept the same input with the same content. -/
structure Agree (zstd : Zstd) (stream : Bytes → Stream) : Prop where
  same : ∀ compressed raw,
    zstd.decompress none compressed raw.length = some raw ↔ stream compressed = ⟨raw, true⟩

end Envelope

end Zsqlite
