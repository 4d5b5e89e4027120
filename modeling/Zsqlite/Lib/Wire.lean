import Zsqlite.Lib.Bytes
import Zsqlite.Lib.Outcome

set_option autoImplicit false

/-! # Wire formats

Little-endian numbers, records with fields at fixed offsets, and decoders that read fields one
after the other.

* A record of fixed size is written by putting its fields into zeros; a block is that record
  exactly when it has the fields at their offsets and zeros elsewhere (`eq_puts_iff`).
* A sequential decoder is `Exact` for an encoder when it accepts precisely the encodings of
  admissible values, reads each back and leaves the bytes after it. Exactness goes through
  sequencing, checks and repetition, so that one rule application for each field proves both
  directions of a format.
-/

namespace Wire

/-! ## Little-endian numbers -/

/-- The `k` low bytes of `n`, lowest first. -/
def leBytes : Nat → Nat → List UInt8
  | 0, _ => []
  | k + 1, n => UInt8.ofNat n :: leBytes k (n / 256)

/-- The number that bytes spell, lowest first. -/
def leNat : List UInt8 → Nat
  | [] => 0
  | b :: l => b.toNat + 256 * leNat l

@[simp] theorem length_leBytes (k n : Nat) : (leBytes k n).length = k := by
  induction k generalizing n with
  | zero => rfl
  | succ k ih => simp [leBytes, ih]

theorem leNat_lt (l : List UInt8) : leNat l < 256 ^ l.length := by
  induction l with
  | nil => simp [leNat]
  | cons b l ih =>
      have := b.toNat_lt
      rw [List.length_cons, Nat.pow_succ, leNat]
      omega

theorem leNat_leBytes {k n : Nat} (h : n < 256 ^ k) : leNat (leBytes k n) = n := by
  induction k generalizing n with
  | zero =>
      rw [Nat.pow_zero] at h
      simp only [leBytes, leNat]
      omega
  | succ k ih =>
      have hdiv : n / 256 < 256 ^ k := by
        rw [Nat.pow_succ] at h
        omega
      rw [leBytes, leNat, ih hdiv, UInt8.toNat_ofNat']
      omega

theorem leBytes_leNat (l : List UInt8) : leBytes l.length (leNat l) = l := by
  induction l with
  | nil => rfl
  | cons b l ih =>
      have hb := b.toNat_lt
      have hdiv : (b.toNat + 256 * leNat l) / 256 = leNat l := by omega
      rw [List.length_cons, leBytes, leNat, hdiv, ih]
      congr 1
      apply UInt8.toNat_inj.mp
      rw [UInt8.toNat_ofNat']
      omega

theorem leBytes_leNat_of_length {l : List UInt8} {k : Nat} (h : l.length = k) :
    leBytes k (leNat l) = l := h ▸ leBytes_leNat l

theorem leNat_lt_of_length {l : List UInt8} {k : Nat} (h : l.length = k) : leNat l < 256 ^ k :=
  h ▸ leNat_lt l

theorem leBytes_injective {k m n : Nat} (hm : m < 256 ^ k) (hn : n < 256 ^ k)
    (h : leBytes k m = leBytes k n) : m = n := by
  rw [← leNat_leBytes hm, h, leNat_leBytes hn]

/-! ## Fields at fixed offsets -/

section Fields

open ByteVec

variable {v w b : List UInt8} {off len n : Nat}

theorem window_all (v : List UInt8) : window v 0 v.length = v := by
  refine ext_getD (by simp) fun i hi => ?_
  rw [getD_window, if_pos (by simpa using hi), Nat.zero_add]

@[simp] theorem leBytes_leNat_window (v : List UInt8) (off len : Nat) :
    leBytes len (leNat (window v off len)) = window v off len :=
  leBytes_leNat_of_length (length_window v off len)

theorem leNat_window_lt (v : List UInt8) (off len : Nat) : leNat (window v off len) < 256 ^ len :=
  leNat_lt_of_length (length_window v off len)

theorem leNat_window_eq {k : Nat} (h : n < 256 ^ k) :
    leNat (window v off k) = n ↔ window v off k = leBytes k n := by
  constructor
  · rintro rfl
    exact (leBytes_leNat_window v off k).symm
  · intro hv
    rw [hv, leNat_leBytes h]

theorem leBytes_zero (k : Nat) : leBytes k 0 = zeros k := by
  induction k with
  | zero => rfl
  | succ k ih =>
      rw [leBytes, Nat.zero_div, ih]
      rfl

theorem window_zeros (n off len : Nat) : window (zeros n) off len = zeros len := by
  refine ext_getD (by simp) fun i _ => ?_
  rw [getD_window, getD_zeros, getD_zeros]
  split <;> rfl

theorem zeros_add (a b : Nat) : zeros (a + b) = zeros a ++ zeros b := List.replicate_add a b 0

/-- A block of zeros is zeros in its parts. -/
theorem window_eq_zeros_add {a b : Nat} : window v off (a + b) = zeros (a + b) ↔
    window v off a = zeros a ∧ window v (off + a) b = zeros b := by
  rw [← window_append, zeros_add]
  constructor
  · intro h
    exact List.append_inj h (by simp)
  · rintro ⟨ha, hb⟩
    rw [ha, hb]

theorem window_window {off' len' : Nat} (h : off' + len' ≤ len) :
    window (window v off len) off' len' = window v (off + off') len' := by
  refine ext_getD (by simp) fun i hi => ?_
  have hi : i < len' := by simpa using hi
  rw [getD_window, getD_window, getD_window, if_pos hi, if_pos (by omega), if_pos hi, Nat.add_assoc]

/-- Bytes with the offsets they are put at. -/
abbrev Entries := List (Nat × List UInt8)

/-- Put every entry at its offset. -/
def puts (v : List UInt8) (entries : Entries) : List UInt8 :=
  entries.foldl (fun v entry => overwrite v entry.1 entry.2) v

/-- The entries come in order, do not overlap and end within `n` bytes. -/
def Fits (n : Nat) : Nat → Entries → Prop
  | off, [] => off ≤ n
  | off, (start, b) :: entries => off ≤ start ∧ Fits n (start + b.length) entries

/-- From `off` to `n`, the bytes are the entries at their offsets and zeros between them. -/
def Matches (v : List UInt8) (n : Nat) : Nat → Entries → Prop
  | off, [] => window v off (n - off) = zeros (n - off)
  | off, (start, b) :: entries => window v off (start - off) = zeros (start - off) ∧
      window v start b.length = b ∧ Matches v n (start + b.length) entries

variable {entries : Entries}

theorem Fits.le (h : Fits n off entries) : off ≤ n := by
  induction entries generalizing off with
  | nil => exact h
  | cons entry entries ih =>
      have := ih h.2
      have := h.1
      omega

theorem Fits.mono (h : Fits n off entries) {m : Nat} (hm : n ≤ m) : Fits m off entries := by
  induction entries generalizing off with
  | nil => exact Nat.le_trans h hm
  | cons entry entries ih => exact ⟨h.1, ih h.2⟩

theorem length_puts (hv : v.length = n) (h : Fits n off entries) :
    (puts v entries).length = n := by
  induction entries generalizing v off with
  | nil => exact hv
  | cons entry entries ih =>
      refine ih ?_ h.2
      by_cases hb : entry.2 = []
      · simpa [overwrite, hb] using hv
      · rw [length_overwrite hb, hv]
        exact max_eq_left h.2.le

/-- Entries put from `off` on leave what is before. -/
theorem window_puts_before (h : Fits n off entries) {start : Nat} (hle : start + len ≤ off) :
    window (puts v entries) start len = window v start len := by
  induction entries generalizing v off with
  | nil => rfl
  | cons entry entries ih =>
      have hstart := h.1
      exact (ih h.2 (by omega)).trans (window_overwrite_disjoint (.inl (by omega)))

theorem window_overwrite_congr {start : Nat} (h : window v off len = window w off len) :
    window (overwrite v start b) off len = window (overwrite w start b) off len := by
  refine ext_getD (by simp) fun i hi => ?_
  have hi : i < len := by simpa using hi
  have hvw := congrArg (fun u => u.getD i 0) h
  simp only [getD_window, if_pos hi] at hvw
  rw [getD_window, getD_window, if_pos hi, if_pos hi, getD_overwrite, getD_overwrite, hvw]

/-- Replacing one entry changes nothing beside it. -/
theorem window_puts_replace {before after : Entries} {b' : List UInt8} {start : Nat}
    (hb : b'.length = b.length) (h : off + len ≤ start ∨ start + b.length ≤ off) :
    window (puts v (before ++ (start, b) :: after)) off len =
      window (puts v (before ++ (start, b') :: after)) off len := by
  have key : ∀ (entries : Entries) (v w : List UInt8), window v off len = window w off len →
      window (puts v entries) off len = window (puts w entries) off len := by
    intro entries
    induction entries with
    | nil => exact fun _ _ h => h
    | cons entry entries ih => exact fun v w h => ih _ _ (window_overwrite_congr h)
  unfold puts
  rw [List.foldl_append, List.foldl_append]
  refine key after _ _ ?_
  exact (window_overwrite_disjoint h).trans (window_overwrite_disjoint (by rw [hb]; exact h)).symm

/-- The rest of a record filled with zeros is the entries put there. -/
theorem matches_puts (h : Fits n off entries) (hzero : window v off (n - off) = zeros (n - off)) :
    Matches (puts v entries) n off entries := by
  induction entries generalizing v off with
  | nil => exact hzero
  | cons entry entries ih =>
      obtain ⟨start, b⟩ := entry
      obtain ⟨hstart, hfits⟩ := h
      have hle := hfits.le
      have hsub : ∀ o l, off ≤ o → o + l ≤ n → window v o l = zeros l := by
        intro o l ho hl
        obtain ⟨k, rfl⟩ := Nat.exists_eq_add_of_le ho
        have hin : window (window v off (n - off)) k l = window v (off + k) l :=
          window_window (by omega)
        rw [← hin, hzero, window_zeros]
      refine ⟨?_, ?_, ih hfits ?_⟩
      · exact (window_puts_before hfits (by omega)).trans
          ((window_overwrite_disjoint (.inl (by omega))).trans (hsub _ _ (le_refl _) (by omega)))
      · exact (window_puts_before hfits (le_refl _)).trans (window_overwrite_self v start b)
      · exact (window_overwrite_disjoint (.inr (by simp only; omega))).trans
          (hsub _ _ (by omega) (by omega))

/-- Two records that match the same entries agree from there on. -/
theorem Matches.window_eq (h : Fits n off entries) (hv : Matches v n off entries)
    (hw : Matches w n off entries) : window v off (n - off) = window w off (n - off) := by
  induction entries generalizing off with
  | nil => exact hv.trans hw.symm
  | cons entry entries ih =>
      obtain ⟨start, b⟩ := entry
      obtain ⟨hstart, hfits⟩ := h
      have hle := hfits.le
      have hrest := ih hfits hv.2.2 hw.2.2
      have hsplit : n - off = (start - off) + (b.length + (n - (start + b.length))) := by omega
      have hoff : off + (start - off) = start := by omega
      have hcut : ∀ u, window u off (n - off) = window u off (start - off) ++
          (window u start b.length ++ window u (start + b.length) (n - (start + b.length))) := by
        intro u
        rw [window_append, hsplit, ← window_append, hoff]
      rw [hcut v, hcut w, hv.1, hw.1, hv.2.1, hw.2.1, hrest]

/-- **A record is its fields.** A block is the record with these entries exactly when it has the
entries at their offsets and zeros elsewhere. -/
theorem eq_puts_iff (h : Fits n 0 entries) (hv : v.length = n) :
    v = puts (zeros n) entries ↔ Matches v n 0 entries := by
  have hputs : Matches (puts (zeros n) entries) n 0 entries := matches_puts h (window_zeros _ _ _)
  constructor
  · intro hv
    rw [hv]
    exact hputs
  · intro hmatch
    have := hmatch.window_eq h hputs
    rw [Nat.sub_zero] at this
    rw [← window_all v, ← window_all (puts (zeros n) entries), length_puts (by simp) h, hv, this]

/-- Whether a record matches depends on its bytes from `off` to `n` only. -/
theorem Matches.congr (h : Fits n off entries)
    (hvw : window v off (n - off) = window w off (n - off)) (hv : Matches v n off entries) :
    Matches w n off entries := by
  have hsub : ∀ o l, off ≤ o → o + l ≤ n → window v o l = window w o l := by
    intro o l ho hl
    obtain ⟨k, rfl⟩ := Nat.exists_eq_add_of_le ho
    have hin : window (window v off (n - off)) k l = window v (off + k) l :=
      window_window (by omega)
    rw [← hin, hvw, window_window (by omega)]
  induction entries generalizing off with
  | nil => exact hvw.symm.trans hv
  | cons entry entries ih =>
      obtain ⟨start, b⟩ := entry
      obtain ⟨hstart, hfits⟩ := h
      have hle := hfits.le
      exact ⟨(hsub off (start - off) (le_refl _) (by omega)).symm.trans hv.1,
        (hsub start b.length hstart hle).symm.trans hv.2.1,
        ih hfits (hsub _ _ (by omega) (by omega)) hv.2.2 fun o l ho hl => hsub o l (by omega) hl⟩

/-! ### Checksummed records -/

/-- Put the checksum of the other bytes into the last four. -/
def putChecksum (crc : List UInt8 → UInt32) (n : Nat) (v : List UInt8) : List UInt8 :=
  overwrite v (n - 4) (leBytes 4 (crc (window v 0 (n - 4))).toNat)

variable {crc : List UInt8 → UInt32}

theorem window_putChecksum_of_le (h : off + len ≤ n - 4) :
    window (putChecksum crc n v) off len = window v off len :=
  window_overwrite_disjoint (.inl h)

theorem window_putChecksum_body : window (putChecksum crc n v) 0 (n - 4) = window v 0 (n - 4) :=
  window_putChecksum_of_le (by omega)

theorem window_putChecksum :
    window (putChecksum crc n v) (n - 4) 4 = leBytes 4 (crc (window v 0 (n - 4))).toNat := by
  have := window_overwrite_self v (n - 4) (leBytes 4 (crc (window v 0 (n - 4))).toNat)
  rwa [length_leBytes] at this

theorem length_putChecksum (hn : 4 ≤ n) (hv : v.length = n) :
    (putChecksum crc n v).length = n := by
  unfold putChecksum
  rw [length_overwrite (List.ne_nil_of_length_pos (by simp)), hv, length_leBytes]
  omega

/-- **A checksummed record** has its entries at their offsets, zeros elsewhere, and the checksum of
all that. -/
theorem eq_putChecksum_iff (hn : 4 ≤ n) (h : Fits (n - 4) 0 entries) (hv : v.length = n) :
    v = putChecksum crc n (puts (zeros n) entries) ↔
      Matches v (n - 4) 0 entries ∧
        leNat (window v (n - 4) 4) = (crc (window v 0 (n - 4))).toNat := by
  have hputs : Matches (puts (zeros n) entries) (n - 4) 0 entries :=
    matches_puts h (window_zeros _ _ _)
  constructor
  · intro hv
    have hbody : window v 0 (n - 4) = window (puts (zeros n) entries) 0 (n - 4) := by
      rw [hv, window_putChecksum_body]
    refine ⟨hputs.congr h hbody.symm, ?_⟩
    rw [hbody, hv, window_putChecksum]
    exact leNat_leBytes (UInt32.toNat_lt _)
  · rintro ⟨hmatch, hcrc⟩
    have hbody : window v 0 (n - 4) = window (puts (zeros n) entries) 0 (n - 4) :=
      hmatch.window_eq h hputs
    have hlen : (putChecksum crc n (puts (zeros n) entries)).length = n :=
      length_putChecksum hn (length_puts (by simp) (h.mono (Nat.sub_le _ _)))
    have hsplit : ∀ u : List UInt8, u.length = n → u = window u 0 (n - 4) ++ window u (n - 4) 4 := by
      intro u hu
      rw [show window u (n - 4) 4 = window u (0 + (n - 4)) 4 by rw [Nat.zero_add], window_append,
        Nat.sub_add_cancel hn, ← hu, window_all]
    rw [hsplit v hv, hsplit _ hlen, window_putChecksum_body, window_putChecksum, hbody]
    rw [hbody] at hcrc
    rw [(leNat_window_eq (UInt32.toNat_lt _)).mp hcrc]

/-! ### CRC-32 -/

/-- One bit of the reflected CRC-32. -/
def crcBit (c : BitVec 32) : BitVec 32 :=
  (c >>> 1) ^^^ (if c.getLsbD 0 then 0xEDB88320#32 else 0#32)

def crcByte (c : BitVec 32) (b : UInt8) : BitVec 32 := crcBit^[8] (c ^^^ b.toBitVec.setWidth 32)

/-- The CRC-32 of Ethernet and zip files, bit by bit. -/
def crc32 (bytes : List UInt8) : UInt32 :=
  ⟨bytes.foldl crcByte 0xFFFFFFFF#32 ^^^ 0xFFFFFFFF#32⟩

/-- The bit shifted out is the top bit of the result, so no information is lost. -/
theorem crcBit_injective : Function.Injective crcBit := by
  intro c d h
  have hlow : ∀ e : BitVec 32, (crcBit e).getLsbD 31 = e.getLsbD 0 := by
    intro e
    unfold crcBit
    rw [BitVec.getLsbD_xor, BitVec.getLsbD_ushiftRight, BitVec.getLsbD_of_ge _ _ (le_refl 32)]
    cases he : e.getLsbD 0 <;> simp
  have hcd : c.getLsbD 0 = d.getLsbD 0 := by rw [← hlow c, ← hlow d, h]
  have hshift : c >>> 1 = d >>> 1 := by
    unfold crcBit at h
    rw [hcd] at h
    exact (BitVec.xor_left_inj _).mp h
  apply BitVec.eq_of_getLsbD_eq
  intro i hi
  cases i with
  | zero => exact hcd
  | succ i =>
      have := congrArg (fun v => v.getLsbD i) hshift
      simpa [Nat.add_comm] using this

theorem crcByte_left {c d : BitVec 32} {b : UInt8} (h : crcByte c b = crcByte d b) : c = d :=
  (BitVec.xor_left_inj _).mp (crcBit_injective.iterate 8 h)

theorem crcByte_right {c : BitVec 32} {a b : UInt8} (h : crcByte c a = crcByte c b) : a = b := by
  have hxor := (BitVec.xor_right_inj _).mp (crcBit_injective.iterate 8 h)
  have hnat : a.toNat = b.toNat := by simpa using congrArg BitVec.toNat hxor
  exact UInt8.toNat_inj.mp hnat

/-- **A changed byte changes the checksum.** -/
theorem crc32_ne_of_byte {l₁ l₂ : List UInt8} {a b : UInt8} (h : a ≠ b) :
    crc32 (l₁ ++ a :: l₂) ≠ crc32 (l₁ ++ b :: l₂) := by
  intro heq
  have hfold := (BitVec.xor_left_inj _).mp (congrArg UInt32.toBitVec heq)
  rw [List.foldl_append, List.foldl_append, List.foldl_cons, List.foldl_cons] at hfold
  -- The states differ after the changed byte, and every further byte keeps them apart.
  have key : ∀ (l : List UInt8) (c d : BitVec 32), l.foldl crcByte c = l.foldl crcByte d → c = d := by
    intro l
    induction l with
    | nil => exact fun _ _ h => h
    | cons x l ih => exact fun c d h => crcByte_left (ih _ _ h)
  exact h (crcByte_right (key l₂ _ _ hfold))

end Fields

/-! ## Sequential decoding -/

section Sequential

variable {ε α β : Type}

/-- A decoder reads from the bytes that are left; the position is only for its errors. -/
abbrev Parser (ε α : Type) := StateT (Nat × List UInt8) (Except ε) α

/-- The next `n` bytes. -/
def take (short : Nat → ε) (n : Nat) : Parser ε (List UInt8) := fun (position, bytes) =>
  if n ≤ bytes.length then .ok (bytes.take n, position + n, bytes.drop n)
  else .error (short position)

/-- The next `k` bytes as a number. -/
def number (short : Nat → ε) (k : Nat) : Parser ε Nat := do return leNat (← take short k)

/-- A check between fields. -/
def check (x : Except ε α) : Parser ε α := StateT.lift x

/-- Read all of `bytes`. -/
def decodeAll (p : Parser ε α) (rest : Nat → ε) (bytes : List UInt8) : Except ε α :=
  match p (0, bytes) with
  | .error e => .error e
  | .ok (a, position, left) => if left = [] then .ok a else .error (rest position)

/-- `p` accepts the encodings of admissible values, and nothing else. -/
def Exact (p : Parser ε α) (encode : α → List UInt8) (ok : α → Prop) : Prop :=
  ∀ (s s' : Nat × List UInt8) (a : α), p s = .ok (a, s') ↔
    ok a ∧ s.2 = encode a ++ s'.2 ∧ s'.1 = s.1 + (encode a).length

variable {p : Parser ε α} {encode : α → List UInt8} {ok : α → Prop}

theorem Exact.congr (h : Exact p encode ok) {encode' : α → List UInt8} {ok' : α → Prop}
    (hok : ∀ a, ok a ↔ ok' a) (hencode : ∀ a, ok' a → encode a = encode' a) :
    Exact p encode' ok' := by
  intro s s' a
  rw [h s s' a, hok]
  constructor
  · rintro ⟨ha, hs⟩
    rw [hencode a ha] at hs
    exact ⟨ha, hs⟩
  · rintro ⟨ha, hs⟩
    rw [hencode a ha]
    exact ⟨ha, hs⟩

theorem Exact.pure (a : α) : Exact (pure a : Parser ε α) (fun _ => []) (· = a) := by
  rintro ⟨position, bytes⟩ ⟨position', bytes'⟩ b
  show (Except.ok (a, position, bytes) : Except ε _) = .ok (b, position', bytes') ↔ _
  simp only [Except.ok.injEq, Prod.mk.injEq, List.nil_append, List.length_nil, Nat.add_zero]
  constructor
  · rintro ⟨rfl, rfl, rfl⟩
    exact ⟨rfl, rfl, rfl⟩
  · rintro ⟨rfl, rfl, rfl⟩
    exact ⟨rfl, rfl, rfl⟩

theorem Exact.take (short : Nat → ε) (n : Nat) :
    Exact (take short n) (fun bytes => bytes) (fun bytes => bytes.length = n) := by
  rintro ⟨position, bytes⟩ ⟨position', bytes'⟩ a
  unfold Wire.take
  dsimp only
  split
  · rename_i h
    simp only [Except.ok.injEq, Prod.mk.injEq]
    constructor
    · rintro ⟨rfl, rfl, rfl⟩
      simp [h]
    · rintro ⟨rfl, rfl, rfl⟩
      simp
  · rename_i h
    simp only [reduceCtorEq, false_iff]
    rintro ⟨rfl, rfl, _⟩
    simp at h

/-- **Sequencing.** The value read later determines the value read first (`first`). -/
theorem Exact.bind (h : Exact p encode ok) {q : α → Parser ε β} (first : β → α)
    {encode' : α → β → List UInt8} {ok' : α → β → Prop}
    (hq : ∀ a, ok a → Exact (q a) (encode' a) (ok' a)) (hfirst : ∀ a b, ok' a b → first b = a) :
    Exact (p >>= q) (fun b => encode (first b) ++ encode' (first b) b)
      (fun b => ok (first b) ∧ ok' (first b) b) := by
  intro s s' b
  show (p s >>= fun r => q r.1 r.2) = .ok (b, s') ↔ _
  rw [Except.bind_eq_ok]
  constructor
  · rintro ⟨⟨a, t⟩, ha, hb⟩
    obtain ⟨hoka, hs, ht⟩ := (h s t a).mp ha
    obtain ⟨hokb, hs', ht'⟩ := (hq a hoka t s' b).mp hb
    obtain rfl := hfirst a b hokb
    exact ⟨⟨hoka, hokb⟩, by rw [hs, hs', List.append_assoc],
      by rw [ht', ht, List.length_append, Nat.add_assoc]⟩
  · rintro ⟨⟨hoka, hokb⟩, hs, hs'⟩
    refine ⟨⟨first b, s.1 + (encode (first b)).length, encode' (first b) b ++ s'.2⟩,
      (h _ _ _).mpr ⟨hoka, by rw [hs, List.append_assoc], rfl⟩,
      (hq _ hoka _ _ _).mpr ⟨hokb, rfl, by rw [hs', List.length_append, Nat.add_assoc]⟩⟩

theorem run_check_bind (c : Except ε β) (q : β → Parser ε α) (s : Nat × List UInt8) :
    (check c >>= q) s = c >>= fun b => q b s := by
  show (StateT.lift c s >>= fun r => q r.1 r.2) = _
  cases c <;> rfl

/-- **Checked values.** A field is converted by a function that fails. -/
theorem Exact.convert (h : Exact p encode ok) {c : α → Except ε β} (back : β → α) {P : β → Prop}
    (hc : ∀ a b, c a = .ok b ↔ P b ∧ a = back b) :
    Exact (p >>= fun a => check (c a)) (fun b => encode (back b)) (fun b => ok (back b) ∧ P b) := by
  intro s s' b
  show (p s >>= fun r => StateT.lift (c r.1) r.2) = .ok (b, s') ↔ _
  rw [Except.bind_eq_ok]
  constructor
  · rintro ⟨⟨a, t⟩, ha, hb⟩
    obtain ⟨b', hb', heq⟩ := Except.bind_eq_ok.mp hb
    obtain ⟨rfl, rfl⟩ := Prod.mk.inj (Except.ok.inj heq)
    obtain ⟨hP, rfl⟩ := (hc a b').mp hb'
    obtain ⟨hoka, hs⟩ := (h _ _ _).mp ha
    exact ⟨⟨hoka, hP⟩, hs⟩
  · rintro ⟨⟨hoka, hP⟩, hs⟩
    refine ⟨(back b, s'), (h _ _ _).mpr ⟨hoka, hs⟩, ?_⟩
    exact Except.bind_eq_ok.mpr ⟨b, (hc _ _).mpr ⟨hP, rfl⟩, rfl⟩

/-- **Checks** between fields restrict what is admissible. -/
theorem Exact.ensure {P : Prop} [Decidable P] {e : ε} {q : Parser ε α}
    (hq : P → Exact q encode ok) :
    Exact (check (Except.ensure P e) >>= fun _ => q) encode (fun a => P ∧ ok a) := by
  intro s s' a
  rw [run_check_bind, Except.bind_eq_ok]
  constructor
  · rintro ⟨_, hP, ha⟩
    have hP := Except.ensure_eq_ok.mp hP
    obtain ⟨hoka, hs⟩ := (hq hP s s' a).mp ha
    exact ⟨⟨hP, hoka⟩, hs⟩
  · rintro ⟨⟨hP, hoka⟩, hs⟩
    exact ⟨(), Except.ensure_eq_ok.mpr hP, (hq hP s s' a).mpr ⟨hoka, hs⟩⟩

theorem Exact.number (short : Nat → ε) (k : Nat) :
    Exact (number short k) (leBytes k) (· < 256 ^ k) := by
  have hpure : ∀ bytes : List UInt8, bytes.length = k →
      Exact (Pure.pure (leNat bytes) : Parser ε Nat) (fun _ => [])
        fun n => n = leNat bytes ∧ bytes.length = k := fun bytes hbytes =>
    (Exact.pure (leNat bytes)).congr (by simp [hbytes]) fun _ _ => rfl
  refine ((Exact.take short k).bind (leBytes k) hpure ?_).congr ?_ ?_
  · rintro bytes n ⟨rfl, rfl⟩
    exact leBytes_leNat bytes
  · intro n
    constructor
    · rintro ⟨_, hn, _⟩
      rw [hn]
      exact leNat_lt_of_length (length_leBytes k n)
    · intro hn
      exact ⟨length_leBytes k n, (leNat_leBytes hn).symm, length_leBytes k n⟩
  · intro n _
    simp

theorem Exact.fail (e : ε) (encode : α → List UInt8) :
    Exact (Wire.check (.error e) : Parser ε α) encode (fun _ => False) := by
  intro s s' a
  show (Except.error e : Except ε (α × Nat × List UInt8)) = .ok (a, s') ↔ _
  simp

/-- `n` values, each admitted by what was read before it. -/
def many {σ : Type} (p : Parser ε α) (step : σ → α → Except ε σ) : Nat → σ → Parser ε (List α)
  | 0, _ => return []
  | n + 1, state => do
      let a ← p
      let state ← check (step state a)
      let rest ← many p step n state
      return a :: rest

/-- **Repetition.** The values are encoded one after another; the checks between them are a fold
over the values. -/
theorem Exact.many {σ : Type} (h : Exact p encode ok) (step : σ → α → Except ε σ) (n : Nat)
    (state : σ) :
    Exact (many p step n state) (fun l => l.flatMap encode) (fun l => l.length = n ∧
      (∀ a ∈ l, ok a) ∧ ∃ final, l.foldlM step state = .ok final) := by
  induction n generalizing state with
  | zero =>
      refine (Exact.pure []).congr (fun l => ?_) fun l hl => ?_
      · constructor
        · rintro rfl
          exact ⟨rfl, by simp, state, rfl⟩
        · exact fun hl => List.length_eq_zero_iff.mp hl.1
      · simp [List.length_eq_zero_iff.mp hl.1]
  | succ n ih =>
      intro s s' l
      show (p s >>= fun r => (Wire.check (step state r.1) >>= fun state =>
        Wire.many p step n state >>= fun rest => Pure.pure (r.1 :: rest)) r.2) = .ok (l, s') ↔ _
      rw [Except.bind_eq_ok]
      constructor
      · rintro ⟨⟨a, t⟩, ha, hl⟩
        rw [run_check_bind, Except.bind_eq_ok] at hl
        obtain ⟨next, hnext, hl⟩ := hl
        obtain ⟨⟨rest, u⟩, hrest, hl⟩ := Except.bind_eq_ok.mp hl
        obtain ⟨rfl, rfl⟩ := Prod.mk.inj (Except.ok.inj hl)
        obtain ⟨hoka, hs, ht⟩ := (h _ _ _).mp ha
        obtain ⟨⟨hlen, hok, final, hfold⟩, hs', ht'⟩ := (ih next _ _ _).mp hrest
        dsimp only at hnext hs' ht' ⊢
        refine ⟨⟨by simp [hlen], ?_, final, ?_⟩, ?_, ?_⟩
        · simpa using ⟨hoka, hok⟩
        · rw [List.foldlM_cons, hnext]
          exact hfold
        · rw [hs, hs', List.flatMap_cons, List.append_assoc]
        · rw [ht', ht, List.flatMap_cons, List.length_append, Nat.add_assoc]
      · rintro ⟨⟨hlen, hok, final, hfold⟩, hs, hs'⟩
        obtain ⟨a, rest, rfl⟩ := List.exists_cons_of_length_eq_add_one hlen
        rw [List.foldlM_cons] at hfold
        obtain ⟨next, hnext, hfold⟩ := Except.bind_eq_ok.mp hfold
        dsimp only at hs hs'
        rw [List.flatMap_cons] at hs hs'
        refine ⟨⟨a, s.1 + (encode a).length, rest.flatMap encode ++ s'.2⟩,
          (h _ _ _).mpr ⟨hok a (by simp), by rw [hs, List.append_assoc], rfl⟩, ?_⟩
        rw [run_check_bind]
        refine Except.bind_eq_ok.mpr ⟨next, hnext, Except.bind_eq_ok.mpr ⟨⟨rest, s'⟩, (ih next _ _ _).mpr ⟨⟨by simpa using hlen,
          fun b hb => hok b (by simp [hb]), final, hfold⟩, rfl, ?_⟩, rfl⟩⟩
        rw [hs', List.length_append, Nat.add_assoc]

/-- The whole of `bytes` decodes to the value it encodes. -/
theorem Exact.decodeAll_eq_ok (h : Exact p encode ok) {rest : Nat → ε} {bytes : List UInt8} {a : α} :
    decodeAll p rest bytes = .ok a ↔ ok a ∧ bytes = encode a := by
  unfold decodeAll
  constructor
  · intro ha
    split at ha
    · cases ha
    · rename_i a' position left hp
      split at ha
      · rename_i hleft
        cases ha
        obtain ⟨hok, hs, _⟩ := (h _ _ _).mp hp
        exact ⟨hok, by simpa [hleft] using hs⟩
      · cases ha
  · rintro ⟨hok, rfl⟩
    have hp := (h (0, encode a) ((encode a).length, []) a).mpr ⟨hok, by simp, by simp⟩
    simp [hp]

end Sequential

end Wire
