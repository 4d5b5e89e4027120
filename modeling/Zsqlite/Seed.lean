import Zsqlite.Samples

set_option autoImplicit false

/-! # The seed pool

`seed.rs`: the reservoirs of related databases are merged into one bounded pool of pages, each
with the databases it came from. A reservoir is streamed in the digest order of its file, and the
reading stops at the first page the pool refuses.

The invariant `Merged` is stated over all pages offered so far, those after an early stop included:
a refused page is not below the largest digest of a full pool, and the pages after it have larger
digests still, so offering them would change nothing (`Refuses.mono`, `Merged.skip`).
-/

namespace Zsqlite

open ByteVec Wire Sampling

namespace Seed

structure Sample where
  bytes : Bytes
  origins : Finset Nat
  plain : Nat

structure Pool where
  pages : BTreeMap Digest Sample
  bytes : Nat
  budget : Nat

namespace Pool

def new (budget : Nat) : Pool := ⟨∅, 0, budget⟩

/-- Pop the largest digests until the bytes fit or no page is left. -/
def trim (p : Pool) : Pool :=
  if p.bytes ≤ p.budget then p
  else
    match _h : p.pages.maxKey? with
    | none => p
    | some last =>
        trim { p with
          pages := p.pages.erase last
          bytes := p.bytes - (p.pages[last]?.map fun sample => sample.bytes.length).getD 0 }
termination_by p.pages.size
decreasing_by
  have hmem : last ∈ p.pages := Std.ExtTreeMap.maxKey?_mem _h
  have hpos : p.pages.size ≠ 0 := by
    intro h0
    rw [Std.ExtTreeMap.eq_empty_iff_size_eq_zero.mpr h0] at hmem
    exact Std.ExtTreeMap.not_mem_empty hmem
  rw [Std.ExtTreeMap.size_erase, if_pos (Std.ExtTreeMap.contains_iff_mem.mpr hmem)]
  omega

/-- Offer a page; `false` once a digest can no longer enter the full pool. -/
def insert (p : Pool) (id : Digest) (bytes : Bytes) (origin : Nat) : Bool × Pool :=
  match p.pages[id]? with
  | some sample =>
      (true, { p with
        pages := p.pages.insert id { sample with origins := Insert.insert origin sample.origins } })
  | none =>
      if p.budget < p.bytes + bytes.length ∧
          (p.pages.maxKey?.any fun last => last ≤ id) = true then (false, p)
      else
        (true, trim { p with
          bytes := p.bytes + bytes.length
          pages := p.pages.insert id ⟨bytes, {origin}, 0⟩ })

end Pool

/-! ## Reading a reservoir -/

section Reading

variable (hash : Bytes → Digest)

/-- A little-endian number of `n` bytes. -/
def number (n : Nat) (d : Envelope.ReadDecoder) : Except StoreError (Nat × Envelope.ReadDecoder) := do
  let (bytes, d) ← d.array n
  return (leNat bytes, d)

/-- One page of the stream, with a digest above the one before. -/
def readPage (previous : Option Digest) (d : Envelope.ReadDecoder) :
    Except StoreError (Bytes × Envelope.ReadDecoder) := do
  let (length, d) ← number 4 d
  let size ← PageSize.new length
  let (bytes, d) ← d.take size.get
  Except.ensure (∀ last ∈ previous, last < hash bytes) (.corrupt 0)
  return (bytes, d)

/-- The loop of `read_reservoir`. The pool keeps what was offered before an error. -/
def readPages (origin : Nat) : Nat → Option Digest → Envelope.ReadDecoder → Pool →
    Except (StoreError × Pool) Pool
  | 0, _, _, pool => .ok pool
  | count + 1, previous, d, pool =>
      match readPage hash previous d with
      | .error e => .error (e, pool)
      | .ok (bytes, d) =>
          let (entered, pool) := pool.insert (hash bytes) bytes origin
          if entered then readPages origin count (some (hash bytes)) d pool else .ok pool

/-- What comes before the pages: their number. The hash of the content is not checked. -/
def openReservoir (stream : Bytes → Envelope.Stream) (encoded : Bytes) :
    Except StoreError (Nat × Envelope.ReadDecoder) := do
  Except.ensure (48 ≤ encoded.length) .io
  Except.ensure (encoded.take 8 = Samples.sampleMagic) (.corrupt 0)
  let length := leNat ((encoded.drop 8).take 8)
  Except.ensure (length ≤ maxSampleBytes + 1024 * 1024) .range
  let (_, d) ← number 8 (.new (stream (encoded.drop 48)) length)
  number 4 d

/-- `read_reservoir`; `stream` is the decompressing reader. -/
def readReservoir (stream : Bytes → Envelope.Stream) (pool : Pool) (encoded : Bytes)
    (origin : Nat) : Except (StoreError × Pool) Pool :=
  match openReservoir stream encoded with
  | .error e => .error (e, pool)
  | .ok (count, d) => readPages hash origin count none d pool

/-- The reservoirs one after the other; one that cannot be read is advisory. -/
def readAll (stream : Bytes → Envelope.Stream) (files : List (Nat × Bytes)) (pool : Pool) : Pool :=
  files.foldl (fun pool file => match readReservoir hash stream pool file.2 file.1 with
    | .ok pool => pool
    | .error (_, pool) => pool) pool

/-- The loop over pages that are already decoded. -/
def absorb (origin : Nat) : List Bytes → Pool → Pool
  | [], pool => pool
  | bytes :: rest, pool =>
      let (entered, pool) := pool.insert (hash bytes) bytes origin
      if entered then absorb origin rest pool else pool

end Reading

variable {hash : Bytes → Digest} {p : Pool} {size : Nat}

/-! ## Refused digests -/

/-- There is no room for `n` bytes, and the digest is above all that are kept. -/
structure Refuses (p : Pool) (n : Nat) (id : Digest) : Prop where
  fresh : id ∉ p.pages
  noRoom : p.budget < p.bytes + n
  above : (p.pages.maxKey?.any fun last => last ≤ id) = true

theorem insert_of_refuses {id : Digest} {bytes : Bytes} (h : Refuses p bytes.length id)
    (origin : Nat) : p.insert id bytes origin = (false, p) := by
  unfold Pool.insert
  rw [Std.ExtTreeMap.getElem?_eq_none h.fresh]
  exact if_pos ⟨h.noRoom, h.above⟩

theorem refuses_of_insert {id : Digest} {bytes : Bytes} {origin : Nat}
    (h : (p.insert id bytes origin).1 = false) : Refuses p bytes.length id := by
  unfold Pool.insert at h
  split at h
  · cases h
  · rename_i hnone
    split at h
    · rename_i hcond
      refine ⟨fun hmem => ?_, hcond.1, hcond.2⟩
      rw [Std.ExtTreeMap.mem_iff_isSome_getElem?, hnone] at hmem
      cases hmem
    · cases h

theorem Refuses.le {n : Nat} {id : Digest} (h : Refuses p n id) : ∀ d ∈ keySet p.pages, d ≤ id := by
  intro d hd
  obtain ⟨last, hlast, hle⟩ := (Option.any_eq_true _ _).mp h.above
  obtain ⟨-, hmax⟩ := Std.ExtTreeMap.maxKey?_eq_some_iff_mem_and_forall.mp hlast
  exact (Nat.isLE_compare.mp (hmax d (mem_keySet.mp hd))).trans (of_decide_eq_true hle)

/-- **What comes after a refused digest is refused.** -/
theorem Refuses.mono {n : Nat} {id id' : Digest} (h : Refuses p n id) (hlt : id < id') :
    Refuses p n id' := by
  refine ⟨fun hmem => ?_, h.noRoom, ?_⟩
  · exact absurd (h.le id' (mem_keySet.mpr hmem)) (Nat.not_le_of_lt hlt)
  · obtain ⟨last, hlast, hle⟩ := (Option.any_eq_true _ _).mp h.above
    refine (Option.any_eq_true _ _).mpr ⟨last, hlast, ?_⟩
    exact decide_eq_true ((of_decide_eq_true hle).trans (Nat.le_of_lt hlt))

/-! ## The invariant -/

/-- The pool after the pages `offered`, each with its origin, all of one size. -/
structure Merged (hash : Bytes → Digest) (size : Nat) (offered : List (Nat × Bytes)) (p : Pool) :
    Prop where
  keyed : ∀ (d : Digest) sample, p.pages[d]? = some sample →
    hash sample.bytes = d ∧ sample.bytes.length = size ∧ ∃ o, (o, sample.bytes) ∈ offered
  counted : p.bytes = total (fun sample => sample.bytes.length) p.pages
  bounded : p.bytes ≤ p.budget
  smallest : Smallest (p.budget / size) (offered.map fun e => hash e.2).toFinset (keySet p.pages)
  origins : ∀ (d : Digest) sample, p.pages[d]? = some sample →
    ∀ o, o ∈ sample.origins ↔ ∃ b, (o, b) ∈ offered ∧ hash b = d

theorem merged_new (budget : Nat) : Merged hash size [] (Pool.new budget) where
  keyed d sample h := by simp [Pool.new] at h
  counted := total_empty.symm
  bounded := Nat.zero_le _
  smallest := by
    have hempty : keySet (Pool.new budget).pages = ∅ := by
      refine Finset.eq_empty_of_forall_notMem fun d hd => ?_
      exact Std.ExtTreeMap.not_mem_empty (mem_keySet.mp hd)
    rw [hempty]
    exact Smallest.empty _
  origins d sample h := by simp [Pool.new] at h

variable {offered : List (Nat × Bytes)}

/-- Only which pages were offered matters. -/
theorem Merged.congr (h : Merged hash size offered p) {offered' : List (Nat × Bytes)}
    (hsame : ∀ e, e ∈ offered ↔ e ∈ offered') : Merged hash size offered' p where
  keyed d sample hd := by
    obtain ⟨h₁, h₂, o, ho⟩ := h.keyed d sample hd
    exact ⟨h₁, h₂, o, (hsame _).mp ho⟩
  counted := h.counted
  bounded := h.bounded
  smallest := by
    have heq : (offered'.map fun e => hash e.2).toFinset =
        (offered.map fun e => hash e.2).toFinset := by
      ext d
      simp only [List.mem_toFinset, List.mem_map, hsame]
    rw [heq]
    exact h.smallest
  origins d sample hd o := by
    rw [h.origins d sample hd o]
    simp only [hsame]

section Insert

variable (h : Merged hash size offered p)
include h

theorem Merged.bytes_eq : p.bytes = p.pages.size * size :=
  h.counted.trans (total_const fun d sample hd => (h.keyed d sample hd).2.1)

/-- Without room for a page the pool holds as many as fit. -/
theorem Merged.full (hpos : 0 < size) (hno : p.budget < p.bytes + size) :
    (keySet p.pages).card = p.budget / size := by
  have hle : p.pages.size ≤ p.budget / size := by
    rw [Nat.le_div_iff_mul_le hpos, ← h.bytes_eq]
    exact h.bounded
  have hlt : p.budget / size < p.pages.size + 1 := by
    rw [Nat.div_lt_iff_lt_mul hpos, Nat.succ_mul, ← h.bytes_eq]
    exact hno
  rw [card_keySet]
  omega

theorem Merged.card_lt (hpos : 0 < size) (hroom : p.bytes + size ≤ p.budget) :
    (keySet p.pages).card < p.budget / size := by
  rw [card_keySet, ← Nat.succ_le_iff, Nat.le_div_iff_mul_le hpos, Nat.succ_mul, ← h.bytes_eq]
  exact hroom

omit h in
/-- Who contributed a digest, with one more page. -/
theorem attributed_cons {o o' : Nat} {b : Bytes} {d : Digest} :
    (∃ b', (o', b') ∈ (o, b) :: offered ∧ hash b' = d) ↔
      (o' = o ∧ hash b = d) ∨ ∃ b', (o', b') ∈ offered ∧ hash b' = d := by
  constructor
  · rintro ⟨b', hb', hd⟩
    rcases List.mem_cons.mp hb' with heq | hb'
    · cases heq
      exact .inl ⟨rfl, hd⟩
    · exact .inr ⟨b', hb', hd⟩
  · rintro (⟨rfl, hd⟩ | ⟨b', hb', hd⟩)
    · exact ⟨b, List.mem_cons_self, hd⟩
    · exact ⟨b', List.mem_cons_of_mem _ hb', hd⟩

/-- A page that is kept was offered, also with one more page. -/
theorem Merged.keyed_cons {d : Digest} {sample : Sample} (hd : p.pages[d]? = some sample)
    (e : Nat × Bytes) : hash sample.bytes = d ∧ sample.bytes.length = size ∧
      ∃ o, (o, sample.bytes) ∈ e :: offered := by
  obtain ⟨h₁, h₂, o, ho⟩ := h.keyed d sample hd
  exact ⟨h₁, h₂, o, List.mem_cons_of_mem _ ho⟩

/-- The origins of other digests stay. -/
theorem Merged.origins_cons {d : Digest} {sample : Sample} (hd : p.pages[d]? = some sample)
    {b : Bytes} (hne : hash b ≠ d) (o o' : Nat) :
    o' ∈ sample.origins ↔ ∃ b', (o', b') ∈ (o, b) :: offered ∧ hash b' = d := by
  rw [attributed_cons, h.origins d sample hd o']
  constructor
  · exact .inr
  · rintro (⟨-, heq⟩ | hold)
    · exact absurd heq hne
    · exact hold

/-- A page that is offered and not kept. -/
theorem Merged.drop {b : Bytes} (hfresh : hash b ∉ p.pages)
    (hfull : (keySet p.pages).card = p.budget / size) (hle : ∀ d ∈ keySet p.pages, d ≤ hash b)
    (o : Nat) : Merged hash size ((o, b) :: offered) p where
  keyed d sample hd := h.keyed_cons hd (o, b)
  counted := h.counted
  bounded := h.bounded
  smallest := by
    rw [List.map_cons, List.toFinset_cons]
    exact h.smallest.insert_of_le (fun hm => hfresh (mem_keySet.mp hm)) hfull hle
  origins d sample hd o' := by
    refine h.origins_cons hd ?_ o o'
    rintro rfl
    exact hfresh (Std.ExtTreeMap.mem_iff_isSome_getElem?.mpr (by rw [hd]; rfl))

theorem Merged.skip (hpos : 0 < size) {b : Bytes} (hr : Refuses p size (hash b)) (o : Nat) :
    Merged hash size ((o, b) :: offered) p :=
  h.drop hr.fresh (h.full hpos hr.noRoom) hr.le o

/-- A page that is kept already gets another origin. -/
theorem Merged.attribute {b : Bytes} {sample : Sample} (hd : p.pages[hash b]? = some sample)
    (o : Nat) : Merged hash size ((o, b) :: offered) { p with
      pages := p.pages.insert (hash b)
        { sample with origins := Insert.insert o sample.origins } } := by
  have hmem : hash b ∈ keySet p.pages :=
    mem_keySet.mpr (Std.ExtTreeMap.mem_iff_isSome_getElem?.mpr (by rw [hd]; rfl))
  refine ⟨fun d s hs => ?_, ?_, h.bounded, ?_, fun d s hs o' => ?_⟩
  · dsimp only at hs
    rw [getElem?_insert_eq] at hs
    split at hs
    · rename_i hdb
      cases hs
      rw [hdb]
      exact h.keyed_cons hd (o, b)
    · exact h.keyed_cons hs (o, b)
  · have hsame : total (fun sample => sample.bytes.length) (p.pages.insert (hash b)
        { sample with origins := Insert.insert o sample.origins }) =
        total (fun sample => sample.bytes.length) p.pages := total_overwrite hd rfl
    exact h.counted.trans hsame.symm
  · dsimp only
    rw [keySet_insert, Finset.insert_eq_of_mem hmem, List.map_cons, List.toFinset_cons]
    exact h.smallest.insert_mem hmem
  · dsimp only at hs
    rw [getElem?_insert_eq] at hs
    split at hs
    · rename_i hdb
      cases hs
      dsimp only
      rw [Finset.mem_insert, h.origins _ sample hd o', hdb, attributed_cons]
      simp only [and_true]
    · rename_i hdb
      exact h.origins_cons hs (fun heq => hdb heq.symm) o o'

/-- A digest that enters the pool was offered by nobody before: what was offered and is not kept
is above all that is kept, of a full pool. -/
theorem Merged.unseen (hpos : 0 < size) {d : Digest} (hfresh : d ∉ p.pages)
    (henter : p.budget < p.bytes + size → ∃ last ∈ keySet p.pages, d < last) (o : Nat) (b : Bytes)
    (hb : (o, b) ∈ offered) : hash b ≠ d := by
  rintro rfl
  have hin : hash b ∈ (offered.map fun e => hash e.2).toFinset :=
    List.mem_toFinset.mpr (List.mem_map.mpr ⟨(o, b), hb, rfl⟩)
  have hout : hash b ∉ keySet p.pages := fun hm => hfresh (mem_keySet.mp hm)
  by_cases hroom : p.bytes + size ≤ p.budget
  · exact hout (h.smallest.eq_of_card_lt (h.card_lt hpos hroom) ▸ hin)
  · obtain ⟨last, hlast, hlt⟩ := henter (by omega)
    exact lt_asymm hlt (h.smallest.below last hlast _ hin hout)

/-- A page that is new to the pool, which may lose others for it. -/
theorem Merged.enter {b : Bytes} (hb : b.length = size) {o : Nat}
    (hunseen : ∀ o' b', (o', b') ∈ offered → hash b' ≠ hash b) {p' : Pool}
    (hbudget : p'.budget = p.budget)
    (hpages : ∀ (d : Digest) s, p'.pages[d]? = some s →
      (d = hash b ∧ s = ⟨b, {o}, 0⟩) ∨ (d ≠ hash b ∧ p.pages[d]? = some s))
    (hcounted : p'.bytes = total (fun sample => sample.bytes.length) p'.pages)
    (hbounded : p'.bytes ≤ p'.budget)
    (hsmallest : Smallest (p.budget / size)
      (Insert.insert (hash b) (offered.map fun e => hash e.2).toFinset) (keySet p'.pages)) :
    Merged hash size ((o, b) :: offered) p' where
  keyed d s hs := by
    rcases hpages d s hs with ⟨rfl, rfl⟩ | ⟨-, hold⟩
    · exact ⟨rfl, hb, o, List.mem_cons_self⟩
    · exact h.keyed_cons hold (o, b)
  counted := hcounted
  bounded := hbounded
  smallest := by
    rw [hbudget, List.map_cons, List.toFinset_cons]
    exact hsmallest
  origins d s hs o' := by
    rcases hpages d s hs with ⟨rfl, rfl⟩ | ⟨hne, hold⟩
    · rw [attributed_cons, Finset.mem_singleton]
      constructor
      · exact fun heq => .inl ⟨heq, rfl⟩
      · rintro (⟨heq, -⟩ | ⟨b', hb', hd⟩)
        · exact heq
        · exact absurd hd (hunseen o' b' hb')
    · exact h.origins_cons hold hne.symm o o'

end Insert

/-! ## Offering a page -/

theorem trim_done (h : p.bytes ≤ p.budget) : p.trim = p := by
  rw [Pool.trim, if_pos h]

theorem trim_pop (h : p.budget < p.bytes) {last : Digest} {sample : Sample}
    (hlast : p.pages.maxKey? = some last) (hs : p.pages[last]? = some sample) :
    p.trim = Pool.trim { p with
      pages := p.pages.erase last, bytes := p.bytes - sample.bytes.length } := by
  rw [Pool.trim, if_neg (by omega)]
  split
  · rename_i hnone
    rw [hlast] at hnone
    cases hnone
  · rename_i last' hlast'
    rw [hlast] at hlast'
    cases hlast'
    rw [hs, Option.map_some, Option.getD_some]

/-- The pool with a page added, before anything is popped. -/
def added (p : Pool) (id : Digest) (bytes : Bytes) (origin : Nat) : Pool :=
  { p with bytes := p.bytes + bytes.length, pages := p.pages.insert id ⟨bytes, {origin}, 0⟩ }

theorem insert_of_enters {id : Digest} {bytes : Bytes} {origin : Nat} (hfresh : id ∉ p.pages)
    (h : ¬ Refuses p bytes.length id) :
    p.insert id bytes origin = (true, (added p id bytes origin).trim) := by
  unfold Pool.insert
  rw [Std.ExtTreeMap.getElem?_eq_none hfresh]
  exact if_neg fun hc => h ⟨hfresh, hc.1, hc.2⟩

theorem pages_added {id d : Digest} {bytes : Bytes} {origin : Nat} {s : Sample}
    (h : (added p id bytes origin).pages[d]? = some s) :
    (d = id ∧ s = ⟨bytes, {origin}, 0⟩) ∨ (d ≠ id ∧ p.pages[d]? = some s) := by
  unfold added at h
  dsimp only at h
  rw [getElem?_insert_eq] at h
  split at h
  · rename_i hd
    cases h
    exact .inl ⟨hd, rfl⟩
  · rename_i hd
    exact .inr ⟨hd, h⟩

theorem Merged.counted_added (h : Merged hash size offered p) {id : Digest} {bytes : Bytes}
    {origin : Nat} (hfresh : id ∉ p.pages) : (added p id bytes origin).bytes =
      total (fun sample => sample.bytes.length) (added p id bytes origin).pages := by
  unfold added
  dsimp only
  rw [total_insert hfresh, ← h.counted]
  exact Nat.add_comm _ _

/-- **Offering a page** keeps the invariant, whatever becomes of the page. -/
theorem Merged.insert (h : Merged hash size offered p) (hpos : 0 < size) {b : Bytes}
    (hb : b.length = size) (o : Nat) :
    Merged hash size ((o, b) :: offered) (p.insert (hash b) b o).2 ∧
      (p.insert (hash b) b o).2.budget = p.budget := by
  by_cases hmem : hash b ∈ p.pages
  · obtain ⟨sample, hs⟩ := Option.isSome_iff_exists.mp
      (Std.ExtTreeMap.mem_iff_isSome_getElem?.mp hmem)
    unfold Pool.insert
    rw [hs]
    exact ⟨h.attribute hs o, rfl⟩
  by_cases hr : Refuses p b.length (hash b)
  · rw [insert_of_refuses hr]
    rw [hb] at hr
    exact ⟨h.skip hpos hr o, rfl⟩
  rw [insert_of_enters hmem hr]
  have hnew : hash b ∉ keySet p.pages := fun hm => hmem (mem_keySet.mp hm)
  by_cases hroom : p.bytes + b.length ≤ p.budget
  · -- There is room, so nothing is popped.
    rw [trim_done (by exact hroom)]
    refine ⟨h.enter hb (h.unseen hpos hmem fun hno => by omega) rfl (fun d s => pages_added)
      (h.counted_added hmem) hroom ?_, rfl⟩
    unfold added
    rw [keySet_insert]
    exact h.smallest.insert_of_card_lt hnew (h.card_lt hpos (hb ▸ hroom))
  have hno : p.budget < p.bytes + size := by omega
  have hfull := h.full hpos hno
  by_cases hempty : p.pages = ∅
  · -- Not even one page fits: the page is popped again.
    have hbytes : p.bytes = 0 := by rw [h.counted, hempty, total_empty]
    have hlast : (added p (hash b) b o).pages.maxKey? = some (hash b) := by
      unfold added
      rw [hempty]
      refine Std.ExtTreeMap.maxKey?_eq_some_iff_mem_and_forall.mpr ⟨by simp, fun d hd => ?_⟩
      rw [← mem_keySet, keySet_insert] at hd
      rcases Finset.mem_insert.mp hd with rfl | hd
      · exact Nat.isLE_compare.mpr le_rfl
      · exact absurd (mem_keySet.mp hd) Std.ExtTreeMap.not_mem_empty
    have hs : (added p (hash b) b o).pages[hash b]? = some ⟨b, {o}, 0⟩ := by
      unfold added
      rw [getElem?_insert_eq, if_pos rfl]
    have hback : ({ added p (hash b) b o with
        pages := (added p (hash b) b o).pages.erase (hash b)
        bytes := (added p (hash b) b o).bytes - b.length } : Pool) = p := by
      have hpages : (p.pages.insert (hash b) ⟨b, {o}, 0⟩).erase (hash b) = p.pages := by
        refine Std.ExtTreeMap.ext_getElem? fun j => ?_
        rw [getElem?_erase_eq, getElem?_insert_eq]
        by_cases hj : j = hash b
        · rw [if_pos hj, hj, Std.ExtTreeMap.getElem?_eq_none hmem]
        · rw [if_neg hj, if_neg hj]
      unfold added
      dsimp only
      rw [hpages, Nat.add_sub_cancel]
    rw [trim_pop (by exact Nat.lt_of_not_le hroom) hlast hs, hback, trim_done h.bounded]
    refine ⟨h.drop hmem hfull (fun d hd => ?_) o, rfl⟩
    rw [hempty] at hd
    exact absurd (mem_keySet.mp hd) Std.ExtTreeMap.not_mem_empty
  · -- The page takes the place of the one with the largest digest.
    obtain ⟨last, sample, hlast, hs, hmax⟩ := exists_maxKey hempty
    have hin : last ∈ keySet p.pages :=
      mem_keySet.mpr (Std.ExtTreeMap.mem_iff_isSome_getElem?.mpr (by rw [hs]; rfl))
    have hlt : hash b < last := by
      refine Nat.lt_of_not_le fun hle => hr ⟨hmem, by omega, ?_⟩
      rw [hlast]
      exact decide_eq_true hle
    have hlast' : (added p (hash b) b o).pages.maxKey? = some last := by
      unfold added
      refine Std.ExtTreeMap.maxKey?_eq_some_iff_mem_and_forall.mpr ⟨?_, fun d hd => ?_⟩
      · rw [← mem_keySet, keySet_insert]
        exact Finset.mem_insert_of_mem hin
      · rw [← mem_keySet, keySet_insert] at hd
        refine Nat.isLE_compare.mpr ?_
        rcases Finset.mem_insert.mp hd with rfl | hd
        · exact hlt.le
        · exact hmax d hd
    have hs' : (added p (hash b) b o).pages[last]? = some sample := by
      unfold added
      rw [getElem?_insert_eq, if_neg hlt.ne', hs]
    have hlength := (h.keyed last sample hs).2.1
    have htotal : (added p (hash b) b o).bytes =
        total (fun sample => sample.bytes.length) (added p (hash b) b o).pages :=
      h.counted_added hmem
    rw [total_erase hs'] at htotal
    have hbytes : (added p (hash b) b o).bytes = p.bytes + b.length := rfl
    have hbounded := h.bounded
    rw [trim_pop (by exact Nat.lt_of_not_le hroom) hlast' hs',
      trim_done (by dsimp only [added] at hbytes ⊢; omega)]
    refine ⟨h.enter hb (h.unseen hpos hmem fun _ => ⟨last, hin, hlt⟩) rfl (fun d s hd => ?_)
      (by dsimp only; omega) (by dsimp only [added] at hbytes ⊢; omega) ?_, rfl⟩
    · dsimp only at hd
      rw [getElem?_erase_eq] at hd
      split at hd
      · cases hd
      · exact pages_added hd
    · dsimp only [added]
      rw [keySet_erase, keySet_insert]
      exact h.smallest.insert_erase hnew hfull hin hmax hlt

/-- **Offering the pages of a reservoir** in digest order, with the stop at the first refusal. By
induction on the pages, from any pool in order. -/
theorem Merged.absorb (hpos : 0 < size) (o : Nat) {pages : List Bytes}
    (hsize : ∀ b ∈ pages, b.length = size) (hsorted : pages.Pairwise fun a b => hash a < hash b)
    (h : Merged hash size offered p) :
    Merged hash size (pages.map (fun b => (o, b)) ++ offered) (absorb hash o pages p) ∧
      (Seed.absorb hash o pages p).budget = p.budget := by
  induction pages generalizing p offered with
  | nil => exact ⟨h, rfl⟩
  | cons b rest ih =>
      have hb : b.length = size := hsize b List.mem_cons_self
      have hrest : ∀ x ∈ rest, x.length = size := fun x hx => hsize x (List.mem_cons_of_mem _ hx)
      obtain ⟨hlt, hsorted⟩ := List.pairwise_cons.mp hsorted
      obtain ⟨hm, hbudget⟩ := h.insert hpos hb o
      rw [Seed.absorb]
      dsimp only
      by_cases hgo : (p.insert (hash b) b o).1 = true
      · rw [if_pos hgo]
        obtain ⟨hrun, hsame⟩ := ih hrest hsorted hm
        refine ⟨hrun.congr fun e => ?_, hsame.trans hbudget⟩
        simp only [List.mem_append, List.mem_cons, List.map_cons]
        tauto
      · rw [if_neg hgo]
        refine ⟨?_, hbudget⟩
        have hr : Refuses p size (hash b) :=
          hb ▸ refuses_of_insert (Bool.eq_false_iff.mpr hgo)
        rw [insert_of_refuses (hb.symm ▸ hr)] at hm ⊢
        -- The pages after the refused one are refused as well, one by one.
        have hskip : ∀ (l : List Bytes), (∀ x ∈ l, hash b < hash x) → ∀ {offered},
            Merged hash size offered p → Merged hash size (l.map (fun x => (o, x)) ++ offered) p := by
          intro l
          induction l with
          | nil => exact fun _ _ hm => hm
          | cons x l ihl =>
              intro hl offered hm
              exact (ihl (fun y hy => hl y (List.mem_cons_of_mem _ hy)) hm).skip hpos
                (hr.mono (hl x List.mem_cons_self)) o
        refine (hskip rest hlt hm).congr fun e => ?_
        simp only [List.mem_append, List.mem_cons, List.map_cons]
        tauto

/-! ## The bytes of a reservoir -/

section Bytes

variable {d : Envelope.ReadDecoder}

/-- A decoder within its length, in front of the bytes `rest`. -/
structure Before (d : Envelope.ReadDecoder) (rest : Bytes) : Prop where
  reader : d.reader.rest = rest
  fits : d.position + rest.length ≤ d.length
  small : d.length ≤ u64Max

theorem Before.readExact {b rest : Bytes} (h : Before d (b ++ rest)) :
    ∃ d', d.readExact b.length = .ok (b, d') ∧ Before d' rest := by
  have hfits := h.fits
  have hsmall := h.small
  rw [List.length_append] at hfits
  unfold Envelope.ReadDecoder.readExact
  rw [Except.bind_of_ok (Except.ensure_of (by omega) _),
    Except.bind_of_ok (Except.ensure_of (by omega) _), Except.bind_of_ok (Except.ensure_of (by
      rw [h.reader, List.length_append]
      omega) _)]
  dsimp only
  rw [h.reader, List.take_left, List.drop_left]
  exact ⟨_, rfl, rfl, by dsimp only; omega, hsmall⟩

theorem Before.take {b rest : Bytes} (h : Before d (b ++ rest)) :
    ∃ d', d.take b.length = .ok (b, d') ∧ Before d' rest := by
  have hfits := h.fits
  rw [List.length_append] at hfits
  unfold Envelope.ReadDecoder.take
  rw [Except.bind_of_ok (Except.ensure_of (by omega) _)]
  exact h.readExact

theorem Before.number {n k : Nat} {rest : Bytes} (hk : k < 256 ^ n)
    (h : Before d (leBytes n k ++ rest)) : ∃ d', number n d = .ok (k, d') ∧ Before d' rest := by
  obtain ⟨d', hread, hd'⟩ := h.readExact
  rw [length_leBytes] at hread
  refine ⟨d', ?_, hd'⟩
  unfold Seed.number Envelope.ReadDecoder.array
  rw [Except.bind_of_ok hread]
  dsimp only
  rw [leNat_leBytes hk]
  rfl

theorem Before.readPage {b rest : Bytes} (hvalid : validPageSize b.length = true)
    {previous : Option Digest} (hprevious : ∀ last ∈ previous, last < hash b)
    (h : Before d (Samples.pageEntry b ++ rest)) :
    ∃ d', readPage hash previous d = .ok (b, d') ∧ Before d' rest := by
  have hsize := (le_of_validPageSize hvalid).2
  rw [Samples.pageEntry, List.append_assoc] at h
  obtain ⟨d₁, hlength, h⟩ := h.number (by omega)
  obtain ⟨d₂, hbytes, h⟩ := h.take
  refine ⟨d₂, ?_, h⟩
  have hnew : PageSize.new b.length = .ok ⟨b.length, hvalid⟩ := dif_pos hvalid
  unfold Seed.readPage
  rw [Except.bind_of_ok hlength]
  dsimp only
  rw [Except.bind_of_ok hnew, Except.bind_of_ok hbytes]
  dsimp only
  rw [Except.bind_of_ok (Except.ensure_of hprevious _)]
  rfl

/-- **The loop over the bytes is the loop over the pages.** -/
theorem Before.readPages (o : Nat) {pages : List Bytes}
    (hvalid : ∀ b ∈ pages, validPageSize b.length = true)
    (hsorted : pages.Pairwise fun a b => hash a < hash b) {previous : Option Digest}
    (hprevious : ∀ last ∈ previous, ∀ b ∈ pages, last < hash b) (pool : Pool)
    (h : Before d (pages.flatMap Samples.pageEntry)) :
    readPages hash o pages.length previous d pool = .ok (absorb hash o pages pool) := by
  induction pages generalizing previous d pool with
  | nil => rfl
  | cons b rest ih =>
      obtain ⟨hlt, hsorted⟩ := List.pairwise_cons.mp hsorted
      rw [List.flatMap_cons] at h
      obtain ⟨d', hpage, h⟩ := h.readPage (hvalid b List.mem_cons_self)
        (fun last hl => hprevious last hl b List.mem_cons_self)
      rw [List.length_cons, Seed.readPages, hpage, absorb]
      dsimp only
      by_cases hgo : (pool.insert (hash b) b o).1 = true
      · rw [if_pos hgo, if_pos hgo]
        refine ih (fun x hx => hvalid x (List.mem_cons_of_mem _ hx)) hsorted (fun last hl x hx => ?_)
          _ h
        rw [Option.mem_some_iff] at hl
        rw [← hl]
        exact hlt x hx
      · rw [if_neg hgo, if_neg hgo]

end Bytes

/-! ## Reservoirs -/

/-- A reservoir of pages of one size, and the file it was written to. -/
structure Reservoir (hash : Bytes → Digest) (zstd : Zstd) (size : Nat) (s : Samples)
    (file : Bytes) : Prop where
  kept : ∃ inserted, s.Kept hash inserted
  uniform : ∀ (d : Digest) b, s.pages[d]? = some b → b.length = size
  written : s.encode hash zstd = .ok (some file)

/-- The pages of a reservoir in the order of its file. -/
def pagesOf (s : Samples) : List Bytes := s.pages.toList.map Prod.snd

namespace Reservoir

variable {zstd : Zstd} {s : Samples} {file : Bytes} (r : Reservoir hash zstd size s file)
include r

theorem mem_pagesOf {b : Bytes} : b ∈ pagesOf s ↔ s.pages[hash b]? = some b := by
  obtain ⟨inserted, hkept⟩ := r.kept
  unfold pagesOf
  rw [List.mem_map]
  constructor
  · rintro ⟨e, he, rfl⟩
    have hin : s.pages[e.1]? = some e.2 := Std.ExtTreeMap.mem_toList_iff_getElem?_eq_some.mp he
    rw [(hkept.keyed e.1 e.2 hin).1]
    exact hin
  · exact fun hb => ⟨(hash b, b), Std.ExtTreeMap.mem_toList_iff_getElem?_eq_some.mpr hb, rfl⟩

theorem sorted : (pagesOf s).Pairwise fun a b => hash a < hash b := by
  obtain ⟨inserted, hkept⟩ := r.kept
  have hentry : ∀ e ∈ s.pages.toList, hash e.2 = e.1 := fun e he =>
    (hkept.keyed e.1 e.2 (Std.ExtTreeMap.mem_toList_iff_getElem?_eq_some.mp he)).1
  unfold pagesOf
  rw [List.pairwise_map]
  refine Std.ExtTreeMap.ordered_keys_toList.imp_of_mem fun {a b} ha hb hlt => ?_
  rw [hentry a ha, hentry b hb]
  exact Nat.compare_eq_lt.mp hlt

theorem size_pagesOf : ∀ b ∈ pagesOf s, b.length = size := fun b hb =>
  r.uniform _ b (r.mem_pagesOf.mp hb)

theorem mem_keySet_iff {d : Digest} : d ∈ s.pages ↔ ∃ b ∈ pagesOf s, hash b = d := by
  obtain ⟨inserted, hkept⟩ := r.kept
  constructor
  · intro hd
    obtain ⟨b, hb⟩ := Option.isSome_iff_exists.mp (Std.ExtTreeMap.mem_iff_isSome_getElem?.mp hd)
    have hkey := (hkept.keyed d b hb).1
    exact ⟨b, r.mem_pagesOf.mpr (hkey ▸ hb), hkey⟩
  · rintro ⟨b, hb, rfl⟩
    exact Std.ExtTreeMap.mem_iff_isSome_getElem?.mpr (by rw [r.mem_pagesOf.mp hb]; rfl)

theorem file_eq : file = Envelope.envelope hash zstd Samples.sampleMagic
    (Samples.rawEncoding s.fresh (pagesOf s)) := by
  have h := r.written
  unfold Samples.encode at h
  split at h
  · cases h
  · obtain ⟨_, -, h⟩ := Except.bind_eq_ok.mp h
    obtain ⟨_, -, h⟩ := Except.bind_eq_ok.mp h
    exact Option.some.inj (Except.pure_eq_ok.mp h)

/-- **Reading the file** of a reservoir offers its pages to the pool. -/
theorem read {stream : Bytes → Envelope.Stream} (hagree : Envelope.Agree zstd stream)
    (pool : Pool) (o : Nat) :
    readReservoir hash stream pool file o = .ok (absorb hash o (pagesOf s) pool) := by
  obtain ⟨inserted, hkept⟩ := r.kept
  obtain rfl := r.file_eq
  have hraw : (Samples.rawEncoding s.fresh (pagesOf s)).length ≤ maxSampleBytes + 1024 * 1024 :=
    hkept.length_rawEncoding_le
  have hcount : (pagesOf s).length ≤ maxSampleBytes / 512 := by
    unfold pagesOf
    rw [s.length_values]
    exact hkept.size_le
  have hfresh : s.fresh < 256 ^ 8 := by
    have := hkept.fresh
    have := s.budget.most
    have : maxSampleBytes < 256 ^ 8 := by decide
    omega
  have hmax : maxSampleBytes + 1024 * 1024 = 101711872 := rfl
  have hstream := (hagree.same _ _).mp
    (zstd.round_trip 3 none (Samples.rawEncoding s.fresh (pagesOf s)))
  -- The header: magic, length and hash, 48 bytes.
  set raw := Samples.rawEncoding s.fresh (pagesOf s) with hrawdef
  have hmagic : Samples.sampleMagic.length = 8 := rfl
  have hdrop : (Envelope.envelope hash zstd Samples.sampleMagic raw).drop 48 =
      zstd.compress 3 none raw := by
    unfold Envelope.envelope
    rw [← List.append_assoc, ← List.append_assoc]
    refine List.drop_left' ?_
    rw [List.length_append, List.length_append, length_leBytes, length_leBytes, hmagic]
  have hlength : leNat (((Envelope.envelope hash zstd Samples.sampleMagic raw).drop 8).take 8) =
      raw.length := by
    unfold Envelope.envelope
    rw [List.drop_left' hmagic, List.take_left' (length_leBytes _ _), leNat_leBytes (by omega)]
  have hbefore : Before (.new ⟨raw, true⟩ raw.length) raw := by
    refine ⟨rfl, ?_, ?_⟩
    · exact (Nat.zero_add _).le
    · exact hraw.trans (by decide)
  rw [hrawdef, Samples.rawEncoding] at hbefore
  obtain ⟨d₁, hfreshRead, hbefore⟩ := hbefore.number hfresh
  obtain ⟨d₂, hcountRead, hbefore⟩ := hbefore.number (by
    have : maxSampleBytes / 512 < 256 ^ 4 := by decide
    omega)
  have hopen : openReservoir stream (Envelope.envelope hash zstd Samples.sampleMagic raw) =
      .ok ((pagesOf s).length, d₂) := by
    unfold openReservoir
    rw [Except.bind_of_ok (Except.ensure_of _ _), Except.bind_of_ok (Except.ensure_of _ _)]
    · dsimp only
      rw [hlength, hdrop, hstream, Except.bind_of_ok (Except.ensure_of hraw _)]
      rw [hrawdef, Samples.rawEncoding, Except.bind_of_ok hfreshRead]
      exact hcountRead
    · exact List.take_left' hmagic
    · unfold Envelope.envelope
      rw [List.length_append, List.length_append, List.length_append, length_leBytes,
        length_leBytes, hmagic]
      omega
  unfold readReservoir
  rw [hopen]
  exact hbefore.readPages o hkept.valid_values r.sorted (fun last hl => by cases hl) pool

end Reservoir

/-! ## The merged pool -/

/-- The files of reservoirs, each with its origin. -/
def files (rs : List (Nat × Samples × Bytes)) : List (Nat × Bytes) := rs.map fun r => (r.1, r.2.2)

/-- The pages of reservoirs, each with its origin. -/
def offers (rs : List (Nat × Samples × Bytes)) : List (Nat × Bytes) :=
  rs.flatMap fun r => (pagesOf r.2.1).map fun b => (r.1, b)

section Merging

variable {zstd : Zstd} {stream : Bytes → Envelope.Stream}

theorem mem_offers {rs : List (Nat × Samples × Bytes)} {o : Nat} {b : Bytes} :
    (o, b) ∈ offers rs ↔ ∃ r ∈ rs, r.1 = o ∧ b ∈ pagesOf r.2.1 := by
  unfold offers
  rw [List.mem_flatMap]
  refine exists_congr fun r => and_congr_right fun _ => ?_
  rw [List.mem_map]
  constructor
  · rintro ⟨b', hb', heq⟩
    cases heq
    exact ⟨rfl, hb'⟩
  · rintro ⟨rfl, hb⟩
    exact ⟨b, hb, rfl⟩

/-- **Reservoirs one after the other.** By induction on the reservoirs. -/
theorem merged_readAll (hagree : Envelope.Agree zstd stream) (hpos : 0 < size)
    {rs : List (Nat × Samples × Bytes)} (hrs : ∀ r ∈ rs, Reservoir hash zstd size r.2.1 r.2.2)
    (h : Merged hash size offered p) :
    Merged hash size (offers rs ++ offered) (readAll hash stream (files rs) p) ∧
      (readAll hash stream (files rs) p).budget = p.budget := by
  induction rs generalizing p offered with
  | nil => exact ⟨h, rfl⟩
  | cons r rs ih =>
      have hr := hrs r List.mem_cons_self
      obtain ⟨hone, hbudget⟩ := h.absorb hpos r.1 hr.size_pagesOf hr.sorted
      obtain ⟨hall, hsame⟩ := ih (fun x hx => hrs x (List.mem_cons_of_mem _ hx)) hone
      have hstep : readAll hash stream (files (r :: rs)) p =
          readAll hash stream (files rs) (absorb hash r.1 (pagesOf r.2.1) p) := by
        unfold readAll files
        rw [List.map_cons, List.foldl_cons, hr.read hagree]
      rw [hstep]
      refine ⟨hall.congr fun e => ?_, hsame.trans hbudget⟩
      unfold offers
      simp only [List.mem_append, List.flatMap_cons]
      tauto

end Merging

/-- **Merging reservoirs.** Whatever the reservoirs of one page size and their order, no file fails
to be read, and the pool holds the smallest digests of their union that fit the budget, each with
its page and with exactly the origins whose reservoirs contain it. Where the reading of a reservoir
stops, each page from there on would be refused and leave the pool as it is. -/
theorem pool_merges {zstd : Zstd} {stream : Bytes → Envelope.Stream}
    (hagree : Envelope.Agree zstd stream) (hvalid : validPageSize size = true) (budget : Nat)
    (rs : List (Nat × Samples × Bytes)) (hrs : ∀ r ∈ rs, Reservoir hash zstd size r.2.1 r.2.2) :
    Smallest (budget / size) (rs.flatMap fun r => r.2.1.pages.keys).toFinset
      (keySet (readAll hash stream (files rs) (.new budget)).pages) ∧
    (readAll hash stream (files rs) (.new budget)).bytes ≤ budget ∧
    (∀ (d : Digest) sample, (readAll hash stream (files rs) (.new budget)).pages[d]? = some sample →
      (∃ r ∈ rs, r.2.1.pages[d]? = some sample.bytes) ∧
      ∀ o, o ∈ sample.origins ↔ ∃ r ∈ rs, r.1 = o ∧ d ∈ r.2.1.pages) ∧
    ∀ before r after, rs = before ++ r :: after →
      readReservoir hash stream (readAll hash stream (files before) (.new budget)) r.2.2 r.1 =
        .ok (readAll hash stream (files (before ++ [r])) (.new budget)) ∧
      ∀ done b rest, pagesOf r.2.1 = done ++ b :: rest → ∀ pool,
        absorb hash r.1 done (readAll hash stream (files before) (.new budget)) = pool →
        (pool.insert (hash b) b r.1).1 = false →
        ∀ x ∈ b :: rest, pool.insert (hash x) x r.1 = (false, pool) := by
  have hpos : 0 < size := by
    have := (le_of_validPageSize hvalid).1
    omega
  obtain ⟨hm, hbudget⟩ := merged_readAll hagree hpos hrs (merged_new budget)
  rw [List.append_nil] at hm
  have hsame : (readAll hash stream (files rs) (.new budget)).budget = budget := hbudget
  refine ⟨?_, hm.bounded.trans hsame.le, fun d sample hd => ⟨?_, fun o => ?_⟩, ?_⟩
  · have hsmallest := hm.smallest
    rw [hsame] at hsmallest
    have hunion : ((offers rs).map fun e => hash e.2).toFinset =
        (rs.flatMap fun r => r.2.1.pages.keys).toFinset := by
      ext d
      simp only [List.mem_toFinset, List.mem_map, List.mem_flatMap, Std.ExtTreeMap.mem_keys]
      constructor
      · rintro ⟨⟨o, b⟩, hin, hd⟩
        obtain ⟨r, hr, -, hb⟩ := mem_offers.mp hin
        exact ⟨r, hr, (hrs r hr).mem_keySet_iff.mpr ⟨b, hb, hd⟩⟩
      · rintro ⟨r, hr, hd⟩
        obtain ⟨b, hb, hd⟩ := (hrs r hr).mem_keySet_iff.mp hd
        exact ⟨(r.1, b), mem_offers.mpr ⟨r, hr, rfl, hb⟩, hd⟩
    rwa [hunion] at hsmallest
  · obtain ⟨hkey, -, o, ho⟩ := hm.keyed d sample hd
    obtain ⟨r, hr, -, hb⟩ := mem_offers.mp ho
    exact ⟨r, hr, hkey ▸ (hrs r hr).mem_pagesOf.mp hb⟩
  · rw [hm.origins d sample hd o]
    constructor
    · rintro ⟨b, hin, hkey⟩
      obtain ⟨r, hr, ho, hb⟩ := mem_offers.mp hin
      exact ⟨r, hr, ho, (hrs r hr).mem_keySet_iff.mpr ⟨b, hb, hkey⟩⟩
    · rintro ⟨r, hr, ho, hin⟩
      obtain ⟨b, hb, hkey⟩ := (hrs r hr).mem_keySet_iff.mp hin
      exact ⟨b, mem_offers.mpr ⟨r, hr, ho, hb⟩, hkey⟩
  · intro before r after heq
    have hr := hrs r (by rw [heq]; simp)
    refine ⟨?_, fun done b rest hpages pool hpool hstop x hx => ?_⟩
    · rw [hr.read hagree]
      unfold readAll files
      rw [List.map_append, List.foldl_append, List.map_singleton, List.foldl_cons, List.foldl_nil,
        hr.read hagree]
    · have hsorted := hr.sorted
      have hsize := hr.size_pagesOf
      rw [hpages] at hsorted hsize
      have hb : b.length = size := hsize b (by simp)
      have hx' : x.length = size := hsize x (List.mem_append_right _ hx)
      have hrefuses := refuses_of_insert hstop
      refine insert_of_refuses ?_ r.1
      rw [hx', ← hb]
      rcases List.mem_cons.mp hx with rfl | hx
      · exact hrefuses
      · have htail := (List.pairwise_append.mp hsorted).2.1
        exact hrefuses.mono ((List.pairwise_cons.mp htail).1 x hx)

/-- Two databases whose reservoirs hold the same page. -/
theorem pool_merges_shared : ∃ (s : Samples) (file : Bytes) (sample : Sample),
    (readAll (fun b => (b.headD 0).toNat) (fun compressed => ⟨compressed, true⟩)
      (files [(3, s, file), (8, s, file)]) (.new 8388608)).pages[1]? = some sample ∧
    sample.origins = {3, 8} := by
  -- The reservoir after one page of 512 bytes.
  have hnew : (Samples.new ⟨1048576, le_rfl, by decide⟩).Kept (fun b => (b.headD 0).toNat) [] :=
    Samples.kept_new _ []
  have hvalid : validPageSize 512 = true := by decide
  obtain ⟨s, hinsert, hkept, -, hclean⟩ := hnew.insert (List.replicate 512 1)
  have hempty : keySet (Samples.new ⟨1048576, le_rfl, by decide⟩).pages = ∅ :=
    Finset.eq_empty_of_forall_notMem fun d hd =>
      Std.ExtTreeMap.not_mem_empty (mem_keySet.mp hd)
  have hkeys : keySet s.pages = {1} := by
    have h := hnew.smallest_insert (S := ∅) hvalid (fun d b hb => by simp [Samples.new] at hb)
      (by rw [hempty]; exact Smallest.empty _) List.length_replicate hinsert
    refine h.unique ⟨Finset.Subset.refl _, rfl, fun a _ b hb hnb => absurd hb hnb⟩
  have hin : (1 : Nat) ∈ s.pages := mem_keySet.mp (by rw [hkeys]; exact Finset.mem_singleton_self 1)
  have hdirty : s.dirty = true := by
    rw [← Bool.not_eq_false]
    intro hd
    rw [hclean hd] at hin
    exact Std.ExtTreeMap.not_mem_empty hin
  have hzstd : Samples.CompressBound Zstd.stored := fun raw => by
    change raw.length ≤ _
    omega
  obtain ⟨file, hfile, -⟩ := Samples.load_encode
    (fun raw => (UInt8.toNat_lt _).trans (by decide)) hzstd hkept hdirty
  have hreservoir : Reservoir (fun b => (b.headD 0).toNat) Zstd.stored 512 s file := by
    refine ⟨⟨_, hkept⟩, fun d b hb => ?_, hfile⟩
    have hb := (hkept.keyed d b hb).2.1
    rw [List.mem_singleton] at hb
    rw [hb, List.length_replicate]
  have hagree : Envelope.Agree Zstd.stored fun compressed => ⟨compressed, true⟩ :=
    ⟨fun compressed raw => by simp [Zstd.stored]⟩
  obtain ⟨hsmallest, -, hkept', -⟩ := pool_merges hagree hvalid 8388608
    [(3, s, file), (8, s, file)] (fun r hr => by
      simp only [List.mem_cons, List.not_mem_nil, or_false] at hr
      rcases hr with rfl | rfl
      · exact hreservoir
      · exact hreservoir)
  have hunion : ([(3, s, file), (8, s, file)].flatMap fun r => r.2.1.pages.keys).toFinset = {1} := by
    rw [← hkeys]
    ext d
    simp [keySet]
  rw [hunion] at hsmallest
  have hone : Smallest (8388608 / 512) {1} ({1} : Finset Nat) :=
    ⟨Finset.Subset.refl _, rfl, fun a _ b hb hnb => absurd hb hnb⟩
  have hpool := hsmallest.unique hone
  have hmem : (1 : Nat) ∈ keySet _ := hpool ▸ Finset.mem_singleton_self 1
  obtain ⟨sample, hsample⟩ := Option.isSome_iff_exists.mp
    (Std.ExtTreeMap.mem_iff_isSome_getElem?.mp (mem_keySet.mp hmem))
  refine ⟨s, file, sample, hsample, ?_⟩
  ext o
  rw [(hkept' 1 sample hsample).2 o]
  simp [hin, eq_comm]

end Seed

end Zsqlite
