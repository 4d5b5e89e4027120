import Zsqlite.Seal

set_option autoImplicit false

/-! # What a seal stores

An image assigns bytes to page numbers. A version shows an image when its checksum is that of
the image's page; a view holds an image at a page when it stores a version that shows it, or
no version and the page is zero. The lemmas follow the pipeline: encoding and grouping
(`prepare_spec`), pack writing and manifest installation (`install_spec`). Their composition
says that the view a seal installs holds the image of the input at every page up to the sealed
size, so a pin of it reads exactly those bytes.
-/

namespace Zsqlite

open ByteVec

variable {E : Env}

/-- The image's page has this version's checksum. -/
def PageVersion.Shows (E : Env) (v : PageVersion) (image : Nat → Bytes) : Prop :=
  E.hash.checksum v.page v.txid (image v.page) = v.checksum

/-- The view stores the image's page, or the page is zero and it stores none. -/
def ViewMetadata.HoldsAt (E : Env) (v : ViewMetadata) (image : Nat → Bytes) (p : Nat) : Prop :=
  match v.version p with
  | none => image p = zeros v.size.pageSize.get
  | some version => version.page = p ∧ version.Shows E image

theorem readExactAt_eq_ok {file bytes : Bytes} {offset length : Nat} :
    readExactAt file offset length = .ok bytes ↔
      bytes = window file offset length ∧ offset + length ≤ file.length := by
  unfold readExactAt
  split
  · rename_i h
    rw [take_drop_eq_window h]
    simp [h, eq_comm]
  · rename_i h
    simp [h]

/-- A live version of a frame is the version the view stores for its page. -/
theorem ViewMetadata.Resolved.version_of_isLive {v : ViewMetadata} (h : v.Resolved E)
    {id : Digest} {location : FrameLocation} (hl : v.frames[id]? = some location)
    {version : PageVersion} (hver : version ∈ location.metadata.pages)
    (hlive : v.isLive version (location.metadata.id E) = true) :
    v.version version.page = some version := by
  rw [h.keyed _ _ hl] at hlive
  cases hp : v.pages[version.page]? with
  | none => simp [isLive, hp] at hlive
  | some stored =>
      have hid : stored.frame = id := by simpa [isLive, hp] using hlive
      obtain ⟨location', version', hl', hver', hpage, -⟩ := h.versionOf_eq_some hp
      rw [hid, hl] at hl'
      cases hl'
      have : version' = version := List.inj_on_of_nodup_map (h.frame _ _ hl).2.2.distinct
        (List.mem_of_getElem? hver') hver hpage
      simp [ViewMetadata.version, versionOf, hp, hid, hl, hver', this]

theorem PinnedView.readRecord_eq_ok {view : PinnedView} (hv : view.Served E) {id : Digest}
    {location : FrameLocation} (hl : view.metadata.view.frames[id]? = some location)
    {record : Bytes} (h : view.readRecord location = .ok record) :
    EncodedFrame.WellEncoded E ⟨location.metadata, record⟩ := by
  obtain ⟨pack, frame, hpack, hfind, hmeta, henc⟩ := hv.frame _ _ hl
  simp only [readRecord, hpack, Option.bind_some, hfind, Except.bind_eq_ok] at h
  obtain ⟨_, _, _, _, _, _, _, _, h⟩ := h
  cases h
  rw [← hmeta]
  exact henc

/-- Versions of live pages show what the view holds. -/
theorem PinnedView.Served.shows_of_isLive {view : PinnedView} (hv : view.Served E)
    {image : Nat → Bytes}
    (hold : ∀ p, p ≠ 0 → p ≤ view.size.pages → view.metadata.view.HoldsAt E image p) {id : Digest} {location : FrameLocation}
    (hl : view.metadata.view.frames[id]? = some location) {version : PageVersion}
    (hver : version ∈ location.metadata.pages)
    (hlive : view.metadata.view.isLive version (location.metadata.id E) = true) :
    version.Shows E image := by
  have hversion := hv.resolved.version_of_isLive hl hver hlive
  have hle : version.page ≤ view.size.pages := by
    cases hp : view.metadata.view.pages[version.page]? with
    | none => simp [ViewMetadata.version, hp] at hversion
    | some stored => exact hv.resolved.bounded _ _ hp
  have := hold version.page ((hv.resolved.frame _ _ hl).2.2.numbered version hver) hle
  rw [ViewMetadata.HoldsAt, hversion] at this
  exact this.2

/-! ## Encoding -/

theorem flatten_shares {α : Type} (w : Nat) (l : List α) : (shares (w + 1) l).flatten = l := by
  induction w generalizing l with
  | zero => simp [shares]
  | succ w ih =>
      rw [shares, List.flatten_cons, ih]
      exact List.take_append_drop _ l

/-- A batch is encoded group by group, in order, however it is shared among workers. -/
theorem encodeBatch_eq_ok {encoder : FrameEncoder} {size : PageSize} {groups : List FramePages}
    {frames : List EncodedFrame} (h : encodeBatch E encoder size groups = .ok frames) :
    List.Forall₂ (fun pages f => encoder.build E size pages = .ok f) groups frames := by
  obtain ⟨parts, hparts, h⟩ := Except.bind_eq_ok.mp h
  cases h
  obtain ⟨w, hw⟩ : ∃ w, max 1 (E.workers groups.length) = w + 1 :=
    ⟨_, (Nat.succ_pred_eq_of_pos (by omega)).symm⟩
  rw [hw, Except.mapM_eq_ok] at hparts
  have := List.rel_flatten (hparts.imp fun _ _ h => Except.mapM_eq_ok.mp h)
  rwa [flatten_shares] at this

/-- An encoded batch has the versions of its groups, in frames that verify. -/
theorem encodeBatch_spec {encoder : FrameEncoder} (he : encoder.Authentic E) {size : PageSize}
    {groups : List FramePages} {frames : List EncodedFrame}
    (h : encodeBatch E encoder size groups = .ok frames) :
    (∀ f ∈ frames, f.WellEncoded E) ∧
    frames.flatMap (fun f => f.metadata.pages) = groups.flatten.map Prod.fst := by
  have hbuild := encodeBatch_eq_ok h
  clear h
  induction hbuild with
  | nil => simp
  | cons hb _ ih =>
      obtain ⟨hpages, -, -, henc⟩ := FrameEncoder.build_spec he hb
      simpa [ih.2, hpages, henc] using ih.1

/-- A frame whose payload verifies and whose versions all show the image. -/
structure EncodedFrame.Shows (E : Env) (f : EncodedFrame) (image : Nat → Bytes) : Prop where
  encoded : f.WellEncoded E
  version : ∀ v ∈ f.metadata.pages, v.Shows E image

/-- A version that the accumulators hold, in a group, in the batch or in a frame. -/
def Spill.Has (st : Spill) (v : PageVersion) : Prop :=
  v ∈ st.group.map Prod.fst ∨ v ∈ st.batch.flatten.map Prod.fst ∨
    ∃ f ∈ st.frames, v ∈ f.metadata.pages

/-- The accumulators hold only versions that show the image and have every page done. -/
structure Spill.Covers (E : Env) (input : SealInput) (image : Nat → Bytes)
    (done : List (Nat × Nat)) (st : Spill) : Prop where
  shows_version : ∀ v, st.Has v → v.Shows E image
  encoded : ∀ f ∈ st.frames, f.WellEncoded E
  zero : ∀ p ∈ st.zeros, image p = ByteVec.zeros input.pageSize.get
  covered : ∀ p t, (p, t) ∈ done → p ∈ st.zeros ∨ ∃ v, st.Has v ∧ v.page = p

namespace SealInput

variable {input : SealInput} {st st' : Spill}

/-- Encoding the batch moves its versions into frames. -/
theorem encode_spec (he : input.encoder.Authentic E) (h : input.encode E st = .ok st') :
    st'.batch = [] ∧ st'.group = st.group ∧ st'.zeros = st.zeros ∧ (∀ v, st'.Has v ↔ st.Has v) ∧
    ((∀ f ∈ st.frames, f.WellEncoded E) → ∀ f ∈ st'.frames, f.WellEncoded E) := by
  obtain ⟨encoded, henc, h⟩ := Except.bind_eq_ok.mp h
  cases h
  obtain ⟨hwell, hpages⟩ := encodeBatch_spec he henc
  refine ⟨rfl, rfl, rfl, fun v => ?_, fun hst f hf => ?_⟩
  · have hmem : v ∈ st.batch.flatten.map Prod.fst ↔ ∃ f ∈ encoded, v ∈ f.metadata.pages := by
      rw [← hpages, List.mem_flatMap]
    simp only [Spill.Has, hmem, List.mem_append, or_and_right, exists_or]
    simp [or_comm]
  · rcases List.mem_append.mp hf with hf | hf
    · exact hst f hf
    · exact hwell f hf

/-- Spilling the group moves its versions into the batch. -/
theorem spill_spec (he : input.encoder.Authentic E) (h : input.spill E st = .ok st') :
    st'.group = [] ∧ st'.zeros = st.zeros ∧ (∀ v, st'.Has v ↔ st.Has v) ∧
    ((∀ f ∈ st.frames, f.WellEncoded E) → ∀ f ∈ st'.frames, f.WellEncoded E) := by
  obtain ⟨mid, hmid, h⟩ := Except.bind_eq_ok.mp h
  obtain ⟨hgroup, hzeros, hhas, hwell⟩ : mid.group = st.group ∧ mid.zeros = st.zeros ∧
      (∀ v, mid.Has v ↔ st.Has v) ∧
      ((∀ f ∈ st.frames, f.WellEncoded E) → ∀ f ∈ mid.frames, f.WellEncoded E) := by
    split at hmid
    · exact (encode_spec he hmid).2
    · cases hmid
      exact ⟨rfl, rfl, fun _ => .rfl, id⟩
  cases h
  refine ⟨rfl, hzeros, fun v => ?_, hwell⟩
  rw [← hhas]
  simp only [Spill.Has, List.flatten_append, List.flatten_singleton, List.map_append,
    List.mem_append, List.map_nil, List.not_mem_nil, false_or, hgroup]
  tauto

/-- One iteration of the page loop covers its page. -/
theorem addPage_covers (he : input.encoder.Authentic E) {image : Nat → Bytes}
    {done : List (Nat × Nat)} {entry : Nat × Nat} (hread : input.read entry.1 = .ok (image entry.1))
    (hst : st.Covers E input image done) (h : input.addPage E st entry = .ok st') :
    st'.Covers E input image (done ++ [entry]) := by
  obtain ⟨page, txid⟩ := entry
  obtain ⟨bytes, hbytes, h⟩ := Except.bind_eq_ok.mp h
  cases hread.symm.trans hbytes
  split at h
  · rename_i hzero
    cases h
    have himage : image page = ByteVec.zeros input.pageSize.get := by
      have hlen : (image page).length = input.pageSize.get := by
        rw [(readExactAt_eq_ok.mp hbytes).1, length_window]
      rw [← hlen]
      exact eq_zeros_of_all hzero
    refine ⟨hst.shows_version, hst.encoded, fun p hp => ?_, fun p t hp => ?_⟩
    · rcases List.mem_append.mp hp with hp | hp
      · exact hst.zero p hp
      · cases List.mem_singleton.mp hp
        exact himage
    · rcases List.mem_append.mp hp with hp | hp
      · exact (hst.covered p t hp).imp_left fun h => List.mem_append_left _ h
      · cases List.mem_singleton.mp hp
        exact .inl (List.mem_append_right _ (List.mem_singleton.mpr rfl))
  · obtain ⟨mid, hmid, h⟩ := Except.bind_eq_ok.mp h
    have hcov : mid.Covers E input image done := by
      split at hmid
      · obtain ⟨_, hz, hhas, hwell⟩ := spill_spec he hmid
        exact ⟨fun v hv => hst.shows_version v ((hhas v).mp hv), hwell hst.encoded,
          fun p hp => hst.zero p (hz ▸ hp), fun p t hp => by
            simpa only [hz, hhas] using hst.covered p t hp⟩
      · cases hmid
        exact hst
    cases h
    have hadd : ∀ v, Spill.Has
        { mid with group := mid.group ++ [(PageVersion.verified E page txid (image page),
          image page)] } v ↔ mid.Has v ∨ v = PageVersion.verified E page txid (image page) := by
      intro v
      simp only [Spill.Has, List.map_append, List.map_cons, List.map_nil, List.mem_append,
        List.mem_singleton]
      exact or_right_comm
    refine ⟨fun v hv => ?_, hcov.encoded, hcov.zero, fun p t hp => ?_⟩
    · rcases (hadd v).mp hv with hv | rfl
      · exact hcov.shows_version v hv
      · rfl
    · rcases List.mem_append.mp hp with hp | hp
      · refine (hcov.covered p t hp).imp_right ?_
        rintro ⟨v, hv, hpage⟩
        exact ⟨v, (hadd v).mpr (.inl hv), hpage⟩
      · cases List.mem_singleton.mp hp
        exact .inr ⟨_, (hadd _).mpr (.inr rfl), rfl⟩

/-! ## Repacking -/

/-- The private file has the image's bytes for every page to seal. -/
def Reads (input : SealInput) (image : Nat → Bytes) : Prop :=
  ∀ p t, (p, t) ∈ input.pages → p ≠ 0 ∧ input.read p = .ok (image p)

theorem page_ranges_disjoint {ps p q : Nat} (hp : p ≠ 0) (hq : q ≠ 0) (h : p ≠ q) :
    (p - 1) * ps + ps ≤ (q - 1) * ps ∨ (q - 1) * ps + ps ≤ (p - 1) * ps := by
  rcases Nat.lt_or_gt_of_ne h with h | h
  · left
    rw [← Nat.succ_mul]
    exact Nat.mul_le_mul_right ps (by omega)
  · right
    rw [← Nat.succ_mul]
    exact Nat.mul_le_mul_right ps (by omega)

/-- A page written into a file of pages is read back. -/
theorem readExactAt_overwrite_self {file b : Bytes} {offset n : Nat} (hb : b ≠ [])
    (hl : b.length = n) : readExactAt (overwrite file offset b) offset n = .ok b := by
  subst hl
  refine readExactAt_eq_ok.mpr ⟨(window_overwrite_self file offset b).symm, ?_⟩
  rw [length_overwrite hb]
  exact Nat.le_max_right _ _

/-- The other pages of the file stay. -/
theorem readExactAt_overwrite_page {file b c : Bytes} {ps p q : Nat} (hp : p ≠ 0) (hq : q ≠ 0)
    (hpq : q ≠ p) (hb : b ≠ []) (hl : b.length = ps)
    (h : readExactAt file ((q - 1) * ps) ps = .ok c) :
    readExactAt (overwrite file ((p - 1) * ps) b) ((q - 1) * ps) ps = .ok c := by
  obtain ⟨rfl, hle⟩ := readExactAt_eq_ok.mp h
  refine readExactAt_eq_ok.mpr ⟨(window_overwrite_disjoint ?_).symm, ?_⟩
  · rw [hl]
    exact page_ranges_disjoint hq hp hpq
  · rw [length_overwrite hb]
    exact hle.trans (Nat.le_max_left _ _)

theorem Reads.put {image : Nat → Bytes} (h : input.Reads image) {version : PageVersion}
    (hp : version.page ≠ 0) (hl : (image version.page).length = input.pageSize.get) :
    (input.put version (image version.page)).Reads image := by
  have hne : image version.page ≠ [] := by
    intro he
    have := input.pageSize.pos
    rw [he, List.length_nil] at hl
    omega
  intro p t hpt
  by_cases hpv : p = version.page
  · subst hpv
    exact ⟨hp, readExactAt_overwrite_self hne hl⟩
  · have hpt : (p, t) ∈ input.pages := by
      rcases List.mem_append.mp hpt with h | h
      · exact h
      · cases List.mem_singleton.mp h
        exact absurd rfl hpv
    obtain ⟨hp0, hread⟩ := h p t hpt
    exact ⟨hp0, readExactAt_overwrite_page hp hp0 hpv hne hl hread⟩

/-- A repack step changes only the private file and the pages to seal. -/
def SameJob (a b : SealInput) : Prop := b = { a with file := b.file, pages := b.pages }

theorem SameJob.refl (a : SealInput) : a.SameJob a := rfl

theorem SameJob.trans {a b c : SealInput} (h : a.SameJob b) (h' : b.SameJob c) : a.SameJob c := by
  rw [SameJob, h', h]

theorem SameJob.pageSize {a b : SealInput} (h : a.SameJob b) : b.pageSize = a.pageSize := by
  rw [h]
  rfl

theorem copyLive_spec {image : Nat → Bytes} {view : PinnedView} {location : FrameLocation}
    {raw : Bytes} (h : input.Reads image)
    (hchunk : ∀ v bytes, (v, bytes) ∈ location.metadata.pages.zip (chunks input.pageSize.get raw) →
      view.metadata.view.isLive v (location.metadata.id E) = true →
      v.page ≠ 0 ∧ bytes = image v.page ∧ bytes.length = input.pageSize.get) :
    (input.copyLive E view location raw).Reads image ∧
    input.SameJob (input.copyLive E view location raw) ∧
    ∀ e ∈ input.pages, e ∈ (input.copyLive E view location raw).pages := by
  unfold copyLive
  generalize location.metadata.pages.zip (chunks input.pageSize.get raw) = l at hchunk ⊢
  induction l generalizing input with
  | nil => exact ⟨h, rfl, fun _ he => he⟩
  | cons e l ih =>
      rw [List.foldl_cons]
      split
      · rename_i hlive
        obtain ⟨h0, hb, hl⟩ := hchunk e.1 e.2 (by simp) hlive
        have hreads : (input.put e.1 e.2).Reads image := hb ▸ h.put h0 (hb ▸ hl)
        obtain ⟨h₁, h₂, h₃⟩ := ih hreads fun v bytes hv => hchunk v bytes (by simp [hv])
        have hput : input.SameJob (input.put e.1 e.2) := rfl
        exact ⟨h₁, hput.trans h₂, fun q hq => h₃ q (List.mem_append_left _ hq)⟩
      · exact ih h fun v bytes hv => hchunk v bytes (by simp [hv])

/-- Repacking one frame keeps the private file readable and copies only frames that show the
image. -/
theorem repackFrame_spec {image : Nat → Bytes} {view : PinnedView} (hv : view.Served E)
    (hps : view.size.pageSize = input.pageSize)
    (hold : ∀ p, p ≠ 0 → p ≤ view.size.pages → view.metadata.view.HoldsAt E image p)
    {id : Digest} {location : FrameLocation}
    (hl : view.metadata.view.frames[id]? = some location) {frames : List EncodedFrame}
    (hreads : input.Reads image) (hframes : ∀ f ∈ frames, f.Shows E image)
    {out : SealInput × List EncodedFrame}
    (h : repackFrame E view (input, frames) location = .ok out) :
    out.1.Reads image ∧ (∀ f ∈ out.2, f.Shows E image) ∧ input.SameJob out.1 ∧
    ∀ e ∈ input.pages, e ∈ out.1.pages := by
  obtain ⟨hsize, -, hwf⟩ := hv.resolved.frame _ _ hl
  unfold repackFrame at h
  dsimp only at h
  split at h
  · obtain ⟨record, hrecord, h⟩ := Except.bind_eq_ok.mp h
    split at h
    · rename_i hall
      obtain ⟨_, _, h⟩ := Except.bind_eq_ok.mp h
      cases h
      refine ⟨hreads, fun f hf => ?_, rfl, fun _ he => he⟩
      rcases List.mem_append.mp hf with hf | hf
      · exact hframes f hf
      · cases List.mem_singleton.mp hf
        exact ⟨PinnedView.readRecord_eq_ok hv hl hrecord, fun v hver =>
          hv.shows_of_isLive hold hl hver (List.all_eq_true.mp hall v hver)⟩
    · obtain ⟨raw, hraw, h⟩ := Except.bind_eq_ok.mp h
      cases h
      obtain ⟨_, _, hlen, hsum⟩ := FrameMetadata.verifyPayload_eq_ok.mp hraw
      have hget : location.metadata.shape.pageSize.get = input.pageSize.get :=
        congrArg PageSize.get (hsize.trans hps)
      have hchunk : ∀ v bytes,
          (v, bytes) ∈ location.metadata.pages.zip (chunks input.pageSize.get raw) →
          view.metadata.view.isLive v (location.metadata.id E) = true →
          v.page ≠ 0 ∧ bytes = image v.page ∧ bytes.length = input.pageSize.get := by
        intro v bytes hmem hlive
        have hver := (List.of_mem_zip hmem).1
        have hshow := hv.shows_of_isLive hold hl hver hlive
        have hbytes : bytes = image v.page := E.hash.checksum_injective v.page v.txid
          ((hsum v bytes (by rw [hget]; exact hmem)).trans hshow.symm)
        refine ⟨hwf.numbered v hver, hbytes, ?_⟩
        obtain ⟨i, hi, hslice⟩ := List.mem_map.mp (List.of_mem_zip hmem).2
        rw [← hslice]
        refine length_slice (n := location.metadata.shape.pages) ?_ ?_
        · rw [hlen, FrameShape.decoded, hget]
        · rwa [hlen, FrameShape.decoded, hget, Nat.mul_div_cancel _ input.pageSize.pos,
            List.mem_range] at hi
      obtain ⟨h₁, h₂, h₃⟩ := copyLive_spec hreads hchunk
      exact ⟨h₁, hframes, h₂, h₃⟩
  · cases h
    exact ⟨hreads, hframes, rfl, fun _ he => he⟩

/-- What the seal is given: page bytes to seal, a source view, and the image they make up. -/
structure Shows (E : Env) (input : SealInput) (image : Nat → Bytes) : Prop where
  reads : input.Reads image
  served : ∀ view, input.source = some view →
    view.Served E ∧ view.size.pageSize = input.pageSize
  /-- Where the source stays visible it holds the image. -/
  kept : ∀ view, input.source = some view → ∀ p, p ≠ 0 → p ≤ input.endpoint.size.pages →
    (∀ k, input.endpoint.truncate = some k → p ≤ k) → (∀ t, (p, t) ∉ input.pages) →
    view.metadata.view.HoldsAt E image p
  /-- Where nothing is visible the image is zero. -/
  blank : ∀ p, p ≠ 0 → p ≤ input.endpoint.size.pages →
    (input.source = none ∨ ∃ k, input.endpoint.truncate = some k ∧ k < p) →
    (∀ t, (p, t) ∉ input.pages) → image p = ByteVec.zeros input.pageSize.get
  /-- A repack keeps the whole source. -/
  repacked : input.repack.isSome → ∀ view, input.source = some view →
    ∀ p, p ≠ 0 → p ≤ view.size.pages → view.metadata.view.HoldsAt E image p
  dictionaries : ∀ (id : Digest) bytes, input.dictionaries[id]? = some bytes →
    E.hash.bytes bytes = id

theorem frames_of_mem_repackLocations {view : PinnedView} {selected : List Digest}
    {location : FrameLocation} (h : location ∈ repackLocations view selected) :
    ∃ id : Digest, view.metadata.view.frames[id]? = some location := by
  simp only [repackLocations, List.mem_insertionSort, List.mem_filter, List.mem_map,
    Prod.exists, exists_eq_right, Std.ExtTreeMap.mem_toList_iff_getElem?_eq_some] at h
  exact h.1

theorem readRepack_spec {image : Nat → Bytes} (hs : input.Shows E image)
    {out : SealInput × List EncodedFrame} (h : input.readRepack E = .ok out) :
    out.1.Reads image ∧ (∀ f ∈ out.2, f.Shows E image) ∧ input.SameJob out.1 ∧
    ∀ e ∈ input.pages, e ∈ out.1.pages := by
  unfold readRepack at h
  split at h
  · cases h
    exact ⟨hs.reads, by simp, rfl, fun _ he => he⟩
  · cases h
  · rename_i selected view hrep hsrc
    obtain ⟨st, hst, h⟩ := Except.bind_eq_ok.mp h
    cases h
    obtain ⟨hserved, hps⟩ := hs.served view hsrc
    have hold := hs.repacked (by simp [hrep]) view hsrc
    obtain ⟨h₁, h₂, h₃, h₄⟩ := Except.foldlM_invariant
      (I := fun st : SealInput × List EncodedFrame => st.1.Reads image ∧
        (∀ f ∈ st.2, f.Shows E image) ∧ input.SameJob st.1 ∧ ∀ e ∈ input.pages, e ∈ st.1.pages)
      (by
        rintro location hloc ⟨mid, frames⟩ out' ⟨hr, hf, hj, hp⟩ hstep
        obtain ⟨id, hl⟩ := frames_of_mem_repackLocations hloc
        obtain ⟨k₁, k₂, k₃, k₄⟩ :=
          repackFrame_spec hserved (hps.trans hj.pageSize.symm) hold hl hr hf hstep
        exact ⟨k₁, k₂, hj.trans k₃, fun e he => k₄ e (hp e he)⟩)
      ⟨hs.reads, by simp, SameJob.refl input, fun _ he => he⟩ hst
    -- Sorting the pages does not change which there are.
    refine ⟨fun p t hp => h₁ p t ?_, h₂, h₃.trans rfl, fun e he => ?_⟩
    · simpa using hp
    · simpa using h₄ e he

/-! ## Preparation -/

theorem trainDictionary_spec {out : SealInput}
    (hd : ∀ (id : Digest) bytes, input.dictionaries[id]? = some bytes → E.hash.bytes bytes = id)
    (h : input.trainDictionary E = .ok out) :
    out = { input with preferred := out.preferred, dictionaries := out.dictionaries } ∧
    out.encoder.Authentic E := by
  obtain ⟨samples, _, h⟩ := Except.bind_eq_ok.mp h
  -- Whatever training chose, every dictionary is filed under its hash.
  have key : ∀ trained : Option Bytes, ∀ next : SealInput,
      next = trained.elim input (fun bytes =>
        { input with
          preferred := [E.hash.bytes bytes]
          dictionaries := (∅ : Dictionaries).insert (E.hash.bytes bytes) bytes }) →
      next = { input with preferred := next.preferred, dictionaries := next.dictionaries } ∧
      ∀ (id : Digest) bytes, next.dictionaries[id]? = some bytes → E.hash.bytes bytes = id := by
    intro trained next hnext
    cases trained with
    | none =>
        cases hnext
        exact ⟨rfl, hd⟩
    | some bytes =>
        cases hnext
        refine ⟨rfl, fun id found hf => ?_⟩
        simp only [Option.elim_some, Std.ExtTreeMap.getElem?_insert] at hf
        split at hf
        · rename_i hid
          cases hf
          simpa using hid
        · simp at hf
  obtain ⟨hnext, hauth⟩ := key _ _ rfl
  cases h
  refine ⟨?_, fun id bytes henc => ?_⟩
  · conv_lhs => rw [hnext]
  · obtain ⟨id', _, hfound⟩ := Option.bind_eq_some_iff.mp henc
    obtain ⟨bytes', hget, heq⟩ := Option.map_eq_some_iff.mp hfound
    cases heq
    rw [Std.ExtTreeMap.getElem?_filter', Option.filter_eq_some_iff] at hget
    exact (hauth id bytes hget.1).symm

end SealInput

namespace PreparedSeal

variable {prepared : PreparedSeal}

theorem draft_eq : prepared.draft =
    { prepared.base with
      size := prepared.endpoint.size
      txid := prepared.endpoint.txid
      history := prepared.endpoint.history
      pages := prepared.draft.pages } := by
  unfold draft
  rw [ViewMetadata.foldl_remove]
  cases prepared.endpoint.truncate <;> rfl

/-- The draft keeps the base's entries up to the size and the truncation mark, the pages that
became zero excepted. -/
theorem pages_draft (p : Nat) : prepared.draft.pages[p]? =
    if p ∈ prepared.zeros ∨ (∃ k, prepared.endpoint.truncate = some k ∧ k < p) ∨
        prepared.endpoint.size.pages < p then none
    else prepared.base.pages[p]? := by
  unfold draft
  rw [ViewMetadata.pages_foldl_remove]
  by_cases hz : p ∈ prepared.zeros
  · simp [hz]
  · simp only [hz, if_false, false_or]
    cases htr : prepared.endpoint.truncate with
    | none =>
        simp only [Option.elim_none, ViewMetadata.pages_removeAbove, reduceCtorEq, false_and,
          exists_false, false_or]
        by_cases hp : p ≤ prepared.endpoint.size.pages
        · simp [hp, Nat.not_lt.mpr hp]
        · simp [hp, Nat.lt_of_not_le hp]
    | some k =>
        simp only [Option.elim_some, ViewMetadata.pages_removeAbove, Option.some.injEq,
          exists_eq_left']
        by_cases hk : p ≤ k
        · by_cases hp : p ≤ prepared.endpoint.size.pages
          · simp [hk, hp, Nat.not_lt.mpr hk, Nat.not_lt.mpr hp]
          · simp [hk, hp, Nat.lt_of_not_le hp]
        · simp [hk, Nat.lt_of_not_le hk]

theorem version_draft (p : Nat) : prepared.draft.version p =
    if p ∈ prepared.zeros ∨ (∃ k, prepared.endpoint.truncate = some k ∧ k < p) ∨
        prepared.endpoint.size.pages < p then none
    else prepared.base.version p := by
  have hframes : prepared.draft.frames = prepared.base.frames := by rw [draft_eq]
  unfold ViewMetadata.version ViewMetadata.versionOf
  rw [pages_draft, hframes]
  split <;> rfl

/-- What a prepared seal is known to contain: frames that show the image, and a draft that
holds it at every other page. -/
structure Shows (E : Env) (prepared : PreparedSeal) (image : Nat → Bytes) : Prop where
  frame : ∀ f ∈ prepared.frames, f.Shows E image
  consistent : prepared.base.Consistent E
  located : prepared.base.FramesLocated E
  rest : ∀ p, p ≠ 0 → p ≤ prepared.endpoint.size.pages →
    (∀ f ∈ prepared.frames, ∀ v ∈ f.metadata.pages, v.page ≠ p) →
    prepared.draft.HoldsAt E image p

theorem base_of_none (h : prepared.source = none) (p : Nat) : prepared.base.version p = none := by
  simp [base, h, ViewMetadata.empty, ViewMetadata.version]

theorem base_spec (h : ∀ view, prepared.source = some view → view.Served E) :
    prepared.base.Consistent E ∧ prepared.base.FramesLocated E := by
  cases hs : prepared.source with
  | none =>
      have hb : prepared.base = ViewMetadata.empty prepared.endpoint.database
          prepared.endpoint.lineage prepared.endpoint.size prepared.endpoint.txid
          prepared.endpoint.history := by simp [base, hs]
      rw [hb]
      exact ⟨⟨fun id location hl => by simp [ViewMetadata.empty] at hl,
        fun p s hp => by simp [ViewMetadata.empty] at hp⟩,
        fun id location hl => by simp [ViewMetadata.empty] at hl⟩
  | some view =>
      have hb : prepared.base = view.metadata.view := by simp [base, hs]
      rw [hb]
      exact ⟨(h view hs).resolved.toConsistent, (h view hs).located⟩

end PreparedSeal

/-- **Preparation keeps the image.** Every page of the input is in a frame that shows it, was
noted as zero, or is still served by the draft. -/
theorem SealInput.prepare_spec {input : SealInput} {image : Nat → Bytes} {paused : Bool}
    {prepared : PreparedSeal} (hs : input.Shows E image)
    (h : input.prepare E paused = .ok prepared) :
    prepared.Shows E image ∧ prepared.endpoint = input.endpoint ∧
    prepared.source = input.source ∧ prepared.sourcePrefix = input.sourcePrefix := by
  obtain ⟨_, _, h⟩ := Except.bind_eq_ok.mp h
  obtain ⟨⟨repacked, copied⟩, hrepack, h⟩ := Except.bind_eq_ok.mp h
  obtain ⟨trained, htrain, h⟩ := Except.bind_eq_ok.mp h
  obtain ⟨st₁, hloop, h⟩ := Except.bind_eq_ok.mp h
  obtain ⟨st₂, hgroup, h⟩ := Except.bind_eq_ok.mp h
  obtain ⟨st, hbatch, h⟩ := Except.bind_eq_ok.mp h
  cases h
  obtain ⟨hreads, hcopied, hjob, hmem⟩ := readRepack_spec hs hrepack
  dsimp only at hreads hcopied hjob hmem
  obtain ⟨heq, hauth⟩ := trainDictionary_spec
    (by rw [hjob]; exact hs.dictionaries) htrain
  have hfile : trained.Reads image := by
    rw [heq]
    exact hreads
  have hps : trained.pageSize = input.pageSize := by
    rw [heq, ← hjob.pageSize]
    rfl
  have hend : trained.endpoint = input.endpoint := by rw [heq, hjob]
  have hsrc : trained.source = input.source := by rw [heq, hjob]
  have hpages : ∀ e ∈ input.pages, e ∈ trained.pages := by
    rw [heq]
    exact hmem
  have hcov₁ : st₁.Covers E trained image trained.pages :=
    Except.foldlM_prefix (I := fun done st => Spill.Covers E trained image done st)
      (fun done entry st st' hentry hst hstep =>
        addPage_covers hauth (hfile entry.1 entry.2 hentry).2 hst hstep)
      (by
        refine ⟨fun v hv => ?_, fun f hf => (hcopied f hf).encoded, by simp, by simp⟩
        obtain ⟨f, hf, hv⟩ : ∃ f ∈ copied, v ∈ f.metadata.pages := by
          simpa [Spill.Has] using hv
        exact (hcopied f hf).version v hv) hloop
  -- The loop has covered every page; the last group and the last batch follow.
  obtain ⟨hempty₂, hz₂, hhas₂, hwell₂⟩ : st₂.group = [] ∧ st₂.zeros = st₁.zeros ∧
      (∀ v, st₂.Has v ↔ st₁.Has v) ∧ (∀ f ∈ st₂.frames, f.WellEncoded E) := by
    split at hgroup
    · obtain ⟨h₁, h₂, h₃, h₄⟩ := spill_spec hauth hgroup
      exact ⟨h₁, h₂, h₃, h₄ hcov₁.encoded⟩
    · rename_i hne
      cases hgroup
      exact ⟨not_not.mp hne, rfl, fun _ => .rfl, hcov₁.encoded⟩
  obtain ⟨hb, hg, hz, hhas, hwell⟩ : st.batch = [] ∧ st.group = [] ∧ st.zeros = st₁.zeros ∧
      (∀ v, st.Has v ↔ st₁.Has v) ∧ (∀ f ∈ st.frames, f.WellEncoded E) := by
    split at hbatch
    · obtain ⟨h₁, h₂, h₃, h₄, h₅⟩ := encode_spec hauth hbatch
      exact ⟨h₁, h₂.trans hempty₂, h₃.trans hz₂, fun v => (h₄ v).trans (hhas₂ v), h₅ hwell₂⟩
    · rename_i hne
      cases hbatch
      exact ⟨not_not.mp hne, hempty₂, hz₂, hhas₂, hwell₂⟩
  have hframes : ∀ v, st₁.Has v ↔ ∃ f ∈ st.frames, v ∈ f.metadata.pages := by
    intro v
    rw [← hhas v]
    simp [Spill.Has, hb, hg]
  refine ⟨⟨fun f hf => ⟨hwell f hf, fun v hv => hcov₁.shows_version v ((hframes v).mpr ⟨f, hf, hv⟩)⟩,
    (PreparedSeal.base_spec ?_).1, (PreparedSeal.base_spec ?_).2, ?_⟩, hend, hsrc, by rw [heq, hjob]⟩
  · intro view hview
    exact (hs.served view (hsrc ▸ hview)).1
  · intro view hview
    exact (hs.served view (hsrc ▸ hview)).1
  · intro p hp0 hle hnone
    have hp : p ≤ input.endpoint.size.pages := hend ▸ hle
    have hsize : ∀ prepared : PreparedSeal, prepared.endpoint = trained.endpoint →
        prepared.draft.size.pageSize.get = input.pageSize.get := by
      intro prepared hprep
      rw [PreparedSeal.draft_eq]
      show prepared.endpoint.size.pageSize.get = _
      rw [hprep, hend]
      rfl
    rw [ViewMetadata.HoldsAt, PreparedSeal.version_draft, hsize _ rfl]
    by_cases hzero : p ∈ st.zeros
    · rw [if_pos (.inl hzero)]
      rw [hz] at hzero
      rw [hcov₁.zero p hzero, hps]
    · have hfresh : ∀ t, (p, t) ∉ input.pages := by
        intro t ht
        rcases hcov₁.covered p t (hpages _ ht) with hcov | ⟨v, hv, hpage⟩
        · exact hzero (hz ▸ hcov)
        · obtain ⟨f, hf, hv⟩ := (hframes v).mp hv
          exact hnone f hf v hv hpage
      by_cases hcut : ∃ k, trained.endpoint.truncate = some k ∧ k < p
      · rw [if_pos (.inr (.inl hcut))]
        exact hs.blank p hp0 hp (.inr (hend ▸ hcut)) hfresh
      · rw [if_neg (not_or.mpr ⟨hzero, not_or.mpr ⟨hcut, Nat.not_lt.mpr hle⟩⟩)]
        cases hsource : input.source with
        | none =>
            rw [PreparedSeal.base_of_none (hsrc.trans hsource)]
            exact hs.blank p hp0 hp (.inl hsource) hfresh
        | some view =>
            have hkept := hs.kept view hsource p hp0 hp (fun k hk => by
              by_contra hlt
              exact hcut ⟨k, hend ▸ hk, by omega⟩) hfresh
            have hsize : view.metadata.view.size.pageSize.get = input.pageSize.get :=
              congrArg PageSize.get (hs.served view hsource).2
            rw [ViewMetadata.HoldsAt, hsize] at hkept
            simpa [PreparedSeal.base, hsrc.trans hsource] using hkept

end Zsqlite
