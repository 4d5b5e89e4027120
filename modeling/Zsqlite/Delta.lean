import Zsqlite.Install

set_option autoImplicit false

/-! # Metadata deltas

A run stores a view as the difference to its parent (`MetadataRun::between`, `apply`). The
difference lists the pages whose entry or whose frame's location changed and the pages that are
gone below the new size; everything else is inherited. `MetadataRun.between_apply` says that
nothing is lost: over its own source a delta gives back the target, field by field.
-/

namespace Zsqlite

variable {E : Env}

/-! ## Validation of parts of a view -/

namespace ViewMetadata

variable {v w : ViewMetadata}

theorem disjointRanges_iff {l : List (Nat × Nat)} :
    disjointRanges l = true ↔ l.Pairwise fun a b => a.1 + a.2 ≤ b.1 := by
  have : IsTrans (Nat × Nat) fun a b => a.1 + a.2 ≤ b.1 := ⟨fun a b c _ _ => by omega⟩
  rw [← List.isChain_iff_pairwise]
  induction l with
  | nil => simp [disjointRanges]
  | cons a l ih =>
      cases l with
      | nil => simp [disjointRanges]
      | cons b l => simp [disjointRanges, ih]

theorem insertionSort_sublist {l l' : List (Nat × Nat)} (h : l'.Sublist l) :
    (l'.insertionSort fun a b => a.1 ≤ b.1).Sublist (l.insertionSort fun a b => a.1 ≤ b.1) := by
  have : IsTrans (Nat × Nat) fun a b => a.1 ≤ b.1 := ⟨fun _ _ _ => Nat.le_trans⟩
  have : Std.Total fun a b : Nat × Nat => a.1 ≤ b.1 := ⟨fun a b => Nat.le_total a.1 b.1⟩
  induction h with
  | slnil => exact .slnil
  | cons a _ ih => exact ih.trans (List.sublist_orderedInsert a _)
  | cons_cons a _ ih => exact ih.orderedInsert_sublist a (List.pairwise_insertionSort _ _)

/-- The payload ranges of the frames in a pack. -/
def ranges (v : ViewMetadata) (pack : Digest) : List (Nat × Nat) :=
  v.frames.toList.filterMap fun entry =>
    if entry.2.pack = pack then some (entry.2.offset, entry.2.length) else none

theorem validateFrameRanges_eq_ok : v.validateFrameRanges = .ok () ↔ ∀ pack ∈ v.packs,
    disjointRanges ((v.ranges pack).insertionSort fun a b => a.1 ≤ b.1) = true := by
  simp only [validateFrameRanges, Except.forM_eq_ok, Except.ensure_eq_ok, List.mem_dedup]
  rfl

/-- Frames of a valid view, or fewer of them, do not overlap. -/
theorem validateFrameRanges_filter (keep : Digest → FrameLocation → Bool)
    (hw : w.frames = v.frames.filter keep) (h : v.validateFrameRanges = .ok ()) :
    w.validateFrameRanges = .ok () := by
  rw [validateFrameRanges_eq_ok] at h ⊢
  intro pack hpack
  have hsub : w.frames.toList.Sublist v.frames.toList := by
    rw [hw, Std.ExtTreeMap.toList_filter]
    exact List.filter_sublist
  rw [disjointRanges_iff]
  refine (disjointRanges_iff.mp (h pack ?_)).sublist (insertionSort_sublist (hsub.filterMap _))
  exact (hsub.map _).subset hpack

/-- The frames are those that pages use exactly when their numbers agree. -/
theorem used_iff (h : ∀ (p : Nat) s, v.pages[p]? = some s → v.frames[s.frame]? ≠ none) :
    (v.pages.toList.map fun e => e.2.frame).dedup.length = v.frames.size ↔
      ∀ id : Digest, v.frames[id]? ≠ none → ∃ (p : Nat) (s : StoredPage), v.pages[p]? = some s ∧
        s.frame = id := by
  have hkeys : ∀ id, id ∈ v.frames.keys ↔ v.frames[id]? ≠ none := by
    intro id
    rw [Std.ExtTreeMap.mem_keys, Std.ExtTreeMap.mem_iff_isSome_getElem?, Option.isSome_iff_ne_none]
  have hused : ∀ id, id ∈ (v.pages.toList.map fun e => e.2.frame).dedup ↔
      ∃ (p : Nat) (s : StoredPage), v.pages[p]? = some s ∧ s.frame = id := by
    intro id
    simp [List.mem_dedup, List.mem_map, Std.ExtTreeMap.mem_toList_iff_getElem?_eq_some]
  have hsub : (v.pages.toList.map fun e => e.2.frame).dedup ⊆ v.frames.keys := by
    intro id hid
    obtain ⟨p, s, hp, rfl⟩ := (hused id).mp hid
    exact (hkeys _).mpr (h p s hp)
  rw [← Std.ExtTreeMap.length_keys]
  constructor
  · intro hlen id hid
    have hperm := ((List.nodup_dedup _).subperm hsub).perm_of_length_le (Nat.le_of_eq hlen.symm)
    exact (hused id).mp (hperm.mem_iff.mpr ((hkeys id).mpr hid))
  · intro hall
    refine Nat.le_antisymm ((List.nodup_dedup _).subperm hsub).length_le ?_
    refine (Std.ExtTreeMap.nodup_keys.subperm fun id hid => ?_).length_le
    exact (hused id).mpr (hall id ((hkeys id).mp hid))

/-- What `validate` accepts. -/
structure Valid (E : Env) (v : ViewMetadata) : Prop where
  preferred : v.preferred.length ≤ 4 ∧ v.preferred.Nodup
  page : ∀ (p : Nat) s, v.pages[p]? = some s → v.validatePage p s = .ok ()
  used : ∀ id : Digest, v.frames[id]? ≠ none → ∃ (p : Nat) (s : StoredPage),
    v.pages[p]? = some s ∧ s.frame = id
  frame : ∀ (id : Digest) location, v.frames[id]? = some location →
    id = location.metadata.id E ∧ location.metadata.shape.pageSize = v.size.pageSize ∧
      location.length = location.metadata.payloadBytes
  length : v.encodedLength ≤ viewLimit
  ranges : v.validateFrameRanges = .ok ()

theorem Valid.framed (h : v.Valid E) {p : Nat} {s : StoredPage} (hp : v.pages[p]? = some s) :
    v.frames[s.frame]? ≠ none := by
  intro hnone
  have := h.page p s hp
  simp [validatePage, hnone] at this

/-- The result of a successful validation. -/
def validated (v : ViewMetadata) : ValidatedMetadata :=
  ⟨v, v.txid, v.txid, [], v.encodedLength, .checkpoint⟩

theorem validate_eq_ok {val : ValidatedMetadata} :
    v.validate E = .ok val ↔ v.Valid E ∧ val = v.validated := by
  simp only [validate, Except.bind_eq_ok, Except.forM_eq_ok, Except.ensure_eq_ok,
    Prod.forall, exists_const, Std.ExtTreeMap.mem_toList_iff_getElem?_eq_some]
  constructor
  · rintro ⟨hpref, hpages, hcount, hframes, hlen, _, hranges, h⟩
    cases h
    have hframed : ∀ (p : Nat) s, v.pages[p]? = some s → v.frames[s.frame]? ≠ none := by
      intro p s hp hnone
      have := hpages p s hp
      simp [validatePage, hnone] at this
    exact ⟨⟨hpref, hpages, (used_iff hframed).mp hcount, hframes, hlen, hranges⟩, rfl⟩
  · rintro ⟨h, rfl⟩
    exact ⟨h.preferred, h.page, (used_iff fun _ _ => h.framed).mpr h.used, h.frame, h.length, (),
      h.ranges, rfl⟩

theorem encodedLength_filter_le {w : ViewMetadata} (keepPage : Nat → StoredPage → Bool)
    (keepFrame : Digest → FrameLocation → Bool) (hpref : w.preferred = v.preferred)
    (hpages : w.pages = v.pages.filter keepPage) (hframes : w.frames = v.frames.filter keepFrame) :
    w.encodedLength ≤ v.encodedLength := by
  have hp : w.pages.size ≤ v.pages.size := hpages ▸ Std.ExtTreeMap.size_filter_le_size
  have hf : (w.frames.toList.map fun entry => 76 + entry.2.metadata.encodedLen).sum ≤
      (v.frames.toList.map fun entry => 76 + entry.2.metadata.encodedLen).sum := by
    rw [hframes, Std.ExtTreeMap.toList_filter]
    exact (List.filter_sublist.map _).sum_le_sum fun _ _ => Nat.zero_le _
  unfold encodedLength
  rw [hpref]
  omega

/-- The part of a view that some of its pages need. -/
def restrict (v : ViewMetadata) (keep : Nat → StoredPage → Bool) : ViewMetadata :=
  let pages := v.pages.filter keep
  { v with
    pages
    frames := v.frames.filter fun id _ => pages.toList.any fun e => e.2.frame == id }

section Restrict

variable {keep : Nat → StoredPage → Bool}

theorem pages_restrict {p : Nat} {s : StoredPage} :
    (v.restrict keep).pages[p]? = some s ↔ v.pages[p]? = some s ∧ keep p s = true := by
  show (v.pages.filter keep)[p]? = some s ↔ _
  rw [Std.ExtTreeMap.getElem?_filter', Option.filter_eq_some_iff]

theorem frames_restrict {id : Digest} {location : FrameLocation} :
    (v.restrict keep).frames[id]? = some location ↔ v.frames[id]? = some location ∧
      ∃ (p : Nat) (s : StoredPage), v.pages[p]? = some s ∧ keep p s = true ∧ s.frame = id := by
  show (v.frames.filter _)[id]? = some location ↔ _
  rw [Std.ExtTreeMap.getElem?_filter', Option.filter_eq_some_iff, List.any_eq_true]
  refine and_congr_right fun _ => ?_
  constructor
  · rintro ⟨⟨p, s⟩, hmem, hid⟩
    have := pages_restrict.mp (Std.ExtTreeMap.mem_toList_iff_getElem?_eq_some.mp hmem)
    exact ⟨p, s, this.1, this.2, by simpa using hid⟩
  · rintro ⟨p, s, hp, hk, rfl⟩
    exact ⟨(p, s), Std.ExtTreeMap.mem_toList_iff_getElem?_eq_some.mpr (pages_restrict.mpr ⟨hp, hk⟩),
      by simp⟩

/-- A kept page finds its frame where the view has it. -/
theorem frames_restrict_of_page {p : Nat} {s : StoredPage}
    (hp : (v.restrict keep).pages[p]? = some s) :
    (v.restrict keep).frames[s.frame]? = v.frames[s.frame]? := by
  obtain ⟨hp, hk⟩ := pages_restrict.mp hp
  refine Option.ext fun location => ?_
  rw [frames_restrict]
  exact ⟨And.left, fun h => ⟨h, p, s, hp, hk, rfl⟩⟩

/-- A part of a valid view is valid. -/
theorem Valid.restrict (h : v.Valid E) : (v.restrict keep).Valid E where
  preferred := h.preferred
  page p s hp := by
    have hpage := h.page p s (pages_restrict.mp hp).1
    unfold validatePage at hpage ⊢
    rw [frames_restrict_of_page hp]
    exact hpage
  used id hid := by
    obtain ⟨location, hl⟩ := Option.ne_none_iff_exists'.mp hid
    obtain ⟨-, p, s, hp, hk, rfl⟩ := frames_restrict.mp hl
    exact ⟨p, s, pages_restrict.mpr ⟨hp, hk⟩, rfl⟩
  frame id location hl := h.frame id location (frames_restrict.mp hl).1
  length := le_trans (encodedLength_filter_le (v := v) keep _ rfl rfl rfl) h.length
  ranges := validateFrameRanges_filter _ rfl h.ranges

end Restrict

end ViewMetadata

/-! ## Runs over their source -/

namespace MetadataRun

variable {source : ValidatedMetadata} {target : ViewMetadata}

/-- Whether a page of the target has to be in the patch. -/
def changed (source target : ViewMetadata) (number : Nat) (page : StoredPage) : Bool :=
  source.pages[number]? ≠ some page ∨ source.frames[page.frame]? ≠ target.frames[page.frame]?

/-- The run that `between` returns for a valid target. -/
def delta (E : Env) (source : ValidatedMetadata) (target : ViewMetadata) : MetadataRun where
  parent := ⟨source.view.logicalHash E, source.view.txid⟩
  root := target.contentRoot E
  spanBegin := source.spanBegin
  spanEnd := target.txid
  patch := (target.restrict (changed source.view target)).validated
  removed := source.view.pages.keys.filter fun page =>
    page ≤ target.size.pages && !target.pages.contains page

theorem between_eq_ok {run : MetadataRun} : between E source target = .ok run ↔
    source.spanBegin ≤ target.txid ∧ (target.restrict (changed source.view target)).Valid E ∧
      run = delta E source target := by
  simp only [between, Except.bind_eq_ok, Except.ensure_eq_ok, exists_const]
  refine and_congr_right fun _ => ?_
  constructor
  · rintro ⟨patch, hpatch, h⟩
    obtain ⟨hvalid, rfl⟩ := ViewMetadata.validate_eq_ok.mp hpatch
    cases h
    exact ⟨hvalid, rfl⟩
  · rintro ⟨hvalid, rfl⟩
    exact ⟨_, ViewMetadata.validate_eq_ok.mpr ⟨hvalid, rfl⟩, rfl⟩

theorem mem_removed {p : Nat} : p ∈ (delta E source target).removed ↔
    source.view.pages[p]? ≠ none ∧ p ≤ target.size.pages ∧ target.pages[p]? = none := by
  show p ∈ List.filter _ _ ↔ _
  rw [List.mem_filter, Std.ExtTreeMap.mem_keys, Std.ExtTreeMap.mem_iff_isSome_getElem?,
    Option.isSome_iff_ne_none, Bool.and_eq_true, decide_eq_true_eq, Bool.not_eq_true',
    Std.ExtTreeMap.contains_eq_isSome_getElem?, Option.isSome_eq_false_iff,
    Option.isNone_iff_eq_none]

/-- A page the delta does not carry. -/
def Inherited (source target : ViewMetadata) (p : Nat) (s : StoredPage) : Prop :=
  target.pages[p]? = some s ∧ changed source target p s = false

theorem Inherited.unchanged {source : ViewMetadata} {p : Nat} {s : StoredPage}
    (h : Inherited source target p s) :
    source.pages[p]? = some s ∧ source.frames[s.frame]? = target.frames[s.frame]? := by
  have := h.2
  simpa [changed] using this

theorem pages_patch {p : Nat} {s : StoredPage} (hp : target.pages[p]? = some s) :
    (target.restrict (changed source.view target)).pages[p]? =
      if changed source.view target p s then some s else none := by
  refine Option.ext fun t => ?_
  rw [ViewMetadata.pages_restrict]
  constructor
  · rintro ⟨ht, hc⟩
    cases hp.symm.trans ht
    rw [if_pos hc]
  · intro ht
    split at ht
    · rename_i hc
      cases ht
      exact ⟨hp, hc⟩
    · cases ht

section Overlay

variable {base : ViewMetadata}

/-- Laid over a base with the pages of its source, a delta gives the target's page map exactly
when the base has the inherited pages in their slots: changed pages come from the patch, and
what the target lacks is removed or above its size. -/
theorem pages_overlay_iff (hdom : ∀ p : Nat, base.pages[p]? = none ↔ source.view.pages[p]? = none)
    (hbound : ∀ (p : Nat) s, target.pages[p]? = some s → p ≤ target.size.pages) :
    ((delta E source target).overlay base).pages = target.pages ↔
      ∀ p s, Inherited source.view target p s → base.pages[p]? = some s := by
  have hget : ∀ p : Nat, ((delta E source target).overlay base).pages[p]? =
      ((target.restrict (changed source.view target)).pages[p]?).or
        (if p ∈ (delta E source target).removed then none
         else if p ≤ target.size.pages then base.pages[p]? else none) :=
    pages_overlay base
  have hpage : ∀ (p : Nat) s, target.pages[p]? = some s →
      ((delta E source target).overlay base).pages[p]? =
        if changed source.view target p s then some s else base.pages[p]? := by
    intro p s hp
    have hremoved : p ∉ (delta E source target).removed := fun hmem => by
      rw [(mem_removed.mp hmem).2.2] at hp
      cases hp
    rw [hget, pages_patch hp, if_neg hremoved, if_pos (hbound p s hp)]
    split <;> simp
  constructor
  · intro h p s hs
    have := hpage p s hs.1
    rw [h, hs.1, hs.2] at this
    simpa using this.symm
  · intro h
    refine Std.ExtTreeMap.ext_getElem? fun p => ?_
    cases hp : target.pages[p]? with
    | none =>
        have hpatch : (target.restrict (changed source.view target)).pages[p]? = none :=
          Option.eq_none_iff_forall_ne_some.mpr fun s hs => by
            rw [(ViewMetadata.pages_restrict.mp hs).1] at hp
            cases hp
        rw [hget, hpatch, Option.none_or]
        by_cases hsource : source.view.pages[p]? = none
        · simp [(hdom p).mpr hsource]
        · by_cases hsize : p ≤ target.size.pages
          · rw [if_pos (mem_removed.mpr ⟨hsource, hsize, hp⟩)]
          · simp [hsize]
    | some s =>
        rw [hpage p s hp]
        cases hc : changed source.view target p s with
        | true => rfl
        | false => exact h p s ⟨hp, hc⟩

/-- The frames of such a result: one in use is in the patch or comes from the base, and frames
out of use are dropped. `g` is what is observed of a location. -/
theorem frames_overlay_iff {γ : Type} (g : FrameLocation → γ)
    (hpatch : (target.restrict (changed source.view target)).Valid E)
    (hpages : ((delta E source target).overlay base).pages = target.pages) :
    (∀ id : Digest, ((delta E source target).overlay base).retainFrames.frames[id]?.map g =
        target.frames[id]?.map g) ↔
      (∀ id : Digest, target.frames[id]? ≠ none → ∃ (p : Nat) (s : StoredPage),
        target.pages[p]? = some s ∧ s.frame = id) ∧
      ∀ p s, Inherited source.view target p s →
        (target.restrict (changed source.view target)).frames[s.frame]? ≠ none ∨
          base.frames[s.frame]?.map g = source.view.frames[s.frame]?.map g := by
  have hused : ∀ (p : Nat) s, target.pages[p]? = some s →
      ((delta E source target).overlay base).retainFrames.frames[s.frame]? =
        ((target.restrict (changed source.view target)).frames[s.frame]?).or base.frames[s.frame]? := by
    intro p s hp
    have hany : (target.pages.toList.any fun e => e.2.frame == s.frame) = true :=
      List.any_eq_true.mpr ⟨(p, s), Std.ExtTreeMap.mem_toList_iff_getElem?_eq_some.mpr hp, by simp⟩
    have hkeep : ∀ o : Option FrameLocation, o.filter (fun _ => true) = o := by
      intro o
      cases o <;> rfl
    rw [ViewMetadata.frames_retainFrames, hpages, hany, hkeep]
    exact frames_overlay base s.frame
  have hunused : ∀ id : Digest, (¬ ∃ (p : Nat) (s : StoredPage), target.pages[p]? = some s ∧
      s.frame = id) → ((delta E source target).overlay base).retainFrames.frames[id]? = none := by
    intro id hid
    have hany : (target.pages.toList.any fun e => e.2.frame == id) = false := by
      rw [List.any_eq_false]
      rintro ⟨p, s⟩ hmem
      simp only [beq_iff_eq]
      exact fun h => hid ⟨p, s, Std.ExtTreeMap.mem_toList_iff_getElem?_eq_some.mp hmem, h⟩
    rw [ViewMetadata.frames_retainFrames, hpages, hany]
    cases ((delta E source target).overlay base).frames[id]? <;> rfl
  constructor
  · intro h
    refine ⟨fun id hid => ?_, fun p s hs => ?_⟩
    · by_contra hno
      have := h id
      rw [hunused id hno] at this
      exact hid (Option.map_eq_none_iff.mp this.symm)
    · refine or_iff_not_imp_left.mpr fun hnone => ?_
      have := h s.frame
      rw [hused p s hs.1, not_not.mp hnone, Option.none_or] at this
      rw [this, hs.unchanged.2]
  · rintro ⟨hall, hinherit⟩ id
    by_cases hid : ∃ (p : Nat) (s : StoredPage), target.pages[p]? = some s ∧ s.frame = id
    · obtain ⟨p, s, hp, rfl⟩ := hid
      rw [hused p s hp]
      cases hl : (target.restrict (changed source.view target)).frames[s.frame]? with
      | some location => rw [(ViewMetadata.frames_restrict.mp hl).1, Option.some_or]
      | none =>
          -- the page itself is unchanged, so its frame has not moved
          have hs : Inherited source.view target p s := by
            refine ⟨hp, Bool.eq_false_iff.mpr fun hc => ?_⟩
            exact hpatch.framed (ViewMetadata.pages_restrict.mpr ⟨hp, hc⟩) hl
          rcases hinherit p s hs with h | h
          · exact absurd hl h
          · rw [Option.none_or, h, hs.unchanged.2]
    · have hnone : target.frames[id]? = none := by
        by_contra hne
        exact hid (hall id hne)
      rw [hunused id hid, hnone]

end Overlay

theorem overlay_delta (ht : target.Valid E) (hdb : source.view.database = target.database)
    (hlin : source.view.lineage = target.lineage) :
    ((delta E source target).overlay source.view).retainFrames = target := by
  have hpages : ((delta E source target).overlay source.view).pages = target.pages :=
    (pages_overlay_iff (fun _ => Iff.rfl)
      fun p s hp => (ViewMetadata.validatePage_eq_ok (ht.page p s hp)).2).mpr
      fun _ _ hs => hs.unchanged.1
  have hframes : ((delta E source target).overlay source.view).retainFrames.frames =
      target.frames := by
    refine Std.ExtTreeMap.ext_getElem? fun id => ?_
    simpa using (frames_overlay_iff (fun l => l) ht.restrict hpages).mpr
      ⟨ht.used, fun _ _ _ => .inr rfl⟩ id
  rcases target with ⟨db, lin, size, txid, history, parentSeal, frames, pages, preferred⟩
  simp only at hdb hlin hframes hpages
  show ViewMetadata.mk _ _ _ _ _ _ _ _ _ = _
  rw [ViewMetadata.mk.injEq]
  exact ⟨hdb, hlin, rfl, rfl, rfl, rfl, hframes, hpages, rfl⟩

/-- `apply` of a delta to its source fails on its limits only. -/
theorem apply_delta (ht : target.Valid E) (hdb : source.view.database = target.database)
    (hlin : source.view.lineage = target.lineage)
    (hps : source.view.size.pageSize = target.size.pageSize)
    (htxid : source.view.txid ≤ target.txid)
    (hsame : target.txid = source.view.txid → target.size = source.view.size ∧
      target.history = source.view.history ∧ target.contentRoot E = source.view.contentRoot E)
    (id : Digest) :
    (delta E source target).apply E id source =
      if source.ancestors.length < maxRunDepth ∧ id ∉ source.ancestors ∧
          source.decodedBytes + (delta E source target).decodedBytes ≤ viewLimit then
        .ok {
          view := target
          spanBegin := source.spanBegin
          spanEnd := target.txid
          ancestors := id :: source.ancestors
          decodedBytes := source.decodedBytes + (delta E source target).decodedBytes
          parent := .previous ⟨source.view.logicalHash E, source.view.txid⟩ }
      else .error .range := by
  have hover : ((delta E source target).overlay source.view).retainFrames = target :=
    overlay_delta ht hdb hlin
  simp only [apply, hover, ht.ranges]
  rw [Except.ensure_of (by exact ⟨rfl, rfl, hdb, hlin, hps, rfl, htxid, hsame⟩)]
  split
  · rename_i hlim
    rw [Except.ensure_of (by exact hlim), Except.ensure_of (by rfl)]
    rfl
  · rename_i hlim
    rw [Except.ensure_of_not (by exact hlim)]
    rfl

end MetadataRun

/-! ## Records over their views -/

/-- A location as the decoder computes it: its length is that of its payload. -/
def FrameLocation.decoded (l : FrameLocation) : FrameLocation :=
  { l with length := l.metadata.payloadBytes }

namespace ViewRecord

variable {r : ViewRecord}

end ViewRecord

theorem MetadataRun.encode_spec {run : MetadataRun} {r : RunRecord} (h : run.encode E = .ok r) :
    ∃ patch, run.patch.view.encodeRaw E = .ok patch ∧
      r = ⟨run.parent, run.root, run.spanBegin, run.spanEnd, run.removed, patch⟩ := by
  simp only [encode, Except.bind_eq_ok, Except.ensure_eq_ok, exists_const] at h
  obtain ⟨_, _, patch, hpatch, _, h⟩ := h
  cases h
  exact ⟨patch, hpatch, rfl⟩

/-- What `apply` checks and returns. -/
theorem MetadataRun.apply_eq_ok {run : MetadataRun} {id : Digest} {base val : ValidatedMetadata}
    (h : run.apply E id base = .ok val) :
    run.parent = ⟨base.view.logicalHash E, base.view.txid⟩ ∧
    val.view = (run.overlay base.view).retainFrames ∧ val.spanBegin = run.spanBegin ∧
    val.ancestors = id :: base.ancestors ∧ base.ancestors.length < maxRunDepth ∧
    val.decodedBytes = base.decodedBytes + run.decodedBytes ∧ val.decodedBytes ≤ viewLimit := by
  simp only [apply, Except.bind_eq_ok, Except.ensure_eq_ok, exists_const] at h
  obtain ⟨⟨hhash, htxid, _⟩, ⟨hdepth, _, hbytes⟩, _, _, _, h⟩ := h
  cases h
  refine ⟨?_, rfl, rfl, rfl, hdepth, rfl, hbytes⟩
  rw [← hhash, ← htxid]

/-! ## What a load establishes about its chain -/

namespace Catalog

variable {C : Catalog}

/-- A load reads a checkpoint, or a run whose parent it loads and applies the run to. -/
theorem loadFrom_eq_ok {fuel decoded : Nat} {next : Digest} {seen : List Digest}
    {val : ValidatedMetadata} :
    C.loadFrom E fuel next seen decoded = .ok val ↔ ∃ record total,
      C.fetch E next seen decoded = .ok (record, total) ∧
      (record = .checkpoint val ∨ ∃ run rest parent base, record = .run run ∧ fuel = rest + 1 ∧
        C.findEndpoint run.parent (next :: seen) = some parent ∧
        C.loadFrom E rest parent (next :: seen) total = .ok base ∧
        run.apply E parent base = .ok val) := by
  rw [loadFrom, Except.bind_eq_ok, Prod.exists]
  refine exists_congr fun record => exists_congr fun total => and_congr_right fun _ => ?_
  cases record with
  | checkpoint view => simp [pure, Except.pure]
  | run run =>
      cases fuel with
      | zero => simp
      | succ rest =>
          cases hfind : C.findEndpoint run.parent (next :: seen) with
          | none => simp [hfind]
          | some parent => simp [hfind, Except.bind_eq_ok]

theorem fetch_eq_ok {decoded total : Nat} {next : Digest} {seen : List Digest}
    {record : ManifestRecord} :
    C.fetch E next seen decoded = .ok (record, total) ↔ next ∉ seen ∧ ∃ m,
      C.readManifest E next = .ok m ∧ decoded ≤ viewLimit ∧
      ManifestRecord.fromSegment E m (viewLimit - decoded) = .ok record ∧
      total = decoded + record.decodedBytes ∧ total ≤ viewLimit := by
  simp only [fetch, Except.bind_eq_ok, Except.ensure_eq_ok, exists_const]
  constructor
  · rintro ⟨hseen, m, hm, hle, record', hr, htotal, h⟩
    cases h
    exact ⟨hseen, m, hm, hle, hr, rfl, htotal⟩
  · rintro ⟨hseen, m, hm, hle, hr, rfl, htotal⟩
    exact ⟨hseen, m, hm, hle, record, hr, htotal, rfl⟩

end Catalog

namespace ManifestRecord

variable {m : ManifestObject} {budget : Nat}

theorem fromSegment_checkpoint_eq_ok {val : ValidatedMetadata} :
    fromSegment E m budget = .ok (.checkpoint val) ↔
      E.footerLength m.body ≤ min budget viewLimit ∧ m.charge E + runPrefix ≤ budget ∧
      ∃ record patch, m.body = .checkpoint record ∧ record.decode E = .ok patch ∧
        m.header.parent = .checkpoint ∧ m.checkPatch E patch.view = .ok () ∧
        patch.view.contentRoot E = m.root ∧
        val = { patch with
          spanBegin := m.header.spanBegin
          spanEnd := m.header.spanEnd
          decodedBytes := m.charge E } := by
  simp only [fromSegment, Except.bind_eq_ok, Except.ensure_eq_ok, exists_const]
  refine and_congr_right fun _ => and_congr_right fun _ => ?_
  cases hbody : m.body with
  | checkpoint record =>
      simp only [Except.bind_eq_ok, Except.ensure_eq_ok, exists_const]
      constructor
      · rintro ⟨patch, hdec, hparent, _, hcheck, hroot, h⟩
        cases h
        exact ⟨record, patch, rfl, hdec, hparent, hcheck, hroot, rfl⟩
      · rintro ⟨_, patch, h, hdec, hparent, hcheck, hroot, rfl⟩
        cases h
        exact ⟨patch, hdec, hparent, (), hcheck, hroot, rfl⟩
  | run record =>
      simp only [Except.bind_eq_ok, Except.ensure_eq_ok, exists_const]
      constructor
      · rintro ⟨_, _, _, _, _, _, h⟩
        cases h
      · rintro ⟨_, _, h, _⟩
        cases h

theorem fromSegment_run_eq_ok {run : MetadataRun} :
    fromSegment E m budget = .ok (.run run) ↔
      E.footerLength m.body ≤ min budget viewLimit ∧ m.charge E + runPrefix ≤ budget ∧
      ∃ record r, m.body = .run record ∧ record.decode E = .ok r ∧
        m.header.parent = .previous r.parent ∧ m.header.spanBegin = r.spanBegin ∧
        m.header.spanEnd = r.spanEnd ∧ r.root = m.root ∧
        m.checkPatch E r.patch.view = .ok () ∧
        (∀ page ∈ r.removed, ¬ r.patch.view.pages.contains page) ∧
        run = { r with
          patch := { r.patch with
            spanBegin := m.header.spanBegin
            spanEnd := m.header.spanEnd
            decodedBytes := m.charge E } } := by
  simp only [fromSegment, Except.bind_eq_ok, Except.ensure_eq_ok, exists_const]
  refine and_congr_right fun _ => and_congr_right fun _ => ?_
  cases hbody : m.body with
  | checkpoint record =>
      simp only [Except.bind_eq_ok, Except.ensure_eq_ok, exists_const]
      constructor
      · rintro ⟨_, _, _, _, _, _, h⟩
        cases h
      · rintro ⟨_, _, h, _⟩
        cases h
  | run record =>
      simp only [Except.bind_eq_ok, Except.ensure_eq_ok, exists_const]
      constructor
      · rintro ⟨r, hdec, ⟨hparent, hbegin, hend, hroot⟩, _, hcheck, hremoved, h⟩
        cases h
        exact ⟨record, r, rfl, hdec, hparent, hbegin, hend, hroot, hcheck, hremoved, rfl⟩
      · rintro ⟨_, r, h, hdec, hparent, hbegin, hend, hroot, hcheck, hremoved, rfl⟩
        cases h
        exact ⟨r, hdec, ⟨hparent, hbegin, hend, hroot⟩, (), hcheck, hremoved, rfl⟩

end ManifestRecord

theorem ManifestObject.checkPatch_eq_ok {m : ManifestObject} {patch : ViewMetadata} {u : Unit} :
    m.checkPatch E patch = .ok u ↔ patch.validateFrameRanges = .ok () ∧
      patch.txid = m.header.spanEnd ∧ patch.logicalHashFor E m.root = m.header.logicalHash := by
  simp only [ManifestObject.checkPatch, Except.bind_eq_ok, Except.ensure_eq_ok, exists_const]
  exact ⟨fun ⟨_, h⟩ => h, fun h => ⟨(), h⟩⟩

theorem RunRecord.decode_spec {r : RunRecord} {run : MetadataRun} (h : r.decode E = .ok run) :
    run.parent = r.parent ∧ run.root = r.root ∧ run.spanBegin = r.spanBegin ∧
    run.spanEnd = r.spanEnd ∧ run.removed = r.removed ∧ r.spanBegin ≤ r.spanEnd ∧
    r.patch.decode E = .ok run.patch := by
  simp only [decode, Except.bind_eq_ok, Except.ensure_eq_ok, exists_const] at h
  obtain ⟨_, _, ⟨_, _, hspan⟩, _, _, _, patch, hpatch, _, h⟩ := h
  cases h
  exact ⟨rfl, rfl, rfl, rfl, rfl, hspan, hpatch⟩

theorem ViewRecord.decode_ancestors {r : ViewRecord} {val : ValidatedMetadata}
    (h : r.decode E = .ok val) : val.ancestors = [] := by
  simp only [decode, Except.bind_eq_ok, Except.ensure_eq_ok, exists_const] at h
  obtain ⟨_, _, _, _, _, _, _, _, _, _, _, _, _, hval, _, h⟩ := h
  cases h
  exact (ViewMetadata.validate_spec hval).2.2.1

namespace Catalog

variable {C : Catalog}

theorem span_of_readManifest {id : Digest} {m : ManifestObject}
    (h : C.readManifest E id = .ok m) : m.header.spanBegin ≤ m.header.spanEnd := by
  unfold readManifest at h
  split at h
  · cases h
  · simp only [Except.bind_eq_ok, Except.ensure_eq_ok, exists_const, SegmentHeader.new] at h
    obtain ⟨_, _, ⟨⟨_, hspan⟩, _⟩, _, h⟩ := h
    cases h
    exact hspan

theorem chain_checkpoint {decoded total : Nat} {next : Digest} {seen : List Digest}
    {val : ValidatedMetadata} (h : C.fetch E next seen decoded = .ok (.checkpoint val, total)) :
    val.spanBegin ≤ val.view.txid ∧ ∀ a ∈ val.ancestors, a ∉ next :: seen := by
  obtain ⟨_, m, hm, _, hrecord, _⟩ := fetch_eq_ok.mp h
  obtain ⟨_, _, _, patch, _, hdec, _, hcheck, _, rfl⟩ :=
    ManifestRecord.fromSegment_checkpoint_eq_ok.mp hrecord
  refine ⟨?_, by simp [ViewRecord.decode_ancestors hdec]⟩
  exact (span_of_readManifest hm).trans (ManifestObject.checkPatch_eq_ok.mp hcheck).2.1.ge

/-- The span of a loaded view begins no later than its transaction, and its ancestors are
other manifests than the one loaded. The induction is on the runs below it: a parent is looked
up among the manifests not seen so far. -/
theorem loadFrom_chain {fuel decoded : Nat} {next : Digest} {seen : List Digest}
    {val : ValidatedMetadata} (h : C.loadFrom E fuel next seen decoded = .ok val) :
    val.spanBegin ≤ val.view.txid ∧ ∀ a ∈ val.ancestors, a ∉ next :: seen := by
  induction fuel generalizing next seen decoded val with
  | zero =>
      obtain ⟨record, total, hfetch, rfl | ⟨_, _, _, _, _, hfuel, _⟩⟩ := loadFrom_eq_ok.mp h
      · exact chain_checkpoint hfetch
      · cases hfuel
  | succ rest ih =>
      obtain ⟨record, total, hfetch, rfl | ⟨run, rest', parent, base, rfl, hfuel, _, hbase, happly⟩⟩ :=
        loadFrom_eq_ok.mp h
      · exact chain_checkpoint hfetch
      · cases hfuel
        obtain ⟨_, m, hm, _, hrecord, _⟩ := fetch_eq_ok.mp hfetch
        obtain ⟨_, _, _, r, _, _, _, hbegin, _, _, hcheck, _, rfl⟩ :=
          ManifestRecord.fromSegment_run_eq_ok.mp hrecord
        have htxid := (ManifestObject.checkPatch_eq_ok.mp hcheck).2.1
        obtain ⟨record, _, hparent, _⟩ := loadFrom_eq_ok.mp hbase
        have hnew := (fetch_eq_ok.mp hparent).1
        obtain ⟨_, hview, hspan, hanc, _⟩ := MetadataRun.apply_eq_ok happly
        refine ⟨?_, fun a ha => ?_⟩
        · rw [hspan, hview]
          show r.spanBegin ≤ r.patch.view.txid
          rw [← hbegin, htxid]
          exact span_of_readManifest hm
        · rw [hanc] at ha
          rcases List.mem_cons.mp ha with rfl | ha
          · exact hnew
          · exact fun hmem => (ih hbase).2 a ha (List.mem_cons_of_mem _ hmem)

end Catalog

/-! ## The round trip -/

/-- **Delta round trip.** For a loaded source and a valid target of its history, the delta
exists, and applying it to the source gives exactly the target unless the chain is too deep or
too large. -/
theorem MetadataRun.between_apply {C : Catalog} {id : Digest} {source : ValidatedMetadata}
    {target : ViewMetadata} {valid : ValidatedMetadata}
    (hload : C.loadMetadata E id = .ok source) (ht : target.validate E = .ok valid)
    (hdb : source.view.database = target.database) (hlin : source.view.lineage = target.lineage)
    (hps : source.view.size.pageSize = target.size.pageSize)
    (htxid : source.view.txid ≤ target.txid)
    (hsame : target.txid = source.view.txid → target.size = source.view.size ∧
      target.history = source.view.history ∧ target.contentRoot E = source.view.contentRoot E) :
    ∃ run, MetadataRun.between E source target = .ok run ∧
      run.apply E id source =
        if source.ancestors.length < maxRunDepth ∧
            source.decodedBytes + run.decodedBytes ≤ viewLimit then
          .ok {
            view := target
            spanBegin := source.spanBegin
            spanEnd := target.txid
            ancestors := id :: source.ancestors
            decodedBytes := source.decodedBytes + run.decodedBytes
            parent := .previous run.parent }
        else .error .range := by
  obtain ⟨hvalid, -⟩ := ViewMetadata.validate_eq_ok.mp ht
  obtain ⟨hspan, hancestors⟩ := Catalog.loadFrom_chain hload
  have hid : id ∉ source.ancestors := fun hmem => hancestors id hmem List.mem_cons_self
  refine ⟨delta E source target,
    between_eq_ok.mpr ⟨hspan.trans htxid, hvalid.restrict, rfl⟩, ?_⟩
  rw [apply_delta hvalid hdb hlin hps htxid hsame]
  simp only [hid, not_false_eq_true, true_and]
  rfl

/-! ### A small history -/

/-- A raw frame of one page of 512 equal bytes. -/
def filledFrame (page txid : Nat) (fill : UInt8) : EncodedFrame where
  metadata := {
    shape := .single
    encoding := .raw
    payloadBytes := 512
    payloadHash := 2 * fill.toNat + 1
    pages := [⟨page, txid, 2 * fill.toNat + 1⟩] }
  payload := List.replicate 512 fill

theorem filledFrame_wellEncoded (page txid : Nat) (fill : UInt8) :
    (filledFrame page txid fill).WellEncoded Env.coded := by
  have hlen : (List.replicate 512 fill).length = 512 := List.length_replicate
  have hcode : pageCode (List.replicate 512 fill) = 2 * fill.toNat + 1 := by
    show (if List.replicate 512 fill = List.replicate 512 fill then _ else _) = _
    rw [if_pos rfl]
  have hchunks : ByteVec.chunks 512 (List.replicate 512 fill) = [List.replicate 512 fill] := by
    rw [ByteVec.chunks, List.length_replicate]
    exact congrArg (fun b => [b]) (List.take_of_length_le (by rw [List.length_drop, hlen]))
  unfold filledFrame
  generalize List.replicate 512 fill = bytes at hlen hcode hchunks ⊢
  refine ⟨hlen.symm, fun dictionaries _ => ⟨bytes, ?_⟩⟩
  refine FrameMetadata.verifyPayload_eq_ok.mpr ⟨⟨hlen, hcode⟩, rfl, hlen.trans (Nat.one_mul 512).symm,
    fun v page' hmem => ?_⟩
  have hmem : (v, page') ∈ [(⟨page, txid, 2 * fill.toNat + 1⟩ : PageVersion)].zip
      (ByteVec.chunks 512 bytes) := hmem
  rw [hchunks] at hmem
  cases List.mem_singleton.mp hmem
  exact hcode

/-- The first seal of two pages, in the frames of one pack. -/
def sealTwoPages (pack : Pack) : Except StoreError (Catalog × DurableView) := do
  let st ← (PackWriter.mk pack 0).finish Env.coded
    ⟨Catalog.empty, ViewMetadata.empty 1 2 ⟨1024, .smallest, by decide, by decide⟩ 1 3, []⟩
  { ManifestBuilder.new st.view none with packs := st.packs }.finalize Env.coded st.catalog

/-- The next transaction frees the second page. -/
def ViewMetadata.freeSecond (v : ViewMetadata) : ViewMetadata :=
  (({ v with txid := v.txid + 1 }).remove 2).retainFrames

theorem MetadataRun.between_apply_freed_page :
    ∃ (C : Catalog) (id : Digest) (source : ValidatedMetadata) (run : MetadataRun),
      C.loadMetadata Env.coded id = .ok source ∧ source.view.pages.size = 2 ∧
      MetadataRun.between Env.coded source source.view.freeSecond = .ok run ∧
      run.apply Env.coded id source = .ok {
        view := source.view.freeSecond
        spanBegin := source.spanBegin
        spanEnd := 2
        ancestors := [id]
        decodedBytes := source.decodedBytes + run.decodedBytes
        parent := .previous run.parent } := by
  have hrun : ((sealTwoPages [filledFrame 1 1 7, filledFrame 2 1 9]).toOption.any fun (C, durable) =>
      (C.loadMetadata Env.coded durable.id).toOption.any fun source =>
        ((source.view.freeSecond.validate Env.coded).toOption.any fun _ => true) &&
        decide (source.view.pages.size = 2 ∧ source.view.txid = 1 ∧ source.ancestors = []) &&
        (MetadataRun.between Env.coded source source.view.freeSecond).toOption.any fun run =>
          decide (source.decodedBytes + run.decodedBytes ≤ viewLimit)) = true := by
    decide +kernel
  obtain ⟨⟨C, durable⟩, -, hrun⟩ := Except.exists_of_any hrun
  obtain ⟨source, hload, hrun⟩ := Except.exists_of_any hrun
  rw [Bool.and_eq_true, Bool.and_eq_true, decide_eq_true_eq] at hrun
  obtain ⟨⟨hvalid, hsize, htxid, hancestors⟩, hlimit⟩ := hrun
  obtain ⟨valid, hvalid, -⟩ := Except.exists_of_any hvalid
  obtain ⟨run', hrun', hlimit⟩ := Except.exists_of_any hlimit
  have hnext : source.view.freeSecond.txid = source.view.txid + 1 := rfl
  obtain ⟨run, hrun, happly⟩ := MetadataRun.between_apply hload hvalid rfl rfl rfl
    (by omega) (fun h => by omega)
  obtain rfl : run' = run := Except.ok.inj (hrun'.symm.trans hrun)
  refine ⟨C, durable.id, source, run', hload, hsize, hrun, ?_⟩
  rw [happly, if_pos ⟨by rw [hancestors]; decide, of_decide_eq_true hlimit⟩, hnext, htxid, hancestors]

end Zsqlite
