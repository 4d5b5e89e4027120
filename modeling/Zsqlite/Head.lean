import Zsqlite.PinnedView

set_option autoImplicit false

/-! # Head descriptors and the conversion root

A seal announces the header of the active file it is about to install (`prepareSeal`), installs
the file, and finalizes the announcement (`finishSeal`); `recoverSeal` settles what a crash left
between the two. A source conversion records its progress as a retained root, which names a
logical endpoint and is looked up again each time it is used.

The last section says in which sense a manifest id and a logical endpoint determine what a pin
of them reads, whatever the catalog lost in between.
-/

namespace Zsqlite

namespace Catalog

variable (E : Env) (C : Catalog)

def validateAttachment (header : ActiveHeader) : Except StoreError Unit := do
  Except.ensure (C.database = some header.databaseId) .identityMismatch
  Except.ensure (C.attachment = some header.attachmentId) .staleAttachment

def prepareSeal (header : ActiveHeader) : Except StoreError Catalog := do
  C.validateAttachment header
  return { C with pending := some header }

def finishSeal (header : ActiveHeader) : Except StoreError Catalog := do
  C.validateAttachment header
  match C.pending with
  | none => return C
  | some pending =>
      Except.ensure (pending = header) .busy
      return { C with finalized := some pending, pending := none }

def recoverSeal (header : ActiveHeader) : Except StoreError Catalog := do
  C.validateAttachment header
  if C.pending = some header then C.finishSeal header
  else if C.pending.isSome ∧
      C.finalized.all (fun s => s.parentPhysicalDigest = header.parentPhysicalDigest) then
    return { C with pending := none }
  else return C

/-- Look a retained endpoint up and pin what the lookup selects. -/
def pinRetained (pin : DurablePin) : Except StoreError PinnedView :=
  match C.findEndpoint ⟨pin.hash, pin.txid⟩ [] with
  | none => .error (.corrupt 0)
  | some id => do
      let view ← C.pin E id
      let v := view.metadata.view
      Except.ensure (v.database = pin.database ∧ v.txid = pin.txid ∧ v.logicalHash E = pin.hash)
        .identityMismatch
      return view

/-- The prefix of the source sealed so far. -/
def convertedPrefix : Except StoreError (Option PinnedView) :=
  match C.conversion with
  | none => return none
  | some pin => some <$> C.pinRetained E pin

/-- Replace the conversion root by the endpoint of a view. -/
def retainConversion (view : PinnedView) : Except StoreError Catalog := do
  let validated ← C.pin E view.id
  let v := validated.metadata.view
  Except.ensure (C.conversion.all fun previous => previous.database = v.database) .identityMismatch
  let pin : DurablePin := ⟨v.logicalHash E, v.txid, v.database⟩
  let _ ← C.pinRetained E pin
  return { C with conversion := some pin }

def releaseConversion : Except StoreError Catalog :=
  match C.conversion with
  | none => .error .io
  | some _ => .ok { C with conversion := none }

end Catalog

/-! ## What an id and an endpoint determine -/

section Agree

variable {E : Env} {C : Catalog}

/-- Two views with the same fields and the same version of every page. -/
structure ViewMetadata.Agrees (v w : ViewMetadata) : Prop where
  size : v.size = w.size
  txid : v.txid = w.txid
  history : v.history = w.history
  database : v.database = w.database
  version : ∀ p, v.version p = w.version p

theorem ManifestObject.ResolvesTo.agrees {m : ManifestObject} {v w : ViewMetadata}
    (hv : m.ResolvesTo E v) (hw : m.ResolvesTo E w) : v.Agrees w where
  size := LogicalBytes.eq_of_get (hv.describes.size.trans hw.describes.size.symm)
    (hv.describes.pageSize.trans hw.describes.pageSize.symm)
  txid := hv.describes.txid.trans hw.describes.txid.symm
  history := hv.describes.history.trans hw.describes.history.symm
  database := hv.describes.database.trans hw.describes.database.symm
  version := ViewMetadata.version_eq_of_contentRoot hv.resolved.toConsistent
    hw.resolved.toConsistent (hv.describes.root.trans hw.describes.root.symm)

/-- A view with everything a read needs, to which the manifest of its id resolves. -/
structure PinnedView.Genuine (E : Env) (view : PinnedView) : Prop where
  served : view.Served E
  manifest : ∃ m, E.hash.manifest m = view.id ∧ m.ResolvesTo E view.metadata.view

theorem Catalog.pin_genuine (hC : C.Sound E) {id : Digest} {view : PinnedView}
    (h : C.pin E id = .ok view) : view.id = id ∧ view.Genuine E := by
  obtain ⟨hid, hload, hserved⟩ := pin_spec hC h
  obtain ⟨m, _, hm, hr⟩ := loadMetadata_spec hC hload
  exact ⟨hid, hserved, m, hm.trans hid.symm, hr⟩

/-- **A manifest id determines the view.** Two pins of one id agree, in whatever catalogs they
were made. -/
theorem PinnedView.Genuine.agrees {a b : PinnedView} (ha : a.Genuine E) (hb : b.Genuine E)
    (h : a.id = b.id) : a.metadata.view.Agrees b.metadata.view := by
  obtain ⟨m, hm, hr⟩ := ha.manifest
  obtain ⟨m', hm', hr'⟩ := hb.manifest
  cases E.hash.manifest_injective (hm.trans (h.trans hm'.symm))
  exact hr.agrees hr'

/-- **A logical endpoint determines the view** as well. -/
theorem ViewMetadata.agrees_of_logicalHash {v w : ViewMetadata} (hv : v.Consistent E)
    (hw : w.Consistent E) (h : v.logicalHash E = w.logicalHash E) : v.Agrees w := by
  have := E.hash.view_injective h
  simp only [ViewInput.mk.injEq] at this
  obtain ⟨hd, -, hps, hs, ht, hh, -, hroot⟩ := this
  exact ⟨LogicalBytes.eq_of_get hs hps, ht, hh, hd, version_eq_of_contentRoot hv hw hroot⟩

theorem Catalog.pinRetained_eq_ok {pin : DurablePin} {view : PinnedView}
    (h : C.pinRetained E pin = .ok view) :
    ∃ id, C.pin E id = .ok view ∧ view.metadata.view.database = pin.database ∧
      view.metadata.view.txid = pin.txid ∧ view.metadata.view.logicalHash E = pin.hash := by
  unfold pinRetained at h
  split at h
  · cases h
  · rename_i id _
    simp only [Except.bind_eq_ok, Except.ensure_eq_ok, exists_const] at h
    obtain ⟨_, hp, ⟨hd, ht, hh⟩, h⟩ := h
    cases h
    exact ⟨id, hp, hd, ht, hh⟩

theorem Catalog.convertedPrefix_eq_ok (hC : C.Sound E) {done : Option PinnedView}
    (h : C.convertedPrefix E = .ok done) :
    C.conversion = none ∧ done = none ∨
    ∃ pin view, C.conversion = some pin ∧ done = some view ∧ view.Genuine E ∧
      view.metadata.view.logicalHash E = pin.hash := by
  unfold convertedPrefix at h
  split at h
  · rename_i hnone
    cases h
    exact .inl ⟨hnone, rfl⟩
  · rename_i pin hpin
    cases hget : C.pinRetained E pin with
    | error e =>
        rw [hget] at h
        cases h
    | ok view =>
        rw [hget] at h
        cases h
        obtain ⟨id, hid, -, -, hhash⟩ := pinRetained_eq_ok hget
        exact .inr ⟨pin, view, hpin, rfl, (pin_genuine hC hid).2, hhash⟩

/-- Views that agree and are both served read the same bytes. -/
theorem PinnedView.readPage_agrees {a b : PinnedView} (ha : a.Served E) (hb : b.Served E)
    (h : a.metadata.view.Agrees b.metadata.view) {p : Nat} (hp : p ≤ a.size.pages) :
    a.readPage E p = b.readPage E p := by
  have hsize : a.size = b.size := h.size
  obtain ⟨x, hx⟩ := readPage_total ha hp
  obtain ⟨y, hy⟩ := readPage_total hb (p := p) (hsize ▸ hp)
  rw [hx, hy, readPage_unique ha.resolved hb.resolved (by rw [hsize]) (h.version p) hx hy]

end Agree

end Zsqlite
