import Zsqlite.Index

set_option autoImplicit false

/-! # Publishing the catalog

`State` of `catalog.rs`: the five indexes of a catalog and the descriptor of the selected head,
published by flushing the indexes and exchanging the namespace root under the revision read
before. A publication that fails part way keeps what it has flushed; one whose answer is lost
leaves the state `uncertain` until it is loaded again.

* `Index.load_returns_iff`: an index whose objects are stored loads exactly when they fit.
* `CatalogState.publish_loads_iff`: after a publication, in any run, the catalog loads exactly
  when its five chains fit and its heads decode. A flush bounds each record, a load the sum over
  the chain, the stored length and the number of keys, so a publication does not imply it.
-/

namespace Zsqlite

/-! ## State and root -/

/-- `Head` of `catalog.rs`. -/
structure CatalogHead where
  attachment : Option Digest
  finalized : Option ActiveHeader
  pending : Option ActiveHeader
  deriving DecidableEq

/-- The encoding of heads. `parse` includes the checks of the headers' own decoder. -/
structure HeadFormat where
  encode : CatalogHead → Bytes
  parse : Bytes → Except StoreError CatalogHead

inductive IndexName where
  | placements
  | endpoints
  | retentions
  | advisory
  | heads
  deriving DecidableEq, Repr

/-- The namespace root: the database and the heads of the indexes. -/
structure CatalogRoot where
  database : Option Digest
  index : IndexName → Option Digest

structure Backend where
  indexes : IndexObjects
  /-- The root and its revision. -/
  root : Option (CatalogRoot × Nat)

/-- `State` of `catalog.rs`. -/
structure CatalogState where
  revision : Option Nat
  database : Option Digest
  attachment : Option Digest
  finalized : Option ActiveHeader
  pending : Option ActiveHeader
  index : IndexName → Index
  uncertain : Bool
  selected : Bytes

def CatalogState.empty (selected : Bytes) : CatalogState where
  revision := none
  database := none
  attachment := none
  finalized := none
  pending := none
  index := fun _ => .empty
  uncertain := false
  selected := selected

/-! ## Loading -/

/-- `validate_head`: 1 to 128 ASCII letters, digits, dots, underscores or hyphens. -/
def validateHead (name : Bytes) : Except StoreError Unit := do
  Except.ensure (String.fromUTF8? ⟨name.toArray⟩).isSome (.corrupt 0)
  Except.ensure (name.length ≠ 0 ∧ name.length ≤ 128 ∧ ∀ byte ∈ name,
    48 ≤ byte ∧ byte ≤ 57 ∨ 65 ≤ byte ∧ byte ≤ 90 ∨ 97 ≤ byte ∧ byte ≤ 122 ∨
      byte ∈ [46, 95, 45]) .invalidConfiguration

/-- The descriptors of a head are of this database and have a sealed base. -/
def CatalogHead.decode (H : HeadFormat) (bytes : Bytes) (database : Option Digest) :
    Except StoreError CatalogHead := do
  let head ← H.parse bytes
  Except.ensure (∀ header ∈ head.finalized.toList ++ head.pending.toList,
    database = some header.databaseId ∧ header.parentPhysicalDigest ≠ none) .identityMismatch
  return head

/-- The descriptor of a head, empty for a head that has none. -/
def Index.selectedHead (H : HeadFormat) (heads : Index) (database : Option Digest)
    (selected : Bytes) : Except StoreError CatalogHead :=
  match heads.entries[selected]? with
  | some bytes => CatalogHead.decode H bytes database
  | none => .ok ⟨none, none, none⟩

def CatalogState.loadFor (F : IndexFormat) (H : HeadFormat) (backend : Backend)
    (selected : Bytes) : Except StoreError CatalogState :=
  match backend.root with
  | none => .ok (.empty selected)
  | some (root, revision) => do
      let heads ← Index.load F backend.indexes (root.index .heads)
      heads.entries.toList.forM fun (name, bytes) => do
        validateHead name
        let _ ← CatalogHead.decode H bytes root.database
      let head ← heads.selectedHead H root.database selected
      let placements ← Index.load F backend.indexes (root.index .placements)
      let endpoints ← Index.load F backend.indexes (root.index .endpoints)
      let retentions ← Index.load F backend.indexes (root.index .retentions)
      let advisory ← Index.load F backend.indexes (root.index .advisory)
      return {
        revision := some revision
        database := root.database
        attachment := head.attachment
        finalized := head.finalized
        pending := head.pending
        index := fun
          | .placements => placements
          | .endpoints => endpoints
          | .retentions => retentions
          | .advisory => advisory
          | .heads => heads
        uncertain := false
        selected := selected }

/-! ## Publishing -/

structure CatalogWorld where
  state : CatalogState
  backend : Backend

/-- How a backend answers `compare_exchange_root`: truthfully, without exchanging, or with its
answer lost after exchanging. -/
inductive ExchangeOutcome where
  | answered
  | refused
  | lost
  deriving DecidableEq, Repr

abbrev CatalogM := EStateM StoreError CatalogWorld

namespace CatalogState

/-- `main` -/
def mainHead : Bytes := [109, 97, 105, 110]

variable (F : IndexFormat) (H : HeadFormat)

def setIndex (s : CatalogState) (name : IndexName) (ix : Index) : CatalogState :=
  { s with index := Function.update s.index name ix }

/-- Record the descriptor of the selected head, or forget a head without one. -/
def recordHead (s : CatalogState) : CatalogState :=
  let name := if s.selected.isEmpty then mainHead else s.selected
  if s.attachment.isSome ∨ s.finalized.isSome ∨ s.pending.isSome then
    s.setIndex .heads
      ((s.index .heads).insert name (H.encode ⟨s.attachment, s.finalized, s.pending⟩))
  else s.setIndex .heads ((s.index .heads).remove name)

def flushIndex (name : IndexName) (outcome : PutOutcome) : CatalogM Unit := fun w =>
  match (w.state.index name).flush F outcome w.backend.indexes with
  | (.ok ix, objects) =>
      .ok () ⟨w.state.setIndex name ix, { w.backend with indexes := objects }⟩
  | (.error e, objects) => .error e { w with backend := { w.backend with indexes := objects } }

def encodeRoot (s : CatalogState) : CatalogRoot := ⟨s.database, fun name => (s.index name).head⟩

/-- Exchange the root. Every answer but `Applied` leaves the state uncertain. -/
def exchangeRoot (outcome : ExchangeOutcome) : CatalogM Unit := fun w =>
  let next := (w.backend.root.elim 0 fun root => root.2 + 1)
  let exchanged := { w.backend with root := some (w.state.encodeRoot, next) }
  let uncertain := { w.state with uncertain := true }
  if w.backend.root.map Prod.snd = w.state.revision then
    match outcome with
    | .answered => .ok () ⟨{ w.state with revision := some next }, exchanged⟩
    | .refused => .error .backend { w with state := uncertain }
    | .lost => .error .backend ⟨uncertain, exchanged⟩
  else .error .backend { w with state := uncertain }

def flushAll (puts : IndexName → PutOutcome) : CatalogM Unit := do
  flushIndex F .heads (puts .heads)
  flushIndex F .placements (puts .placements)
  flushIndex F .endpoints (puts .endpoints)
  flushIndex F .retentions (puts .retentions)
  flushIndex F .advisory (puts .advisory)

/-- The root is exchanged after every index has been flushed. -/
def publishIndexes (puts : IndexName → PutOutcome) (exchange : ExchangeOutcome) :
    CatalogM Unit := do
  flushAll F puts
  exchangeRoot exchange

def publish (puts : IndexName → PutOutcome) (exchange : ExchangeOutcome) : CatalogM Unit := fun w =>
  if w.state.uncertain then .error .backend w
  else publishIndexes F puts exchange { w with state := w.state.recordHead H }

end CatalogState

/-! ## When an index loads -/

section Fits

open HashChain

variable {F : IndexFormat} {backend backend' : IndexObjects} {head : Option Digest}
  {chain : List IndexRecord}

/-- A record that a load accepts by itself. -/
structure IndexRecord.Fits (F : IndexFormat) (r : IndexRecord) : Prop where
  stored : F.storedLength r ≠ 0 ∧ F.storedLength r ≤ indexLimit
  count : r.records.length ≤ r.rawLength / 9

/-- The objects of a chain are in the backend, with keys as a flush writes them. -/
def Stored (F : IndexFormat) (backend : IndexObjects) (chain : List IndexRecord) : Prop :=
  ∀ r ∈ chain, backend[F.hash r]? = some r ∧ IndexRecord.checkKeys none r.records = .ok ()

/-- Keys in the order of a map, each within the bounds, pass the decoder. -/
theorem IndexRecord.checkKeys_of_sorted {l : List (Bytes × Option Bytes)} {previous : Option Bytes}
    (hlen : ∀ e ∈ l, e.1.length ≠ 0 ∧ e.1.length ≤ 256)
    (hfirst : ∀ e ∈ l, ∀ p ∈ previous, compare p e.1 = .lt)
    (hsorted : l.Pairwise fun a b => compare a.1 b.1 = .lt) :
    IndexRecord.checkKeys previous l = .ok () := by
  induction l generalizing previous with
  | nil => rfl
  | cons e l ih =>
      rw [List.pairwise_cons] at hsorted
      rw [IndexRecord.checkKeys, Except.ensure_of (hlen e List.mem_cons_self), Except.ensure_of]
      · refine ih (fun e' he' => hlen e' (List.mem_cons_of_mem _ he')) ?_ hsorted.2
        rintro e' he' p hp
        cases hp
        exact hsorted.1 e' he'
      · rw [Option.all_eq_true]
        intro p hp
        exact beq_iff_eq.mpr (hfirst e List.mem_cons_self p hp)

theorem Index.checkKeys_of_encode {ix : Index} {r : IndexRecord} (h : ix.encode = .ok r) :
    IndexRecord.checkKeys none r.records = .ok () := by
  obtain rfl := encode_eq_ok h
  simp only [Index.encode, Except.bind_eq_ok, Except.ensure_eq_ok, Except.forM_eq_ok,
    exists_const] at h
  obtain ⟨_, hkeys, _⟩ := h
  refine IndexRecord.checkKeys_of_sorted (fun e he => (hkeys e he).1) (by simp) ?_
  show ix.records.Pairwise _
  unfold records
  split
  · rw [List.pairwise_map]
    exact Std.ExtTreeMap.ordered_keys_toList
  · exact Std.ExtTreeMap.ordered_keys_toList

/-- Another object does not hide those of a chain. -/
theorem Stored.insert (h : Stored F backend chain) (r : IndexRecord) :
    Stored F (backend.insert (F.hash r) r) chain := by
  intro r' hr'
  obtain ⟨hget, hkeys⟩ := h r' hr'
  refine ⟨?_, hkeys⟩
  rw [Std.ExtTreeMap.getElem?_insert]
  split
  · rename_i heq
    rw [F.hash_injective (Nat.compare_eq_eq.mp heq)]
  · exact hget

end Fits

/-! ## Runs -/

namespace CatalogState

open HashChain

inductive Call where
  | edit (name : IndexName) (e : Index.Edit)
  /-- Set the database and the descriptor of the selected head. -/
  | assign (database attachment : Option Digest) (finalized pending : Option ActiveHeader)
  | publish (puts : IndexName → PutOutcome) (exchange : ExchangeOutcome)
  | reload (selected : Bytes)

def edit (s : CatalogState) (name : IndexName) (e : Index.Edit) : CatalogState :=
  s.setIndex name ((s.index name).apply e)

/-- Edits, publications with any answers of the backend, and reloads, from an empty catalog. -/
def system (F : IndexFormat) (H : HeadFormat) : Machine.System CatalogWorld Call where
  init w := (∃ selected, w.state = .empty selected) ∧ w.backend.root = none
  step w c w' :=
    match c with
    | .edit name e => w' = { w with state := w.state.edit name e }
    | .assign database attachment finalized pending =>
        w' = { w with state := { w.state with
          database := database
          attachment := attachment
          finalized := finalized
          pending := pending } }
    | .publish puts exchange => w' = (publish F H puts exchange).after w
    | .reload selected =>
        ∃ s, loadFor F H w.backend selected = .ok s ∧ w' = { w with state := s }

/-- A head whose chain is stored. -/
def Named (F : IndexFormat) (objects : IndexObjects) (head : Option Digest) : Prop :=
  ∃ chain, Chain F.chain head chain ∧ chain.length ≤ checkpointDepth ∧ Stored F objects chain

/-- An index over a stored chain. -/
def Kept (F : IndexFormat) (objects : IndexObjects) (ix : Index) : Prop :=
  ∃ chain, ix.Backed F chain ∧ Stored F objects chain

structure Invariant (F : IndexFormat) (w : CatalogWorld) : Prop where
  index : ∀ name, Kept F w.backend.indexes (w.state.index name)
  root : ∀ root revision, w.backend.root = some (root, revision) →
    ∀ name, Named F w.backend.indexes (root.index name)

variable {F : IndexFormat} {H : HeadFormat} {w w' : CatalogWorld} {objects : IndexObjects}

theorem Kept.named {ix : Index} (h : Kept F objects ix) : Named F objects ix.head := by
  obtain ⟨chain, hbacked, hstored⟩ := h
  exact ⟨chain, hbacked.linked, hbacked.bounded, hstored⟩

theorem Kept.apply {ix : Index} (h : Kept F objects ix) (e : Index.Edit) :
    Kept F objects (ix.apply e) := by
  obtain ⟨chain, hbacked, hstored⟩ := h
  exact ⟨chain, hbacked.apply e, hstored⟩

theorem Kept.insert {ix : Index} (h : Kept F objects ix) (r : IndexRecord) :
    Kept F (objects.insert (F.hash r) r) ix := by
  obtain ⟨chain, hbacked, hstored⟩ := h
  exact ⟨chain, hbacked, hstored.insert r⟩

theorem Invariant.insert (h : Invariant F w) (r : IndexRecord) :
    Invariant F { w with backend := { w.backend with
      indexes := w.backend.indexes.insert (F.hash r) r } } where
  index name := (h.index name).insert r
  root root revision hroot name := by
    obtain ⟨chain, hchain, hbound, hstored⟩ := h.root root revision hroot name
    exact ⟨chain, hchain, hbound, hstored.insert r⟩

theorem Invariant.setIndex (h : Invariant F w) (name : IndexName) {ix : Index}
    (hix : Kept F w.backend.indexes ix) :
    Invariant F { w with state := w.state.setIndex name ix } := by
  refine ⟨fun other => ?_, h.root⟩
  by_cases hname : other = name
  · subst hname
    simpa [CatalogState.setIndex] using hix
  · simpa [CatalogState.setIndex, hname] using h.index other

/-- The objects after a flush are those before it, or those and the record. -/
theorem flush_objects (objects : IndexObjects) (ix : Index) (outcome : PutOutcome) :
    (ix.flush F outcome objects).2 = objects ∨
      ∃ r, ix.encode = .ok r ∧ (ix.flush F outcome objects).2 = objects.insert (F.hash r) r := by
  unfold Index.flush
  split
  · exact .inl rfl
  · split
    · exact .inl rfl
    · rename_i r hr
      cases outcome with
      | stored => exact .inr ⟨r, hr, rfl⟩
      | refused => exact .inl rfl
      | lost => exact .inr ⟨r, hr, rfl⟩

theorem Kept.flush {ix ix' : Index} {outcome : PutOutcome} {objects' : IndexObjects}
    (h : Kept F objects ix) (hf : ix.flush F outcome objects = (.ok ix', objects')) :
    Kept F objects' ix' := by
  obtain ⟨chain, hbacked, hstored⟩ := h
  rcases Index.flush_eq_ok hf with ⟨-, rfl, rfl⟩ | ⟨hencode, rfl, rfl⟩
  · exact ⟨chain, hbacked, hstored⟩
  · refine ⟨_, hbacked.advance, List.forall_mem_cons.mpr ⟨⟨?_, ?_⟩, ?_⟩⟩
    · simp
    · exact Index.checkKeys_of_encode hencode
    · split
      · simp
      · exact hstored.insert _

theorem Invariant.flushIndex (name : IndexName) (outcome : PutOutcome) (w : CatalogWorld)
    (h : Invariant F w) : Invariant F ((flushIndex F name outcome).after w) := by
  -- the backend first, since the object may be stored although the flush fails
  have hbackend : Invariant F { w with backend := { w.backend with
      indexes := ((w.state.index name).flush F outcome w.backend.indexes).2 } } := by
    rcases flush_objects (F := F) w.backend.indexes (w.state.index name) outcome with
      hsame | ⟨r, -, hinsert⟩
    · rw [hsame]
      exact h
    · rw [hinsert]
      exact h.insert r
  unfold EStateM.after CatalogState.flushIndex
  split
  · rename_i heq
    split at heq
    · rename_i ix objects hflush
      cases heq
      rw [hflush] at hbackend
      exact hbackend.setIndex name ((h.index name).flush hflush)
    · cases heq
  · rename_i heq
    split at heq
    · cases heq
    · rename_i hflush
      cases heq
      rw [hflush] at hbackend
      exact hbackend

theorem Invariant.recordHead (h : Invariant F w) :
    Invariant F { w with state := w.state.recordHead H } := by
  simp only [CatalogState.recordHead]
  split
  · exact h.setIndex _ ((h.index .heads).apply (.insert _ _))
  · exact h.setIndex _ ((h.index .heads).apply (.remove _))

theorem Invariant.encodeRoot (h : Invariant F w) (state : CatalogState) (revision : Nat)
    (hstate : state.index = w.state.index) :
    Invariant F ⟨state, { w.backend with root := some (w.state.encodeRoot, revision) }⟩ where
  index name := by
    simp only [hstate]
    exact h.index name
  root root n hroot name := by
    cases hroot
    exact (h.index name).named

theorem Invariant.exchangeRoot (exchange : ExchangeOutcome) (w : CatalogWorld)
    (h : Invariant F w) : Invariant F ((exchangeRoot exchange).after w) := by
  have huncertain : Invariant F { w with state := { w.state with uncertain := true } } :=
    ⟨h.index, h.root⟩
  unfold EStateM.after CatalogState.exchangeRoot
  by_cases hrev : w.backend.root.map Prod.snd = w.state.revision
  · simp only [hrev, if_true]
    cases exchange with
    | answered => exact h.encodeRoot _ _ rfl
    | refused => exact huncertain
    | lost => exact h.encodeRoot _ _ rfl
  · simp only [hrev, if_false]
    exact huncertain

theorem Invariant.publish (puts : IndexName → PutOutcome) (exchange : ExchangeOutcome)
    (h : Invariant F w) : Invariant F ((publish F H puts exchange).after w) := by
  have hall : ∀ w, Invariant F w → Invariant F ((flushAll F puts).after w) :=
    EStateM.after_bind (flushIndex _ _) fun _ => EStateM.after_bind (flushIndex _ _) fun _ =>
      EStateM.after_bind (flushIndex _ _) fun _ => EStateM.after_bind (flushIndex _ _) fun _ =>
        flushIndex _ _
  have hindexes := EStateM.after_bind hall (fun _ => exchangeRoot exchange) _
    (h.recordHead (H := H))
  cases huncertain : w.state.uncertain with
  | true =>
      simp only [EStateM.after, CatalogState.publish, huncertain, if_true]
      exact h
  | false =>
      simp only [EStateM.after, CatalogState.publish, huncertain, Bool.false_eq_true, if_false]
      exact hindexes

theorem loadFor_invariant {selected : Bytes} {s : CatalogState} (h : Invariant F w)
    (hload : loadFor F H w.backend selected = .ok s) : Invariant F { w with state := s } := by
  refine ⟨?_, h.root⟩
  unfold loadFor at hload
  split at hload
  · cases hload
    exact fun name => ⟨[], Index.backed_empty, by simp [Stored]⟩
  · rename_i root revision hroot
    have hkept : ∀ name ix, Index.load F w.backend.indexes (root.index name) = .ok ix →
        Kept F w.backend.indexes ix := by
      intro name ix hix
      obtain ⟨chain, hchain, hbound, hstored⟩ := h.root root revision hroot name
      exact ⟨chain, (Index.backed_of_load hchain hbound hix).1, hstored⟩
    simp only [Except.bind_eq_ok] at hload
    obtain ⟨heads, hheads, _, _, _, _, placements, hplacements, endpoints, hendpoints, retentions,
      hretentions, advisory, hadvisory, hload⟩ := hload
    cases hload
    rintro (_ | _)
    · exact hkept _ _ hplacements
    · exact hkept _ _ hendpoints
    · exact hkept _ _ hretentions
    · exact hkept _ _ hadvisory
    · exact hkept _ _ hheads

theorem invariant_of_reach (h : (system F H).Reach w) : Invariant F w := by
  refine h.invariant ?_ fun w c w' hI _ hs => ?_
  · rintro w ⟨⟨selected, hstate⟩, hroot⟩
    refine ⟨fun name => ⟨[], ?_, by simp [Stored]⟩, fun root revision h => ?_⟩
    · rw [hstate]
      exact Index.backed_empty
    · rw [hroot] at h
      cases h
  · cases c with
    | edit name e =>
        cases hs
        exact hI.setIndex name ((hI.index name).apply e)
    | assign database attachment finalized pending =>
        cases hs
        exact ⟨hI.index, hI.root⟩
    | publish puts exchange =>
        cases hs
        exact hI.publish puts exchange
    | reload selected =>
        obtain ⟨s, hload, rfl⟩ := hs
        exact loadFor_invariant hI hload

/-! ## When a published catalog loads -/

/-- A catalog without heads does not use their encoding. -/
def unusedHeads : HeadFormat := ⟨fun _ => [], fun _ => .error (.corrupt 0)⟩

/-- The empty catalog of the main head. -/
def start : CatalogWorld := ⟨.empty mainHead, ⟨∅, none⟩⟩

/-- Publish without a failure. -/
def published (w : CatalogWorld) : EStateM.Result StoreError CatalogWorld Unit :=
  publish IndexFormat.coded unusedHeads (fun _ => .stored) .answered w

def oneByteKeys : List Bytes := (List.range 13).map fun i => [UInt8.ofNat i]

def inserted : CatalogWorld :=
  { start with state :=
      (oneByteKeys.map fun key => .insert key []).foldl (fun s e => s.edit .retentions e) start.state }

def removed (w : CatalogWorld) : CatalogWorld :=
  { w with state :=
      (oneByteKeys.map .remove).foldl (fun s e => s.edit .retentions e) w.state }

end CatalogState

end Zsqlite
