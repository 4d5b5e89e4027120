import Zsqlite.Publication
import Zsqlite.Lib.Journal

set_option autoImplicit false

/-! # Many clients of one catalog

Processes on any heads load the namespace root, edit their indexes and the descriptor of their
head, and publish: they record the head, flush the five indexes one after the other and exchange
the root under the revision they hold (`publish` and `publish_confirmed` of `catalog.rs`). Here
these parts interleave in any order, and any put or exchange may fail with or without effect.

A head determines its chain, so what a root holds does not depend on the objects that happen to
be stored: others may write and collect them at any time.
-/

namespace Zsqlite

namespace CatalogHistory

open HashChain CatalogState Journal

/-! ## Contents and changes -/

/-- What a catalog says: the database, and the entries of its indexes. -/
inductive Cell where
  | database
  | entry (name : IndexName) (key : Bytes)
  deriving DecidableEq

abbrev Cell.Value : Cell → Type
  | .database => Option Digest
  | .entry _ _ => Option Bytes

abbrev Contents := ∀ cell : Cell, cell.Value

/-- A change a client makes to its state. The descriptor of its own head is recorded by the
publication; entries of other heads are edited explicitly. -/
inductive Change where
  | entry (name : IndexName) (e : Index.Edit)
  | database (id : Option Digest)
  | head (e : Index.Edit)

def editKey : Index.Edit → Bytes
  | .insert key _ => key
  | .remove key => key

def editValue : Index.Edit → Option Bytes
  | .insert _ value => some value
  | .remove _ => none

def Change.write : Change → Sigma Cell.Value
  | .entry name e => ⟨.entry name (editKey e), editValue e⟩
  | .database id => ⟨.database, id⟩
  | .head e => ⟨.entry .heads (editKey e), editValue e⟩

def contents (s : CatalogState) : Contents
  | .database => s.database
  | .entry name key => (s.index name).entries[key]?

/-- What a root holds, in whatever state the backend is. -/
def Holds (F : IndexFormat) : Option (CatalogRoot × Nat) → Contents → Prop
  | none, c => c = contents (.empty [])
  | some (root, _), c => root.database = c .database ∧ ∀ name, ∃ chain,
      Chain F.chain (root.index name) chain ∧ chain.length ≤ checkpointDepth ∧
        ∀ key, resolve IndexRecord.find chain key = c (.entry name key)

/-- `main` for the empty name. -/
def headName (s : CatalogState) : Bytes := if s.selected.isEmpty then mainHead else s.selected

/-- What a publication records of the selected head. -/
def headEdit (H : HeadFormat) (s : CatalogState) : Index.Edit :=
  if s.attachment.isSome ∨ s.finalized.isSome ∨ s.pending.isSome then
    .insert (headName s) (H.encode ⟨s.attachment, s.finalized, s.pending⟩)
  else .remove (headName s)

/-! ## The system -/

/-- A process. The code has no `log`: it records the changes since the client last loaded the
root or had a publication answered. -/
structure Client where
  state : CatalogState
  /-- The flushes left of a running publication. -/
  todo : Option (List IndexName)
  log : List Change

structure Namespace (ι : Type) where
  backend : Backend
  client : ι → Client

inductive Event (ι : Type) where
  | edit (i : ι) (name : IndexName) (e : Index.Edit)
  | assign (i : ι) (database attachment : Option Digest) (finalized pending : Option ActiveHeader)
  | load (i : ι) (selected : Bytes)
  /-- `publish` checks that the state is certain and records the head. -/
  | begin (i : ι)
  | flush (i : ι) (outcome : PutOutcome)
  | exchange (i : ι) (outcome : ExchangeOutcome)
  /-- `publish_confirmed` finds its own root after an uncertain answer. -/
  | confirm (i : ι)
  /-- Index objects are written or deleted by others. -/
  | objects (indexes : IndexObjects)

/-- The order in which `publish` flushes. -/
def flushOrder : List IndexName := [.heads, .placements, .endpoints, .retentions, .advisory]

variable {ι : Type} [DecidableEq ι]

def Namespace.set (s : Namespace ι) (backend : Backend) (i : ι) (p : Client) : Namespace ι :=
  ⟨backend, Function.update s.client i p⟩

def Namespace.flush (F : IndexFormat) (s : Namespace ι) (i : ι) (name : IndexName)
    (rest : List IndexName) (outcome : PutOutcome) : Namespace ι :=
  match flushIndex F name outcome ⟨(s.client i).state, s.backend⟩ with
  | .ok () w => s.set w.backend i ⟨w.state, some rest, (s.client i).log⟩
  | .error _ w => s.set w.backend i ⟨w.state, none, (s.client i).log⟩

def Namespace.exchange (s : Namespace ι) (i : ι) (outcome : ExchangeOutcome) : Namespace ι :=
  match exchangeRoot outcome ⟨(s.client i).state, s.backend⟩ with
  | .ok () w => s.set w.backend i ⟨w.state, none, []⟩
  | .error _ w => s.set w.backend i ⟨w.state, none, (s.client i).log⟩

def system (F : IndexFormat) (H : HeadFormat) (ι : Type) [DecidableEq ι] :
    Machine.System (Namespace ι) (Event ι) where
  init s := s.backend.root = none ∧ ∀ i, ∃ selected, s.client i = ⟨.empty selected, none, []⟩
  step s a s' :=
    match a with
    | .edit i name e => (s.client i).todo = none ∧ s' = s.set s.backend i
        ⟨(s.client i).state.edit name e, none, (s.client i).log ++ [.entry name e]⟩
    | .assign i database attachment finalized pending => (s.client i).todo = none ∧
        s' = s.set s.backend i ⟨{ (s.client i).state with
          database := database
          attachment := attachment
          finalized := finalized
          pending := pending }, none, (s.client i).log ++ [.database database]⟩
    | .load i selected => (s.client i).todo = none ∧
        ∃ t, loadFor F H s.backend selected = .ok t ∧ s' = s.set s.backend i ⟨t, none, []⟩
    | .begin i => (s.client i).todo = none ∧ (s.client i).state.uncertain = false ∧
        s' = s.set s.backend i ⟨(s.client i).state.recordHead H, some flushOrder,
          (s.client i).log ++ [.head (headEdit H (s.client i).state)]⟩
    | .flush i outcome => ∃ name rest, (s.client i).todo = some (name :: rest) ∧
        s' = s.flush F i name rest outcome
    | .exchange i outcome => (s.client i).todo = some [] ∧ s' = s.exchange i outcome
    | .confirm i => (s.client i).todo = none ∧ ∃ n,
        s.backend.root = some ((s.client i).state.encodeRoot, n) ∧
        s' = s.set s.backend i { s.client i with
          state := { (s.client i).state with revision := some n, uncertain := false } }
    | .objects indexes => s' = { s with backend := { s.backend with indexes := indexes } }

/-! ## Contents of a state and of its root -/

variable {F : IndexFormat} {H : HeadFormat} {s t : CatalogState} {c : Contents} {n : Nat}

theorem recordHead_eq (s : CatalogState) : s.recordHead H = s.edit .heads (headEdit H s) := by
  simp only [recordHead, headEdit, headName]
  split <;> rfl

theorem editKey_headEdit (s : CatalogState) : editKey (headEdit H s) = headName s := by
  unfold headEdit
  split <;> rfl

theorem index_setIndex (s : CatalogState) (name n : IndexName) (ix : Index) :
    (s.setIndex name ix).index n = if n = name then ix else s.index n :=
  Function.update_apply _ _ _ _

theorem entries_apply (ix : Index) (e : Index.Edit) (key : Bytes) :
    (ix.apply e).entries[key]? = if editKey e = key then editValue e else ix.entries[key]? := by
  cases e with
  | insert k v => exact Index.entries_insert k v
  | remove k => exact Index.entries_remove k

theorem dirty_apply (ix : Index) {e : Index.Edit} {key : Bytes} (h : editKey e ≠ key) :
    (ix.apply e).dirty[key]? = ix.dirty[key]? := by
  cases e with
  | insert k v =>
      simp only [Index.apply, Index.insert]
      split <;> simp_all [Std.ExtTreeMap.getElem?_insert, editKey]
  | remove k =>
      simp only [Index.apply, Index.remove]
      split <;> simp_all [Std.ExtTreeMap.getElem?_insert, editKey]

/-- An edit writes one entry, -/
theorem contents_edit (s : CatalogState) (name : IndexName) (e : Index.Edit) :
    contents (s.edit name e) =
      Function.update (contents s) (.entry name (editKey e)) (editValue e) := by
  funext cell
  rcases cell with _ | ⟨n, key⟩
  · rfl
  · by_cases hcell : n = name ∧ editKey e = key
    · obtain ⟨rfl, rfl⟩ := hcell
      simp [contents, edit, index_setIndex, entries_apply]
    · rw [Function.update_of_ne (by rintro ⟨⟩; exact hcell ⟨rfl, rfl⟩)]
      simp only [contents, edit, index_setIndex]
      split
      · rename_i hn
        rw [entries_apply, if_neg fun hk => hcell ⟨hn, hk⟩, hn]
      · rfl

/-- and marks no other key as changed. -/
theorem dirty_edit {name n : IndexName} {e : Index.Edit} {key : Bytes}
    (h : Cell.entry n key ≠ .entry name (editKey e)) :
    ((s.edit name e).index n).dirty[key]? = (s.index n).dirty[key]? := by
  simp only [edit, index_setIndex]
  split
  · rename_i hn
    rw [dirty_apply _ fun hk => h (by rw [hn, hk]), hn]
  · rfl

/-- Indexes over chains, as loads, edits and flushes leave them. -/
def Backed (F : IndexFormat) (s : CatalogState) : Prop :=
  ∀ name, ∃ chain, (s.index name).Backed F chain

theorem Backed.setIndex (h : Backed F s) (name : IndexName) {ix : Index}
    (hix : ∃ chain, ix.Backed F chain) : Backed F (s.setIndex name ix) := by
  intro n
  rw [index_setIndex]
  split
  · exact hix
  · exact h n

theorem Backed.edit (h : Backed F s) (name : IndexName) (e : Index.Edit) :
    Backed F (s.edit name e) := by
  obtain ⟨chain, hchain⟩ := h name
  exact h.setIndex name ⟨chain, hchain.apply e⟩

/-- A root holds what the state that encoded it says, except for keys changed since. -/
theorem Backed.contents_eq (h : Backed F s) (hc : Holds F (some (s.encodeRoot, n)) c) {cell : Cell}
    (hcell : ∀ name key, cell = .entry name key → (s.index name).dirty[key]? = none) :
    contents s cell = c cell := by
  cases cell with
  | database => exact hc.1
  | entry name key =>
      obtain ⟨chain, hchain, -, hresolve⟩ := hc.2 name
      obtain ⟨chain', hbacked⟩ := h name
      cases hbacked.linked.unique hchain
      show (s.index name).entries[key]? = c (.entry name key)
      rw [hbacked.entries, hcell name key rfl, ← hresolve]
      rfl

theorem Backed.holds (h : Backed F s) (hclean : ∀ name, (s.index name).dirty = ∅) :
    Holds F (some (s.encodeRoot, n)) (contents s) := by
  refine ⟨rfl, fun name => ?_⟩
  obtain ⟨chain, hbacked⟩ := h name
  exact ⟨chain, hbacked.linked, hbacked.bounded, hbacked.resolve_eq (hclean name)⟩

/-- A loaded state has the revision and the contents of the root, and nothing changed. -/
theorem loadFor_eq_ok {backend : Backend} {selected : Bytes} (hc : Holds F backend.root c)
    (h : loadFor F H backend selected = .ok s) :
    s.revision = backend.root.map Prod.snd ∧ Backed F s ∧ contents s = c ∧
      ∀ name, (s.index name).dirty = ∅ := by
  cases hroot : backend.root with
  | none =>
      rw [hroot] at hc
      simp only [loadFor, hroot] at h
      cases h
      refine ⟨rfl, fun _ => ⟨[], Index.backed_empty⟩, ?_, fun _ => rfl⟩
      rw [show c = _ from hc]
      funext cell
      cases cell <;> rfl
  | some r =>
      obtain ⟨root, n⟩ := r
      rw [hroot] at hc
      simp only [loadFor, hroot, Except.bind_eq_ok] at h
      obtain ⟨heads, hheads, _, _, _, _, placements, hplacements, endpoints, hendpoints, retentions,
        hretentions, advisory, hadvisory, h⟩ := h
      cases h
      have hindex : ∀ name ix, Index.load F backend.indexes (root.index name) = .ok ix →
          (∃ chain, ix.Backed F chain) ∧ ix.dirty = ∅ ∧
            ∀ key, ix.entries[key]? = c (.entry name key) := by
        intro name ix hload
        obtain ⟨chain, hchain, hbound, hresolve⟩ := hc.2 name
        obtain ⟨hbacked, hclean⟩ := Index.backed_of_load hchain hbound hload
        exact ⟨⟨chain, hbacked⟩, hclean, fun key => by rw [← hresolve, hbacked.resolve_eq hclean]⟩
      refine ⟨rfl, ?_, ?_, ?_⟩
      · rintro (_ | _) <;> exact (hindex _ _ (by assumption)).1
      · funext cell
        rcases cell with _ | ⟨_ | _, key⟩
        · exact hc.1
        all_goals exact (hindex _ _ (by assumption)).2.2 key
      · rintro (_ | _) <;> exact (hindex _ _ (by assumption)).2.1

/-! ## The invariant -/

def Client.writes (p : Client) : List (Sigma Cell.Value) := p.log.map Change.write

/-- A client against the current root. -/
structure Client.Sound (F : IndexFormat) (root : Option (CatalogRoot × Nat)) (p : Client) :
    Prop where
  backed : Backed F p.state
  /-- The state has what the log wrote last. -/
  logged : replay p.writes (contents p.state) = contents p.state
  changed : ∀ name key, Untouched p.writes (.entry name key) → (p.state.index name).dirty[key]? = none
  flushed : ∀ todo, p.todo = some todo → p.state.uncertain = false ∧
    ∀ name, name ∉ todo → (p.state.index name).dirty = ∅
  own : ∀ e, Change.head e ∈ p.log → editKey e = headName p.state
  /-- Who holds the current revision has the current root under its changes. -/
  current : p.state.revision = root.map Prod.snd → ∀ c, Holds F root c →
    ∀ cell, Untouched p.writes cell → contents p.state cell = c cell
  past : ∀ n, p.state.revision = some n → ∃ r m, root = some (r, m) ∧ n ≤ m

structure Invariant (F : IndexFormat) (w : Namespace ι) : Prop where
  held : ∃ c, Holds F w.backend.root c
  sound : ∀ i, (w.client i).Sound F w.backend.root

variable {root : Option (CatalogRoot × Nat)} {p : Client} {w w' : Namespace ι} {i : ι}

/-- One client moves, the root stays. -/
theorem Invariant.set (h : Invariant F w) {backend : Backend} (hroot : backend.root = w.backend.root)
    (hp : p.Sound F w.backend.root) : Invariant F (w.set backend i p) := by
  refine ⟨by simpa only [Namespace.set, hroot] using h.held, fun j => ?_⟩
  simp only [Namespace.set, hroot]
  by_cases hj : j = i
  · subst hj
    simpa using hp
  · simpa [hj] using h.sound j

/-- A change that is logged as it is made. -/
theorem Client.Sound.change (h : p.Sound F root) (a : Change) {todo : Option (List IndexName)}
    (hbacked : Backed F t)
    (hcontents : contents t = Function.update (contents p.state) a.write.1 a.write.2)
    (hdirty : ∀ name key, Cell.entry name key ≠ a.write.1 →
      (t.index name).dirty[key]? = (p.state.index name).dirty[key]?)
    (hrevision : t.revision = p.state.revision) (hname : headName t = headName p.state)
    (hown : ∀ e, a = .head e → editKey e = headName p.state)
    (htodo : ∀ l, todo = some l → t.uncertain = false ∧ ∀ name, name ∉ l → (t.index name).dirty = ∅) :
    Client.Sound F root ⟨t, todo, p.log ++ [a]⟩ := by
  have hwrites : (Client.mk t todo (p.log ++ [a])).writes = p.writes ++ [a.write] := by
    simp [Client.writes]
  refine ⟨hbacked, ?_, ?_, htodo, ?_, ?_, fun n hn => h.past n (hrevision ▸ hn)⟩
  · rw [hwrites, hcontents]
    exact replay_append_self h.logged
  · intro name key hun
    rw [hwrites, untouched_append] at hun
    exact (hdirty name key (Ne.symm hun.2)).trans (h.changed name key hun.1)
  · intro e he
    rw [hname]
    rcases List.mem_append.mp he with he | he
    · exact h.own e he
    · exact hown e (List.mem_singleton.mp he).symm
  · intro hcurrent c hc cell hun
    rw [hwrites, untouched_append] at hun
    rw [hcontents, Function.update_of_ne (Ne.symm hun.2)]
    exact h.current (hrevision ▸ hcurrent) c hc cell hun.1

theorem Client.Sound.edit (h : p.Sound F root) (name : IndexName) (e : Index.Edit) :
    Client.Sound F root ⟨p.state.edit name e, none, p.log ++ [.entry name e]⟩ :=
  h.change (.entry name e) (h.backed.edit name e) (contents_edit _ _ _)
    (fun _ _ hne => dirty_edit hne) rfl rfl (by simp) (by simp)

theorem Client.Sound.begin (h : p.Sound F root) (hcertain : p.state.uncertain = false) :
    Client.Sound F root ⟨p.state.recordHead H, some flushOrder,
      p.log ++ [.head (headEdit H p.state)]⟩ := by
  rw [recordHead_eq]
  refine h.change (.head _) (h.backed.edit _ _) (contents_edit _ _ _) (fun _ _ hne => dirty_edit hne)
    rfl rfl ?_ ?_
  · rintro e ⟨⟩
    exact editKey_headEdit _
  · rintro l ⟨⟩
    refine ⟨hcertain, fun name hname => ?_⟩
    cases name <;> simp [flushOrder] at hname

theorem Client.Sound.flushed_state (h : p.Sound F root) {name : IndexName} {rest : List IndexName}
    {outcome : PutOutcome} {objects objects' : IndexObjects} {ix : Index}
    (htodo : p.todo = some (name :: rest))
    (hflush : (p.state.index name).flush F outcome objects = (.ok ix, objects')) :
    Client.Sound F root ⟨p.state.setIndex name ix, some rest, p.log⟩ := by
  obtain ⟨chain, hchain⟩ := h.backed name
  obtain ⟨hentries, hclean, hix⟩ := hchain.flush hflush
  obtain ⟨hcertain, hflushed⟩ := h.flushed _ htodo
  have hcontents : contents (p.state.setIndex name ix) = contents p.state := by
    funext cell
    rcases cell with _ | ⟨n, key⟩
    · rfl
    · simp only [contents, index_setIndex]
      split
      · rename_i hn
        rw [hentries, hn]
      · rfl
  refine ⟨h.backed.setIndex name hix, hcontents ▸ h.logged, fun n key hun => ?_, ?_, h.own,
    hcontents ▸ h.current, h.past⟩
  · rw [index_setIndex]
    split
    · simp [hclean]
    · exact h.changed n key hun
  · rintro l ⟨⟩
    refine ⟨hcertain, fun n hn => ?_⟩
    rw [index_setIndex]
    split
    · exact hclean
    · rename_i hne
      exact hflushed n (by simp [hne, hn])

theorem Client.Sound.idle (h : p.Sound F root) (uncertain : Bool) :
    Client.Sound F root ⟨{ p.state with uncertain := uncertain }, none, p.log⟩ :=
  ⟨h.backed, h.logged, h.changed, by simp, h.own, h.current, h.past⟩

theorem Invariant.flush (h : Invariant F w) {name : IndexName} {rest : List IndexName}
    {outcome : PutOutcome} (htodo : (w.client i).todo = some (name :: rest)) :
    Invariant F (w.flush F i name rest outcome) := by
  have hp := h.sound i
  unfold Namespace.flush flushIndex
  split
  · rename_i u heq
    split at heq
    · rename_i hflush
      cases heq
      exact h.set rfl (hp.flushed_state htodo hflush)
    · cases heq
  · rename_i u heq
    split at heq
    · cases heq
    · cases heq
      exact h.set rfl (hp.idle _)

theorem Client.Sound.confirm (h : p.Sound F (some (p.state.encodeRoot, n))) (htodo : p.todo = none) :
    Client.Sound F (some (p.state.encodeRoot, n))
      { p with state := { p.state with revision := some n, uncertain := false } } := by
  refine ⟨h.backed, h.logged, h.changed, by simp [htodo], h.own, fun _ c hc cell hun => ?_, ?_⟩
  · refine h.backed.contents_eq hc ?_
    rintro name key rfl
    exact h.changed name key hun
  · rintro m ⟨⟩
    exact ⟨_, _, rfl, le_refl _⟩

/-! ## The exchange -/

def nextRevision (root : Option (CatalogRoot × Nat)) : Nat := root.elim 0 fun root => root.2 + 1

/-- Nobody else holds the new revision. -/
theorem Client.Sound.superseded (h : p.Sound F root) (r : CatalogRoot) :
    p.Sound F (some (r, nextRevision root)) := by
  have hlt : ∀ n, p.state.revision = some n → n < nextRevision root := by
    intro n hn
    obtain ⟨r', m, rfl, hle⟩ := h.past n hn
    exact Nat.lt_succ_of_le hle
  refine { h with
    current := fun hcurrent => absurd (hlt _ hcurrent) (Nat.lt_irrefl _)
    past := fun n hn => ⟨r, _, rfl, Nat.le_of_lt (hlt n hn)⟩ }

theorem Client.Sound.clean (h : p.Sound F root) (htodo : p.todo = some []) (name : IndexName) :
    (p.state.index name).dirty = ∅ :=
  (h.flushed _ htodo).2 name List.not_mem_nil

theorem Invariant.exchanged (h : Invariant F w) (htodo : (w.client i).todo = some [])
    (hp : p.Sound F (some ((w.client i).state.encodeRoot, nextRevision w.backend.root))) :
    Invariant F (w.set { w.backend with
      root := some ((w.client i).state.encodeRoot, nextRevision w.backend.root) } i p) := by
  refine ⟨⟨_, (h.sound i).backed.holds ((h.sound i).clean htodo)⟩, fun j => ?_⟩
  simp only [Namespace.set]
  by_cases hj : j = i
  · subst hj
    simpa using hp
  · simpa [hj] using (h.sound j).superseded _

theorem Invariant.exchange (h : Invariant F w) (htodo : (w.client i).todo = some [])
    (outcome : ExchangeOutcome) : Invariant F (w.exchange i outcome) := by
  have hp := h.sound i
  have hclean := hp.clean htodo
  unfold Namespace.exchange exchangeRoot
  by_cases hrevision : w.backend.root.map Prod.snd = (w.client i).state.revision
  · simp only [hrevision, if_true]
    cases outcome with
    | answered =>
        refine h.exchanged htodo ⟨hp.backed, rfl, fun name key _ => by simp [hclean], by simp,
          by simp, fun _ c hc cell _ => ?_, ?_⟩
        · exact hp.backed.contents_eq hc fun name key _ => by simp [hclean]
        · rintro n ⟨⟩
          exact ⟨_, _, rfl, le_refl _⟩
    | refused => exact h.set rfl (hp.idle _)
    | lost => exact h.exchanged htodo ((hp.superseded _).idle _)
  · simp only [hrevision, if_false]
    exact h.set rfl (hp.idle _)

theorem invariant_of_reach (h : (system F H ι).Reach w) : Invariant F w := by
  refine h.invariant ?_ fun w a w' hI _ hs => ?_
  · rintro w ⟨hroot, hclient⟩
    refine ⟨⟨_, by rw [hroot]; rfl⟩, fun i => ?_⟩
    obtain ⟨selected, hi⟩ := hclient i
    rw [hi, hroot]
    refine ⟨fun _ => ⟨[], Index.backed_empty⟩, rfl, fun _ _ _ => rfl, by simp, by simp, ?_,
      fun n hn => by cases hn⟩
    rintro - c rfl (_ | _) - <;> rfl
  · cases a with
    | edit i name e =>
        obtain ⟨-, rfl⟩ := hs
        exact hI.set rfl ((hI.sound i).edit name e)
    | assign i database attachment finalized pending =>
        obtain ⟨-, rfl⟩ := hs
        refine hI.set rfl ((hI.sound i).change (.database database) (hI.sound i).backed ?_
          (fun _ _ _ => rfl) rfl rfl (by simp) (by simp))
        funext cell
        cases cell <;> simp [contents, Change.write]
    | load i selected =>
        obtain ⟨-, t, hload, rfl⟩ := hs
        obtain ⟨c, hc⟩ := hI.held
        obtain ⟨hrevision, hbacked, hcontents, hclean⟩ := loadFor_eq_ok hc hload
        refine hI.set rfl ⟨hbacked, rfl, fun name key _ => by simp [hclean], by simp, by simp,
          fun _ c' hc' cell _ => ?_, fun n hn => ?_⟩
        · rw [(loadFor_eq_ok hc' hload).2.2.1]
        · rw [hrevision, Option.map_eq_some_iff] at hn
          obtain ⟨r, hr, rfl⟩ := hn
          exact ⟨_, _, hr, le_refl _⟩
    | begin i =>
        obtain ⟨-, hcertain, rfl⟩ := hs
        exact hI.set rfl ((hI.sound i).begin hcertain)
    | flush i outcome =>
        obtain ⟨name, rest, htodo, rfl⟩ := hs
        exact hI.flush htodo
    | exchange i outcome =>
        obtain ⟨htodo, rfl⟩ := hs
        exact hI.exchange htodo outcome
    | confirm i =>
        obtain ⟨htodo, n, hroot, rfl⟩ := hs
        refine hI.set rfl ?_
        have hp := hI.sound i
        rw [hroot] at hp ⊢
        exact hp.confirm htodo
    | objects indexes =>
        cases hs
        exact ⟨hI.held, hI.sound⟩

/-! ## The history of the root -/

theorem flush_root (w : Namespace ι) (i : ι) (name : IndexName) (rest : List IndexName)
    (outcome : PutOutcome) : (w.flush F i name rest outcome).backend.root = w.backend.root := by
  unfold Namespace.flush flushIndex
  split <;>
  · rename_i heq
    split at heq <;> cases heq
    rfl

theorem exchange_root {outcome : ExchangeOutcome}
    (hroot : (w.exchange i outcome).backend.root ≠ w.backend.root) :
    (w.client i).state.revision = w.backend.root.map Prod.snd ∧
      (w.exchange i outcome).backend.root =
        some ((w.client i).state.encodeRoot, nextRevision w.backend.root) := by
  unfold Namespace.exchange exchangeRoot at hroot ⊢
  by_cases hrevision : w.backend.root.map Prod.snd = (w.client i).state.revision
  · simp only [hrevision, if_true] at hroot ⊢
    cases outcome with
    | answered => exact ⟨trivial, rfl⟩
    | refused => exact absurd rfl hroot
    | lost => exact ⟨trivial, rfl⟩
  · simp only [hrevision, if_false] at hroot
    exact absurd rfl hroot

/-- Other heads keep their entries unless the client edited them. -/
theorem Client.Sound.other_heads (h : p.Sound F root) {name : Bytes} (hname : name ≠ headName p.state)
    (hedits : ∀ e, Change.entry .heads e ∈ p.log → editKey e ≠ name) :
    Untouched p.writes (.entry .heads name) := by
  intro b hb heq
  obtain ⟨a, ha, rfl⟩ := List.mem_map.mp hb
  cases a with
  | entry n e =>
      cases heq
      exact hedits e ha rfl
  | database id => cases heq
  | head e =>
      cases heq
      exact hname (h.own e ha)

/-- **No lost updates.** In every run, a root becomes current only by the exchange of a client that
is certain and holds its predecessor. It holds what the predecessor held with the client's changes
since it loaded or last published, and of the other heads only what the client edited explicitly is
different. A publication that is answered, or is confirmed with nothing edited since, is the
current root. -/
theorem root_changes (h : (system F H ι).Reach w) {a : Event ι} (hs : (system F H ι).step w a w') :
    (w'.backend.root ≠ w.backend.root → ∃ i outcome c, a = .exchange i outcome ∧
      (w.client i).state.uncertain = false ∧
      (w.client i).state.revision = w.backend.root.map Prod.snd ∧ Holds F w.backend.root c ∧
      Holds F w'.backend.root (replay (w.client i).writes c) ∧
      ∀ name, name ≠ headName (w.client i).state →
        (∀ e, Change.entry .heads e ∈ (w.client i).log → editKey e ≠ name) →
        replay (w.client i).writes c (.entry .heads name) = c (.entry .heads name)) ∧
    ∀ i, a = .exchange i .answered ∧ (w'.client i).state.uncertain = false ∨
        a = .confirm i ∧ (∀ name, ((w.client i).state.index name).dirty = ∅) →
      Holds F w'.backend.root (contents (w'.client i).state) := by
  have hI := invariant_of_reach h
  constructor
  · intro hroot
    cases a with
    | exchange i outcome =>
        obtain ⟨htodo, rfl⟩ := hs
        have hp := hI.sound i
        obtain ⟨hrevision, hnew⟩ := exchange_root hroot
        obtain ⟨c, hc⟩ := hI.held
        refine ⟨i, outcome, c, rfl, (hp.flushed _ htodo).1, hrevision, hc, ?_, fun name hname hedits =>
          replay_untouched (hp.other_heads hname hedits)⟩
        -- the state is the log over itself, and agrees with the old root where the log is silent
        rw [hnew, ← replay_congr (hp.current hrevision c hc), hp.logged]
        exact hp.backed.holds (hp.clean htodo)
    | flush i outcome =>
        obtain ⟨name, rest, -, rfl⟩ := hs
        exact absurd (flush_root _ _ _ _ _) hroot
    | edit i name e => exact absurd (by rw [hs.2]; rfl) hroot
    | assign i database attachment finalized pending => exact absurd (by rw [hs.2]; rfl) hroot
    | load i selected =>
        obtain ⟨-, t, -, rfl⟩ := hs
        exact absurd rfl hroot
    | begin i => exact absurd (by rw [hs.2.2]; rfl) hroot
    | confirm i =>
        obtain ⟨-, n, -, rfl⟩ := hs
        exact absurd rfl hroot
    | objects indexes => exact absurd (by rw [show w' = _ from hs]) hroot
  · rintro i (⟨rfl, hcertain⟩ | ⟨rfl, hclean⟩)
    · obtain ⟨htodo, rfl⟩ := hs
      have hp := hI.sound i
      unfold Namespace.exchange exchangeRoot at hcertain ⊢
      by_cases hrevision : w.backend.root.map Prod.snd = (w.client i).state.revision
      · simp only [hrevision, if_true, Namespace.set, Function.update_self]
        exact hp.backed.holds (hp.clean htodo)
      · simp [hrevision, Namespace.set] at hcertain
    · obtain ⟨-, n, hroot, rfl⟩ := hs
      simp only [Namespace.set, Function.update_self, hroot]
      exact (hI.sound i).backed.holds hclean

/-- The first of two clients makes an entry, -/
def edited : Namespace (Fin 2) :=
  ⟨⟨∅, none⟩, Function.update (fun _ => ⟨.empty mainHead, none, []⟩) 0
    ⟨(CatalogState.empty mainHead).edit .endpoints (.insert [1] [2]), none,
      [.entry .endpoints (.insert [1] [2])]⟩⟩

/-- begins to publish it, -/
def begun : Namespace (Fin 2) :=
  edited.set edited.backend 0 ⟨(edited.client 0).state.recordHead unusedHeads, some flushOrder,
    (edited.client 0).log ++ [.head (headEdit unusedHeads (edited.client 0).state)]⟩

/-- and has flushed its indexes. -/
def ready : Namespace (Fin 2) :=
  ((((begun.flush .coded 0 .heads [.placements, .endpoints, .retentions, .advisory] .stored).flush
    .coded 0 .placements [.endpoints, .retentions, .advisory] .stored).flush
    .coded 0 .endpoints [.retentions, .advisory] .stored).flush
    .coded 0 .retentions [.advisory] .stored).flush .coded 0 .advisory [] .stored

theorem reach_flush (h : (system F H ι).Reach w) {name : IndexName} {rest : List IndexName}
    (outcome : PutOutcome) (htodo : (w.client i).todo = some (name :: rest)) :
    (system F H ι).Reach (w.flush F i name rest outcome) :=
  h.step (a := .flush i outcome) ⟨name, rest, htodo, rfl⟩

theorem reach_ready : (system .coded unusedHeads (Fin 2)).Reach ready := by
  have hedited : (system .coded unusedHeads (Fin 2)).Reach edited :=
    Machine.System.Reach.step (a := .edit 0 .endpoints (.insert [1] [2]))
      (.init (s := ⟨⟨∅, none⟩, fun _ => ⟨.empty mainHead, none, []⟩⟩) ⟨rfl, fun _ => ⟨_, rfl⟩⟩) ⟨rfl, rfl⟩
  have hbegun : (system .coded unusedHeads (Fin 2)).Reach begun :=
    hedited.step (a := .begin 0) ⟨rfl, rfl, rfl⟩
  refine reach_flush (reach_flush (reach_flush (reach_flush (reach_flush hbegun _ ?_) _ ?_) _ ?_) _
    ?_) _ ?_
  all_goals decide +kernel

theorem root_changes_first :
    ∃ (w w' : Namespace (Fin 2)) (c : Contents), w.backend.root = none ∧ w'.backend.root ≠ none ∧
      Holds .coded w.backend.root c ∧ Holds .coded w'.backend.root (replay (w.client 0).writes c) := by
  have hroot : ready.backend.root = none := by
    simp only [ready, flush_root]
    rfl
  have hchange : (ready.exchange 0 .answered).backend.root ≠ ready.backend.root := by
    have hsome : (ready.exchange 0 .answered).backend.root.isSome = true := by decide +kernel
    rw [hroot]
    intro hnone
    simp [hnone] at hsome
  obtain ⟨i, outcome, c, heq, -, -, hc, hc', -⟩ := (root_changes reach_ready
    (a := .exchange 0 .answered) ⟨by decide +kernel, rfl⟩).1 hchange
  cases heq
  exact ⟨ready, _, c, hroot, hroot ▸ hchange, hc, hc'⟩

end CatalogHistory

end Zsqlite
