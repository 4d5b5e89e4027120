import Zsqlite.SealImage

set_option autoImplicit false

/-! # The page cache

The cache of `cache.rs`: decoded pages of one manifest, newest first, each with the version it
was taken from. A hit is returned only when its bytes have the checksum of that version, so the
cache needs no more than `Fits`: every entry carries the version that the view stores for its
page. Under it a read through the cache is a read of the view (`PageCache.read_eq`).

An entry holds the bytes last written to its slot of the private cache file; the table of slots
has a module of its own. A batched read fetches its frames in groups; that grouping is not modelled either.
-/

namespace Zsqlite

open ByteVec

structure CacheEntry where
  version : PageVersion
  bytes : Bytes
  used : Bool
  deriving DecidableEq

/-- The pages of one manifest, newest first. -/
structure Pages where
  manifest : Digest
  pageSize : PageSize
  capacity : Nat
  entries : List CacheEntry

inductive Backing where
  | empty
  | ready (pages : Pages)
  | disabled

structure PageCache where
  backing : Backing
  budget : CacheCapacity

variable (E : Env)

namespace Pages

variable (pages : Pages)

def contains (number : Nat) : Bool := pages.entries.any fun e => e.version.page == number

def invalidateWhere (matching : Nat → Bool) : Pages :=
  { pages with entries := pages.entries.filter fun e => ! matching e.version.page }

/-- A hit becomes the newest entry. -/
def read (number : Nat) : Except StoreError (Option (Bytes × Pages)) :=
  match pages.entries.find? fun e => e.version.page == number with
  | none => .ok none
  | some e =>
      if E.hash.checksum number e.version.txid e.bytes ≠ e.version.checksum then
        .error (.pageChecksum number)
      else
        let rest := pages.entries.filter fun e => e.version.page ≠ number
        .ok (some (e.bytes, { pages with entries := { e with used := true } :: rest }))

/-- A full cache gives up its oldest entry. -/
def insert (version : PageVersion) (bytes : Bytes) (used : Bool) : Except StoreError Pages :=
  if pages.capacity = 0 ∨ pages.contains version.page = true then .ok pages
  else if bytes.length ≠ pages.pageSize.get then .error .range
  else
    let kept :=
      if pages.entries.length = pages.capacity then pages.entries.dropLast else pages.entries
    .ok { pages with entries := ⟨version, bytes, used⟩ :: kept }

end Pages

namespace PageCache

variable (cache : PageCache)

def new (budget : CacheCapacity) : PageCache := ⟨.empty, budget⟩

def setBudget (budget : CacheCapacity) : PageCache :=
  if budget ≠ cache.budget then ⟨.empty, budget⟩ else cache

def invalidateWhere (matching : Nat → Bool) : PageCache :=
  match cache.backing with
  | .ready pages => { cache with backing := .ready (pages.invalidateWhere matching) }
  | _ => cache

def invalidate (number : Nat) : PageCache := cache.invalidateWhere fun page => page == number

def synchronize (view : Option PinnedView) (shadowed : Nat → Bool) : PageCache :=
  match cache.backing with
  | .ready pages =>
      if view.all fun v => v.id ≠ pages.manifest then { cache with backing := .empty }
      else cache.invalidateWhere shadowed
  | _ => cache

/-- A failed insertion turns the cache off. -/
def insert (version : PageVersion) (bytes : Bytes) (used : Bool) : PageCache :=
  match cache.backing with
  | .ready pages =>
      match pages.insert version bytes used with
      | .ok pages => { cache with backing := .ready pages }
      | .error _ => { cache with backing := .disabled }
  | _ => cache

/-- Pages of another manifest are dropped before a lookup. -/
def settle (view : PinnedView) : PageCache :=
  match cache.backing with
  | .ready pages => if pages.manifest ≠ view.id then { cache with backing := .empty } else cache
  | _ => cache

/-- The cached bytes of a page. A damaged entry is a miss and turns the cache off. -/
def lookup (number : Nat) : Option Bytes × PageCache :=
  match cache.backing with
  | .ready pages =>
      match pages.read E number with
      | .ok (some (bytes, pages)) => (some bytes, { cache with backing := .ready pages })
      | .ok none => (none, cache)
      | .error _ => (none, { cache with backing := .disabled })
  | _ => (none, cache)

/-- Create the cache file on the first miss. -/
def create (view : PinnedView) : PageCache :=
  match cache.backing with
  | .empty =>
      if cache.budget = .fixed 0 then cache
      else
        match E.cacheSlots view.size.get cache.budget with
        | some capacity =>
            { cache with backing := .ready ⟨view.id, view.size.pageSize, capacity, []⟩ }
        | none => { cache with backing := .disabled }
  | _ => cache

/-- Insert pages one after the other. -/
def insertAll (used : Bool) (pages : FramePages) : PageCache :=
  pages.foldl (fun cache (version, bytes) => cache.insert version bytes used) cache

/-- The live pages of a decoded frame. -/
def cachePages (view : PinnedView) (location : FrameLocation) (raw : Bytes) : FramePages :=
  (location.metadata.pages.zip (chunks view.size.pageSize.get raw)).filter fun (version, _) =>
    view.metadata.view.isLive version (location.metadata.id E)

/-- Keep the pages of a frame just decoded: neighbours that nothing shadows, as many as leave
one slot, then the requested page. -/
def keep (view : PinnedView) (location : FrameLocation) (raw : Bytes) (number : Nat)
    (shadowed : Nat → Bool) : PageCache :=
  let cache := cache.create E view
  let extraSlots := match cache.backing with
    | .ready pages => pages.capacity - 1
    | _ => 0
  let live := cachePages E view location raw
  let extra := live.filter fun (version, _) =>
    version.page ≠ number && ! shadowed version.page
  (cache.insertAll false (extra.take extraSlots)).insertAll true
    (live.find? fun (version, _) => version.page == number).toList

/-- What a read of the view adds to the cache: nothing for a page it does not store. -/
def fill (view : PinnedView) (number : Nat) (shadowed : Nat → Bool) : PageCache :=
  match view.metadata.view.pages[number]?.bind fun stored =>
      view.metadata.view.frames[stored.frame]? with
  | none => cache
  | some location =>
      match view.fetch E location with
      | .ok raw => cache.keep E view location raw number shadowed
      | .error _ => cache

/-- Read one page of a view through the cache. -/
def read (view : PinnedView) (number : Nat) (shadowed : Nat → Bool) :
    EStateM StoreError PageCache Bytes := do
  modify fun cache => cache.settle view
  let (hit, cache) := (← get).lookup E number
  set cache
  match hit with
  | some bytes => return bytes
  | none =>
      let bytes ← EStateM.liftExcept (view.readPage E number)
      modify fun cache => cache.fill E view number shadowed
      return bytes

end PageCache

/-! ## Reads through the cache are reads of the view -/

section Fits

variable {E}

/-- Every entry has the version that the view stores for its page. -/
def Pages.Fits (pages : Pages) (view : PinnedView) : Prop :=
  pages.manifest = view.id ∧
  ∀ e ∈ pages.entries, view.metadata.view.version e.version.page = some e.version

/-- Cached pages are those of the store's view. -/
def PageCache.Fits (cache : PageCache) (view : Option PinnedView) : Prop :=
  ∀ pages, cache.backing = .ready pages → ∃ v, view = some v ∧ pages.Fits v

variable {pages : Pages} {view : PinnedView}

theorem Pages.Fits.invalidateWhere (h : pages.Fits view) (matching : Nat → Bool) :
    (pages.invalidateWhere matching).Fits view :=
  ⟨h.1, fun e he => h.2 e (List.mem_of_mem_filter he)⟩

theorem Pages.Fits.insert (h : pages.Fits view) {version : PageVersion} {bytes : Bytes}
    {used : Bool} (hv : view.metadata.view.version version.page = some version) {pages' : Pages}
    (hi : pages.insert version bytes used = .ok pages') : pages'.Fits view := by
  unfold Pages.insert at hi
  split at hi
  · cases hi
    exact h
  · split at hi
    · cases hi
    · cases hi
      refine ⟨h.1, fun e he => ?_⟩
      rcases List.mem_cons.mp he with rfl | he
      · exact hv
      · apply h.2
        split at he
        · exact List.mem_of_mem_dropLast he
        · exact he

/-- A hit has the checksum of the version the view stores. -/
theorem Pages.Fits.read (h : pages.Fits view) {number : Nat} {bytes : Bytes} {pages' : Pages}
    (hr : pages.read E number = .ok (some (bytes, pages'))) :
    pages'.Fits view ∧ ∃ version, view.metadata.view.version number = some version ∧
      E.hash.checksum number version.txid bytes = version.checksum := by
  unfold Pages.read at hr
  split at hr
  · cases hr
  · rename_i e he
    split at hr
    · cases hr
    · rename_i hsum
      cases hr
      have hmem := List.mem_of_find?_eq_some he
      have hpage : e.version.page = number := by simpa using List.find?_some he
      refine ⟨⟨h.1, fun e' he' => ?_⟩, e.version, hpage ▸ h.2 e hmem, by simpa using hsum⟩
      rcases List.mem_cons.mp he' with rfl | he'
      · exact h.2 e hmem
      · exact h.2 e' (List.mem_of_mem_filter he')

namespace PageCache

variable {cache : PageCache}

theorem Fits.empty (v : Option PinnedView) (budget : CacheCapacity) : Fits ⟨.empty, budget⟩ v := by
  rintro _ ⟨⟩

theorem Fits.invalidateWhere {v : Option PinnedView} (h : cache.Fits v) (matching : Nat → Bool) :
    (cache.invalidateWhere matching).Fits v := by
  unfold PageCache.invalidateWhere
  split
  · rename_i pages hb
    obtain ⟨v, hv, hf⟩ := h pages hb
    rintro _ ⟨⟩
    exact ⟨v, hv, hf.invalidateWhere matching⟩
  · exact h

theorem Fits.setBudget {v : Option PinnedView} (h : cache.Fits v) (budget : CacheCapacity) :
    (cache.setBudget budget).Fits v := by
  unfold PageCache.setBudget
  split
  · exact Fits.empty v budget
  · exact h

/-- Synchronising with a view keeps only pages of it, when views of one manifest store the
same versions. -/
theorem Fits.synchronize {v v' : Option PinnedView} (h : cache.Fits v)
    (agree : ∀ a b, v = some a → v' = some b → a.id = b.id →
      a.metadata.view.version = b.metadata.view.version) (shadowed : Nat → Bool) :
    (cache.synchronize v' shadowed).Fits v' := by
  unfold PageCache.synchronize
  split
  · rename_i pages hb
    obtain ⟨a, ha, hf⟩ := h pages hb
    split
    · exact Fits.empty v' cache.budget
    · rename_i hid
      refine Fits.invalidateWhere ?_ shadowed
      intro pages' hb'
      cases hb.symm.trans hb'
      cases v' with
      | none => simp at hid
      | some b =>
          have hid' : b.id = pages.manifest := by simpa using hid
          refine ⟨b, rfl, hid'.symm, fun e he => ?_⟩
          rw [← agree a b ha rfl (hf.1.symm.trans hid'.symm)]
          exact hf.2 e he
  · rename_i hb
    intro pages hb'
    exact absurd hb' (hb pages)

theorem Fits.insert (h : cache.Fits (some view)) {version : PageVersion} {bytes : Bytes}
    {used : Bool} (hv : view.metadata.view.version version.page = some version) :
    (cache.insert version bytes used).Fits (some view) := by
  unfold PageCache.insert
  split
  · rename_i pages hb
    obtain ⟨_, ⟨⟩, hf⟩ := h pages hb
    split
    · rename_i pages' hi
      rintro _ ⟨⟩
      exact ⟨view, rfl, hf.insert hv hi⟩
    · rintro _ ⟨⟩
  · exact h

theorem Fits.insertAll (h : cache.Fits (some view)) {used : Bool} {entries : FramePages}
    (hv : ∀ e ∈ entries, view.metadata.view.version e.1.page = some e.1) :
    (cache.insertAll used entries).Fits (some view) := by
  induction entries generalizing cache with
  | nil => exact h
  | cons e entries ih =>
      exact ih (h.insert (hv e (by simp))) fun e' he' => hv e' (by simp [he'])

theorem Fits.create (h : cache.Fits (some view)) : (cache.create E view).Fits (some view) := by
  unfold PageCache.create
  split
  · split
    · exact h
    · split
      · rintro _ ⟨⟩
        exact ⟨view, rfl, rfl, by simp⟩
      · rintro _ ⟨⟩
  · exact h

/-- The live pages of a frame carry the versions the view stores. -/
theorem version_of_mem_cachePages (hv : view.metadata.view.Resolved E) {id : Digest}
    {location : FrameLocation} (hl : view.metadata.view.frames[id]? = some location) {raw : Bytes}
    {e : PageVersion × Bytes} (he : e ∈ cachePages E view location raw) :
    view.metadata.view.version e.1.page = some e.1 := by
  obtain ⟨hzip, hlive⟩ := List.mem_filter.mp he
  exact hv.version_of_isLive hl (List.of_mem_zip hzip).1 hlive

theorem Fits.fill (h : cache.Fits (some view)) (hv : view.metadata.view.Resolved E)
    (number : Nat) (shadowed : Nat → Bool) :
    (cache.fill E view number shadowed).Fits (some view) := by
  unfold PageCache.fill
  split
  · exact h
  · rename_i location hl
    obtain ⟨stored, -, hl⟩ := Option.bind_eq_some_iff.mp hl
    split
    · rename_i raw _
      have hlive := fun e (he : e ∈ cachePages E view location raw) =>
        version_of_mem_cachePages hv hl he
      refine Fits.insertAll (Fits.insertAll h.create fun e he => ?_) fun e he => ?_
      · exact hlive e (List.mem_of_mem_filter (List.mem_of_mem_take he))
      · exact hlive e (List.mem_of_find?_eq_some (Option.mem_toList.mp he))
    · exact h

theorem Fits.settle (h : cache.Fits (some view)) : cache.settle view = cache := by
  unfold PageCache.settle
  split
  · rename_i pages hb
    obtain ⟨_, ⟨⟩, hf⟩ := h pages hb
    simp [hf.1]
  · rfl

/-- A lookup keeps the cache fitting, and a hit has the checksum of the stored version. -/
theorem Fits.lookup (h : cache.Fits (some view)) (number : Nat) :
    (cache.lookup E number).2.Fits (some view) ∧
    ∀ bytes, (cache.lookup E number).1 = some bytes →
      ∃ version, view.metadata.view.version number = some version ∧
        E.hash.checksum number version.txid bytes = version.checksum := by
  unfold PageCache.lookup
  split
  · rename_i pages hb
    obtain ⟨_, ⟨⟩, hf⟩ := h pages hb
    split
    · rename_i bytes pages' hr
      obtain ⟨hf', hsum⟩ := hf.read hr
      refine ⟨?_, ?_⟩
      · rintro _ ⟨⟩
        exact ⟨view, rfl, hf'⟩
      · rintro _ ⟨⟩
        exact hsum
    · exact ⟨h, by simp⟩
    · refine ⟨?_, by simp⟩
      rintro _ ⟨⟩
  · exact ⟨h, by simp⟩

/-- **The cache is transparent.** A read through a fitting cache returns what the view holds
and leaves a fitting cache. -/
theorem read_eq (h : cache.Fits (some view)) (hv : view.Served E) {number : Nat}
    (shadowed : Nat → Bool) {bytes : Bytes} (hb : view.readPage E number = .ok bytes) :
    ∃ cache' : PageCache, read E view number shadowed cache = .ok bytes cache' ∧
      cache'.Fits (some view) := by
  obtain ⟨hfit, hhit⟩ := h.lookup (E := E) number
  obtain ⟨-, -, -, hsum⟩ := PinnedView.readPage_spec hv.resolved hb
  cases hl : (cache.lookup E number).1 with
  | some bytes' =>
      obtain ⟨version, hver, hsum'⟩ := hhit bytes' hl
      have hpage := hv.resolved.toConsistent.page_of_version hver
      have : bytes' = bytes := by
        apply E.hash.checksum_injective number version.txid
        rw [hsum', ← hpage, hsum version hver]
      refine ⟨(cache.lookup E number).2, ?_, hfit⟩
      rw [← this]
      simp only [read, EStateM.bind_of_ok _ (EStateM.modify_apply _ cache), h.settle,
        EStateM.bind_of_ok _ (EStateM.get_apply cache), EStateM.bind_of_ok _ (EStateM.set_apply _ _),
        hl, EStateM.pure_apply]
  | none =>
      refine ⟨(cache.lookup E number).2.fill E view number shadowed, ?_, hfit.fill hv.resolved _ _⟩
      simp only [read, EStateM.bind_of_ok _ (EStateM.modify_apply _ cache), h.settle,
        EStateM.bind_of_ok _ (EStateM.get_apply cache), EStateM.bind_of_ok _ (EStateM.set_apply _ _),
        hl, hb]
      rfl

end PageCache

end Fits

end Zsqlite
