import OnnxGenai.Kv.Connector
import OnnxGenai.Kv.PrefixCache
import OnnxGenai.Lib.MinBy

/-!
# The local tiered connector

`LocalTieredConnector` (`local_tiered.rs`): chunks of KV under content keys, with pages in a hot
and a cold tier and, if there is a backing store, payloads that are written to it once all pages
of their chunk are cold. All state is behind one lock, so each method is one step, and a
`prefetch` that does not get the lock is no step. Methods that read the clock take the instant.

A failure keeps what was done before it: the methods are computations in `ConnectorM`. The codec
call of the FP8 path, whose result the source drops, and the sizes that are only reported are
left out.
-/

namespace OnnxGenai.Kv

open Lib

/-- Configuration of a connector, without what is only reported. -/
structure LocalTieredConfig where
  /-- Tokens per physical page. -/
  pageSize : ℕ
  /-- Hot-tier capacity in pages. -/
  hotCapacity : ℕ
  /-- Total cached pages before hard, priority-aware eviction. -/
  maxCachedPages : ℕ
  compression : CompressionFormat
  /-- Milliseconds to upload one page. -/
  cpuLoadMsPerPage : Float

def LocalTieredConfig.runtimePolicy (config : LocalTieredConfig) : RuntimeTieringPolicy :=
  ⟨config.hotCapacity, config.maxCachedPages⟩

/-- Number of pages a chunk of `numTokens` tokens occupies. -/
def LocalTieredConfig.pagesFor (config : LocalTieredConfig) (numTokens : BitVec 32) : ℕ :=
  let pageSize := max config.pageSize 1
  max ((numTokens.toNat + pageSize - 1) / pageSize) 1

/-- The two `u32` halves of a `u64`. -/
def halves (x : BitVec 64) : List TokenId := [x.toNat / 2 ^ 32, x.toNat % 2 ^ 32]

/-- Deterministic prefix-cache path encoding a key. -/
def keyPath (key : KvCacheKey) : List TokenId :=
  (match key.isolation with
    | .session session => 0 :: halves session
    | .sharedDomain domain => 1 :: domain.map UInt8.toNat) ++
  256 :: key.modelId.map UInt8.toNat ++
  256 :: ([key.layerStart % 2 ^ 32, key.layerEnd % 2 ^ 32, key.chunkIndex.toNat] ++ halves key.chunkHash ++
    [key.numTokens.toNat])

/-- Per-chunk bookkeeping. -/
structure ChunkEntry where
  pageIds : List PageId
  priority : CachePriority
  ttl : Option ℕ
  storedAt : ℕ
  sizeBytes : ℕ
  /-- Deterministic prefix-cache path for this key. -/
  path : List TokenId
  /-- Resident payload, or `none` after a successful spill. -/
  payload : Option KvPayload
  disposition : StateStorageDisposition
  deriving DecidableEq

/-- Whether the time-to-live has elapsed as of `now`; a duration since a later instant is zero. -/
def ChunkEntry.isExpired (entry : ChunkEntry) (now : ℕ) : Bool :=
  match entry.ttl with
  | some duration => decide (now - entry.storedAt ≥ duration)
  | none => false

/-- Eviction preference: a higher rank is evicted sooner. -/
def evictRank : CachePriority → ℕ
  | .opportunistic => 2
  | .session => 1
  | .systemPrompt => 0

/-- The state behind the lock. -/
structure Interior where
  pageTable : PageTable
  prefixCache : PrefixCache
  chunks : FiniteMap KvCacheKey ChunkEntry
  pinned : Finset KvCacheKey
  backingStore : Option BackingStore

/-- A connector operation: it may fail, and keeps what it did before failing. -/
abbrev ConnectorM := EStateM ConnectorError Interior

namespace Interior

/-- A page-table operation; its error is reported as text. -/
def liftTable {α : Type} (x : TableM α) : ConnectorM α := fun s =>
  match x s.pageTable with
  | .ok a t => .ok a { s with pageTable := t }
  | .error error t => .error (.backendTable error) { s with pageTable := t }

variable (s : Interior)

/-- Live cached pages across all tiers. -/
def cachedPageCount : ℕ := (s.chunks.entries.map fun e => e.2.pageIds.length).sum

/-- `matches!(pages.get(id).map(residency), Some(Gpu(_)))`. -/
def isHot (id : PageId) : Bool := (s.pageTable.pages.lookup id).any fun page => page.residency.isGpu

/-! ### Tiers -/

def pinnedPages : List PageId :=
  (s.chunks.entries.filter fun e => decide (e.1 ∈ s.pinned)).flatMap fun e => e.2.pageIds

def pagePriority : FiniteMap PageId CachePriority :=
  (s.chunks.entries.flatMap fun e => e.2.pageIds.map fun id => (id, e.2.priority)).foldl
    (fun m p => m.insert p.1 p.2) ∅

/-- The lowest-priority, least-recently-used unpinned hot page, if its priority is no higher than
`incoming`. -/
def demotionVictim (incoming : CachePriority) : Option PageId :=
  let candidates := (s.pageTable.pages.entries.filter fun e =>
    PageTable.isHotUsed e.2 && decide (e.2.id ∉ s.pinnedPages)).filterMap fun e =>
      (s.pagePriority.lookup e.2.id).map fun priority => (e.2, priority)
  (minBy (fun a b => (compare (evictRank b.2) (evictRank a.2)).then (compare a.1.lastAccess b.1.lastAccess))
    (candidates.filter fun p => evictRank p.2 ≥ evictRank incoming)).map fun p => p.1.id

/-- Demote a page to the cold tier, if there is one to demote. -/
def demoteOne (incoming : CachePriority) : ConnectorM Unit := do
  let s ← get
  match s.demotionVictim incoming with
  | none => return
  | some id =>
    let _ ← liftTable (PageTable.migratePage id .cpu)
    return

/-- The page table's own allocation. -/
def allocatePage : ConnectorM PageId := fun s =>
  match s.pageTable.allocate (.gpu 0) with
  | (some id, t) => .ok id { s with pageTable := t }
  | (none, t) => .error (.backend "hot-tier allocation failed") { s with pageTable := t }

/-- Allocate one hot page, making priority-aware room first. -/
def allocateHot (priority : CachePriority) (policy : RuntimeTieringPolicy) : ConnectorM PageId := do
  let s ← get
  if policy.needsColdMigration s.pageTable.hotUsedCount 1 then
    demoteOne priority
  allocatePage

/-- Allocate `n` more pages after `pages`; on a failure the pages are freed. -/
def allocatePages (priority : CachePriority) (policy : RuntimeTieringPolicy) : ℕ → List PageId → ConnectorM (List PageId)
  | 0, pages => return pages
  | n + 1, pages => do
    match ← attempt (allocateHot priority policy) with
    | .ok id => allocatePages priority policy n (pages ++ [id])
    | .error error =>
      modify fun s => { s with pageTable := s.pageTable.freeAll pages }
      throw error

/-! ### Spilling and dropping -/

/-- The payload of a chunk that may be spilled: all its pages are cold. -/
def spillablePayload (policy : RuntimeTieringPolicy) (key : KvCacheKey) : Option KvPayload :=
  match s.chunks.lookup key with
  | none => none
  | some entry =>
    if entry.pageIds.all (fun id => !s.isHot id) && policy.maySpillPayload entry.disposition s.backingStore.isSome then
      entry.payload
    else none

/-- One turn of the loop of `spill_cold_payloads`. -/
def spillChunk (policy : RuntimeTieringPolicy) (key : KvCacheKey) : ConnectorM Unit := fun s =>
  match s.backingStore, s.spillablePayload policy key with
  | some store, some payload =>
    match store.write key payload with
    | (.error message, store) => .error (.backend message) { s with backingStore := some store }
    | (.ok _, store) =>
      .ok ()
        { s with
          chunks := FiniteMap.adjust s.chunks key fun entry => { entry with payload := none }
          backingStore := some store }
  | _, _ => .ok () s

/-- Persist fully cold payloads and release their host copies. -/
def spillColdPayloads (policy : RuntimeTieringPolicy) : ConnectorM Unit := do
  let s ← get
  each (spillChunk policy) (s.chunks.entries.map Sigma.fst)

/-- Free a chunk's pages and drop it from every index. -/
def dropChunk (key : KvCacheKey) : Bool × Interior :=
  match s.chunks.lookup key with
  | none => (false, s)
  | some entry =>
    (true,
      { pageTable := s.pageTable.freeAll entry.pageIds
        prefixCache := (s.prefixCache.remove entry.path).2
        chunks := s.chunks.erase key
        pinned := s.pinned.erase key
        backingStore := s.backingStore.map fun store => store.remove key })

/-- The unpinned, recomputable chunk of the lowest priority, the oldest among those. -/
def evictionVictim (policy : RuntimeTieringPolicy) : Option KvCacheKey :=
  (minBy (fun a b => (compare (evictRank b.2.priority) (evictRank a.2.priority)).then
    (compare a.2.storedAt b.2.storedAt))
    (s.chunks.entries.filter fun e => decide (e.1 ∉ s.pinned) && policy.mayEvictForRecompute e.2.disposition)).map
      Sigma.fst

/-- The loop of `evict_to_budget`: every turn drops a chunk, so as many turns as there are chunks
are enough. -/
def evictLoop (policy : RuntimeTieringPolicy) : ℕ → Interior → Interior
  | 0, s => s
  | fuel + 1, s =>
    if policy.exceedsCacheBudget s.cachedPageCount then
      match s.evictionVictim policy with
      | some key => evictLoop policy fuel (s.dropChunk key).2
      | none => s
    else s

/-- Hard, priority-aware eviction until the cache fits the budget. -/
def evictToBudget (policy : RuntimeTieringPolicy) : Interior :=
  evictLoop policy s.chunks.entries.length s

/-- Resolve a chunk's current location from its resident pages. -/
def locate (entry : ChunkEntry) (cpuLoadMsPerPage : Float) : KvCacheLocation :=
  if entry.pageIds.all s.isHot then .localGpu entry.pageIds
  else
    let pagesNeedingUpload := (entry.pageIds.filter fun id => !s.isHot id).length
    let estimatedLoadMs := pagesNeedingUpload.toFloat * cpuLoadMsPerPage
    if entry.payload.isNone then .localDisk estimatedLoadMs entry.sizeBytes
    else .localCpu estimatedLoadMs entry.sizeBytes

/-- Drop the chunk of `key` if its time-to-live has elapsed. -/
def dropExpired (key : KvCacheKey) (now : ℕ) : Interior :=
  if (s.chunks.lookup key).any fun entry => entry.isExpired now then (s.dropChunk key).2 else s

end Interior

/-! ### The connector -/

/-- The default single-node tiered connector. -/
structure LocalTieredConnector where
  config : LocalTieredConfig
  inner : Interior

namespace LocalTieredConnector

open Interior

/-- A new connector; the backing store is the disk tier, or one that the caller provides. -/
def new (config : LocalTieredConfig) (backingStore : Option BackingStore) : Except ConnectorError LocalTieredConnector :=
  match config.compression with
  | .cacheGen => .error (.unsupported "CacheGen compression")
  | .zstd => .error (.unsupported "Zstd compression")
  | _ => .ok
    { config := config
      inner :=
        { pageTable := PageTable.new (max config.pageSize 1) config.hotCapacity
          prefixCache := .new
          chunks := ∅
          pinned := ∅
          backingStore := backingStore } }

variable (config : LocalTieredConfig)

def locateKey (s : Interior) (key : KvCacheKey) : KvCacheLocation :=
  match s.chunks.lookup key with
  | some entry => s.locate entry config.cpuLoadMsPerPage
  | none => .notFound

def lookup (key : KvCacheKey) (now : ℕ) : ConnectorM KvCacheLocation := do
  modify fun s => s.dropExpired key now
  let s ← get
  return locateKey config s key

/-- All keys are looked at before the first is dropped; a key that is there twice is dropped
once. -/
def lookupBatch (keys : List KvCacheKey) (now : ℕ) : ConnectorM (List KvCacheLocation) := do
  let s ← get
  let expired := keys.filter fun key => (s.chunks.lookup key).any fun entry => entry.isExpired now
  modify fun s => expired.foldl (fun s key => (s.dropChunk key).2) s
  let s ← get
  return keys.map (locateKey config s)

/-- A store of a key that has an entry refreshes its hints, and keeps its payload. -/
def refresh (existing : ChunkEntry) (entry : KvStoreEntry) (now : ℕ) : ChunkEntry :=
  { existing with
    priority := entry.priority
    ttl := entry.ttl
    storedAt := now
    disposition := ⟨existing.disposition.spillable && entry.disposition.spillable,
      existing.disposition.recomputable && entry.disposition.recomputable⟩ }

def newChunk (entry : KvStoreEntry) (pageIds : List PageId) (now : ℕ) : ChunkEntry where
  pageIds := pageIds
  priority := entry.priority
  ttl := entry.ttl
  storedAt := now
  sizeBytes := entry.kvData.byteSize
  path := keyPath entry.key
  payload := some entry.kvData
  disposition := entry.disposition

/-- The pages of a new chunk: those of identical content, or new ones. -/
def pagesOf (entry : KvStoreEntry) : ConnectorM (List PageId) := do
  let s ← get
  let path := keyPath entry.key
  let (matched, shared) := s.prefixCache.lookup path
  if matched = path.length ∧ shared ≠ [] then
    modify fun s => { s with pageTable := shared.foldl PageTable.retain s.pageTable }
    return shared
  else
    let pages ← allocatePages entry.priority config.runtimePolicy (config.pagesFor entry.key.numTokens) []
    modify fun s => { s with prefixCache := s.prefixCache.insert path pages }
    return pages

def store (entry : KvStoreEntry) (now : ℕ) : ConnectorM Unit := do
  require (config.compression = .none ∨ config.compression = .fp8) (.unsupported "configured compression")
  require (entry.kvData.isWellFormed = true)
    (.backend "KV payload dimensions are inconsistent with its buffers")
  let s ← get
  match s.chunks.lookup entry.key with
  | some existing => set { s with chunks := s.chunks.insert entry.key (refresh existing entry now) }
  | none =>
    let pageIds ← pagesOf config entry
    modify fun s => { s with chunks := s.chunks.insert entry.key (newChunk entry pageIds now) }
    spillColdPayloads config.runtimePolicy
    modify fun s => s.evictToBudget config.runtimePolicy

/-- Read a payload that was spilled. -/
def readCold (key : KvCacheKey) : ConnectorM KvPayload := fun s =>
  match s.backingStore with
  | none => .error (.backend "cold payload has no backing store") s
  | some store =>
    match store.read key with
    | (.ok payload, store) => .ok payload { s with backingStore := some store }
    | (.error message, store) => .error (.backend message) { s with backingStore := some store }

/-- One turn of the loop of `fetch`: make a page hot. -/
def promotePage (priority : CachePriority) (id : PageId) : ConnectorM Unit := do
  let s ← get
  if s.isHot id then
    modify fun s => { s with pageTable := s.pageTable.touch id }
  else
    if config.runtimePolicy.needsColdMigration s.pageTable.hotUsedCount 1 then
      demoteOne priority
    let _ ← liftTable (PageTable.migratePage id (.gpu 0))
    modify fun s => { s with pageTable := s.pageTable.touch id }

def fetch (key : KvCacheKey) (target : Device) (now : ℕ) : ConnectorM FetchedKv := do
  modify fun s => s.dropExpired key now
  let s ← get
  let entry ← getOr (s.chunks.lookup key) .notFound
  let payload ← match entry.payload with
    | some payload => pure payload
    | none => readCold key
  if target.isGpu then
    each (promotePage config entry.priority) entry.pageIds
  return ⟨key, entry.pageIds, payload⟩

/-- The loop of `prefetch`, which ends at the first page there is no room for. -/
def prefetchLoop (priority : CachePriority) : List PageId → Interior → Interior
  | [], s => s
  | id :: ids, s =>
    if s.isHot id then prefetchLoop priority ids s
    else
      let policy := config.runtimePolicy
      if policy.needsColdMigration s.pageTable.hotUsedCount 1 then
        match demoteOne priority s with
        | .error _ s => s
        | .ok _ s =>
          if policy.needsColdMigration s.pageTable.hotUsedCount 1 then s
          else prefetchLoop priority ids (final (liftTable (PageTable.migratePage id (.gpu 0))) s)
      else prefetchLoop priority ids (final (liftTable (PageTable.migratePage id (.gpu 0))) s)

/-- Best effort: failures are dropped. -/
def prefetch (s : Interior) (key : KvCacheKey) (target : Device) : Interior :=
  if target.isGpu then
    match s.chunks.lookup key with
    | none => s
    | some entry => final (spillColdPayloads config.runtimePolicy) (prefetchLoop config entry.priority entry.pageIds s)
  else s

def pin (key : KvCacheKey) : ConnectorM Unit := do
  let s ← get
  require ((s.chunks.lookup key).isSome = true) .notFound
  set { s with pinned := insert key s.pinned }

def unpin (key : KvCacheKey) : ConnectorM Unit := do
  let s ← get
  require ((s.chunks.lookup key).isSome = true) .notFound
  set { s with pinned := s.pinned.erase key }

def evict (key : KvCacheKey) : ConnectorM Unit := fun s =>
  match s.dropChunk key with
  | (true, s) => .ok () s
  | (false, s) => .error .notFound s

end LocalTieredConnector

/-! ### Paths -/

open List

/-- A byte string that the separator ends can be read off the front of a path. -/
theorem terminated_isPrefix : ∀ {s t : List UInt8} {u v : List TokenId},
    s.map UInt8.toNat ++ 256 :: u <+: t.map UInt8.toNat ++ 256 :: v → s = t ∧ u <+: v
  | [], [], _, _, h => ⟨rfl, (cons_prefix_cons.mp h).2⟩
  | [], b :: _, _, _, h => absurd (cons_prefix_cons.mp h).1 b.toNat_lt.ne'
  | a :: _, [], _, _, h => absurd (cons_prefix_cons.mp h).1 a.toNat_lt.ne
  | _ :: s, _ :: t, _, _, h => by
    obtain ⟨hhead, hrest⟩ := cons_prefix_cons.mp h
    obtain ⟨hst, hrest⟩ := terminated_isPrefix (s := s) (t := t) hrest
    exact ⟨by rw [UInt8.toNat_inj.mp hhead, hst], hrest⟩

/-- The halves of a `u64` can be read off the front of a path. -/
theorem halves_isPrefix {x y : BitVec 64} {u v : List TokenId} (h : halves x ++ u <+: halves y ++ v) :
    x = y ∧ u <+: v := by
  simp only [halves, cons_append, nil_append, cons_prefix_cons] at h
  have hhigh : x.toNat / 2 ^ 32 = y.toNat / 2 ^ 32 := h.1
  have hlow : x.toNat % 2 ^ 32 = y.toNat % 2 ^ 32 := h.2.1
  exact ⟨BitVec.eq_of_toNat_eq (by omega), h.2.2⟩

/-- The part of a path that stands for the isolation. -/
theorem isolation_isPrefix : ∀ {i j : KvCacheIsolation} {u v : List TokenId},
    (match i with
      | .session session => 0 :: halves session
      | .sharedDomain domain => 1 :: domain.map UInt8.toNat) ++ 256 :: u <+:
    (match j with
      | .session session => 0 :: halves session
      | .sharedDomain domain => 1 :: domain.map UInt8.toNat) ++ 256 :: v → i = j ∧ u <+: v
  | .session _, .session _, _, _, h => by
    obtain ⟨hid, h⟩ := halves_isPrefix (cons_prefix_cons.mp h).2
    exact ⟨congrArg _ hid, (cons_prefix_cons.mp h).2⟩
  | .session _, .sharedDomain _, _, _, h => absurd (cons_prefix_cons.mp h).1 zero_ne_one
  | .sharedDomain _, .session _, _, _, h => absurd (cons_prefix_cons.mp h).1 one_ne_zero
  | .sharedDomain _, .sharedDomain _, _, _, h => by
    obtain ⟨hdomain, h⟩ := terminated_isPrefix (cons_prefix_cons.mp h).2
    exact ⟨congrArg _ hdomain, h⟩

/-- **Paths are prefix-free**: no path of a key is the path of another one or the beginning of it. -/
theorem keyPath_prefixFree {key other : KvCacheKey} (hkey : key.layerStart < 2 ^ 32 ∧ key.layerEnd < 2 ^ 32)
    (hother : other.layerStart < 2 ^ 32 ∧ other.layerEnd < 2 ^ 32) (hne : key ≠ other) :
    ¬ keyPath key <+: keyPath other := by
  intro h
  simp only [keyPath, append_assoc, cons_append, nil_append] at h
  obtain ⟨hisolation, h⟩ := isolation_isPrefix h
  obtain ⟨hmodel, h⟩ := terminated_isPrefix h
  simp only [cons_prefix_cons, Nat.mod_eq_of_lt, hkey, hother] at h
  obtain ⟨hstart, hend, hindex, h⟩ := h
  obtain ⟨hhash, h⟩ := halves_isPrefix h
  obtain ⟨htokens, -⟩ := cons_prefix_cons.mp h
  apply hne
  cases key
  cases other
  simp_all [BitVec.toNat_inj]

/-- The path of a session's key and that of a shared domain of the same model. -/
theorem keyPath_session_domain :
    ¬ keyPath ⟨.session 1, [109], 0, 4, 7, 0, 16⟩ <+: keyPath ⟨.sharedDomain [0, 1], [109], 0, 4, 7, 0, 16⟩ :=
  keyPath_prefixFree (by decide) (by decide) (by decide)

end OnnxGenai.Kv
