import OnnxGenai.Kv.Page
import OnnxGenai.Lib.FiniteMap

/-!
# What connectors store

The keys and payloads of `connector.rs`, the backing store of `backing_store.rs` and the runtime
policy of `tiered.rs`. A string of the source is the list of its bytes, which is all that is read
of it. Instants and durations are counted in nanoseconds.

A backing store keeps what was written under each key. Its input and output can fail: the
`n`-th operation fails if `failure n` is there, and after a write that failed anything at all may
be stored under its key.
-/

namespace OnnxGenai.Kv

open Lib

/-- Isolation boundary for reusable KV state. -/
inductive KvCacheIsolation where
  /-- State is private to one runtime session. -/
  | session (id : BitVec 64)
  /-- State may be reused inside an explicitly configured domain. -/
  | sharedDomain (domain : List UInt8)
  deriving DecidableEq

/-- Identifies a cached KV segment by token content hash. -/
structure KvCacheKey where
  isolation : KvCacheIsolation
  modelId : List UInt8
  /-- `layer_range.start` and `layer_range.end`. -/
  layerStart : ℕ
  layerEnd : ℕ
  chunkHash : BitVec 64
  chunkIndex : BitVec 32
  numTokens : BitVec 32
  deriving DecidableEq

/-- Key and value host buffers of a layer. -/
structure KvLayerPayload where
  key : List F32
  value : List F32
  deriving DecidableEq

/-- Host KV bytes for one cached chunk; the only element type is `F32`. -/
structure KvPayload where
  numTokens : ℕ
  numLayers : ℕ
  numKvHeads : ℕ
  headDim : ℕ
  layers : List KvLayerPayload
  deriving DecidableEq

namespace KvPayload

/-- Elements expected in each buffer of a layer. -/
def elementsPerLayer (p : KvPayload) : ℕ := p.numKvHeads * p.numTokens * p.headDim % 2 ^ 64

/-- Total host bytes of the key and value data. -/
def byteSize (p : KvPayload) : ℕ := (p.layers.map fun layer => (layer.key.length + layer.value.length) * 4).sum

/-- The buffers match the declared dimensions. -/
def isWellFormed (p : KvPayload) : Bool :=
  decide (p.layers.length = p.numLayers) &&
    p.layers.all fun layer =>
      decide (layer.key.length = p.elementsPerLayer) && decide (layer.value.length = p.elementsPerLayer)

end KvPayload

/-- Storage priority for a stored entry. -/
inductive CachePriority where
  | systemPrompt
  | session
  | opportunistic
  deriving DecidableEq, Repr

/-- Compression format for stored KV. -/
inductive CompressionFormat where
  | none
  | fp8
  | cacheGen
  | zstd
  deriving DecidableEq, Repr

/-- Whether state may be moved to another store, and whether it may be dropped and recomputed. -/
structure StateStorageDisposition where
  spillable : Bool
  recomputable : Bool
  deriving DecidableEq, Repr

/-- Data handed to a connector to store. -/
structure KvStoreEntry where
  key : KvCacheKey
  kvData : KvPayload
  priority : CachePriority
  ttl : Option ℕ
  disposition : StateStorageDisposition
  deriving DecidableEq

/-- KV data retrieved from a connector, without the time the transfer took. -/
structure FetchedKv where
  key : KvCacheKey
  pages : List PageId
  payload : KvPayload
  deriving DecidableEq

/-- Errors of connector operations. `backendTable` is `Backend` with the text of a page-table
error. -/
inductive ConnectorError where
  | notFound
  | backend (message : String)
  | backendTable (error : KvError)
  | unsupported (what : String)
  deriving DecidableEq

/-- Where the KV for a key currently lives; the local connector reports no other places. -/
inductive KvCacheLocation where
  | localGpu (pageIds : List PageId)
  | localCpu (estimatedLoadMs : Float) (sizeBytes : ℕ)
  | localDisk (estimatedLoadMs : Float) (sizeBytes : ℕ)
  | notFound

/-! ### Runtime policy -/

/-- Runtime budgets used to choose placement. -/
structure RuntimeTieringPolicy where
  hotPageBudget : ℕ
  cachedPageBudget : ℕ
  deriving DecidableEq, Repr

namespace RuntimeTieringPolicy

def needsColdMigration (policy : RuntimeTieringPolicy) (hotPages incomingPages : ℕ) : Bool :=
  decide (hotPages + incomingPages > policy.hotPageBudget)

def exceedsCacheBudget (policy : RuntimeTieringPolicy) (cachedPages : ℕ) : Bool :=
  decide (cachedPages > policy.cachedPageBudget)

def maySpillPayload (_ : RuntimeTieringPolicy) (disposition : StateStorageDisposition) (backingStoreAvailable : Bool) :
    Bool :=
  backingStoreAvailable && disposition.spillable

def mayEvictForRecompute (_ : RuntimeTieringPolicy) (disposition : StateStorageDisposition) : Bool :=
  disposition.recomputable

end RuntimeTieringPolicy

/-! ### Backing stores -/

/-- An input or output that fails: what is reported, and what a write leaves under its key. -/
structure IoFailure where
  message : String
  leftover : Option KvPayload

/-- A store for cold payloads. -/
structure BackingStore where
  payloads : FiniteMap KvCacheKey KvPayload
  failure : ℕ → Option IoFailure
  /-- How many operations were done. -/
  operations : ℕ

namespace BackingStore

/-- Persist a payload under `key`, replacing a previous value for that key. -/
def write (store : BackingStore) (key : KvCacheKey) (payload : KvPayload) : Except String Unit × BackingStore :=
  let next := store.operations + 1
  match store.failure store.operations with
  | none => (.ok (), { store with payloads := store.payloads.insert key payload, operations := next })
  | some failure =>
    (.error failure.message,
      { store with
        payloads := match failure.leftover with
          | some leftover => store.payloads.insert key leftover
          | none => store.payloads.erase key
        operations := next })

/-- Load the payload previously persisted under `key`. -/
def read (store : BackingStore) (key : KvCacheKey) : Except String KvPayload × BackingStore :=
  let store' := { store with operations := store.operations + 1 }
  match store.failure store.operations with
  | some failure => (.error failure.message, store')
  | none =>
    match store.payloads.lookup key with
    | some payload => (.ok payload, store')
    | none => (.error "cold payload not found", store')

/-- Delete a persisted payload, if present. -/
def remove (store : BackingStore) (key : KvCacheKey) : BackingStore :=
  { store with payloads := store.payloads.erase key }

/-- Writing under one key leaves the others. -/
theorem lookup_write {store : BackingStore} {key k : KvCacheKey} {payload : KvPayload} (h : k ≠ key) :
    (store.write key payload).2.payloads.lookup k = store.payloads.lookup k := by
  simp only [write]
  cases store.failure store.operations with
  | none => exact AList.lookup_insert_ne h
  | some failure =>
    cases hleft : failure.leftover with
    | none => simpa [hleft] using AList.lookup_erase_ne h
    | some leftover => simpa [hleft] using AList.lookup_insert_ne h

/-- **What was written is what is stored.** -/
theorem lookup_write_ok {store : BackingStore} {key : KvCacheKey} {payload : KvPayload}
    (h : (store.write key payload).1 = .ok ()) : (store.write key payload).2.payloads.lookup key = some payload := by
  simp only [write] at h ⊢
  cases hf : store.failure store.operations with
  | none => exact AList.lookup_insert _
  | some failure =>
    rw [hf] at h
    cases h

/-- **What is read is what is stored.** -/
theorem read_ok {store : BackingStore} {key : KvCacheKey} {payload : KvPayload}
    (h : (store.read key).1 = .ok payload) : store.payloads.lookup key = some payload := by
  simp only [read] at h
  split at h
  · cases h
  · split at h
    · rename_i hlookup
      cases h
      exact hlookup
    · cases h

theorem payloads_read (store : BackingStore) (key : KvCacheKey) : (store.read key).2.payloads = store.payloads := by
  simp only [read]
  split
  · rfl
  · split <;> rfl

end BackingStore

end OnnxGenai.Kv
