import OnnxGenai.Kv.Page

/-!
# The page table

`PageTable` (`page_table.rs`): which pages back which sequence, how often each page is
referenced, which pages are free, and which tier each page is on. The four maps the
source keeps per sequence (pages, length, start and sink length), which are created
and removed together, are one map of records `Sequence`. Counters that are only
reported (`stats`, telemetry) are left out.

A pool built under a memory governor holds a lease and asks for more room before it
copies a page. The governor's answers depend on the rest of the process, so they are
a parameter: `reserveSibling n bytes` is the answer to the `n`-th question.
-/

namespace OnnxGenai.Kv

open Lib

/-- What the table keeps for one logical sequence. -/
structure Sequence where
  /-- Ordered list of page ids. -/
  pages : List PageId
  /-- Current token length. -/
  length : ℕ
  /-- Absolute position of the first retained window token. -/
  start : ℕ
  /-- Number of pinned leading attention-sink tokens. -/
  sinkLen : ℕ
  deriving DecidableEq, Repr

/-- The governor's grant covering a pool. -/
structure MemoryLease where
  /-- Bytes granted, a `u64`. -/
  bytes : ℕ
  /-- Whether the governor grants the `n`-th sibling lease of that many bytes. -/
  reserveSibling : ℕ → ℕ → Bool
  /-- How many sibling leases were asked for. -/
  asked : ℕ

/-- `u64::MAX`. -/
def u64Max : ℕ := 2 ^ 64 - 1

/-- `absorb_sibling`: take the bytes of a sibling lease over. -/
def MemoryLease.absorbSibling (lease : MemoryLease) (bytes : ℕ) : Except KvError MemoryLease :=
  if lease.bytes + bytes ≤ u64Max then .ok { lease with bytes := lease.bytes + bytes }
  else .error .migrationPressure

/-- The page table manages the mapping from logical sequences to physical pages. -/
structure PageTable where
  sequences : FiniteMap SequenceId Sequence
  pages : FiniteMap PageId Page
  freePages : FiniteMap Device (List PageId)
  pageSize : ℕ
  tensorConfig : Option PageTensorConfig
  layerConfigs : List LayerTensorConfig
  quantConfig : Option KvQuantConfig
  clock : ℕ
  hotCapacity : ℕ
  nextPageId : PageId
  poolLease : Option MemoryLease

/-- A page-table operation: it may fail, and keeps what it did before failing. -/
abbrev TableM := EStateM KvError PageTable

namespace PageTable

/-! ### Construction -/

/-- The loop of `build`: `num_gpu_pages` free pages on the hot tier. -/
def build (pageSize numGpuPages : ℕ) (tensorConfig : Option PageTensorConfig)
    (layerConfigs : List LayerTensorConfig) (quantConfig : Option KvQuantConfig) : PageTable :=
  -- `i as PageId` keeps the low 32 bits
  let ids := (List.range numGpuPages).map fun i => i % 2 ^ 32
  { sequences := ∅
    pages := ids.foldl (fun m id =>
      m.insert id (Page.new id (.gpu 0) pageSize layerConfigs quantConfig)) ∅
    freePages := (∅ : FiniteMap Device (List PageId)).insert (.gpu 0) ids
    pageSize := pageSize
    tensorConfig := tensorConfig
    layerConfigs := layerConfigs
    quantConfig := quantConfig
    clock := 0
    hotCapacity := numGpuPages
    nextPageId := numGpuPages % 2 ^ 32
    poolLease := none }

/-- A table with no tensor storage. -/
def new (pageSize numGpuPages : ℕ) : PageTable := build pageSize numGpuPages none [] none

/-- `new_with_layer_storage`; `none` where the source's assertions fail. -/
def newWithLayerStorage (pageSize numGpuPages : ℕ) (dtype : KvDType)
    (layerConfigs : List LayerTensorConfig) (quantConfig : KvQuantConfig) : Option PageTable :=
  match layerConfigs with
  | [] => none
  | first :: _ =>
    if layerConfigs.all LayerTensorConfig.validate then
      let representative : PageTensorConfig :=
        ⟨layerConfigs.length, first.numKvHeads, first.headDim, pageSize, dtype⟩
      some (build pageSize numGpuPages (some representative) layerConfigs (some quantConfig))
    else none

/-- Heterogeneous per-layer geometry, every layer with one `dtype`. -/
def newWithLayerConfigs (pageSize numGpuPages : ℕ) (dtype : KvDType)
    (layerConfigs : List LayerTensorConfig) : Option PageTable :=
  newWithLayerStorage pageSize numGpuPages dtype layerConfigs
    (KvQuantConfig.homogeneous dtype layerConfigs.length)

/-! ### Lookups and small updates -/

variable (t : PageTable)

def getSequence (seq : SequenceId) : Option (List PageId) :=
  (t.sequences.lookup seq).map Sequence.pages

def sequenceLen (seq : SequenceId) : Option ℕ :=
  (t.sequences.lookup seq).map Sequence.length

def sequenceStart (seq : SequenceId) : Option ℕ :=
  (t.sequences.lookup seq).map Sequence.start

def sequenceSinkLen (seq : SequenceId) : Option ℕ :=
  (t.sequences.lookup seq).map Sequence.sinkLen

/-- Update the record of one sequence, if it is there. -/
def adjustSequence (seq : SequenceId) (f : Sequence → Sequence) : PageTable :=
  { t with sequences := FiniteMap.adjust t.sequences seq f }

/-- Update one page, if it is there. -/
def adjustPage (id : PageId) (f : Page → Page) : PageTable :=
  { t with pages := FiniteMap.adjust t.pages id f }

def setSequenceLen (seq : SequenceId) (len : ℕ) : PageTable :=
  t.adjustSequence seq fun r => { r with length := len }

def setSequenceStart (seq : SequenceId) (start : ℕ) : PageTable :=
  t.adjustSequence seq fun r => { r with start := start }

def setSequenceSinkLen (seq : SequenceId) (sinkLen : ℕ) : PageTable :=
  t.adjustSequence seq fun r => { r with sinkLen := sinkLen }

/-- Create a new sequence (empty). -/
def createSequence (seq : SequenceId) : PageTable :=
  { t with sequences := t.sequences.insert seq ⟨[], 0, 0, 0⟩ }

/-- Append a page to a sequence. -/
def pushPage (seq : SequenceId) (id : PageId) : PageTable :=
  t.adjustSequence seq fun r => { r with pages := r.pages ++ [id] }

/-- Replace a sequence page at a logical index. -/
def replacePage (seq : SequenceId) (index : ℕ) (id : PageId) : PageTable :=
  t.adjustSequence seq fun r => { r with pages := r.pages.set index id }

/-- Remove a sequence and return its pages. -/
def removeSequence (seq : SequenceId) : List PageId × PageTable :=
  ((t.getSequence seq).getD [], { t with sequences := t.sequences.erase seq })

def touch (id : PageId) : PageTable :=
  match t.pages.lookup id with
  | some page =>
    { t with clock := t.clock + 1, pages := t.pages.insert id { page with lastAccess := t.clock + 1 } }
  | none => t

/-- Number of free pages on a device. -/
def freeCount (device : Device) : ℕ :=
  ((t.freePages.lookup device).getD []).length

/-- A referenced page resident in the hot tier. -/
def isHotUsed (page : Page) : Bool := decide (0 < page.refCount) && page.residency.isGpu

/-- Number of referenced pages resident in the hot tier. -/
def hotUsedCount : ℕ := (t.pages.entries.filter fun e => isHotUsed e.2).length

/-- Bytes this pool currently holds a grant for. -/
def leasedBytes : Option ℕ := t.poolLease.map MemoryLease.bytes

/-! ### Migration between tiers -/

/-- Ask the governor for a sibling lease; an ungoverned pool asks nobody. -/
def reserveTransient (bytes : ℕ) : TableM (Option ℕ) := fun t =>
  match t.poolLease with
  | none => .ok none t
  | some lease =>
    let t' := { t with poolLease := some { lease with asked := lease.asked + 1 } }
    if lease.reserveSibling lease.asked bytes then .ok (some bytes) t'
    else .error .migrationPressure t'

/-- Migrate one page while preserving its logical identity and metadata. -/
def migratePage (id : PageId) (target : Device) : TableM Page.Migration := do
  let t ← get
  let page ← getOr (t.pages.lookup id) (.pageNotFound id)
  if page.residency = target then
    return ⟨target, target, 0⟩
  let _ ← reserveTransient page.storeLayout.hostAllocatedBytes
  let (report, moved) ← liftResult (page.migrate target)
  modify fun t => { t with pages := t.pages.insert id moved }
  return report

/-- The least recently used hot page other than `exclude`. -/
def lruHot (exclude : Option PageId) : Option PageId :=
  ((t.pages.entries.filter fun e => decide (some e.1 ≠ exclude) && isHotUsed e.2).argmin
    fun e => e.2.lastAccess).map Sigma.fst

/-- Evict the least-recently-used hot page to the cold CPU tier. -/
def evictLruHot (exclude : Option PageId) : TableM PageId := do
  let t ← get
  let victim ← getOr (t.lruHot exclude) (.outOfMemory 1 0)
  let _ ← migratePage victim .cpu
  return victim

/-- Promote a page to the hot tier, evicting the hot LRU page when needed. -/
def promoteToHot (id : PageId) : TableM Unit := do
  let t ← get
  let page ← getOr (t.pages.lookup id) (.pageNotFound id)
  if page.residency.isGpu then
    modify fun t => t.touch id
    return
  require (t.hotCapacity ≠ 0) (.outOfMemory 1 0)
  if t.hotUsedCount ≥ t.hotCapacity then
    let _ ← evictLruHot (some id)
  let _ ← migratePage id (.gpu 0)
  modify fun t => t.touch id

/-- One turn of the loop of `evict_sequence_to_cold`: demote a hot page nobody shares,
and say whether it was demoted. -/
def demoteIfExclusive (id : PageId) : TableM Bool := do
  let t ← get
  if (t.pages.lookup id).any fun page => decide (page.refCount ≤ 1) && page.residency.isGpu then
    let _ ← migratePage id .cpu
    return true
  else return false

/-- The loop of `evict_sequence_to_cold`, counting the pages demoted. -/
def demoteAll : List PageId → TableM ℕ
  | [] => return 0
  | id :: ids => do
    let demoted ← demoteIfExclusive id
    let rest ← demoteAll ids
    return (if demoted then 1 else 0) + rest

/-- Demote every hot page owned exclusively by `seq` to the cold CPU tier. -/
def evictSequenceToCold (seq : SequenceId) : TableM ℕ := do
  let t ← get
  match t.getSequence seq with
  | none => return 0
  | some ids => demoteAll ids

/-! ### Reference counts and the free lists -/

/-- Free a page: decrement its count, and put it on the free list of its residency when
the count is zero. -/
def free (id : PageId) : PageTable :=
  match t.pages.lookup id with
  | none => t
  | some page =>
    let page := { page with refCount := page.refCount - 1 }
    if page.refCount = 0 then
      let page := page.resetStorage
      let freeList := (t.freePages.lookup page.residency).getD []
      { t with
        pages := t.pages.insert id page
        freePages := t.freePages.insert page.residency (freeList ++ [id]) }
    else { t with pages := t.pages.insert id page }

/-- Free pages one after the other. -/
def freeAll (ids : List PageId) : PageTable := ids.foldl free t

/-- Increment a page reference for CoW/prefix sharing; the count saturates. -/
def retain (id : PageId) : PageTable :=
  match t.pages.lookup id with
  | none => t
  | some page =>
    { t with
      clock := t.clock + 1
      pages := t.pages.insert id
        { page with refCount := min (page.refCount + 1) u32Max, lastAccess := t.clock + 1 } }

/-- Take the last page off a free list. -/
def allocateFree (device : Device) : Option (PageId × PageTable) :=
  match ((t.freePages.lookup device).getD []).getLast? with
  | none => none
  | some id =>
    let t := { t with
      freePages := t.freePages.insert device ((t.freePages.lookup device).getD []).dropLast }
    match t.pages.lookup id with
    | none => some (id, t)
    | some page =>
      some (id, { t with
        clock := t.clock + 1
        pages := t.pages.insert id
          { page.resetStorage with refCount := 1, lastAccess := t.clock + 1 } })

/-- Add a page beyond the initial pool; the next id saturates. -/
def allocateFresh (device : Device) : PageId × PageTable :=
  let id := t.nextPageId
  let page := Page.new id device t.pageSize t.layerConfigs t.quantConfig
  (id, { t with
    nextPageId := min (id + 1) u32Max
    clock := t.clock + 1
    pages := t.pages.insert id { page with refCount := 1, lastAccess := t.clock + 1 } })

/-- `allocate_page` once room has been made. -/
def allocateReady (device : Device) : Option PageId × PageTable :=
  match t.allocateFree device with
  | some (id, t') => (some id, t')
  | none =>
    if device.isGpu ∧ t.hotUsedCount < t.hotCapacity then
      let (id, t') := t.allocateFresh device
      (some id, t')
    else (none, t)

/-- Allocate a new page on the specified device, evicting when the hot tier is full. -/
def allocate (device : Device) : Option PageId × PageTable :=
  if device.isGpu ∧ t.freeCount device = 0 ∧ t.hotUsedCount ≥ t.hotCapacity then
    match evictLruHot none t with
    | .ok _ t' => t'.allocateReady device
    | .error _ t' => (none, t')
  else t.allocateReady device

/-! ### Allocation as a transaction -/

/-- What `allocation_checkpoint` saves, to undo an allocation. -/
structure AllocationCheckpoint where
  device : Device
  reusedPage : Option Page
  evictedHot : Option (PageId × HostPageStore)
  freePages : FiniteMap Device (List PageId)
  clock : ℕ
  nextPageId : PageId
  persistentGrowth : Option ℕ

/-- Save what allocating on `device` may change, reserving the room a copy of
`sourcePage` needs. -/
def allocationCheckpoint (sourcePage : PageId) (device : Device) : TableM AllocationCheckpoint := do
  let t ← get
  let reused := (((t.freePages.lookup device).getD []).getLast?).bind fun id => t.pages.lookup id
  let evicted :=
    if device.isGpu ∧ t.freeCount device = 0 ∧ t.hotUsedCount ≥ t.hotCapacity then
      (t.lruHot none).bind fun id => (t.pages.lookup id).map fun page => (id, page)
    else none
  let source ← getOr (t.pages.lookup sourcePage) (.pageNotFound sourcePage)
  let sourceBytes := source.store.allocatedBytes
  let reusedBytes := (reused.map fun page => page.store.allocatedBytes).getD 0
  let victimBytes := (evicted.map fun e => e.2.store.allocatedBytes).getD 0
  let replacementBytes := if reused.isNone then sourceBytes else 0
  let growth ← reserveTransient replacementBytes
  let _ ← reserveTransient (min (sourceBytes + reusedBytes + victimBytes) u64Max)
  return {
    device := device
    reusedPage := reused
    evictedHot := evicted.map fun e => (e.1, e.2.store)
    freePages := t.freePages
    clock := t.clock
    nextPageId := t.nextPageId
    persistentGrowth := growth }

/-- Give the pool's lease the room the new page occupies. -/
def commitAllocation (checkpoint : AllocationCheckpoint) : TableM Unit := do
  match checkpoint.persistentGrowth with
  | none => return
  | some growth =>
    let t ← get
    let lease ← getOr t.poolLease
      (.migrationLeaseInvariant "governed growth lost its owning pool lease")
    let lease ← liftResult (lease.absorbSibling growth)
    modify fun t => { t with poolLease := some lease }

/-- Undo the allocation of `allocatedPage`. -/
def rollbackAllocation (checkpoint : AllocationCheckpoint) (allocatedPage : PageId) : TableM Unit := do
  modify fun t =>
    { t with
      pages := match checkpoint.reusedPage with
        | some page => t.pages.insert allocatedPage page
        | none => t.pages.erase allocatedPage
      freePages := checkpoint.freePages
      clock := checkpoint.clock
      nextPageId := checkpoint.nextPageId }
  match checkpoint.evictedHot with
  | none => return
  | some (id, store) =>
    let t ← get
    let page ← getOr (t.pages.lookup id) (.pageNotFound id)
    modify fun t => { t with pages := t.pages.insert id { page with store := store } }

end PageTable

end OnnxGenai.Kv
