import OnnxGenai.Kv.PageTable

/-!
# The paged KV cache

The operations of `PagedKvCache` (`paged_cache.rs`). All of them but `createSequence`
and `fork`, which number a new sequence, work on the page table alone.

A division by the page size, where the source would panic for a page size of `0`, is
guarded by `require`.
-/

namespace OnnxGenai.Kv

open Lib

/-- Borrowed per-layer K/V tensors for one token, each `[num_kv_heads, head_dim]`. -/
structure LayerKv where
  key : List F32
  value : List F32
  deriving DecidableEq, Repr

/-- Materialized K/V tensors for one layer, each `[num_kv_heads, sequence_len, head_dim]`. -/
structure MaterializedLayerKv where
  key : List F32
  value : List F32
  numKvHeads : ℕ
  headDim : ℕ
  deriving DecidableEq, Repr

/-- Materialized K/V tensors for all layers over a sequence. -/
structure MaterializedKv where
  startPosition : ℕ
  sinkLen : ℕ
  sequenceLen : ℕ
  layers : List MaterializedLayerKv
  deriving DecidableEq, Repr

/-- Paged KV cache manager. -/
structure PagedKvCache where
  pageTable : PageTable
  nextSeqId : SequenceId

/-- `⌈n / d⌉`. -/
def divCeil (n d : ℕ) : ℕ := (n + d - 1) / d

/-- Map an absolute token position to its index in the contiguous
`[sink pages | window pages]` buffer. -/
def Sequence.bufferIndex (r : Sequence) (position : ℕ) : ℕ :=
  if position < r.sinkLen then position else r.sinkLen + (position - r.start)

/-- `sink_len + (len - window_start)`: the tokens in the page buffer. -/
def Sequence.bufferLen (r : Sequence) : ℕ := r.sinkLen + (r.length - r.start)

namespace PagedKvCache

open PageTable

/-! ### Positions -/

/-- The record of a sequence; every accessor of the source fails alike without one. -/
def sequence (seq : SequenceId) : TableM Sequence := do
  let t ← get
  getOr (t.sequences.lookup seq) (.sequenceNotFound seq)

/-- `len`. -/
def len (seq : SequenceId) : TableM ℕ := return (← sequence seq).length

def retainedStart (seq : SequenceId) : TableM ℕ := return (← sequence seq).start

def sinkLen (seq : SequenceId) : TableM ℕ := return (← sequence seq).sinkLen

def bufferIndex (seq : SequenceId) (position : ℕ) : TableM ℕ :=
  return (← sequence seq).bufferIndex position

/-! ### Writing -/

def validateLayers (layerConfigs : List LayerTensorConfig) (layers : List LayerKv) :
    Except KvError Unit :=
  if layers.length ≠ layerConfigs.length then
    .error (.invalidTensorShape "wrong number of layers")
  else if (layers.zip layerConfigs).all fun p =>
      p.1.key.length = p.2.f32LenPerToken ∧ p.1.value.length = p.2.f32LenPerToken then .ok ()
  else .error (.invalidTensorShape "layer key/value length must be num_kv_heads * head_dim")

/-- The copy-on-write half of `ensure_page_for_write`: the page is shared, so `seq` gets
a copy of it, and gives its reference back. -/
def copyPageForWrite (seq : SequenceId) (pageIndex : ℕ) (pageId : PageId) : TableM PageId := do
  let checkpoint ← allocationCheckpoint pageId (.gpu 0)
  let t ← get
  let (allocated, t') := t.allocate (.gpu 0)
  set t'
  let newPageId ← getOr allocated (.outOfMemory 1 (t'.freeCount (.gpu 0)))
  let t ← get
  let old ← getOr (t.pages.lookup pageId) (.pageNotFound pageId)
  let newPage ← getOr (t.pages.lookup newPageId) (.pageNotFound newPageId)
  match newPage.store.copyFromHost old.store with
  | .error copyError =>
    rollbackAllocation checkpoint newPageId
    throw copyError
  | .ok store =>
    modify fun t => { t with
      pages := t.pages.insert newPageId { newPage with store := store, filled := old.filled } }
    let t ← get
    match commitAllocation checkpoint t with
    | .error commitError t' =>
      set t'
      rollbackAllocation checkpoint newPageId
      throw commitError
    | .ok _ t' =>
      set t'
      modify fun t => (t.replacePage seq pageIndex newPageId).free pageId
      return newPageId

/-- A page of `seq` at `pageIndex` that only `seq` references: the page itself, a copy of
a shared one, or a new page at the end. -/
def ensurePageForWrite (seq : SequenceId) (pageIndex : ℕ) : TableM PageId := do
  let t ← get
  let currentPages ← getOr (t.getSequence seq) (.sequenceNotFound seq)
  match currentPages[pageIndex]? with
  | some pageId =>
    let page ← getOr (t.pages.lookup pageId) (.pageNotFound pageId)
    if page.refCount > 1 then copyPageForWrite seq pageIndex pageId
    else
      promoteToHot pageId
      return pageId
  | none =>
    require (pageIndex = currentPages.length)
      (.invalidPosition (pageIndex * t.pageSize) (currentPages.length * t.pageSize))
    let (allocated, t') := t.allocate (.gpu 0)
    set t'
    let pageId ← getOr allocated (.outOfMemory 1 (t'.freeCount (.gpu 0)))
    modify fun t => t.pushPage seq pageId
    return pageId

/-- One turn of the head loop: the key row, then the value row, of one head. -/
def writeHead (codec : Page.QuantCodec) (pageSize layerIdx : ℕ) (geom : LayerTensorConfig)
    (layer : LayerKv) (tokenOffset : ℕ) (page : Page) (head : ℕ) : Except KvError Page := do
  let src := head * geom.headDim
  let key ← Page.readSlice layer.key src geom.headDim
  let value ← Page.readSlice layer.value src geom.headDim
  let page ← page.writeHeadToken codec pageSize geom.headDim (layerIdx * 2) head tokenOffset key
  page.writeHeadToken codec pageSize geom.headDim (layerIdx * 2 + 1) head tokenOffset value

/-- The layer loop, from layer number `layerIdx` on. -/
def writeLayers (codec : Page.QuantCodec) (pageSize tokenOffset : ℕ) :
    ℕ → List LayerTensorConfig → List LayerKv → Page → Except KvError Page
  | layerIdx, geom :: geoms, layer :: layers, page => do
    let page ← (List.range geom.numKvHeads).foldlM
      (writeHead codec pageSize layerIdx geom layer tokenOffset) page
    writeLayers codec pageSize tokenOffset (layerIdx + 1) geoms layers page
  | _, _, _, page => .ok page

/-- Write one token of per-layer K/V tensors at `position`. -/
def writeTokenKv (codec : Page.QuantCodec) (seq : SequenceId) (position : ℕ)
    (layers : List LayerKv) : TableM Unit := do
  let t ← get
  require t.tensorConfig.isSome .tensorStorageNotConfigured
  liftResult (validateLayers t.layerConfigs layers)
  let r ← sequence seq
  require (¬ (r.sinkLen ≤ position ∧ position < r.start)) (.positionEvicted position r.start)
  require (position ≤ r.length) (.invalidPosition position r.length)
  require (t.pageSize ≠ 0) .panic
  let retainedPosition ← bufferIndex seq position
  let pageIndex := retainedPosition / t.pageSize
  let tokenOffset := retainedPosition % t.pageSize
  let pageId ← ensurePageForWrite seq pageIndex
  promoteToHot pageId
  let t' ← get
  let page ← getOr (t'.pages.lookup pageId) (.pageNotFound pageId)
  let page ← liftResult (writeLayers codec t.pageSize tokenOffset 0 t.layerConfigs layers page)
  modify fun t => { t with
    pages := t.pages.insert pageId { page with filled := max page.filled (tokenOffset + 1) } }
  modify fun t => t.touch pageId
  if position = r.length then
    modify fun t => t.setSequenceLen seq (r.length + 1)

/-- Append one token of per-layer K/V tensors at the sequence tail. -/
def appendTokenKv (codec : Page.QuantCodec) (seq : SequenceId) (layers : List LayerKv) :
    TableM ℕ := do
  let position ← len seq
  writeTokenKv codec seq position layers
  return position

/-- One turn of the loop of `append`: a page for the token, with no K/V written. -/
def appendOne (seq : SequenceId) (position : ℕ) : TableM Unit := do
  let t ← get
  require (t.pageSize ≠ 0) .panic
  let retainedPosition ← bufferIndex seq position
  let pageIndex := retainedPosition / t.pageSize
  let tokenOffset := retainedPosition % t.pageSize
  let pageId ← ensurePageForWrite seq pageIndex
  promoteToHot pageId
  modify fun t => t.adjustPage pageId fun page =>
    { page with filled := max page.filled (tokenOffset + 1) }

/-- Append `numTokens` tokens of bookkeeping. -/
def append (seq : SequenceId) (numTokens : ℕ) : TableM Unit := do
  let length ← len seq
  each (appendOne seq) ((List.range numTokens).map fun i => length + i)
  modify fun t => t.setSequenceLen seq (length + numTokens)

/-! ### Reading -/

/-- `xs[i] = x`. -/
def storeAt {α : Type} (xs : List α) (i : ℕ) (x : α) : Except KvError (List α) :=
  if i < xs.length then .ok (xs.set i x) else .error .panic

/-- The innermost statements of `materialize_sequence_to`: one key scalar and one value
scalar of one token. -/
def materializeScalar (codec : Page.QuantCodec) (page : Page) (pageSize len tokenPos layerIdx head : ℕ)
    (out : MaterializedLayerKv) (dim : ℕ) : Except KvError MaterializedLayerKv := do
  let tokenOffset := tokenPos % pageSize
  let dst := (head * len + tokenPos) * out.headDim + dim
  let k ← page.valueAtSlot codec pageSize out.headDim (layerIdx * 2) head tokenOffset dim
  let key ← storeAt out.key dst k
  let v ← page.valueAtSlot codec pageSize out.headDim (layerIdx * 2 + 1) head tokenOffset dim
  let value ← storeAt out.value dst v
  .ok { out with key := key, value := value }

/-- The head and dimension loops for one token and one layer. -/
def materializeLayer (codec : Page.QuantCodec) (page : Page) (pageSize len tokenPos layerIdx : ℕ)
    (out : MaterializedLayerKv) : Except KvError MaterializedLayerKv :=
  (List.range out.numKvHeads).foldlM (fun out head =>
    (List.range out.headDim).foldlM
      (materializeScalar codec page pageSize len tokenPos layerIdx head) out) out

/-- The layer loop for one token, from layer number `layerIdx` on. -/
def materializeLayers (codec : Page.QuantCodec) (page : Page) (pageSize len tokenPos : ℕ) :
    ℕ → List MaterializedLayerKv → Except KvError (List MaterializedLayerKv)
  | _, [] => .ok []
  | layerIdx, out :: outs => do
    let out ← materializeLayer codec page pageSize len tokenPos layerIdx out
    let outs ← materializeLayers codec page pageSize len tokenPos (layerIdx + 1) outs
    .ok (out :: outs)

/-- One turn of the token loop. -/
def materializeToken (codec : Page.QuantCodec) (t : PageTable) (pages : List PageId) (len : ℕ)
    (layers : List MaterializedLayerKv) (tokenPos : ℕ) : Except KvError (List MaterializedLayerKv) := do
  if t.pageSize = 0 then .error .panic
  else
    let pageId ← Page.readAt pages (tokenPos / t.pageSize)
    match t.pages.lookup pageId with
    | none => .error (.pageNotFound pageId)
    | some page => materializeLayers codec page t.pageSize len tokenPos 0 layers

/-- The zeroed output buffers. -/
def zeroLayers (layerConfigs : List LayerTensorConfig) (len : ℕ) : List MaterializedLayerKv :=
  layerConfigs.map fun geom =>
    let n := geom.numKvHeads * len * geom.headDim
    ⟨List.replicate n F32.zero, List.replicate n F32.zero, geom.numKvHeads, geom.headDim⟩

/-- A sequence's K/V as it would look after rewinding to `position`, without touching the
sequence. -/
def materializeSequenceTo (codec : Page.QuantCodec) (t : PageTable) (seq : SequenceId)
    (position : ℕ) : Except KvError MaterializedKv :=
  if t.tensorConfig.isNone then .error .tensorStorageNotConfigured
  else match t.sequences.lookup seq with
    | none => .error (.sequenceNotFound seq)
    | some r =>
      if position > r.length then .error (.invalidPosition position r.length)
      else if 0 < r.sinkLen ∧ position < r.sinkLen then
        .error (.rewindBelowSinkNotMaterializable position r.sinkLen)
      else if position < r.start then .error (.positionEvicted position r.start)
      else do
        let len := r.sinkLen + (position - r.start)
        let layers ← (List.range len).foldlM (materializeToken codec t r.pages len)
          (zeroLayers t.layerConfigs len)
        .ok ⟨r.start, r.sinkLen, len, layers⟩

/-- Materialize a sequence's paged K/V data into contiguous per-layer buffers. -/
def materializeSequence (codec : Page.QuantCodec) (t : PageTable) (seq : SequenceId) :
    Except KvError MaterializedKv :=
  match t.sequenceLen seq with
  | none => .error (.sequenceNotFound seq)
  | some len => materializeSequenceTo codec t seq len

/-- Borrow one layer's K/V row for a single head at absolute token `position`. -/
def headTokenRow (t : PageTable) (seq : SequenceId) (layerIdx : ℕ) (kind : KvKind)
    (head position : ℕ) : Except KvError (Option (List F32)) :=
  if t.tensorConfig.isNone then .error .tensorStorageNotConfigured
  else match t.sequences.lookup seq with
    | none => .error (.sequenceNotFound seq)
    | some r =>
      if position ≥ r.length then .error (.invalidPosition position r.length)
      else if r.sinkLen ≤ position ∧ position < r.start then .error (.positionEvicted position r.start)
      else match t.layerConfigs[layerIdx]? with
        | none => .error (.sequenceNotFound seq)
        | some geom =>
          if t.pageSize = 0 then .error .panic
          else
            let bufferIndex := r.bufferIndex position
            match r.pages[bufferIndex / t.pageSize]? with
            | none => .error (.invalidPosition position r.length)
            | some pageId =>
              match t.pages.lookup pageId with
              | none => .error (.pageNotFound pageId)
              | some page =>
                let component := layerIdx * 2 + if kind = .key then 0 else 1
                page.headTokenF32 t.pageSize geom.headDim component head (bufferIndex % t.pageSize)

/-! ### Sliding windows -/

/-- Free complete leading pages that are older than the sliding window. -/
def applySlidingWindow (seq : SequenceId) (windowSize : ℕ) : TableM ℕ := do
  require (windowSize ≠ 0) .invalidWindowSize
  let r ← sequence seq
  let t ← get
  let keepFrom := r.length - windowSize
  -- `checked_div` by a page size of `0` gives `0`, as Lean's division does
  let pagesToFree := (keepFrom - r.start) / t.pageSize
  if pagesToFree = 0 then return 0
  let removed := r.pages.take pagesToFree
  modify fun t => t.adjustSequence seq fun r => { r with pages := r.pages.drop pagesToFree }
  modify fun t => t.freeAll removed
  modify fun t => t.setSequenceStart seq (r.start + removed.length * t.pageSize)
  return removed.length

/-- Sink-aware sliding window: retain a pinned prefix of attention-sink tokens and the
most recent `windowSize` tokens, evicting the pages in between. -/
def applySlidingWindowWithSinks (seq : SequenceId) (windowSize sinkTokens : ℕ) : TableM ℕ := do
  require (windowSize ≠ 0) .invalidWindowSize
  if sinkTokens = 0 then applySlidingWindow seq windowSize
  else
    let t ← get
    require (t.pageSize ≠ 0) .panic
    let sinkPages := divCeil sinkTokens t.pageSize
    let sinkLenTarget := sinkPages * t.pageSize
    let r ← sequence seq
    let keepFrom := r.length - windowSize
    if keepFrom ≤ sinkLenTarget then return 0
    let curWindowStart := if 0 < r.sinkLen then r.start else sinkLenTarget
    let newWindowStart := keepFrom / t.pageSize * t.pageSize
    if newWindowStart ≤ curWindowStart then
      modify fun t => (t.setSequenceSinkLen seq sinkLenTarget).setSequenceStart seq curWindowStart
      return 0
    let evictPages := (newWindowStart - curWindowStart) / t.pageSize
    -- always keep at least the final window page
    let evict := min evictPages (r.pages.length - sinkPages - 1)
    -- `drain(sink_pages..sink_pages + evict)` of a shorter list panics
    require (sinkPages + evict ≤ r.pages.length) .panic
    let removed := (r.pages.drop sinkPages).take evict
    modify fun t => t.adjustSequence seq fun r =>
      { r with pages := r.pages.take sinkPages ++ r.pages.drop (sinkPages + evict) }
    modify fun t => t.freeAll removed
    modify fun t => (t.setSequenceSinkLen seq sinkLenTarget).setSequenceStart seq
      (curWindowStart + removed.length * t.pageSize)
    return removed.length

/-! ### Tiers -/

/-- Evict up to `target` pages from the hot tier, stopping at the first failure; every
policy does the same. -/
def evict : ℕ → PageTable → ℕ × PageTable
  | 0, t => (0, t)
  | target + 1, t =>
    match evictLruHot none t with
    | .ok _ t' => let (n, t'') := evict target t'; (n + 1, t'')
    | .error _ t' => (0, t')

/-- Promote pages, counting those that were cold. -/
def promoteAll : List PageId → TableM ℕ
  | [] => return 0
  | id :: ids => do
    let t ← get
    let wasCold := (t.pages.lookup id).any fun page => !page.residency.isGpu
    promoteToHot id
    let rest ← promoteAll ids
    return (if wasCold then 1 else 0) + rest

/-- Promote all pages backing a sequence range to the hot tier. -/
def prefetch (seq : SequenceId) (start stop : ℕ) : TableM ℕ := do
  let r ← sequence seq
  require (r.start ≤ start) (.positionEvicted start r.start)
  require (start ≤ stop ∧ stop ≤ r.length) (.invalidPosition stop r.length)
  if start = stop then return 0
  let t ← get
  require (t.pageSize ≠ 0) .panic
  let firstPage := r.bufferIndex start / t.pageSize
  let lastPage := r.bufferIndex (stop - 1) / t.pageSize
  require (firstPage ≤ lastPage + 1 ∧ lastPage < r.pages.length) .panic
  promoteAll ((r.pages.drop firstPage).take (lastPage + 1 - firstPage))

/-- Preempt `seq`: evict all pages it exclusively owns to the cold tier. -/
def preemptSequence (seq : SequenceId) : TableM ℕ := do
  let _ ← len seq
  evictSequenceToCold seq

/-- Restore `seq`: promote every page backing its retained range back to the hot tier. -/
def restoreSequence (seq : SequenceId) : TableM ℕ := do
  let r ← sequence seq
  prefetch seq r.start r.length

/-! ### Rewinding, forking, removing -/

/-- Validate that `seq` can rewind to `position`. -/
def validateRewindTo (seq : SequenceId) (position : ℕ) : TableM Unit := do
  let r ← sequence seq
  require (¬ (position < r.start ∧ (r.sinkLen = 0 ∨ r.sinkLen ≤ position)))
    (.positionEvicted position r.start)
  require (position ≤ r.length) (.invalidPosition position r.length)

/-- Truncate the cache to `position`. -/
def rewindTo (seq : SequenceId) (position : ℕ) : TableM Unit := do
  validateRewindTo seq position
  let r ← sequence seq
  let t ← get
  let retainedPosition := r.bufferIndex position
  require (t.pageSize ≠ 0) .panic
  let pagesNeeded := divCeil retainedPosition t.pageSize
  modify fun t => t.freeAll (r.pages.drop pagesNeeded)
  modify fun t => t.adjustSequence seq fun r => { r with pages := r.pages.take pagesNeeded }
  if 0 < retainedPosition then
    match (r.pages.take pagesNeeded).getLast? with
    | some lastPageId =>
      modify fun t => t.adjustPage lastPageId fun page =>
        { page with filled := (retainedPosition - 1) % t.pageSize + 1 }
    | none => pure ()
  modify fun t => t.setSequenceLen seq position
  -- rewinding into the pinned sink prefix discards the window
  if position < r.sinkLen then
    modify fun t => (t.setSequenceSinkLen seq 0).setSequenceStart seq 0

/-- Validate that a fork can reference the exact retained prefix. -/
def validateFork (source : SequenceId) (position : ℕ) : TableM Unit := do
  let r ← sequence source
  require (r.start ≤ position) (.positionEvicted position r.start)
  require (position ≤ r.length) (.invalidPosition position r.length)

/-- The page-table half of `fork`: sequence `newSeq` shares the pages of `source` below
`position`. -/
def forkInto (source : SequenceId) (position : ℕ) (newSeq : SequenceId) : TableM Unit := do
  validateFork source position
  let r ← sequence source
  let t ← get
  require (t.pageSize ≠ 0) .panic
  let pagesNeeded := divCeil (r.bufferIndex position) t.pageSize
  modify fun t => ((t.createSequence newSeq).setSequenceStart newSeq r.start).setSequenceSinkLen
    newSeq r.sinkLen
  modify fun t => (r.pages.take pagesNeeded).foldl
    (fun t id => (t.retain id).pushPage newSeq id) t
  modify fun t => t.setSequenceLen newSeq position

/-- Remove a sequence entirely, freeing all its pages. -/
def remove (t : PageTable) (seq : SequenceId) : PageTable :=
  let (ids, t) := t.removeSequence seq
  t.freeAll ids

/-- Create a new sequence, returning its id. -/
def createSequence (cache : PagedKvCache) : SequenceId × PagedKvCache :=
  (cache.nextSeqId, ⟨cache.pageTable.createSequence cache.nextSeqId, cache.nextSeqId + 1⟩)

/-- Fork a sequence with copy-on-write semantics. -/
def fork (cache : PagedKvCache) (source : SequenceId) (position : ℕ) :
    Except KvError SequenceId × PagedKvCache :=
  match forkInto source position cache.nextSeqId cache.pageTable with
  | .ok _ t => (.ok cache.nextSeqId, ⟨t, cache.nextSeqId + 1⟩)
  | .error e t => (.error e, ⟨t, cache.nextSeqId⟩)

end PagedKvCache

end OnnxGenai.Kv
