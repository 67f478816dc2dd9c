import OnnxGenai.Lib.FiniteMap
import OnnxGenai.Lib.Fallible

/-!
# Pages of the KV cache

A page holds the keys and values of a fixed number of tokens (`page_table.rs`). Its
store has one buffer per storage type; `Page.new` lays the components (one key and
one value component per layer) out one after the other in the buffer of their type,
and `writeHeadToken`, `valueAtSlot` and `headTokenF32` address them.

An `f32` is kept as its 32 bits: the cache copies floats and never computes with
them, except to quantize. Quantization is floating-point arithmetic, so what it
computes is a parameter, `QuantCodec`. An index outside a buffer, where the source
would panic, is the error `panic`.
-/

namespace OnnxGenai.Kv

open Lib

/-- `PageId`, a `u32`. -/
abbrev PageId := ℕ

/-- `SequenceId`, a `u64`. -/
abbrev SequenceId := ℕ

/-- `TokenId`, a `u32`. -/
abbrev TokenId := ℕ

/-- The bits of an `f32`. -/
abbrev F32 := BitVec 32

/-- `0.0_f32`. -/
def F32.zero : F32 := 0

/-- `1.0_f32`. -/
def F32.one : F32 := 0x3F800000

/-- Declared page-store residency. -/
inductive Device where
  /-- The hot tier: a GPU index. -/
  | gpu (index : ℕ)
  /-- The cold tier. -/
  | cpu
  /-- Not a residency a host page can have. -/
  | disk
  deriving DecidableEq, Repr

/-- `matches!(device, Device::Gpu(_))`. -/
def Device.isGpu : Device → Bool
  | .gpu _ => true
  | _ => false

/-- Scalar storage type for KV page tensors. -/
inductive KvDType where
  | f32
  | int8
  | fp8E4M3Fn
  | fp8E5M2
  deriving DecidableEq, Repr

/-- K or V selector for page tensor indexing. -/
inductive KvKind where
  | key
  | value
  deriving DecidableEq, Repr

/-- What the cache operations fail with. `panic` is not a value of the source's
error type: it stands for an index outside a buffer. -/
inductive KvError where
  | migrationPressure
  | migrationLeaseInvariant (reason : String)
  | sequenceNotFound (seq : SequenceId)
  | outOfMemory (needed available : ℕ)
  | invalidPosition (position length : ℕ)
  | positionEvicted (position retainedStart : ℕ)
  | rewindBelowSinkNotMaterializable (position sinkLen : ℕ)
  | invalidWindowSize
  | tensorStorageNotConfigured
  | pageStoreLayoutMismatch
  | pageStoreAllocationFailed (reason : String)
  | stateMigrationFailed (pageId : PageId) (source target : Device) (reason : KvError)
  | invalidTensorShape (reason : String)
  | pageNotFound (pageId : PageId)
  | panic
  deriving Repr, DecidableEq

/-! ### Geometry and precision -/

/-- KV tensor geometry for a single layer. -/
structure LayerTensorConfig where
  numKvHeads : ℕ
  headDim : ℕ
  deriving DecidableEq, Repr

/-- Number of f32 scalars for one token of this layer's key (or value). -/
def LayerTensorConfig.f32LenPerToken (geom : LayerTensorConfig) : ℕ := geom.numKvHeads * geom.headDim

/-- `validate`: both extents are positive. -/
def LayerTensorConfig.validate (geom : LayerTensorConfig) : Bool :=
  decide (0 < geom.numKvHeads) && decide (0 < geom.headDim)

/-- The uniform descriptor a table reports. -/
structure PageTensorConfig where
  numLayers : ℕ
  numKvHeads : ℕ
  headDim : ℕ
  pageSize : ℕ
  dtype : KvDType
  deriving DecidableEq, Repr

/-- Key/value storage precision for one layer. -/
structure LayerKvDType where
  key : KvDType
  value : KvDType
  deriving DecidableEq, Repr

/-- Per-layer KV precision policy. -/
structure KvQuantConfig where
  layers : List LayerKvDType
  deriving DecidableEq, Repr

namespace KvQuantConfig

/-- Use one dtype for every key and value layer. -/
def homogeneous (dtype : KvDType) (numLayers : ℕ) : KvQuantConfig :=
  ⟨List.replicate numLayers ⟨dtype, dtype⟩⟩

/-- The dtype of a component; a layer beyond the policy, where the source would
panic, reads as `f32` (the constructors check that the lengths agree). -/
def dtype (config : KvQuantConfig) (layer : ℕ) (kind : KvKind) : KvDType :=
  match config.layers[layer]?, kind with
  | some l, .key => l.key
  | some l, .value => l.value
  | none, _ => .f32

@[simp] theorem dtype_homogeneous_f32 (n layer : ℕ) (kind : KvKind) :
    (homogeneous .f32 n).dtype layer kind = .f32 := by
  unfold dtype homogeneous
  by_cases h : layer < n
  · cases kind <;> simp [h]
  · simp [h]

end KvQuantConfig

/-! ### Stores -/

/-- Storage lengths needed to allocate one physical page. -/
structure PageStoreLayout where
  f32Len : ℕ
  int8Len : ℕ
  fp8Len : ℕ
  scaleLen : ℕ
  deriving DecidableEq, Repr

/-- Bytes of a host store with this layout. -/
def PageStoreLayout.hostAllocatedBytes (layout : PageStoreLayout) : ℕ :=
  (layout.f32Len + layout.scaleLen) * 4 + layout.int8Len + layout.fp8Len

/-- `HostPageStore`: both tiers are host buffers, with a declared residency. -/
structure HostPageStore where
  residency : Device
  data : List F32
  quantizedData : List (BitVec 8)
  fp8Data : List (BitVec 8)
  quantScales : List F32
  deriving DecidableEq, Repr

namespace HostPageStore

def new (residency : Device) (layout : PageStoreLayout) : HostPageStore where
  residency := residency
  data := List.replicate layout.f32Len F32.zero
  quantizedData := List.replicate layout.int8Len 0
  fp8Data := List.replicate layout.fp8Len 0
  quantScales := List.replicate layout.scaleLen F32.one

def allocatedBytes (store : HostPageStore) : ℕ :=
  store.data.length * 4 + store.quantizedData.length + store.fp8Data.length +
    store.quantScales.length * 4

def resetStorage (store : HostPageStore) : HostPageStore :=
  { store with
    data := store.data.map fun _ => F32.zero
    quantizedData := store.quantizedData.map fun _ => 0
    fp8Data := store.fp8Data.map fun _ => 0
    quantScales := store.quantScales.map fun _ => F32.one }

/-- The lengths of a store's buffers. -/
def layout (store : HostPageStore) : PageStoreLayout :=
  ⟨store.data.length, store.quantizedData.length, store.fp8Data.length, store.quantScales.length⟩

/-- Copy every buffer of `source` into `store`, whose residency stays. -/
def copyFromHost (store source : HostPageStore) : Except KvError HostPageStore :=
  if store.layout = source.layout then .ok { source with residency := store.residency }
  else .error .pageStoreLayoutMismatch

@[simp] theorem new_layout (d : Device) (l : PageStoreLayout) : (new d l).layout = l := by
  simp [new, layout]

@[simp] theorem resetStorage_layout (s : HostPageStore) : s.resetStorage.layout = s.layout := by
  simp [resetStorage, layout]

@[simp] theorem resetStorage_residency (s : HostPageStore) :
    s.resetStorage.residency = s.residency := rfl

end HostPageStore

/-! ### Pages -/

/-- Where one component (a layer's keys or values) starts in each buffer. -/
structure ComponentStorage where
  dtype : KvDType
  dataOffset : ℕ
  quantizedOffset : ℕ
  fp8Offset : ℕ
  scaleOffset : ℕ
  deriving DecidableEq, Repr

/-- A physical page holding KV data for a fixed number of tokens. -/
structure Page where
  id : PageId
  /-- Number of active references, a `u32`. -/
  refCount : ℕ
  /-- How many token slots are filled. -/
  filled : ℕ
  /-- Last access timestamp. -/
  lastAccess : ℕ
  store : HostPageStore
  storeLayout : PageStoreLayout
  storageLayout : List ComponentStorage
  deriving DecidableEq, Repr

/-- `u32::MAX`. -/
def u32Max : ℕ := 2 ^ 32 - 1

namespace Page

/-- The body of the loop of `Page::new`: put one component at the end of the buffer
of its type. -/
def pushComponent (pageSize : ℕ) (geom : LayerTensorConfig) (dtype : KvDType)
    (acc : List ComponentStorage × PageStoreLayout) : List ComponentStorage × PageStoreLayout :=
  let componentLen := geom.numKvHeads * pageSize * geom.headDim
  let scaleSlots := geom.numKvHeads * pageSize
  let lens := acc.2
  (acc.1 ++ [⟨dtype, lens.f32Len, lens.int8Len, lens.fp8Len, lens.scaleLen⟩],
    match dtype with
    | .f32 => { lens with f32Len := lens.f32Len + componentLen }
    | .int8 => { lens with
        int8Len := lens.int8Len + componentLen, scaleLen := lens.scaleLen + scaleSlots }
    | .fp8E4M3Fn | .fp8E5M2 => { lens with
        fp8Len := lens.fp8Len + componentLen, scaleLen := lens.scaleLen + scaleSlots })

/-- The loop of `Page::new` over the layers from number `layer` on: the key component,
then the value component. -/
def layoutFrom (pageSize : ℕ) (quant : KvQuantConfig) :
    ℕ → List LayerTensorConfig → List ComponentStorage × PageStoreLayout →
      List ComponentStorage × PageStoreLayout
  | _, [], acc => acc
  | layer, geom :: rest, acc =>
    layoutFrom pageSize quant (layer + 1) rest
      (pushComponent pageSize geom (quant.dtype layer .value)
        (pushComponent pageSize geom (quant.dtype layer .key) acc))

/-- The component table and the buffer lengths of a page. -/
def layoutOf (pageSize : ℕ) (layerConfigs : List LayerTensorConfig)
    (quantConfig : Option KvQuantConfig) : List ComponentStorage × PageStoreLayout :=
  match quantConfig with
  | some quant => layoutFrom pageSize quant 0 layerConfigs ([], ⟨0, 0, 0, 0⟩)
  | none => ([], ⟨0, 0, 0, 0⟩)

def new (id : PageId) (device : Device) (pageSize : ℕ) (layerConfigs : List LayerTensorConfig)
    (quantConfig : Option KvQuantConfig) : Page :=
  let l := layoutOf pageSize layerConfigs quantConfig
  { id := id
    refCount := 0
    filled := 0
    lastAccess := 0
    store := HostPageStore.new device l.2
    storeLayout := l.2
    storageLayout := l.1 }

/-- Declared residency of the store that owns this page's bytes. -/
def residency (page : Page) : Device := page.store.residency

/-- What a migration reports. -/
structure Migration where
  source : Device
  target : Device
  bytesCopied : ℕ
  deriving Repr

/-- Move the complete payload to `target`: create a store there, copy, and only then
replace the page's store. -/
def migrate (page : Page) (target : Device) : Except KvError (Migration × Page) :=
  let source := page.residency
  if source = target then .ok (⟨source, target, 0⟩, page)
  else
    let migrationError := KvError.stateMigrationFailed page.id source target
    if target = .disk then
      .error (migrationError
        (.pageStoreAllocationFailed "host-page-store has no disk page representation"))
    else
      match (HostPageStore.new target page.storeLayout).copyFromHost page.store with
      | .ok replacement =>
        .ok (⟨source, target, page.store.allocatedBytes⟩, { page with store := replacement })
      | .error e => .error (migrationError e)

def resetStorage (page : Page) : Page :=
  { page with filled := 0, store := page.store.resetStorage }

/-- What quantization computes: a scale for one token's values, the byte of a value at
a scale, and back. -/
structure QuantCodec where
  quantScale : KvDType → List F32 → F32
  encode : KvDType → F32 → F32 → BitVec 8
  decode : KvDType → BitVec 8 → F32 → F32

/-- `xs[offset..offset + ys.len()].copy_from_slice(ys)`. -/
def writeSlice {α : Type} (xs : List α) (offset : ℕ) (ys : List α) : Except KvError (List α) :=
  if offset + ys.length ≤ xs.length then
    .ok (xs.take offset ++ ys ++ xs.drop (offset + ys.length))
  else .error .panic

/-- `&xs[offset..offset + len]`. -/
def readSlice {α : Type} (xs : List α) (offset len : ℕ) : Except KvError (List α) :=
  if offset + len ≤ xs.length then .ok ((xs.drop offset).take len) else .error .panic

/-- `xs[i]`. -/
def readAt {α : Type} (xs : List α) (i : ℕ) : Except KvError α :=
  match xs[i]? with
  | some x => .ok x
  | none => .error .panic

/-- Read one scalar for `(component, head, token_offset, dim)`. -/
def valueAtSlot (codec : QuantCodec) (page : Page) (pageSize headDim component head tokenOffset
    dim : ℕ) : Except KvError F32 := do
  let storage ← readAt page.storageLayout component
  let headLen := pageSize * headDim
  let within := head * headLen + tokenOffset * headDim + dim
  match storage.dtype with
  | .f32 => readAt page.store.data (storage.dataOffset + within)
  | .int8 =>
    let scale ← readAt page.store.quantScales (storage.scaleOffset + head * pageSize + tokenOffset)
    let byte ← readAt page.store.quantizedData (storage.quantizedOffset + within)
    .ok (codec.decode .int8 byte scale)
  | dtype =>
    let scale ← readAt page.store.quantScales (storage.scaleOffset + head * pageSize + tokenOffset)
    let byte ← readAt page.store.fp8Data (storage.fp8Offset + within)
    .ok (codec.decode dtype byte scale)

/-- Store one token's `head_dim` values for a single `(component, head)` slot. -/
def writeHeadToken (codec : QuantCodec) (page : Page) (pageSize headDim component head
    tokenOffset : ℕ) (values : List F32) : Except KvError Page := do
  let storage ← readAt page.storageLayout component
  let headLen := pageSize * headDim
  let within := head * headLen + tokenOffset * headDim
  match storage.dtype with
  | .f32 =>
    let data ← writeSlice page.store.data (storage.dataOffset + within) values
    .ok { page with store := { page.store with data := data } }
  | .int8 =>
    let scale := codec.quantScale .int8 values
    let scales ← writeSlice page.store.quantScales
      (storage.scaleOffset + head * pageSize + tokenOffset) [scale]
    let bytes ← writeSlice page.store.quantizedData (storage.quantizedOffset + within)
      (values.map fun v => codec.encode .int8 v scale)
    .ok { page with store := { page.store with quantScales := scales, quantizedData := bytes } }
  | dtype =>
    let scale := codec.quantScale dtype values
    let scales ← writeSlice page.store.quantScales
      (storage.scaleOffset + head * pageSize + tokenOffset) [scale]
    let bytes ← writeSlice page.store.fp8Data (storage.fp8Offset + within)
      (values.map fun v => codec.encode dtype v scale)
    .ok { page with store := { page.store with quantScales := scales, fp8Data := bytes } }

/-- Borrow one token's contiguous f32 row, or `none` for a quantized component. -/
def headTokenF32 (page : Page) (pageSize headDim component head tokenOffset : ℕ) :
    Except KvError (Option (List F32)) := do
  let storage ← readAt page.storageLayout component
  if storage.dtype ≠ .f32 then .ok none
  else
    let headLen := pageSize * headDim
    let within := head * headLen + tokenOffset * headDim
    let row ← readSlice page.store.data (storage.dataOffset + within) headDim
    .ok (some row)

end Page

end OnnxGenai.Kv
