import Mathlib

/-!
# Element types, shapes and constant tensors

The data of `dtype.rs`, `shape.rs` and `tensor.rs` that the graph and its passes work
with. Element bytes are little-endian and densely packed. Sizes are `usize` in the
source: the checked products fail from `2 ^ 64` on.
-/

namespace OnnxGenai.Ir

abbrev Byte := BitVec 8

/-- An `i64` and an `i32`, by their bits. -/
abbrev I64 := BitVec 64

abbrev I32 := BitVec 32

/-- An `f32`, by its bits. -/
abbrev F32Bits := BitVec 32

/-- The number of values of a `usize`. -/
def usizeSize : ℕ := 2 ^ 64

/-- Supported tensor element types. -/
inductive DataType where
  | undefined | float32 | uint8 | int8 | uint16 | int16 | int32 | int64 | string | bool
  | float16 | float64 | uint32 | uint64 | complex64 | complex128 | bfloat16
  | float8E4M3FN | float8E4M3FNUZ | float8E5M2 | float8E5M2FNUZ
  | uint4 | int4 | float4E2M1 | float8E8M0 | uint2 | int2
  deriving DecidableEq, Repr

namespace DataType

/-- Byte size per element. Sub-byte (packed) and variable-width types have none. -/
def byteSize : DataType → ℕ
  | float32 | int32 | uint32 => 4
  | float64 | int64 | uint64 | complex64 => 8
  | complex128 => 16
  | float16 | bfloat16 | int16 | uint16 => 2
  | int8 | uint8 | bool | float8E4M3FN | float8E4M3FNUZ | float8E5M2 | float8E5M2FNUZ | float8E8M0 => 1
  | int4 | uint4 | float4E2M1 | int2 | uint2 => 0
  | string | undefined => 0

end DataType

/-- Identifier of a symbolic dimension. -/
abbrev SymbolId := ℕ

/-- A dimension: a concrete size or a symbol. -/
inductive Dim where
  | static (n : ℕ)
  | symbolic (s : SymbolId)
  deriving DecidableEq, Repr

/-- The concrete size, if statically known. -/
def Dim.asStatic : Dim → Option ℕ
  | static n => some n
  | symbolic _ => none

/-- Whether this dimension is statically known. -/
def Dim.isStatic (d : Dim) : Bool := d.asStatic.isSome

/-- A tensor shape. A scalar has the empty one. -/
abbrev Shape := List Dim

/-- A fully static shape. -/
def staticShape (dims : List ℕ) : Shape := dims.map Dim.static

/-- The dimensions of a shape, if every one is static. -/
def asStaticShape (shape : Shape) : Option (List ℕ) := shape.mapM Dim.asStatic

/-- Whether every dimension of a shape is static. -/
def isFullyStatic (shape : Shape) : Bool := shape.all Dim.isStatic

/-- `usize::checked_mul`. -/
def checkedMul (a b : ℕ) : Option ℕ := if a * b < usizeSize then some (a * b) else none

/-- `usize::checked_add`. -/
def checkedAdd (a b : ℕ) : Option ℕ := if a + b < usizeSize then some (a + b) else none

/-- The number of elements of a shape, unless their product overflows on the way. -/
def checkedNumel (dims : List ℕ) : Option ℕ := dims.foldlM checkedMul 1

/-- A constant tensor held inline. -/
structure TensorData where
  name : Option String
  dtype : DataType
  dims : List ℕ
  data : List Byte
  strings : List String
  deriving DecidableEq, Repr

/-- A numeric tensor from raw little-endian bytes. -/
def TensorData.fromRaw (dtype : DataType) (dims : List ℕ) (data : List Byte) : TensorData :=
  ⟨none, dtype, dims, data, []⟩

/-- A reference to initializer data: inline, or a range of an external file. -/
inductive WeightRef where
  | inline (t : TensorData)
  | external (path : String) (offset length : ℕ) (dtype : DataType) (dims : List ℕ)
  deriving DecidableEq, Repr

end OnnxGenai.Ir
