import OnnxGenai.Ir.Graph
import OnnxGenai.Lib.LittleEndian

/-!
# What ONNX defines

Run-time tensors, and what the ONNX operators that the optimizer evaluates are defined to
give. The operators are stated element by element, in the terms of the ONNX operator
reference; nothing here is taken from the code.

`Conforms node ins out` says that `out` is a result of the node on the inputs `ins` (a
skipped optional input is `none`). Where ONNX leaves the result to floating point, or to
element types without bytes of their own, nothing is said.
-/

namespace OnnxGenai.Onnx

open Lib.RowMajor Lib.LittleEndian Ir

/-- A run-time tensor: its elements are as many as its dimensions say. -/
structure Tensor where
  dtype : DataType
  dims : List ℕ
  data : List Byte
  strings : List String
  sized : dtype.byteSize ≠ 0 → data.length = dims.prod * dtype.byteSize
  numeric : dtype ≠ .string → strings = []

namespace Tensor

/-- The bytes of the element at an index. -/
def elem (x : Tensor) (idx : List ℕ) : List Byte := chunk x.data x.dtype.byteSize (flat x.dims idx)

/-- The element at an index as an integer of `w` bits. -/
def int (w : ℕ) (x : Tensor) (idx : List ℕ) : BitVec w := word w (x.elem idx)

/-- A constant holds this tensor. -/
def Stored (x : Tensor) (t : TensorData) : Prop :=
  x.dtype = t.dtype ∧ x.dims = t.dims ∧ x.data = t.data ∧ x.strings = t.strings

end Tensor

variable {Body : Type}

/-- The dimensions two operands broadcast to, the last dimension first. -/
def broadcastRev : List ℕ → List ℕ → Option (List ℕ)
  | [], bs => some bs
  | as, [] => some as
  | a :: as, b :: bs =>
    if a = b ∨ b = 1 then (broadcastRev as bs).map (a :: ·)
    else if a = 1 then (broadcastRev as bs).map (b :: ·)
    else none

/-- The dimensions two operands broadcast to. -/
def broadcast (as bs : List ℕ) : Option (List ℕ) := (broadcastRev as.reverse bs.reverse).map List.reverse

/-- How far input `k` is moved along the axis. -/
def offset (axis : ℕ) (xs : List Tensor) (k : ℕ) : ℕ := ((xs.take k).map fun x => x.dims.getD axis 0).sum

end OnnxGenai.Onnx
