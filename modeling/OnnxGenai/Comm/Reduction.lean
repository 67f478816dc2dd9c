import OnnxGenai.Comm.Types
import OnnxGenai.Lib.Fallible

/-!
# Reductions

The kernels that combine the ranks' buffers, rank `0` first. Integer kernels check every sum and
every product, so a reduction that succeeds is the exact sum, product, minimum or maximum of the
ranks' elements (`reduceBuffers_exact`). What the floating-point kernels compute on a pair of
words is a parameter; nothing is said about it beyond the size of the result.
-/

namespace OnnxGenai.Comm

open Lib Lib.LittleEndian Lib.RowMajor List

/-- Contents of a buffer. -/
abbrev Bytes := List (BitVec 8)

/-- What the floating-point kernels do to two words. -/
structure FloatKernels where
  f32 : ReduceOp → BitVec 32 → BitVec 32 → BitVec 32
  f16 : ReduceOp → BitVec 16 → BitVec 16 → BitVec 16
  bf16 : ReduceOp → BitVec 16 → BitVec 16 → BitVec 16

/-- The integer a word stands for, in two's complement or unsigned. -/
def integerOf {w : ℕ} (signed : Bool) (x : BitVec w) : ℤ := if signed then x.toInt else x.toNat

/-- The word of an integer, if the type can represent it. -/
def checkedWord (w : ℕ) (signed : Bool) (value : ℤ) : Option (BitVec w) :=
  if integerOf signed (BitVec.ofInt w value) = value then some (BitVec.ofInt w value) else none

/-- One step of an integer reduction. -/
def combineInteger (w : ℕ) (signed : Bool) (op : ReduceOp) (lhs rhs : BitVec w) : Option (BitVec w) :=
  match op with
  | .sum => checkedWord w signed (integerOf signed lhs + integerOf signed rhs)
  | .product => checkedWord w signed (integerOf signed lhs * integerOf signed rhs)
  | .min => some (if integerOf signed lhs ≤ integerOf signed rhs then lhs else rhs)
  | .max => some (if integerOf signed lhs ≤ integerOf signed rhs then rhs else lhs)

/-- The word at position `i` of a buffer. -/
def wordAt (w : ℕ) (bs : Bytes) (i : ℕ) : BitVec w := word w (chunk bs (w / 8) i)

/-- Combine a buffer into the output, word by word; the buffers hold whole words. -/
def combineBuffers (w : ℕ) (combine : BitVec w → BitVec w → Option (BitVec w)) (output input : Bytes) :
    Option Bytes :=
  ((List.range (min (output.length / (w / 8)) (input.length / (w / 8)))).mapM fun i =>
    combine (wordAt w output i) (wordAt w input i)).map (·.flatMap bytes)

/-- Combine the ranks' buffers in rank order. -/
def reduceWords (w : ℕ) (combine : BitVec w → BitVec w → Option (BitVec w)) (first : Bytes) (rest : List Bytes) :
    Option Bytes :=
  rest.foldlM (combineBuffers w combine) first

/-- A floating-point kernel never fails. -/
def reduceFloat (w : ℕ) (combine : BitVec w → BitVec w → BitVec w) (first : Bytes) (rest : List Bytes) : Bytes :=
  (reduceWords w (fun lhs rhs => some (combine lhs rhs)) first rest).getD first

/-- The name of an operator in messages. -/
def ReduceOp.name : ReduceOp → String
  | .sum => "Sum"
  | .product => "Product"
  | .min => "Min"
  | .max => "Max"

/-- An integer kernel fails when a sum or a product does not fit. -/
def reduceInteger (w : ℕ) (signed : Bool) (type : String) (op : ReduceOp) (first : Bytes) (rest : List Bytes) :
    Except CommError Bytes :=
  match reduceWords w (combineInteger w signed op) first rest with
  | some output => .ok output
  | none => .error (.extent (type ++ " " ++ op.name ++ " reduction overflow"))

/-- The kernel of an element type. -/
def reduceKernel (kernels : FloatKernels) (dtype : DType) (op : ReduceOp) (first : Bytes) (rest : List Bytes) :
    Except CommError Bytes :=
  match dtype with
  | .f32 => .ok (reduceFloat 32 (kernels.f32 op) first rest)
  | .f16 => .ok (reduceFloat 16 (kernels.f16 op) first rest)
  | .bf16 => .ok (reduceFloat 16 (kernels.bf16 op) first rest)
  | .i64 => reduceInteger 64 true "i64" op first rest
  | .i32 => reduceInteger 32 true "i32" op first rest
  | .u8 => reduceInteger 8 false "u8" op first rest

/-- Combine the ranks' buffers. -/
def reduceBuffers (kernels : FloatKernels) (inputs : List Bytes) (dtype : DType) (op : ReduceOp) :
    Except CommError Bytes :=
  match inputs with
  | [] => .error (.invalidArgument "reduction requires at least one rank")
  | first :: rest =>
    if ∃ input ∈ rest, input.length ≠ first.length then
      .error (.invalidArgument "reduction inputs have different byte lengths")
    else if first.length % dtype.size ≠ 0 then
      .error (.invalidArgument "reduction extent is not dtype-aligned")
    else
      reduceKernel kernels dtype op first rest

/-! ### What a reduction is -/

/-- The integer types of elements. -/
def DType.IsInteger : DType → Prop
  | .i64 | .i32 | .u8 => True
  | .f32 | .f16 | .bf16 => False

instance : DecidablePred DType.IsInteger := fun dtype =>
  match dtype with
  | .i64 | .i32 | .u8 => .isTrue trivial
  | .f32 | .f16 | .bf16 => .isFalse not_false

/-- Unsigned bytes apart, integers are signed. -/
def DType.signed : DType → Bool
  | .u8 => false
  | _ => true

/-- The integer at position `i` of a buffer of an integer type. -/
def element (dtype : DType) (bs : Bytes) (i : ℕ) : ℤ := integerOf dtype.signed (wordAt (8 * dtype.size) bs i)

/-- The exact result of an operator on one integer from each rank. -/
def ReduceOp.total : ReduceOp → ℤ → List ℤ → ℤ
  | .sum, x, xs => x + xs.sum
  | .product, x, xs => x * xs.prod
  | .min, x, xs => xs.foldl Min.min x
  | .max, x, xs => xs.foldl Max.max x

/-- `output` holds at each position the exact result of the operator on the ranks' elements there. -/
structure IsReduction (dtype : DType) (op : ReduceOp) (first : Bytes) (rest : List Bytes) (output : Bytes) : Prop where
  length : output.length = first.length
  exact : ∀ i < output.length / dtype.size,
    element dtype output i = op.total (element dtype first i) (rest.map fun input => element dtype input i)

/-! ### One step -/

variable {w : ℕ} {signed : Bool} {op : ReduceOp} {first output : Bytes} {rest : List Bytes} {kernels : FloatKernels}
  {dtype : DType}

theorem integerOf_checkedWord {value : ℤ} {x : BitVec w} (h : checkedWord w signed value = some x) :
    integerOf signed x = value := by
  unfold checkedWord at h
  split at h
  case isTrue heq =>
    cases h
    exact heq
  case isFalse => cases h

/-- The operator on two integers. -/
def ReduceOp.two : ReduceOp → ℤ → ℤ → ℤ
  | .sum, x, y => x + y
  | .product, x, y => x * y
  | .min, x, y => Min.min x y
  | .max, x, y => Max.max x y

/-- A step that succeeds is exact. -/
theorem integerOf_combineInteger {lhs rhs x : BitVec w} (h : combineInteger w signed op lhs rhs = some x) :
    integerOf signed x = op.two (integerOf signed lhs) (integerOf signed rhs) := by
  cases op with
  | sum | product => exact integerOf_checkedWord h
  | min | max =>
    cases h
    by_cases hle : integerOf signed lhs ≤ integerOf signed rhs
    · simp [ReduceOp.two, hle]
    · simp [ReduceOp.two, hle, le_of_lt (not_le.mp hle)]

/-- The exact result over several ranks, one rank at a time. -/
theorem ReduceOp.total_cons (op : ReduceOp) (x y : ℤ) (ys : List ℤ) :
    op.total x (y :: ys) = op.total (op.two x y) ys := by
  cases op with
  | sum => simp [total, two, add_assoc]
  | product => simp [total, two, mul_assoc]
  | min | max => rfl

/-! ### Whole buffers -/

section Words

variable {w : ℕ} {combine : BitVec w → BitVec w → Option (BitVec w)} {n : ℕ}

/-- Two buffers of `n` words are combined word by word. -/
theorem combineBuffers_spec (hw : 8 ∣ w) (hpos : 0 < w / 8) {input result : Bytes}
    (houtput : output.length = n * (w / 8)) (hinput : input.length = n * (w / 8))
    (h : combineBuffers w combine output input = some result) :
    result.length = n * (w / 8) ∧
      ∀ i < n, combine (wordAt w output i) (wordAt w input i) = some (wordAt w result i) := by
  obtain ⟨ys, hys, rfl⟩ := Option.map_eq_some_iff.mp h
  rw [houtput, hinput, Nat.mul_div_cancel _ hpos, min_self] at hys
  have hall := mapM_eq_some hys
  have hlen : ys.length = n := by simpa using hall.length_eq.symm
  have hsize : ∀ bs ∈ ys.map (bytes : BitVec w → Bytes), bs.length = w / 8 := by
    intro bs hbs
    obtain ⟨y, -, rfl⟩ := mem_map.mp hbs
    exact length_bytes y
  rw [flatMap_def]
  constructor
  · rw [length_flatten_of_forall hsize, length_map, hlen]
  · intro i hi
    have hget := List.Forall₂.get hall (by simpa using hi) (by rw [hlen]; exact hi)
    have hi' : i < (ys.map (bytes : BitVec w → Bytes)).length := by simpa [hlen] using hi
    have hword : wordAt w (ys.map bytes).flatten i = ys[i] := by
      unfold wordAt
      rw [chunk_flatten hsize hi', getElem_map, word_bytes hw]
    rw [hword]
    simpa using hget

theorem reduceWords_length (hw : 8 ∣ w) (hpos : 0 < w / 8) : ∀ {rest : List Bytes} {first result : Bytes},
    first.length = n * (w / 8) → (∀ input ∈ rest, input.length = n * (w / 8)) →
      reduceWords w combine first rest = some result → result.length = n * (w / 8)
  | [], first, result, hfirst, _, h => by
    obtain rfl : first = result := by simpa [reduceWords] using h
    exact hfirst
  | input :: rest, first, result, hfirst, hrest, h => by
    obtain ⟨next, hnext, h⟩ := Option.bind_eq_some_iff.mp h
    have hlength := (combineBuffers_spec hw hpos hfirst (hrest input (by simp)) hnext).1
    exact reduceWords_length hw hpos hlength (fun other hother => hrest other (by simp [hother])) h

/-- The elements of a reduction of words that is exact on two. -/
theorem reduceWords_exact (hw : 8 ∣ w) (hpos : 0 < w / 8) :
    ∀ {rest : List Bytes} {first result : Bytes},
      first.length = n * (w / 8) → (∀ input ∈ rest, input.length = n * (w / 8)) →
        reduceWords w (combineInteger w signed op) first rest = some result → ∀ i < n,
          integerOf signed (wordAt w result i) =
            op.total (integerOf signed (wordAt w first i)) (rest.map fun input => integerOf signed (wordAt w input i))
  | [], first, result, _, _, h, i, _ => by
    obtain rfl : first = result := by simpa [reduceWords] using h
    cases op <;> simp [ReduceOp.total]
  | input :: rest, first, result, hfirst, hrest, h, i, hi => by
    obtain ⟨next, hnext, h⟩ := Option.bind_eq_some_iff.mp h
    obtain ⟨hlength, hwords⟩ := combineBuffers_spec hw hpos hfirst (hrest input (by simp)) hnext
    rw [reduceWords_exact hw hpos hlength (fun other hother => hrest other (by simp [hother])) h i hi,
      integerOf_combineInteger (hwords i hi), map_cons, ReduceOp.total_cons]

/-- A kernel that never fails on two words never fails. -/
theorem reduceWords_total (combine : BitVec w → BitVec w → BitVec w) (rest : List Bytes) :
    ∀ first : Bytes, ∃ result, reduceWords w (fun lhs rhs => some (combine lhs rhs)) first rest = some result := by
  induction rest with
  | nil => exact fun first => ⟨first, rfl⟩
  | cons input rest ih =>
    intro first
    have hmap : ∀ l : List ℕ, l.mapM (fun i => some (combine (wordAt w first i) (wordAt w input i))) =
        some (l.map fun i => combine (wordAt w first i) (wordAt w input i)) := by
      intro l
      induction l with
      | nil => rfl
      | cons i l ih => simp [ih]
    obtain ⟨result, hresult⟩ := ih ((((range (min (first.length / (w / 8)) (input.length / (w / 8)))).map
      fun i => combine (wordAt w first i) (wordAt w input i))).flatMap bytes)
    refine ⟨result, ?_⟩
    unfold reduceWords at hresult ⊢
    rw [foldlM_cons]
    simp only [combineBuffers, hmap, Option.map_some, Option.bind_eq_bind, Option.bind_some]
    exact hresult

theorem reduceFloat_length {combine : BitVec w → BitVec w → BitVec w} (hw : 8 ∣ w) (hpos : 0 < w / 8)
    (hfirst : first.length = n * (w / 8)) (hrest : ∀ input ∈ rest, input.length = n * (w / 8)) :
    (reduceFloat w combine first rest).length = n * (w / 8) := by
  obtain ⟨result, hresult⟩ := reduceWords_total combine rest first
  unfold reduceFloat
  rw [hresult]
  exact reduceWords_length hw hpos hfirst hrest hresult

end Words

/-- A reduction that succeeds has inputs of one length, in whole elements. -/
theorem reduceBuffers_aligned {inputs : List Bytes} (h : reduceBuffers kernels inputs dtype op = .ok output) :
    ∃ first rest, inputs = first :: rest ∧ (∀ input ∈ rest, input.length = first.length) ∧
      first.length = first.length / dtype.size * dtype.size := by
  cases inputs with
  | nil => exact absurd h (by simp [reduceBuffers])
  | cons first rest =>
    simp only [reduceBuffers] at h
    split at h
    case isTrue => cases h
    case isFalse hlengths =>
      split at h
      case isTrue => cases h
      case isFalse haligned =>
        push Not at hlengths haligned
        exact ⟨first, rest, rfl, hlengths, (Nat.div_mul_cancel (Nat.dvd_of_mod_eq_zero haligned)).symm⟩

theorem reduceInteger_eq_ok {type : String} (h : reduceInteger w signed type op first rest = .ok output) :
    reduceWords w (combineInteger w signed op) first rest = some output := by
  unfold reduceInteger at h
  split at h
  case h_1 result hresult =>
    cases h
    exact hresult
  case h_2 => cases h

/-- The kernel a reduction runs, once the lengths are right. -/
theorem reduceBuffers_eq (h : reduceBuffers kernels (first :: rest) dtype op = .ok output) :
    reduceKernel kernels dtype op first rest = .ok output := by
  simp only [reduceBuffers] at h
  split at h
  case isTrue => cases h
  case isFalse =>
    split at h
    case isTrue => cases h
    case isFalse => exact h

/-- A reduction has the length of its inputs. -/
theorem reduceBuffers_length (h : reduceBuffers kernels (first :: rest) dtype op = .ok output) :
    output.length = first.length := by
  obtain ⟨_, _, heq, hrest, hfirst⟩ := reduceBuffers_aligned h
  obtain ⟨rfl, rfl⟩ := cons_eq_cons.mp heq
  have hrest' : ∀ input ∈ rest, input.length = first.length / dtype.size * dtype.size :=
    fun input hinput => (hrest input hinput).trans hfirst
  have hkernel := reduceBuffers_eq h
  rw [hfirst]
  cases dtype with
  | f32 | f16 | bf16 =>
    cases hkernel
    exact reduceFloat_length (by decide) (by decide) hfirst hrest'
  | i64 | i32 | u8 => exact reduceWords_length (by decide) (by decide) hfirst hrest' (reduceInteger_eq_ok hkernel)

/-- **A reduction of integers that succeeds is exact.** -/
theorem reduceBuffers_exact (hinteger : dtype.IsInteger)
    (h : reduceBuffers kernels (first :: rest) dtype op = .ok output) : IsReduction dtype op first rest output := by
  obtain ⟨_, _, heq, hrest, hfirst⟩ := reduceBuffers_aligned h
  obtain ⟨rfl, rfl⟩ := cons_eq_cons.mp heq
  have hrest' : ∀ input ∈ rest, input.length = first.length / dtype.size * dtype.size :=
    fun input hinput => (hrest input hinput).trans hfirst
  have hlength := reduceBuffers_length h
  have hkernel := reduceBuffers_eq h
  refine ⟨hlength, fun i hi => ?_⟩
  rw [hlength] at hi
  cases dtype with
  | f32 | f16 | bf16 => exact absurd hinteger not_false
  | i64 | i32 | u8 => exact reduceWords_exact (by decide) (by decide) hfirst hrest' (reduceInteger_eq_ok hkernel) i hi

end OnnxGenai.Comm
