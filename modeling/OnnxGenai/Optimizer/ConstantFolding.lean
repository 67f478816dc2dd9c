import OnnxGenai.Ir.Graph
import OnnxGenai.Lib.LittleEndian

/-!
# Constant folding

The pass `ConstantFolding` (`constant_folding.rs`). A node whose inputs are inline
initializers is evaluated, removed, and its output becomes an initializer; so does a `Shape`
node whose input has a static shape recorded. The pass works through the nodes
in ascending waves.

A fold ends with a tensor, is not made (`Stop.skip`, the source's `None`), or panics
(`Stop.panic`). The heaps of the source are sorted lists. Products of `usize`s that the
source does not check wrap.
-/

namespace OnnxGenai.Optimizer

open Lib Lib.RowMajor Lib.LittleEndian Ir List

/-- The most elements `Shape`, `Add`, `Sub`, `Mul` and `Concat` materialize. -/
def maxFoldElems : ℕ := 1024

/-- The most elements `Reshape` and `Transpose` materialize. -/
def maxWeightFoldElems : ℕ := 2 ^ 30

/-- How a fold ends without a tensor. -/
inductive Stop where
  | skip
  | panic
  deriving DecidableEq, Repr

/-- A value the source unwraps with `?`. -/
def orSkip {α : Type} : Option α → Except Stop α
  | some a => .ok a
  | none => .error .skip

/-- A value the source expects. -/
def orPanic {α : Type} : Option α → Except Stop α
  | some a => .ok a
  | none => .error .panic

/-- Go on only if a condition holds. -/
def require (p : Prop) [Decidable p] : Except Stop Unit := if p then .ok () else .error .skip

variable {Body : Type}

/-- The inline constant tensor backing a value. -/
def inlineConst (g : Graph Body) (v : ValueId) : Option TensorData :=
  match g.initializers.lookup v with
  | some (.inline t) => some t
  | _ => none

/-- The value of an input slot, if the slot is there and not skipped. -/
def input (node : Node Body) (k : ℕ) : Option ValueId := node.inputs[k]?.join

/-! ### The folds -/

/-- Materialize a `Constant` node's value. -/
def evalConstant (node : Node Body) : Option TensorData :=
  match node.attr "value" with
  | some (.tensor t) => some t
  | _ => match (node.attr "value_ints").bind Attribute.asInts with
    | some ints => some (.fromRaw .int64 [ints.length] (ints.flatMap bytes))
    | none => match (node.attr "value_int").bind Attribute.asInt with
      | some i => some (.fromRaw .int64 [] (bytes i))
      | none => none

/-- A position in a list of `rank` dimensions; a negative one counts from the end. -/
def clampIndex (rank : ℕ) (v : I64) : ℕ :=
  let v := if v.toInt < 0 then v.toInt + rank else v.toInt
  (max 0 (min v rank)).toNat

/-- Fold `Shape` of a value with a fully static shape. -/
def foldShape (g : Graph Body) (node : Node Body) : Option TensorData := do
  let x ← g.values.get (← input node 0)
  let dims ← asStaticShape x.shape
  if maxFoldElems < dims.length then none
  else
    let start := ((node.attr "start").bind Attribute.asInt).elim 0 (clampIndex dims.length)
    let stop := ((node.attr "end").bind Attribute.asInt).elim dims.length (clampIndex dims.length)
    let sliced := if start < stop then (dims.drop start).take (stop - start) else []
    some (.fromRaw .int64 [sliced.length] (sliced.flatMap fun d => bytes (BitVec.ofNat 64 d)))

/-- The words of a tensor, if its bytes are as many as its elements need. -/
def readWords (w : ℕ) (t : TensorData) : Except Stop (List (BitVec w)) := do
  let numel ← orPanic (checkedNumel t.dims)
  require (t.data.length = numel * (w / 8) % usizeSize)
  require (t.data.length % (w / 8) = 0)
  return words w t.data

/-- A result that fits into `w` bits, as a signed number. -/
def checkedInt (w : ℕ) (z : ℤ) : Option ℤ := if -2 ^ (w - 1) ≤ z ∧ z < 2 ^ (w - 1) then some z else none

/-- The integer operation of an operator, in `i64`. -/
def applyInt (op : String) (x y : ℤ) : Option ℤ :=
  match op with
  | "Add" => checkedInt 64 (x + y)
  | "Sub" => checkedInt 64 (x - y)
  | "Mul" => checkedInt 64 (x * y)
  | _ => none

/-- The operator on two lists of words of `w` bits; the result must fit into `w` bits again. -/
def applyWords (op : String) (w : ℕ) (xs ys : List (BitVec w)) : Except Stop (List Byte) := do
  let words ← (xs.zip ys).mapM fun (x, y) => orSkip do
    let r ← applyInt op x.toInt y.toInt
    let r ← checkedInt w r
    some (bytes (BitVec.ofInt w r))
  return words.flatten

/-- Fold elementwise integer `Add`, `Sub` and `Mul` on two constants of the same shape. -/
def foldBinaryInt (g : Graph Body) (node : Node Body) : Except Stop TensorData := do
  require (node.inputs.length = 2)
  let a ← orSkip ((input node 0).bind (inlineConst g))
  let b ← orSkip ((input node 1).bind (inlineConst g))
  require (a.dtype = b.dtype ∧ a.dims = b.dims)
  require (a.dtype = .int32 ∨ a.dtype = .int64)
  let numel ← orPanic (checkedNumel a.dims)
  require (numel ≤ maxFoldElems)
  match a.dtype with
  | .int64 => return .fromRaw .int64 a.dims (← applyWords node.opType 64 (← readWords 64 a) (← readWords 64 b))
  | .int32 => return .fromRaw .int32 a.dims (← applyWords node.opType 32 (← readWords 32 a) (← readWords 32 b))
  | _ => .error .skip

/-- An axis within the rank; a negative one counts from the end. -/
def normalizeAxis (axis : I64) (rank : ℕ) : Option ℕ :=
  let a := if axis.toInt < 0 then axis.toInt + rank else axis.toInt
  if 0 ≤ a ∧ a < rank then some a.toNat else none

/-- The sum of the inputs' extents along the axis; all else must agree with the first input. -/
def concatExtent (first : TensorData) (axis : ℕ) (inputs : List TensorData) : Option ℕ :=
  inputs.foldlM (fun sum t =>
    if t.dtype = first.dtype ∧ t.dims.length = first.dims.length ∧
        ∀ i < t.dims.length, i ≠ axis → t.dims.getD i 0 = first.dims.getD i 0 then
      checkedAdd sum (t.dims.getD axis 0)
    else none) 0

/-- Copy the `o`-th slab of an input to the end of what was copied so far. -/
def copySlab (axis inner elemSize o : ℕ) (out : List Byte × ℕ) (t : TensorData) : Except Stop (List Byte × ℕ) := do
  let rows ← orSkip (checkedMul (t.dims.getD axis 0) inner)
  let slabLen ← orSkip (checkedMul rows elemSize)
  let srcOff ← orSkip (checkedMul o slabLen)
  require (srcOff + slabLen ≤ t.data.length)
  let bytes ← orPanic (copyAt out.1 out.2 ((t.data.drop srcOff).take slabLen))
  return (bytes, out.2 + slabLen)

/-- Fold `Concat` of constants of the same type. -/
def foldConcat (g : Graph Body) (node : Node Body) : Except Stop TensorData := do
  let axisAttr ← orSkip ((node.attr "axis").bind Attribute.asInt)
  let inputs ← orSkip (node.inputs.mapM fun slot => slot.bind (inlineConst g))
  let first ← orSkip inputs.head?
  require (first.dtype ≠ .string ∧ first.strings = [])
  let elemSize := first.dtype.byteSize
  require (elemSize ≠ 0)
  require (first.dims.length ≠ 0)
  let axis ← orSkip (normalizeAxis axisAttr first.dims.length)
  let axisSum ← orSkip (concatExtent first axis inputs)
  let outDims := first.dims.set axis axisSum
  let numel ← orSkip (checkedNumel outDims)
  require (numel ≤ maxFoldElems)
  let outer := (outDims.take axis).prod % usizeSize
  let inner := (outDims.drop (axis + 1)).prod % usizeSize
  let size ← orSkip (checkedMul numel elemSize)
  let out ← (List.range outer).foldlM (fun out o => inputs.foldlM (copySlab axis inner elemSize o) out)
    (List.replicate size 0, 0)
  return .fromRaw first.dtype outDims out.1

/-- The literal and copied dimensions of a `Reshape`; the place of `-1` is kept open with `0`. -/
def reshapeDims (inputDims : List ℕ) (i : ℕ) : List I64 → Option (List ℕ × Option ℕ)
  | [] => some ([], none)
  | v :: vs => do
    let (resolved, inferAt) ← reshapeDims inputDims (i + 1) vs
    if v.toInt = -1 then
      if inferAt.isSome then none else some (0 :: resolved, some i)
    else if v.toInt = 0 then
      some ((← inputDims[i]?) :: resolved, inferAt)
    else if 0 ≤ v.toInt then
      some (v.toInt.toNat :: resolved, inferAt)
    else none

/-- Resolve the target dimensions of a `Reshape`. -/
def resolveReshapeDims (inputDims : List ℕ) (shapeVals : List I64) : Option (List ℕ) := do
  let (resolved, inferAt) ← reshapeDims inputDims 0 shapeVals
  match inferAt with
  | none => some resolved
  | some i =>
    let known ← checkedNumel (resolved.eraseIdx i)
    if known = 0 then none
    else
      let total ← checkedNumel inputDims
      if total % known ≠ 0 then none else some (resolved.set i (total / known))

/-- Fold `Reshape` of a constant: the bytes stay. -/
def foldReshape (g : Graph Body) (node : Node Body) : Except Stop TensorData := do
  let dataId ← orSkip (input node 0)
  let shapeId ← orSkip (input node 1)
  let data ← orSkip (inlineConst g dataId)
  let shapeTensor ← orSkip (inlineConst g shapeId)
  require (shapeTensor.dtype = .int64)
  require (data.dtype ≠ .string ∧ data.strings = [])
  let numel ← orSkip (checkedNumel data.dims)
  require (numel ≤ maxWeightFoldElems)
  let shapeVals ← readWords 64 shapeTensor
  let resolved ← orSkip (resolveReshapeDims data.dims shapeVals)
  require (checkedNumel resolved = some numel)
  return .fromRaw data.dtype resolved data.data

/-- The permutation of a `Transpose`; the default reverses the axes. -/
def transposePerm (node : Node Body) (rank : ℕ) : Option (List ℕ) :=
  match (node.attr "perm").bind Attribute.asInts with
  | some ints =>
    if ints.length = rank ∧ ∀ v ∈ ints, 0 ≤ v.toInt ∧ v.toInt < rank then some (ints.map fun v => v.toInt.toNat)
    else none
  | none => some (List.range rank).reverse

/-- The stride of each axis. -/
def strides : List ℕ → Option (List ℕ)
  | [] => some []
  | [_] => some [1]
  | _ :: d :: ds => do
    let rest ← strides (d :: ds)
    let stride ← checkedMul (rest.headD 1) d
    some (stride :: rest)

/-- The index at a position, by the strides. -/
def indexAt : List ℕ → ℕ → List ℕ
  | [], _ => []
  | stride :: rest, o => o / stride :: indexAt rest (o % stride)

/-- Copy the element of output position `o`. -/
def copyElement (data : List Byte) (perm inStrides outStrides : List ℕ) (elemSize : ℕ) (out : List Byte) (o : ℕ) :
    Except Stop (List Byte) := do
  let idx := indexAt outStrides o
  let inFlat := (perm.zipIdx.map fun (p, k) => idx.getD k 0 * inStrides.getD p 0).sum
  orPanic (if (inFlat + 1) * elemSize ≤ data.length then some () else none)
  orPanic (copyAt out (o * elemSize) (chunk data elemSize inFlat))

/-- Fold `Transpose` of a constant. -/
def foldTranspose (g : Graph Body) (node : Node Body) : Except Stop TensorData := do
  let data ← orSkip ((input node 0).bind (inlineConst g))
  require (data.dtype ≠ .string ∧ data.strings = [])
  let elemSize := data.dtype.byteSize
  require (elemSize ≠ 0)
  let perm ← orSkip (transposePerm node data.dims.length)
  require perm.Nodup
  let numel ← orSkip (checkedNumel data.dims)
  require (numel ≤ maxWeightFoldElems)
  let size ← orSkip (checkedMul numel elemSize)
  require (data.data.length = size)
  let outDims := perm.map fun p => data.dims.getD p 0
  let inStrides ← orSkip (strides data.dims)
  let outStrides ← orSkip (strides outDims)
  let out ← (List.range numel).foldlM (copyElement data.data perm inStrides outStrides elemSize) (List.replicate size 0)
  return .fromRaw data.dtype outDims out

/-- Evaluate a node, by its operator. -/
def foldNode (g : Graph Body) (node : Node Body) : Except Stop TensorData :=
  match node.opType with
  | "Constant" => orSkip (evalConstant node)
  | "Shape" => orSkip (foldShape g node)
  | "Add" | "Sub" | "Mul" => foldBinaryInt g node
  | "Concat" => foldConcat g node
  | "Reshape" => foldReshape g node
  | "Transpose" => foldTranspose g node
  | _ => .error .skip

/-! ### The pass -/

/-- Whether a node is one the pass may fold. -/
def isCandidate (node : Node Body) : Bool :=
  (node.domain = "" || node.domain = "ai.onnx") && node.outputs.length = 1 &&
    node.opType ∈ ["Constant", "Shape", "Add", "Sub", "Mul", "Concat", "Reshape", "Transpose"]

/-- The inputs of a node that must be folded before it. -/
def unresolvedInputs (g : Graph Body) (node : Node Body) : Option (List ValueId) :=
  let pending (inputs : List ValueId) := inputs.filter fun v => (inlineConst g v).isNone
  match node.opType with
  | "Constant" => some []
  | "Shape" => do
    let v ← input node 0
    let x ← g.values.get v
    if x.shape.length ≤ maxFoldElems ∧ isFullyStatic x.shape then some [] else some [v]
  | "Add" | "Sub" | "Mul" =>
    match node.inputs with
    | [some a, some b] => some (pending [a, b])
    | _ => none
  | "Concat" => if node.inputs = [] then none else (node.inputs.mapM id).map pending
  | "Reshape" =>
    if (node.attr "allowzero").bind Attribute.asInt = some 1 then none
    else do
      let data ← input node 0
      let shape ← input node 1
      some (pending [data, shape])
  | "Transpose" => (input node 0).map fun data => pending [data]
  | _ => none

/-- The state of the pass. -/
structure Folding (Body : Type) where
  graph : Graph Body
  /-- The candidates not yet visited, with their numbers of inputs not yet folded. -/
  unresolved : FiniteMap NodeId ℕ
  dependents : FiniteMap ValueId (List NodeId)
  /-- The nodes that are ready, ascending: those of this wave, and those of the next one. -/
  currentWave : List NodeId
  nextWave : List NodeId

namespace Folding

/-- Push a node on a heap. -/
def push (heap : List NodeId) (n : NodeId) : List NodeId := heap.orderedInsert (· ≤ ·) n

/-- Enter a candidate. -/
def enter (s : Folding Body) (entry : NodeId × Node Body) : Folding Body :=
  match unresolvedInputs s.graph entry.2 with
  | none => s
  | some inputs =>
    let s := { s with unresolved := s.unresolved.insert entry.1 inputs.length }
    if inputs.length = 0 then { s with currentWave := push s.currentWave entry.1 }
    else { s with
      dependents := inputs.foldl (fun d v => d.insert v ((d.lookup v).getD [] ++ [entry.1])) s.dependents }

/-- The pass before its first wave. -/
def start (g : Graph Body) : Folding Body :=
  (g.nodes.iter.filter fun entry => isCandidate entry.2).foldl enter ⟨g, ∅, ∅, [], []⟩

/-- One input of a consumer of node `nid` is folded. -/
def release (nid : NodeId) (s : Folding Body) (consumer : NodeId) : Folding Body :=
  match s.unresolved.lookup consumer with
  | none => s
  | some count =>
    let count := (count + usizeSize - 1) % usizeSize
    let s := { s with unresolved := FiniteMap.adjust s.unresolved consumer fun _ => count }
    if count = 0 then
      if nid < consumer then { s with currentWave := push s.currentWave consumer }
      else { s with nextWave := push s.nextWave consumer }
    else s

/-- Whether the output of a node has a consumer or is a graph output. -/
def needed (g : Graph Body) (out : ValueId) : Bool :=
  out ∈ g.outputs || (g.values.get out).any fun x => x.consumers ≠ ∅

/-- Replace a node by an initializer of its output. -/
def install (g : Graph Body) (nid : NodeId) (out : ValueId) (tensor : TensorData) : Option (Bool × Graph Body) := do
  let g ← g.removeNode nid
  if g.values.contains out then
    let g ← g.valueMut out fun x => { x with dtype := tensor.dtype, shape := staticShape tensor.dims }
    some (true, g.setInitializer out (.inline tensor))
  else some (false, g)

/-- Fold a node, if it is live, folds and is needed, and release its consumers. -/
def foldAt (s : Folding Body) (nid : NodeId) : Option (Folding Body) :=
  match s.graph.nodes.get nid with
  | none => some s
  | some node => do
    let out ← node.outputs[0]?
    match foldNode s.graph node with
    | .error .panic => none
    | .error .skip => some s
    | .ok tensor =>
      if needed s.graph out then do
        let (installed, g) ← install s.graph nid out tensor
        if installed then
          some (((s.dependents.lookup out).getD []).foldl (release nid)
            { s with graph := g, dependents := s.dependents.erase out })
        else some { s with graph := g }
      else some s

/-- Visit a node popped from the current wave. -/
def visit (s : Folding Body) (nid : NodeId) : Option (Folding Body) :=
  if nid ∈ s.unresolved then foldAt { s with unresolved := s.unresolved.erase nid } nid else some s

/-- How much is left to do: candidates to visit, then nodes on the heaps. -/
def size (s : Folding Body) : ℕ × ℕ × ℕ :=
  (s.unresolved.keys.length, s.currentWave.length + s.nextWave.length, s.nextWave.length)

theorem length_keys_adjust {K V : Type} [DecidableEq K] (m : FiniteMap K V) (k : K) (f : V → V) :
    (FiniteMap.adjust m k f).keys.length = m.keys.length := by
  simpa only [AList.keys, keys, length_map] using FiniteMap.length_adjust m k f

theorem release_unresolved (nid : NodeId) (s : Folding Body) (consumer : NodeId) :
    (release nid s consumer).unresolved.keys.length = s.unresolved.keys.length := by
  unfold release
  cases s.unresolved.lookup consumer with
  | none => rfl
  | some count =>
    dsimp only
    split_ifs <;> exact length_keys_adjust _ _ _

theorem releaseAll_unresolved (nid : NodeId) (consumers : List NodeId) (s : Folding Body) :
    (consumers.foldl (release nid) s).unresolved.keys.length = s.unresolved.keys.length := by
  induction consumers generalizing s with
  | nil => rfl
  | cons c cs ih => rw [foldl_cons, ih, release_unresolved]

theorem length_keys_erase {K V : Type} [DecidableEq K] {m : FiniteMap K V} {k : K} (hk : k ∈ m) :
    (m.erase k).keys.length < m.keys.length := by
  have hmem : k ∈ m.keys := AList.mem_keys.mp hk
  have hpos := length_pos_of_mem hmem
  rw [AList.keys_erase, length_erase_of_mem hmem]
  omega

theorem foldAt_unresolved {s s' : Folding Body} {nid : NodeId} (h : s.foldAt nid = some s') :
    s'.unresolved.keys.length = s.unresolved.keys.length := by
  unfold foldAt at h
  split at h
  · cases h
    rfl
  · simp only [Option.bind_eq_bind, Option.bind_eq_some_iff] at h
    obtain ⟨out, -, h⟩ := h
    split at h
    · cases h
    · cases h
      rfl
    · split_ifs at h
      · simp only [Option.bind_eq_some_iff] at h
        obtain ⟨⟨installed, g⟩, -, h⟩ := h
        split_ifs at h <;> cases h
        · exact releaseAll_unresolved _ _ _
        · rfl
      · cases h
        rfl

/-- A visit does nothing, or it takes the node off the candidates. -/
theorem visit_unresolved {s s' : Folding Body} {nid : NodeId} (h : s.visit nid = some s') :
    s' = s ∨ s'.unresolved.keys.length < s.unresolved.keys.length := by
  unfold visit at h
  split_ifs at h with hmem
  · rw [foldAt_unresolved h]
    exact Or.inr (length_keys_erase hmem)
  · exact Or.inl (Option.some.inj h).symm

/-- Pop the nodes of the wave, then go on with the next wave. -/
def waves (s : Folding Body) : Option (Graph Body) :=
  match hcur : s.currentWave with
  | nid :: rest =>
    match h : visit { s with currentWave := rest } nid with
    | none => none
    | some s' => waves s'
  | [] =>
    match hnext : s.nextWave with
    | [] => some s.graph
    | nid :: rest => waves { s with currentWave := nid :: rest, nextWave := [] }
termination_by s.size
decreasing_by
  · rcases visit_unresolved h with rfl | hlt
    · refine Prod.Lex.right _ (Prod.Lex.left _ _ ?_)
      rw [hcur, List.length_cons]
      dsimp only
      omega
    · exact Prod.Lex.left _ _ hlt
  · rw [size, size, hcur, hnext]
    simp only [List.length_nil, Nat.zero_add, Nat.add_zero]
    exact Prod.Lex.right _ (Prod.Lex.right _ (Nat.succ_pos _))

end Folding

/-- The pass. -/
def constantFolding (g : Graph Body) : Option (Graph Body) := (Folding.start g).waves

end OnnxGenai.Optimizer
