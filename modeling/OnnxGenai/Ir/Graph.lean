import OnnxGenai.Ir.Arena
import OnnxGenai.Ir.Tensor
import OnnxGenai.Lib.FiniteMap

/-!
# The graph and its mutation API

`Graph` (`graph.rs`): nodes and values in arenas, the ordered graph inputs and outputs, the
initializers, and the bodies of control-flow nodes. A value knows the node that produces
it, the input slots that consume it, and whether it is a graph input or output; these
are redundant with the nodes and the lists, and the mutation API keeps them so.

A body is a graph again. The operations here never look into one, so the type of the
bodies is a parameter, and `GraphAt n` are the graphs with bodies nested up to depth `n`.

An assertion that fails, a lookup that must not fail and an index out of bounds panic in the
source. An operation that can panic returns an `Option`. Slot numbers are cast to
`u32` where the source does.
-/

namespace OnnxGenai.Ir

open Lib

abbrev NodeId := ℕ

abbrev ValueId := ℕ

/-- An operator attribute. -/
inductive Attribute (Body : Type) where
  | int (v : I64)
  | float (v : F32Bits)
  | string (v : List Byte)
  | ints (v : List I64)
  | floats (v : List F32Bits)
  | strings (v : List (List Byte))
  | tensor (v : TensorData)
  | tensors (v : List TensorData)
  | graph (v : Body)
  | graphs (v : List Body)

namespace Attribute

variable {Body : Type}

/-- The `i64` value, if this is an `int`. -/
def asInt : Attribute Body → Option I64
  | int v => some v
  | _ => none

/-- The list of `i64`s, if this is an `ints`. -/
def asInts : Attribute Body → Option (List I64)
  | ints v => some v
  | _ => none

end Attribute

/-- An operation. A skipped optional input is `none`. -/
structure Node (Body : Type) where
  id : NodeId
  name : String
  opType : String
  domain : String
  version : Option ℤ
  inputs : List (Option ValueId)
  outputs : List ValueId
  attributes : FiniteMap String (Attribute Body)
  docString : Option String

namespace Node

variable {Body : Type}

/-- A new node with no attributes, in the default domain. -/
def new (id : NodeId) (opType : String) (inputs : List (Option ValueId)) (outputs : List ValueId) : Node Body :=
  ⟨id, "", opType, "", none, inputs, outputs, ∅, none⟩

/-- The present input values. -/
def inputValues (node : Node Body) : List ValueId := node.inputs.filterMap fun slot => slot

/-- Look up an attribute by name. -/
def attr (node : Node Body) (name : String) : Option (Attribute Body) := node.attributes.lookup name

end Node

/-- An input slot of a node. -/
abbrev Usage := NodeId × ℕ

/-- The input slots that consume a value. -/
abbrev Consumers := Finset Usage

/-- The consuming input slots, sorted. -/
def Consumers.uses (c : Consumers) : List Usage :=
  ((c.map toLex.toEmbedding).sort (α := ℕ ×ₗ ℕ)).map ofLex

/-- A value: an edge of the graph. -/
structure Value where
  id : ValueId
  name : Option String
  dtype : DataType
  shape : Shape
  /-- The node that produces this value. -/
  producer : Option NodeId
  /-- The input slots that consume this value. -/
  consumers : Consumers
  isGraphInput : Bool
  isGraphOutput : Bool

/-- A new anonymous value with no edges. -/
def Value.new (id : ValueId) (dtype : DataType) (shape : Shape) : Value :=
  ⟨id, none, dtype, shape, none, ∅, false, false⟩

/-- The two ordered lists of values at the border of a graph. -/
inductive Side where
  | input
  | output
  deriving DecidableEq, Repr

/-- Whether a value is marked to be on a side. -/
def Value.flag (x : Value) : Side → Bool
  | .input => x.isGraphInput
  | .output => x.isGraphOutput

/-- Mark a value. -/
def Value.mark (x : Value) (side : Side) (b : Bool) : Value :=
  match side with
  | .input => { x with isGraphInput := b }
  | .output => { x with isGraphOutput := b }

/-- A computation graph. -/
structure Graph (Body : Type) where
  nodes : Arena (Node Body)
  values : Arena Value
  inputs : List ValueId
  outputs : List ValueId
  initializers : FiniteMap ValueId WeightRef
  /-- Imported opsets: domain to version. -/
  opsetImports : FiniteMap String ℕ
  /-- The bodies of control-flow nodes, by node and attribute. -/
  subgraphs : FiniteMap (NodeId × String) Body
  unknownValueTypes : Finset ValueId
  unknownValueShapes : Finset ValueId

/-- The graphs whose bodies are nested at most `n - 1` deep. -/
def GraphAt : ℕ → Type
  | 0 => Empty
  | n + 1 => Graph (GraphAt n)

namespace Graph

variable {Body : Type}

/-- An empty graph. -/
def new : Graph Body := ⟨Arena.new, Arena.new, [], [], ∅, ∅, ∅, ∅, ∅⟩

variable (g : Graph Body)

/-- Whether a value's rank and dimensions came from explicit shape information. -/
def valueShapeIsKnown (v : ValueId) : Bool := v ∉ g.unknownValueShapes

/-- The ordered values of a side. -/
def list : Side → List ValueId
  | .input => g.inputs
  | .output => g.outputs

def setList (side : Side) (l : List ValueId) : Graph Body :=
  match side with
  | .input => { g with inputs := l }
  | .output => { g with outputs := l }

/-- Update a value that must be live. -/
def valueMut (v : ValueId) (f : Value → Value) : Option (Graph Body) :=
  if g.values.contains v then some { g with values := g.values.modify v f } else none

/-- Update the value of an input slot, if the slot is not skipped. -/
def slotMut (slot : Option ValueId) (f : Value → Value) : Option (Graph Body) :=
  match slot with
  | some v => g.valueMut v f
  | none => some g

/-! ### Construction helpers -/

/-- Create a new anonymous value. -/
def createValue (dtype : DataType) (shape : Shape) : ValueId × Graph Body :=
  let (v, values) := g.values.insertWith fun v => Value.new v dtype shape
  (v, { g with values := values })

/-- Register a value on one side. -/
def addTo (side : Side) (v : ValueId) : Option (Graph Body) := do
  let g ← g.valueMut v fun x => x.mark side true
  some (g.setList side (g.list side ++ [v]))

/-- Remove one entry of the list of a side. -/
def removeFrom (side : Side) (index : ℕ) : Option (ValueId × Graph Body) := do
  let v ← (g.list side)[index]?
  let g := g.setList side ((g.list side).eraseIdx index)
  if v ∈ g.list side then some (v, g)
  else return (v, ← g.valueMut v fun x => x.mark side false)

/-- Replace the complete list of a side. -/
def replaceList (side : Side) (l : List ValueId) : Option (Graph Body) := do
  let values := (g.list side).foldl (fun values v => values.modify v fun x => x.mark side false) g.values
  let g ← l.foldlM (fun g v => g.valueMut v fun x => x.mark side true) { g with values := values }
  some (g.setList side l)

/-- Register a value as a graph input. -/
def addInput (v : ValueId) : Option (Graph Body) := g.addTo .input v

/-- Register a value as a graph output. -/
def addOutput (v : ValueId) : Option (Graph Body) := g.addTo .output v

/-- Insert a value into the ordered graph outputs. -/
def insertOutput (index : ℕ) (v : ValueId) : Option (Graph Body) := do
  let g ← g.valueMut v fun x => x.mark .output true
  if index ≤ g.outputs.length then some (g.setList .output (g.outputs.insertIdx index v)) else none

/-- Remove one ordered graph input. -/
def removeInput (index : ℕ) : Option (ValueId × Graph Body) := g.removeFrom .input index

/-- Remove one ordered graph output. -/
def removeOutput (index : ℕ) : Option (ValueId × Graph Body) := g.removeFrom .output index

/-- Replace the complete ordered graph-input list. -/
def setInputs (inputs : List ValueId) : Option (Graph Body) := g.replaceList .input inputs

/-- Replace the complete ordered graph-output list. -/
def setOutputs (outputs : List ValueId) : Option (Graph Body) := g.replaceList .output outputs

/-- Attach initializer weights to a value. -/
def setInitializer (v : ValueId) (weight : WeightRef) : Graph Body :=
  { g with initializers := g.initializers.insert v weight }

/-! ### Edges -/

/-- Enter input slot `index` of node `id` into the value it names. -/
def connectInput (id : NodeId) (values : Arena Value) (slot : Option ValueId × ℕ) : Arena Value :=
  match slot.1 with
  | some v => values.modify v fun x => { x with consumers := insert (id, slot.2 % u32Size) x.consumers }
  | none => values

/-- Make node `id` the producer of a value. -/
def connectOutput (id : NodeId) (values : Arena Value) (v : ValueId) : Arena Value :=
  values.modify v fun x => { x with producer := some id }

/-- Wire a live node's edges into its input and output values. -/
def connectEdges (id : NodeId) : Option (Graph Body) := do
  let node ← g.nodes.get id
  let values := node.inputs.zipIdx.foldl (connectInput id) g.values
  some { g with values := node.outputs.foldl (connectOutput id) values }

/-- Replace one node input and update both values' consumer sets; returns the old input. -/
def replaceInput (id : NodeId) (index : ℕ) (newValue : Option ValueId) :
    Option (Option ValueId × Graph Body) := do
  let node ← g.nodes.get id
  let oldValue ← node.inputs[index]?
  guard (∀ v ∈ newValue, g.values.contains v)
  if oldValue = newValue then some (oldValue, g)
  else
    let g ← g.slotMut oldValue fun x => { x with consumers := x.consumers.erase (id, index % u32Size) }
    let g := { g with nodes := g.nodes.modify id fun node => { node with inputs := node.inputs.set index newValue } }
    let g ← g.slotMut newValue fun x => { x with consumers := insert (id, index % u32Size) x.consumers }
    some (oldValue, g)

/-- Node `id` no longer produces a value. -/
def disconnectOutput (id : NodeId) (values : Arena Value) (v : ValueId) : Arena Value :=
  values.modify v fun x => if x.producer = some id then { x with producer := none } else x

/-- Remove a live node's edges from its input and output values, without deleting the
values or the node itself. -/
def disconnectEdges (id : NodeId) : Option (Graph Body) := do
  let node ← g.nodes.get id
  let g ← (List.range node.inputs.length).foldlM (fun g index => (g.replaceInput id index none).map Prod.snd) g
  some { g with values := node.outputs.foldl (disconnectOutput id) g.values }

/-- Whether a value has no producer and no consumers, and is no graph input or output and
no initializer. -/
def isOrphan (v : ValueId) : Bool :=
  match g.values.get v with
  | some x => x.producer.isNone && x.consumers = ∅ && !x.isGraphInput && !x.isGraphOutput && v ∉ g.initializers
  | none => false

/-- Delete a value if it is an orphan, with its unknown-type and unknown-shape marks. -/
def gcValueIfOrphan (v : ValueId) : Graph Body :=
  if g.isOrphan v then
    { g with
      values := g.values.remove v
      unknownValueTypes := g.unknownValueTypes.erase v
      unknownValueShapes := g.unknownValueShapes.erase v }
  else g

/-! ### Mutation API -/

/-- Insert a node, wiring its edges. Its id is the freshly allocated one. -/
def insertNode (node : Node Body) : Option (NodeId × Graph Body) := do
  let (id, nodes) := g.nodes.insertWith fun id => { node with id := id }
  return (id, ← connectEdges { g with nodes := nodes } id)

/-- Remove a node, disconnecting its edges, and delete the output values left orphaned. -/
def removeNode (id : NodeId) : Option (Graph Body) :=
  if g.nodes.contains id then do
    let g ← g.disconnectEdges id
    let node ← g.nodes.get id
    some (node.outputs.foldl gcValueIfOrphan { g with nodes := g.nodes.remove id })
  else some g

/-- Remove nodes in order. -/
def removeNodes (ids : List NodeId) : Option (Graph Body) := ids.foldlM removeNode g

/-- Remove the nodes of one group and insert their replacement. -/
def replaceGroup (group : List NodeId × Node Body) : Option (NodeId × Graph Body) := do
  let g ← g.removeNodes group.1
  g.insertNode group.2

/-- What `replace_node_groups` asserts: the groups are not empty, live and disjoint. -/
def groupsOk (groups : List (List NodeId × Node Body)) : Bool :=
  groups.all (fun group => group.1 ≠ []) && (groups.flatMap Prod.fst).all g.nodes.contains &&
    (groups.flatMap Prod.fst).Nodup

/-- Replace disjoint node groups with one node each. -/
def replaceNodeGroups (groups : List (List NodeId × Node Body)) :
    Option (List NodeId × Graph Body) := do
  guard (g.groupsOk groups)
  groups.foldlM (fun (ids, g) group => do
    let (id, g) ← g.replaceGroup group
    some (ids ++ [id], g)) ([], g)

/-- Replace a node in place, preserving its id. -/
def replaceNode (old : NodeId) (new : Node Body) : Option (Graph Body) := do
  guard (g.nodes.contains old)
  let g ← g.disconnectEdges old
  connectEdges { g with nodes := g.nodes.modify old fun _ => { new with id := old } } old

/-- Replace every use of a value in consumer nodes and in the graph outputs. -/
def replaceAllUses (oldValue newValue : ValueId) : Option (Graph Body) :=
  if oldValue = newValue then some g
  else match g.values.get oldValue with
    | none => some g
    | some x => do
      let g ← x.consumers.uses.foldlM (fun g (use : Usage) =>
        if g.nodes.contains use.1 then (g.replaceInput use.1 use.2 (some newValue)).map Prod.snd else some g) g
      let y ← g.values.get oldValue
      if y.isGraphOutput then
        g.setOutputs (g.outputs.map fun output => if output = oldValue then newValue else output)
      else some g

/-- Splice a node onto the edge out of a value: its input is the value, and its output, a
new value, replaces it in all of its consumers. -/
def insertOnEdge (v : ValueId) (node : Node Body) : Option (NodeId × Graph Body) := do
  let x ← g.values.get v
  let (newValue, g) := g.createValue x.dtype x.shape
  let g ← g.replaceAllUses v newValue
  g.insertNode { node with inputs := [some v], outputs := [newValue] }

end Graph

end OnnxGenai.Ir
