import OnnxGenai.Comm.Reduction
import OnnxGenai.Comm.Registry

/-!
# The collectives as functions

What a collective call does apart from meeting the other ranks: it checks its arguments and
takes from its buffers what it contributes (`prepare`); the last rank to arrive computes the
outputs of all ranks from the contributions (`compute`); each rank copies its output into its
own buffers (`deliver`). `none` is a panic.

`IsCollective` says what the result should be. It is what `deliver` writes if the outputs were
computed for the rank's own arguments (`isCollective_of_deliver`).
-/

namespace OnnxGenai.Comm

open Lib Lib.LittleEndian Lib.RowMajor List Option

/-- A buffer with the identity of its memory. -/
structure DeviceBuffer where
  id : PhysicalAllocationId
  data : Bytes
  deriving DecidableEq

/-- A rank's handle on a group. -/
structure Communicator where
  group : GroupId
  members : List RankId
  rank : RankId
  mem : rank ∈ members

namespace Communicator

/-- The place of a rank in the group. -/
def position (c : Communicator) (rank : RankId) : Option ℕ := c.members.findIdx? fun member => member = rank

/-- The place of the handle's own rank. -/
def selfPosition (c : Communicator) : ℕ := c.members.findIdx fun member => member = c.rank

/-- The number of ranks in the group. -/
def groupSize (c : Communicator) : ℕ := c.members.length

theorem selfPosition_lt (c : Communicator) : c.selfPosition < c.groupSize :=
  findIdx_lt_length_of_exists ⟨c.rank, c.mem, by simp⟩

theorem getElem?_selfPosition (c : Communicator) : c.members[c.selfPosition]? = some c.rank := by
  have hlt := c.selfPosition_lt
  rw [getElem?_eq_getElem hlt]
  exact congrArg some (of_decide_eq_true (findIdx_getElem (w := hlt)))

end Communicator

/-- What one rank contributes, or gets: one segment, or one for each rank. -/
abbrev RankSegments := List Bytes

/-- The arguments of a collective call. -/
inductive Request where
  | allReduce (tensor : DeviceBuffer) (len : ℕ) (dtype : DType) (op : ReduceOp)
  | allToAll (sendBufs recvBufs : List DeviceBuffer) (chunkSizes : List ℕ) (dtype : DType)
  | allGather (sendBuf recvBuf : DeviceBuffer) (count : ℕ) (dtype : DType)
  | broadcast (buffer : DeviceBuffer) (len : ℕ) (dtype : DType) (root : RankId)
  | reduceScatter (sendBuf recvBuf : DeviceBuffer) (count : ℕ) (dtype : DType) (op : ReduceOp)
  deriving DecidableEq

/-! ### Arguments -/

/-- The bytes of a transfer, within the buffer. -/
def checkedExtent (len : ℕ) (dtype : DType) (bufLen : ℕ) : Except CommError ℕ :=
  if u64Max < len * dtype.size then .error (.extent "len * dtype.size() overflow")
  else if bufLen < len * dtype.size then
    .error (.invalidArgument ("transfer extent " ++ toString (len * dtype.size) ++ " exceeds buffer length " ++
      toString bufLen))
  else .ok (len * dtype.size)

/-- A count for each rank of the group. -/
def checkedTotal (count groupSize : ℕ) (message : String) : Except CommError ℕ :=
  if u64Max < count * groupSize then .error (.extent message) else .ok (count * groupSize)

/-- One buffer and one size for each rank of the group. -/
def validatePeerVectors (c : Communicator) (lengths : List ℕ) : Except CommError PUnit :=
  if ∃ length ∈ lengths, length ≠ c.groupSize then
    .error (.invalidArgument ("per-peer vector length must equal group size " ++ toString c.groupSize))
  else .ok ⟨⟩

/-- The number of an element type in signatures. -/
def DType.code : DType → ℕ
  | .f32 => 1
  | .f16 => 2
  | .bf16 => 3
  | .i64 => 4
  | .i32 => 5
  | .u8 => 6

theorem DType.code_injective : Function.Injective DType.code := by
  intro a b h
  cases a <;> cases b <;> first | rfl | exact absurd h (by decide)

/-- The number of an operator in signatures. -/
def ReduceOp.code : ReduceOp → ℕ
  | .sum => 1
  | .product => 2
  | .min => 3
  | .max => 4

theorem ReduceOp.code_injective : Function.Injective ReduceOp.code := by
  intro a b h
  cases a <;> cases b <;> first | rfl | exact absurd h (by decide)

/-- The number of a collective in signatures. -/
def CollectiveKind.code : CollectiveKind → ℕ
  | .allReduce => 0
  | .allToAll => 1
  | .allToAllV => 2
  | .allGather => 3
  | .broadcast => 4
  | .reduceScatter => 5

namespace Request

/-- The family of a call. -/
def kind : Request → CollectiveKind
  | allReduce .. => .allReduce
  | allToAll .. => .allToAll
  | allGather .. => .allGather
  | broadcast .. => .broadcast
  | reduceScatter .. => .reduceScatter

/-- The arguments all ranks have to agree on. -/
def words : Request → List ℕ
  | allReduce _ len dtype op => [CollectiveKind.allReduce.code, len, dtype.code, op.code]
  | allToAll _ _ _ dtype => [CollectiveKind.allToAll.code, dtype.code]
  | allGather _ _ count dtype => [CollectiveKind.allGather.code, count, dtype.code]
  | broadcast _ len dtype root => [CollectiveKind.broadcast.code, len, dtype.code, root]
  | reduceScatter _ _ count dtype op => [CollectiveKind.reduceScatter.code, count, dtype.code, op.code]

/-- The hash of these arguments, each in eight bytes. -/
def signature (request : Request) : BitVec 64 := fnv1a (request.words.flatMap (toLe 8))

/-- The buffers a call reads and writes. -/
def leases (request : Request) (c : Communicator) : CommLeaseSet :=
  match request with
  | allReduce tensor _ _ _ => ⟨[tensor.id], [tensor.id]⟩
  | allToAll sendBufs recvBufs _ _ => ⟨sendBufs.map DeviceBuffer.id, recvBufs.map DeviceBuffer.id⟩
  | allGather sendBuf recvBuf _ _ => ⟨[sendBuf.id], [recvBuf.id]⟩
  | broadcast buffer _ _ root => if c.rank = root then ⟨[buffer.id], [buffer.id]⟩ else ⟨[], [buffer.id]⟩
  | reduceScatter sendBuf recvBuf _ _ _ => ⟨[sendBuf.id], [recvBuf.id]⟩

/-- The checks of a call, and what it contributes. -/
def prepare (request : Request) (c : Communicator) : Except CommError RankSegments :=
  match request with
  | allReduce tensor len dtype _ => do
    let bytes ← checkedExtent len dtype tensor.data.length
    pure [tensor.data.take bytes]
  | allToAll sendBufs recvBufs chunkSizes dtype => do
    validatePeerVectors c [sendBufs.length, recvBufs.length, chunkSizes.length]
    let contribution ← (sendBufs.zip chunkSizes).mapM fun (buffer, count) => do
      let bytes ← checkedExtent count dtype buffer.data.length
      pure (buffer.data.take bytes)
    let _ ← (recvBufs.zip chunkSizes).mapM fun (buffer, count) =>
      checkedExtent count dtype buffer.data.length
    pure contribution
  | allGather sendBuf recvBuf count dtype => do
    let sendBytes ← checkedExtent count dtype sendBuf.data.length
    let totalCount ← checkedTotal count c.groupSize "all_gather total count overflow"
    let _ ← checkedExtent totalCount dtype recvBuf.data.length
    pure [sendBuf.data.take sendBytes]
  | broadcast buffer len dtype root =>
    match c.position root with
    | none => .error (.unknownRank root)
    | some _ => do
      let bytes ← checkedExtent len dtype buffer.data.length
      pure [if c.rank = root then buffer.data.take bytes else []]
  | reduceScatter sendBuf recvBuf count dtype _ => do
    let totalCount ← checkedTotal count c.groupSize "reduce_scatter total count overflow"
    let sendBytes ← checkedExtent totalCount dtype sendBuf.data.length
    let _ ← checkedExtent count dtype recvBuf.data.length
    pure [sendBuf.data.take sendBytes]

/-! ### Outputs -/

/-- The part of a buffer from `start` on; a panic if the buffer is too short. -/
def slice (bs : Bytes) (start size : ℕ) : Option Bytes :=
  if start + size ≤ bs.length then some ((bs.drop start).take size) else none

/-- The outputs of all ranks, from the contributions in rank order. -/
def compute (kernels : FloatKernels) (request : Request) (c : Communicator) (inputs : List RankSegments) :
    Option (Except CommError (List RankSegments)) :=
  match request with
  | allReduce _ _ dtype op => do
    let rankInputs ← inputs.mapM fun segments => segments[0]?
    match reduceBuffers kernels rankInputs dtype op with
    | .error error => some (.error error)
    | .ok reduced => some (.ok (inputs.map fun _ => [reduced]))
  | allToAll .. => do
    let outputs ← (List.range inputs.length).mapM fun destination =>
      inputs.mapM fun source => source[destination]?
    some (.ok outputs)
  | allGather .. => do
    let rankInputs ← inputs.mapM fun segments => segments[0]?
    some (.ok (inputs.map fun _ => [rankInputs.flatten]))
  | broadcast _ _ _ root => do
    let rootPos ← c.position root
    let segments ← inputs[rootPos]?
    let rootBytes ← segments[0]?
    some (.ok (inputs.map fun _ => [rootBytes]))
  | reduceScatter _ _ count dtype op => do
    let rankInputs ← inputs.mapM fun segments => segments[0]?
    match reduceBuffers kernels rankInputs dtype op with
    | .error error => some (.error error)
    | .ok reduced => do
      let outputs ← (List.range inputs.length).mapM fun rank =>
        (slice reduced (rank * (count * dtype.size)) (count * dtype.size)).map ([·])
      some (.ok outputs)

/-- Overwrite the first `size` bytes; a panic if the source has another length. -/
def copyFromSlice (data : Bytes) (size : ℕ) (source : Bytes) : Option Bytes :=
  if source.length = size then some (source ++ data.drop size) else none

/-- The copies of `all_to_all`, up to the first chunk of a wrong size. -/
def deliverChunks (dtype : DType) : List DeviceBuffer → List Bytes → List ℕ → Except CommError (List Bytes)
  | buffer :: buffers, bytes :: output, count :: counts =>
    if bytes.length = count * dtype.size then do
      let rest ← deliverChunks dtype buffers output counts
      pure ((bytes ++ buffer.data.drop (count * dtype.size)) :: rest)
    else .error (.invalidArgument "all_to_all remote chunk size mismatch")
  | _, _, _ => .ok []

/-- The contents of the written buffers. -/
def deliver (request : Request) (c : Communicator) (output : RankSegments) :
    Option (Except CommError (List Bytes)) :=
  match request with
  | allReduce tensor len dtype _ => do
    let bytes ← output[0]?
    let data ← copyFromSlice tensor.data (len * dtype.size) bytes
    some (.ok [data])
  | allToAll _ recvBufs chunkSizes dtype => some (deliverChunks dtype recvBufs output chunkSizes)
  | allGather _ recvBuf count dtype => do
    let bytes ← output[0]?
    let data ← copyFromSlice recvBuf.data (count * c.groupSize * dtype.size) bytes
    some (.ok [data])
  | broadcast buffer len dtype _ => do
    let bytes ← output[0]?
    let data ← copyFromSlice buffer.data (len * dtype.size) bytes
    some (.ok [data])
  | reduceScatter _ recvBuf count dtype _ => do
    let bytes ← output[0]?
    let data ← copyFromSlice recvBuf.data (count * dtype.size) bytes
    some (.ok [data])

/-! ### What a collective should give -/

/-- The segments of ranks that contribute one each. -/
def Singles (inputs : List RankSegments) (segments : List Bytes) : Prop := inputs = segments.map ([·])

/-- The reduction of the ranks' single segments, for integers. -/
def Reduces (dtype : DType) (op : ReduceOp) (inputs : List RankSegments) (output : Bytes) : Prop :=
  dtype.IsInteger → ∃ first rest, Singles inputs (first :: rest) ∧ IsReduction dtype op first rest output

/-- The buffers a rank's call should leave, given what the ranks contributed, in rank order. -/
def IsCollective (request : Request) (c : Communicator) (inputs : List RankSegments) (buffers : List Bytes) : Prop :=
  match request with
  | allReduce tensor len dtype op =>
    ∃ output, Reduces dtype op inputs output ∧ buffers = [output ++ tensor.data.drop (len * dtype.size)]
  | allToAll _ recvBufs _ _ =>
    ∃ segments : List Bytes, inputs.map (fun source => source[c.selfPosition]?) = segments.map some ∧
      buffers = List.zipWith (fun segment buffer => segment ++ buffer.data.drop segment.length) segments recvBufs
  | allGather _ recvBuf _ _ =>
    ∃ segments, Singles inputs segments ∧ buffers = [segments.flatten ++ recvBuf.data.drop segments.flatten.length]
  | broadcast buffer _ _ root =>
    ∃ rootPos segment, c.position root = some rootPos ∧ inputs[rootPos]? = some [segment] ∧
      buffers = [segment ++ buffer.data.drop segment.length]
  | reduceScatter _ recvBuf count dtype op =>
    ∃ output, Reduces dtype op inputs output ∧
      buffers = [chunk output (count * dtype.size) c.selfPosition ++ recvBuf.data.drop (count * dtype.size)]

/-! ### Shapes -/

/-- The number of segments a contribution has. -/
def segmentCount (kind : CollectiveKind) (groupSize : ℕ) : ℕ :=
  match kind with
  | .allToAll => groupSize
  | _ => 1

variable {dtype : DType} {c : Communicator} {request : Request} {contribution : RankSegments} {op : ReduceOp}
  {kernels : FloatKernels} {inputs : List RankSegments} {segments : List Bytes} {k : ℕ}

theorem checkedExtent_ok {len bufLen bytes : ℕ} (h : checkedExtent len dtype bufLen = .ok bytes) :
    bytes = len * dtype.size ∧ bytes ≤ bufLen := by
  unfold checkedExtent at h
  split at h
  · cases h
  · split at h
    · cases h
    · cases h
      exact ⟨rfl, by omega⟩

theorem checkedTotal_ok {count groupSize total : ℕ} {message : String}
    (h : checkedTotal count groupSize message = .ok total) : total = count * groupSize := by
  unfold checkedTotal at h
  split at h
  · cases h
  · exact (Except.ok.inj h).symm

theorem validatePeerVectors_ok {lengths : List ℕ} {u : PUnit} (h : validatePeerVectors c lengths = .ok u) :
    ∀ length ∈ lengths, length = c.groupSize := by
  unfold validatePeerVectors at h
  split at h
  · cases h
  case isFalse hall =>
    push Not at hall
    exact hall

/-- What a call contributes has the segments its family needs. -/
theorem length_of_prepare (h : request.prepare c = .ok contribution) :
    contribution.length = segmentCount request.kind c.groupSize := by
  cases request with
  | allReduce tensor len dtype op =>
    obtain ⟨bytes, -, h⟩ := bind_eq_ok.mp h
    cases h
    rfl
  | allToAll sendBufs recvBufs chunkSizes dtype =>
    obtain ⟨_, hvalid, h⟩ := bind_eq_ok.mp h
    obtain ⟨segments, hsegments, h⟩ := bind_eq_ok.mp h
    obtain ⟨_, -, h⟩ := bind_eq_ok.mp h
    cases h
    have hlengths := validatePeerVectors_ok hvalid
    have hsend := hlengths sendBufs.length (by simp)
    have hsizes := hlengths chunkSizes.length (by simp)
    rw [← (mapM_eq_ok.mp hsegments).length_eq, length_zip, hsend, hsizes, min_self]
    rfl
  | allGather sendBuf recvBuf count dtype =>
    obtain ⟨sendBytes, -, h⟩ := bind_eq_ok.mp h
    obtain ⟨total, -, h⟩ := bind_eq_ok.mp h
    obtain ⟨_, -, h⟩ := bind_eq_ok.mp h
    cases h
    rfl
  | broadcast buffer len dtype root =>
    simp only [prepare] at h
    split at h
    · cases h
    · obtain ⟨bytes, -, h⟩ := bind_eq_ok.mp h
      cases h
      rfl
  | reduceScatter sendBuf recvBuf count dtype op =>
    obtain ⟨total, -, h⟩ := bind_eq_ok.mp h
    obtain ⟨sendBytes, -, h⟩ := bind_eq_ok.mp h
    obtain ⟨_, -, h⟩ := bind_eq_ok.mp h
    cases h
    rfl

/-- The single segment a call to `reduce_scatter` contributes holds a part for each rank. -/
theorem reduceScatter_contribution {sendBuf recvBuf : DeviceBuffer} {count : ℕ}
    (h : (reduceScatter sendBuf recvBuf count dtype op).prepare c = .ok contribution) :
    ∃ segment, contribution = [segment] ∧ segment.length = c.groupSize * (count * dtype.size) := by
  obtain ⟨total, htotal, h⟩ := bind_eq_ok.mp h
  obtain ⟨sendBytes, hsend, h⟩ := bind_eq_ok.mp h
  obtain ⟨_, -, h⟩ := bind_eq_ok.mp h
  cases h
  refine ⟨_, rfl, ?_⟩
  obtain ⟨rfl, hle⟩ := checkedExtent_ok hsend
  rw [length_take, min_eq_left hle, checkedTotal_ok htotal]
  ring

/-! ### Arguments that agree -/

/-- Ranks of one group that agree on the arguments compute the same outputs. -/
theorem compute_congr {other : Request} {d : Communicator} (hmembers : c.members = d.members)
    (hwords : request.words = other.words) (inputs : List RankSegments) :
    request.compute kernels c inputs = other.compute kernels d inputs := by
  cases request <;> cases other <;>
    simp only [words, CollectiveKind.code, cons.injEq, and_true, true_and, OfNat.ofNat_ne_zero,
      OfNat.zero_ne_ofNat, OfNat.one_ne_ofNat, OfNat.ofNat_ne_one, zero_ne_one, one_ne_zero, reduceCtorEq,
      Nat.reduceEqDiff, false_and, and_false] at hwords
  case allReduce.allReduce =>
    obtain ⟨-, hdtype, hop⟩ := hwords
    simp only [compute, DType.code_injective hdtype, ReduceOp.code_injective hop]
  case allToAll.allToAll => rfl
  case allGather.allGather => rfl
  case broadcast.broadcast =>
    obtain ⟨-, -, hroot⟩ := hwords
    simp only [compute, Communicator.position, hmembers, hroot]
  case reduceScatter.reduceScatter =>
    obtain ⟨hcount, hdtype, hop⟩ := hwords
    simp only [compute, hcount, DType.code_injective hdtype, ReduceOp.code_injective hop]

/-! ### The outputs are the collective -/

/-- Contributions of one segment each. -/
theorem exists_singles (hone : ∀ input ∈ inputs, input.length = 1) : ∃ segments, Singles inputs segments := by
  induction inputs with
  | nil => exact ⟨[], rfl⟩
  | cons input inputs ih =>
    obtain ⟨only, rfl⟩ := length_eq_one_iff.mp (hone input (by simp))
    obtain ⟨segments, rfl⟩ := ih fun other hother => hone other (by simp [hother])
    exact ⟨only :: segments, rfl⟩

theorem Singles.firsts (h : Singles inputs segments) :
    inputs.mapM (fun segments => segments[0]?) = some segments := by
  rw [h]
  clear h
  induction segments with
  | nil => rfl
  | cons segment segments ih => simp [mapM_cons, ih]

/-- A successful reduction of single segments, in the words of the specification. -/
theorem reduces_of_reduceBuffers {output : Bytes} (hsingles : Singles inputs segments)
    (h : reduceBuffers kernels segments dtype op = .ok output) : Reduces dtype op inputs output := by
  intro hinteger
  obtain ⟨first, rest, rfl, -, -⟩ := reduceBuffers_aligned h
  exact ⟨first, rest, hsingles, reduceBuffers_exact hinteger h⟩

/-- A rank that gets what all ranks get. -/
theorem eq_of_map_const {segments output : RankSegments} (h : (inputs.map fun _ => segments)[k]? = some output) :
    segments = output := by
  rw [getElem?_map] at h
  obtain ⟨_, -, h⟩ := map_eq_some_iff.mp h
  exact h

/-- A single buffer that was written. -/
theorem written_of_copy {data source : Bytes} {size : ℕ} {buffers : List Bytes}
    (h : ((copyFromSlice data size source).bind fun result => some (.ok [result])) =
      some (Except.ok (ε := CommError) buffers)) :
    source.length = size ∧ buffers = [source ++ data.drop size] := by
  unfold copyFromSlice at h
  split at h
  case isTrue hlen =>
    cases h
    exact ⟨hlen, rfl⟩
  case isFalse => cases h

/-- The chunks of `all_to_all` go to the buffers one by one. -/
theorem deliverChunks_eq : ∀ {recvBufs : List DeviceBuffer} {output : List Bytes} {counts : List ℕ}
    {buffers : List Bytes}, recvBufs.length = counts.length → output.length = counts.length →
      deliverChunks dtype recvBufs output counts = .ok buffers →
        buffers = List.zipWith (fun segment buffer => segment ++ buffer.data.drop segment.length) output recvBufs
  | [], output, counts, buffers, _, _, h => by
    cases h
    cases output <;> rfl
  | _ :: _, [], [], _, hlen, _, _ => absurd hlen (by simp)
  | _ :: _, _ :: _, [], _, hlen, _, _ => absurd hlen (by simp)
  | _ :: _, [], _ :: _, _, _, hlen, _ => absurd hlen (by simp)
  | buffer :: recvBufs, bytes :: output, count :: counts, buffers, hrecv, houtput, h => by
    simp only [deliverChunks] at h
    split at h
    case isFalse => cases h
    case isTrue hsize =>
      obtain ⟨rest, hrest, h⟩ := bind_eq_ok.mp h
      cases h
      rw [zipWith_cons_cons, hsize, deliverChunks_eq (by simpa using hrecv) (by simpa using houtput) hrest]

/-- The list of one position across lists is found by a map that may fail. -/
theorem mapM_getElem?_eq (h : inputs.mapM (fun source => source[k]?) = some segments) :
    inputs.map (fun source => source[k]?) = segments.map some := by
  have hall := mapM_eq_some h
  clear h
  induction hall with
  | nil => rfl
  | cons hfirst _ ih => rw [map_cons, map_cons, hfirst, ih]

/-- An item of the result of a map over positions that may fail. -/
theorem getElem?_of_mapM_range {α : Type} {f : ℕ → Option α} {n : ℕ} {ys : List α} {y : α}
    (h : (List.range n).mapM f = some ys) (hy : ys[k]? = some y) : f k = some y := by
  have hall := mapM_eq_some h
  obtain ⟨hk, rfl⟩ := List.getElem?_eq_some_iff.mp hy
  have hlen := hall.length_eq
  have hk' : k < (range n).length := by rw [hlen]; exact hk
  have hget := List.Forall₂.get hall hk' hk
  simpa using hget

/-- **The buffers are right.** If the outputs were computed with a rank's own arguments, what it
writes into its buffers is the collective of the contributions. -/
theorem isCollective_of_deliver {outputs : List RankSegments} {output : RankSegments} {buffers : List Bytes}
    (hprepare : request.prepare c = .ok contribution)
    (hshape : ∀ input ∈ inputs, input.length = segmentCount request.kind c.groupSize)
    (hsize : inputs.length = c.groupSize) (hcompute : request.compute kernels c inputs = some (.ok outputs))
    (houtput : outputs[c.selfPosition]? = some output) (hdeliver : request.deliver c output = some (.ok buffers)) :
    request.IsCollective c inputs buffers := by
  cases request with
  | allReduce tensor len dtype op =>
    obtain ⟨segments, hsingles⟩ := exists_singles hshape
    simp only [compute, hsingles.firsts, bind_eq_bind, bind_some] at hcompute
    cases hreduce : reduceBuffers kernels segments dtype op with
    | error e => simp [hreduce] at hcompute
    | ok reduced =>
      obtain rfl : inputs.map (fun _ => [reduced]) = outputs := by simpa [hreduce] using hcompute
      obtain rfl := eq_of_map_const houtput
      obtain ⟨-, rfl⟩ := written_of_copy hdeliver
      exact ⟨reduced, reduces_of_reduceBuffers hsingles hreduce, rfl⟩
  | allToAll sendBufs recvBufs chunkSizes dtype =>
    obtain ⟨outputs', houtputs, hcompute⟩ := bind_eq_some_iff.mp hcompute
    obtain rfl : outputs' = outputs := by simpa using hcompute
    have hsegments := getElem?_of_mapM_range houtputs houtput
    obtain ⟨_, hvalid, -⟩ := bind_eq_ok.mp hprepare
    have hlengths := validatePeerVectors_ok hvalid
    have hrecv := hlengths recvBufs.length (by simp)
    have hsizes := hlengths chunkSizes.length (by simp)
    have hlength : output.length = inputs.length := (mapM_eq_some hsegments).length_eq.symm
    refine ⟨output, mapM_getElem?_eq hsegments, ?_⟩
    exact deliverChunks_eq (hrecv.trans hsizes.symm) (by rw [hlength, hsize, hsizes]) (some.inj hdeliver)
  | allGather sendBuf recvBuf count dtype =>
    obtain ⟨segments, hsingles⟩ := exists_singles hshape
    simp only [compute, hsingles.firsts, bind_eq_bind, bind_some] at hcompute
    obtain rfl : inputs.map (fun _ => [segments.flatten]) = outputs := by simpa using hcompute
    obtain rfl := eq_of_map_const houtput
    obtain ⟨hlen, rfl⟩ := written_of_copy hdeliver
    exact ⟨segments, hsingles, by rw [← hlen]⟩
  | broadcast buffer len dtype root =>
    obtain ⟨rootPos, hroot, hcompute⟩ := bind_eq_some_iff.mp hcompute
    obtain ⟨segments, hsegments, hcompute⟩ := bind_eq_some_iff.mp hcompute
    obtain ⟨segment, hsegment, hcompute⟩ := bind_eq_some_iff.mp hcompute
    obtain rfl : inputs.map (fun _ => [segment]) = outputs := by simpa using hcompute
    obtain rfl := eq_of_map_const houtput
    obtain ⟨hlen, rfl⟩ := written_of_copy hdeliver
    have honly : segments = [segment] := by
      obtain ⟨only, rfl⟩ := length_eq_one_iff.mp (hshape segments (mem_of_getElem? hsegments))
      simpa using hsegment
    exact ⟨rootPos, segment, hroot, by rw [hsegments, honly], by rw [← hlen]⟩
  | reduceScatter sendBuf recvBuf count dtype op =>
    obtain ⟨segments, hsingles⟩ := exists_singles hshape
    simp only [compute, hsingles.firsts, bind_eq_bind, bind_some] at hcompute
    cases hreduce : reduceBuffers kernels segments dtype op with
    | error e => simp [hreduce] at hcompute
    | ok reduced =>
      simp only [hreduce] at hcompute
      obtain ⟨outputs', houtputs, hcompute⟩ := bind_eq_some_iff.mp hcompute
      obtain rfl : outputs' = outputs := by simpa using hcompute
      obtain ⟨part, hpart, rfl⟩ := map_eq_some_iff.mp (getElem?_of_mapM_range houtputs houtput)
      have hchunk : part = chunk reduced (count * dtype.size) c.selfPosition := by
        unfold slice at hpart
        split at hpart
        · exact (some.inj hpart).symm
        · cases hpart
      obtain ⟨-, rfl⟩ := written_of_copy hdeliver
      exact ⟨reduced, reduces_of_reduceBuffers hsingles hreduce, by rw [hchunk]⟩

/-! ### No rank panics while it computes -/

theorem mapM_total {α β : Type} {f : α → Option β} : ∀ {l : List α}, (∀ a ∈ l, ∃ b, f a = some b) →
    ∃ ys, l.mapM f = some ys
  | [], _ => ⟨[], rfl⟩
  | a :: l, h => by
    obtain ⟨b, hb⟩ := h a (by simp)
    obtain ⟨bs, hbs⟩ := mapM_total fun x hx => h x (mem_cons_of_mem a hx)
    exact ⟨b :: bs, by simp [mapM_cons, hb, hbs]⟩

/-- A reduction to be scattered has a part for each rank. -/
theorem length_reduced {reduced segment : Bytes} (hsingles : Singles inputs segments)
    (hown : inputs[k]? = some [segment]) (h : reduceBuffers kernels segments dtype op = .ok reduced) :
    reduced.length = segment.length := by
  obtain ⟨first, rest, rfl, hrest, -⟩ := reduceBuffers_aligned h
  rw [reduceBuffers_length h]
  have hmem : segment ∈ first :: rest := by
    rw [hsingles, getElem?_map] at hown
    obtain ⟨_, hget, heq⟩ := map_eq_some_iff.mp hown
    obtain rfl := singleton_inj.mp heq
    exact mem_of_getElem? hget
  rcases mem_cons.mp hmem with rfl | hmem
  · rfl
  · exact (hrest segment hmem).symm

theorem answers {outputs : List RankSegments} (hlen : outputs.length = c.groupSize) :
    ∃ result, some (Except.ok (ε := CommError) outputs) = some result ∧
      ∀ outputs, result = .ok outputs → outputs.length = c.groupSize := by
  refine ⟨_, rfl, fun outputs h => ?_⟩
  cases h
  exact hlen

/-- **Computing does not panic**, and gives every rank an output or all of them an error. -/
theorem compute_total (hprepare : request.prepare c = .ok contribution)
    (hshape : ∀ input ∈ inputs, input.length = segmentCount request.kind c.groupSize)
    (hsize : inputs.length = c.groupSize) (hown : inputs[c.selfPosition]? = some contribution) :
    ∃ result, request.compute kernels c inputs = some result ∧
      ∀ outputs, result = .ok outputs → outputs.length = c.groupSize := by
  cases request with
  | allReduce tensor len dtype op =>
    obtain ⟨segments, hsingles⟩ := exists_singles hshape
    simp only [compute, hsingles.firsts, bind_eq_bind, bind_some]
    cases reduceBuffers kernels segments dtype op with
    | error e => exact ⟨_, rfl, fun _ h => absurd h (by simp)⟩
    | ok reduced => exact answers (by simpa using hsize)
  | allToAll sendBufs recvBufs chunkSizes dtype =>
    obtain ⟨outputs, houtputs⟩ : ∃ outputs, ((range inputs.length).mapM fun destination =>
        inputs.mapM fun source => source[destination]?) = some outputs := by
      apply mapM_total
      intro destination hdestination
      apply mapM_total
      intro source hsource
      have hlt : destination < source.length := by
        rw [hshape source hsource]
        simpa [hsize, segmentCount, kind] using hdestination
      exact ⟨source[destination], getElem?_eq_getElem hlt⟩
    simp only [compute, houtputs, bind_eq_bind, bind_some]
    exact answers (by rw [← (mapM_eq_some houtputs).length_eq, length_range, hsize])
  | allGather sendBuf recvBuf count dtype =>
    obtain ⟨segments, hsingles⟩ := exists_singles hshape
    simp only [compute, hsingles.firsts, bind_eq_bind, bind_some]
    exact answers (by simpa using hsize)
  | broadcast buffer len dtype root =>
    obtain ⟨rootPos, hroot⟩ : ∃ rootPos, c.position root = some rootPos := by
      simp only [prepare] at hprepare
      split at hprepare
      · cases hprepare
      case h_2 rootPos hroot => exact ⟨rootPos, hroot⟩
    have hlt : rootPos < inputs.length := by
      rw [hsize]
      exact (findIdx?_eq_some_iff_getElem.mp hroot).1
    obtain ⟨segment, hsegment⟩ := length_eq_one_iff.mp (hshape inputs[rootPos] (getElem_mem hlt))
    simp only [compute, hroot, bind_eq_bind, bind_some, getElem?_eq_getElem hlt, hsegment]
    exact answers (by simpa using hsize)
  | reduceScatter sendBuf recvBuf count dtype op =>
    obtain ⟨segments, hsingles⟩ := exists_singles hshape
    simp only [compute, hsingles.firsts, bind_eq_bind, bind_some]
    cases hreduce : reduceBuffers kernels segments dtype op with
    | error e => exact ⟨_, rfl, fun _ h => absurd h (by simp)⟩
    | ok reduced =>
      obtain ⟨segment, rfl, hlength⟩ := reduceScatter_contribution hprepare
      have hreduced := length_reduced hsingles hown hreduce
      obtain ⟨outputs, houtputs⟩ : ∃ outputs, ((range inputs.length).mapM fun rank =>
          (slice reduced (rank * (count * dtype.size)) (count * dtype.size)).map ([·])) = some outputs := by
        apply mapM_total
        intro rank hrank
        have hrank' : rank + 1 ≤ c.groupSize := by simpa [hsize] using hrank
        have hle : rank * (count * dtype.size) + count * dtype.size ≤ reduced.length := by
          rw [hreduced, hlength]
          calc rank * (count * dtype.size) + count * dtype.size = (rank + 1) * (count * dtype.size) := by ring
            _ ≤ c.groupSize * (count * dtype.size) := Nat.mul_le_mul_right _ hrank'
        exact ⟨[_], by rw [slice, if_pos hle]; rfl⟩
      simp only [houtputs, bind_some]
      exact answers (by rw [← (mapM_eq_some houtputs).length_eq, length_range, hsize])

end Request

end OnnxGenai.Comm
