import OnnxGenai.Lib.FiniteMap
import OnnxGenai.Lib.LittleEndian

/-!
# Names of the communication layer

Ranks, groups, executions and the instances of collectives, with the order the source derives
for them, the element types and operators of reductions, the errors, and the hash by which
members and arguments are compared. Identifiers are natural numbers; where the source gives
them a width it shows only in the bytes that are hashed.
-/

namespace OnnxGenai.Comm

open Lib Lib.LittleEndian

/-- A rank of the world. -/
abbrev RankId := ℕ

/-- A communicator group; group `0` is the world. -/
abbrev GroupId := ℕ

/-- One execution of the plan. -/
abbrev ExecutionId := ℕ

/-- The identity of a buffer's memory. -/
abbrev PhysicalAllocationId := ℕ

/-- A transport operation in the lease registry. -/
abbrev OperationId := ℕ

/-- The largest value of a `u64`. -/
def u64Max : ℕ := 2 ^ 64 - 1

/-- One collective of a plan: the execution, and its place in the execution. -/
@[ext]
structure CommInstanceId where
  execution : ExecutionId
  sequence : ℕ
  deriving DecidableEq, Repr

namespace CommInstanceId

/-- Instances are ordered by execution, then by place. -/
instance : LinearOrder CommInstanceId :=
  LinearOrder.lift' (fun i => toLex (i.execution, i.sequence)) fun i j h =>
    CommInstanceId.ext (congrArg (fun p => (ofLex p).1) h) (congrArg (fun p => (ofLex p).2) h)

theorem lt_iff {i j : CommInstanceId} :
    i < j ↔ i.execution < j.execution ∨ i.execution = j.execution ∧ i.sequence < j.sequence :=
  Prod.Lex.toLex_lt_toLex

/-- An instance of a later execution comes later. -/
theorem lt_of_execution_lt {i j : CommInstanceId} (h : i.execution < j.execution) : i < j :=
  lt_iff.mpr (.inl h)

end CommInstanceId

/-- The family of a collective. -/
inductive CollectiveKind where
  | allReduce
  | allToAll
  | allToAllV
  | allGather
  | broadcast
  | reduceScatter
  deriving DecidableEq, Repr

/-- What the coordinator said of an execution. -/
inductive CollectiveDecision where
  | admitted
  | skipped
  deriving DecidableEq, Repr

/-- Element types of a transfer. -/
inductive DType where
  | f32
  | f16
  | bf16
  | i64
  | i32
  | u8
  deriving DecidableEq, Repr

/-- Bytes of one element. -/
def DType.size : DType → ℕ
  | .f32 | .i32 => 4
  | .f16 | .bf16 => 2
  | .i64 => 8
  | .u8 => 1

/-- Reduction operators. -/
inductive ReduceOp where
  | sum
  | product
  | min
  | max
  deriving DecidableEq, Repr

/-! ### Slots of a plan -/

/-- What a rank did with a slot. -/
inductive SlotDisposition where
  | submitted
  | skipped
  deriving DecidableEq, Repr

/-- One entry of a group's common log: the instance, what was done with it, and for a submitted
one the collective with the hash of its arguments. -/
structure Slot where
  inst : CommInstanceId
  disposition : SlotDisposition
  collective : Option CollectiveKind
  signature : BitVec 64
  deriving DecidableEq, Repr

/-! ### Errors -/

/-- The `Ordering` errors, one for each text. -/
inductive OrderingFault where
  /-- "group … was registered with different membership" -/
  | differentMembership (group : GroupId)
  /-- "execution … was skipped" -/
  | executionSkipped (execution : ExecutionId)
  /-- "execution … was not skipped" -/
  | executionNotSkipped (execution : ExecutionId)
  /-- "rank … submitted duplicate collective …" -/
  | duplicateCollective (rank : RankId) (inst : CommInstanceId)
  /-- "rank … completed non-active collective …" -/
  | nonActive (rank : RankId) (inst : CommInstanceId)
  /-- "execution decision prefix overflowed" -/
  | decisionsExhausted
  /-- "execution decision … is not next prefix value …" -/
  | notNextDecision (execution expected : ExecutionId)
  /-- "unknown group …" -/
  | unknownGroup (group : GroupId)
  /-- "rank … slot … diverged: expected …, got …" -/
  | diverged (rank : RankId) (cursor : ℕ) (expected got : Slot)
  /-- "collective … is not strictly after …" -/
  | notAfter (inst previous : CommInstanceId)
  /-- "completion named unknown group" -/
  | completionUnknownGroup
  /-- "collective rendezvous signature diverged" -/
  | signatureDiverged
  /-- "rank contributed to one collective twice" -/
  | contributedTwice
  deriving DecidableEq, Repr

/-- Why a registry action could not commit. -/
inductive OwnershipError where
  | freedAllocation (allocation : PhysicalAllocationId)
  | leaseConflict (allocation : PhysicalAllocationId) (holder : OperationId)
  | notEnabled (operation : OperationId) (action : String)
  | bufferStillLeased (allocation : PhysicalAllocationId) (holder : OperationId)
  | alreadyFreed (allocation : PhysicalAllocationId)
  | freedTrackingCapacity
  deriving DecidableEq, Repr

/-- Terminal transport failures. -/
inductive CommError where
  | invalidArgument (message : String)
  | ownership (error : OwnershipError)
  | unknownRank (rank : RankId)
  | aborted (cause : String)
  | extent (message : String)
  | ordering (fault : OrderingFault)
  deriving DecidableEq, Repr

/-! ### Hashes -/

/-- The 64-bit FNV-1a hash. -/
def fnv1a (bytes : List (BitVec 8)) : BitVec 64 :=
  bytes.foldl (fun hash byte => (hash ^^^ byte.setWidth 64) * 0x100000001b3#64) 0xcbf29ce484222325#64

/-- The hash of an ordered rank vector: its length in eight bytes, then each rank in four. -/
def membershipHash (members : List RankId) : BitVec 64 :=
  fnv1a (toLe 8 members.length ++ members.flatMap (toLe 4))

end OnnxGenai.Comm
