import OnnxGenai.Comm.Types
import OnnxGenai.Lib.Fallible

/-!
# The lease registry

Before an operation goes to the transport it leases its buffers from the registry: a buffer may
be read by many operations at a time, but one that is written belongs to a single operation.
An operation ends by success, or by an abort that is begun and then quiesced; only then are its
leases gone. A freed buffer is never leased again.

The counters of the registry and its trace are left out: no method reads them.
-/

namespace OnnxGenai.Comm

open Lib

/-- The buffers an operation wants to read and to write. -/
structure CommLeaseSet where
  reads : List PhysicalAllocationId
  writes : List PhysicalAllocationId
  deriving DecidableEq, Repr

/-- Whether an active operation is being aborted. -/
inductive OpState where
  | submitted
  | aborting
  deriving DecidableEq, Repr

/-- An active operation. -/
structure OperationEntry where
  reads : Finset PhysicalAllocationId
  writes : Finset PhysicalAllocationId
  state : OpState
  handleAttached : Bool
  deriving DecidableEq

/-- The operation has a lease on the buffer. -/
def OperationEntry.References (entry : OperationEntry) (buffer : PhysicalAllocationId) : Prop :=
  buffer ∈ entry.reads ∨ buffer ∈ entry.writes

instance (entry : OperationEntry) (buffer : PhysicalAllocationId) : Decidable (entry.References buffer) :=
  inferInstanceAs (Decidable (_ ∨ _))

/-- The state under the registry's lock. -/
structure RegistryState where
  operations : FiniteMap OperationId OperationEntry
  /-- Freed buffers from `retiredBefore` on. -/
  freed : Finset PhysicalAllocationId
  /-- Every buffer below is freed. -/
  retiredBefore : ℕ
  nextOperation : ℕ

/-- Methods of the registry. -/
abbrev RegistryM := EStateM OwnershipError RegistryState

namespace RegistryState

/-- A registry without operations. -/
def new : RegistryState := ⟨∅, ∅, 0, 1⟩

/-- How many freed buffers are remembered one by one. -/
def maxFreedTombstones : ℕ := 4096

/-- The buffer was freed. -/
def IsFreed (s : RegistryState) (buffer : PhysicalAllocationId) : Prop :=
  buffer < s.retiredBefore ∨ buffer ∈ s.freed

instance (s : RegistryState) (buffer : PhysicalAllocationId) : Decidable (s.IsFreed buffer) :=
  inferInstanceAs (Decidable (_ ∨ _))

/-- The active operations in the order of their numbers. -/
def holders (s : RegistryState) : List OperationId := s.operations.keys.toFinset.sort

/-- The first buffer on which leases would conflict with an active operation. -/
def conflictWith (other : OperationEntry) (reads writes : Finset PhysicalAllocationId) :
    Option PhysicalAllocationId :=
  (writes.sort.find? fun w => other.References w).or (reads.sort.find? fun r => r ∈ other.writes)

/-- The first active operation with a conflict. -/
def firstConflict (s : RegistryState) (reads writes : Finset PhysicalAllocationId) :
    Option (PhysicalAllocationId × OperationId) :=
  s.holders.findSome? fun holder =>
    (s.operations.lookup holder).bind fun other => (conflictWith other reads writes).map (·, holder)

/-- Leases can be given out: no buffer is freed, and none is in conflict. -/
def buffersAvailable (s : RegistryState) (reads writes : Finset PhysicalAllocationId) :
    Except OwnershipError PUnit :=
  match (reads.sort ++ writes.sort).find? fun buffer => s.IsFreed buffer with
  | some buffer => .error (.freedAllocation buffer)
  | none =>
    match s.firstConflict reads writes with
    | some (allocation, holder) => .error (.leaseConflict allocation holder)
    | none => .ok ⟨⟩

/-- The operation a lease set becomes. -/
def entryOf (leases : CommLeaseSet) : OperationEntry :=
  ⟨leases.reads.toFinset, leases.writes.toFinset, .submitted, true⟩

end RegistryState

namespace OwnershipRegistry

/-- A new operation takes its leases. -/
def submit (leases : CommLeaseSet) : RegistryM OperationId := do
  let s ← get
  liftResult (s.buffersAvailable leases.reads.toFinset leases.writes.toFinset)
  set { s with
    operations := s.operations.insert s.nextOperation (RegistryState.entryOf leases)
    nextOperation := s.nextOperation + 1 }
  pure s.nextOperation

/-- The user's handle is dropped; the leases stay. -/
def detach (operation : OperationId) : RegistryM PUnit := do
  let s ← get
  match s.operations.lookup operation with
  | some entry =>
    set { s with operations := s.operations.insert operation { entry with handleAttached := false } }
  | none => pure ⟨⟩

/-- A submitted operation begins to abort; its leases stay. -/
def beginAbort (operation : OperationId) : RegistryM PUnit := do
  let s ← get
  match s.operations.lookup operation with
  | some entry =>
    if entry.state = .submitted then
      set { s with operations := s.operations.insert operation { entry with state := .aborting } }
    else throw (.notEnabled operation "begin_abort")
  | none => throw (.notEnabled operation "begin_abort")

/-- An operation in the required state ends, and its leases are gone. -/
def retire (operation : OperationId) (required : OpState) (action : String) : RegistryM PUnit := do
  let s ← get
  match s.operations.lookup operation with
  | some entry =>
    if entry.state = required then set { s with operations := s.operations.erase operation }
    else throw (.notEnabled operation action)
  | none => throw (.notEnabled operation action)

/-- The operation succeeded. -/
def completeSuccess (operation : OperationId) : RegistryM PUnit :=
  retire operation .submitted "complete_success"

/-- The aborting operation is quiet. -/
def quiesceAbort (operation : OperationId) : RegistryM PUnit :=
  retire operation .aborting "quiesce_abort"

/-- The first active operation, in the order of their numbers, that satisfies `p`. -/
def holderOf (s : RegistryState) (p : OperationEntry → Bool) : Option OperationId :=
  s.holders.find? fun holder => (s.operations.lookup holder).any p

/-- The allocator frees a buffer nobody has leased. -/
def freeBuffer (buffer : PhysicalAllocationId) : RegistryM PUnit := do
  let s ← get
  require (¬ s.IsFreed buffer) (.alreadyFreed buffer)
  match holderOf s fun entry => entry.References buffer with
  | some holder => throw (.bufferStillLeased buffer holder)
  | none => do
    require (s.freed.card < RegistryState.maxFreedTombstones) .freedTrackingCapacity
    set { s with freed := insert buffer s.freed }

/-- The first leased buffer of an operation below the floor, reads before writes. -/
def leasedBelow (floor : ℕ) (entry : OperationEntry) : Option PhysicalAllocationId :=
  (entry.reads.sort ++ entry.writes.sort).find? fun buffer => buffer < floor

/-- The allocator seals an epoch: every buffer below the floor counts as freed. -/
def sealAllocatorEpoch (floor : ℕ) : RegistryM PUnit := do
  let s ← get
  match s.holders.findSome? fun holder =>
      ((s.operations.lookup holder).bind (leasedBelow floor)).map (·, holder) with
  | some (allocation, holder) => throw (.bufferStillLeased allocation holder)
  | none =>
    set { s with
      retiredBefore := max s.retiredBefore floor
      freed := s.freed.filter fun buffer => max s.retiredBefore floor ≤ buffer }

end OwnershipRegistry

/-! ### What the methods do -/

namespace RegistryState

open OwnershipRegistry

variable {s : RegistryState}

/-- Two operations whose leases do not get in each other's way: what one writes the other
neither reads nor writes. -/
def Compatible (a b : OperationEntry) : Prop :=
  (∀ w ∈ a.writes, ¬ b.References w) ∧ ∀ r ∈ a.reads, r ∉ b.writes

theorem Compatible.symm {a b : OperationEntry} (h : Compatible a b) : Compatible b a := by
  constructor
  · intro w hw hreferences
    rcases hreferences with hread | hwrite
    · exact h.2 w hread hw
    · exact h.1 w hwrite (.inr hw)
  · intro r hr hwrite
    exact h.1 r hwrite (.inl hr)

theorem conflictWith_eq_none {other : OperationEntry} {reads writes : Finset PhysicalAllocationId} :
    conflictWith other reads writes = none ↔
      (∀ w ∈ writes, ¬ other.References w) ∧ ∀ r ∈ reads, r ∉ other.writes := by
  simp [conflictWith, Option.or_eq_none_iff, List.find?_eq_none]

theorem mem_holders {operation : OperationId} :
    operation ∈ s.holders ↔ (s.operations.lookup operation).isSome := by
  simp [holders, AList.lookup_isSome, AList.mem_keys]

theorem firstConflict_eq_none {reads writes : Finset PhysicalAllocationId} :
    s.firstConflict reads writes = none ↔
      ∀ operation other, s.operations.lookup operation = some other → conflictWith other reads writes = none := by
  unfold firstConflict
  rw [List.findSome?_eq_none_iff]
  constructor
  · intro h operation other hother
    have := h operation (mem_holders.mpr (by rw [hother]; rfl))
    simpa [hother] using this
  · intro h operation hmem
    obtain ⟨other, hother⟩ := Option.isSome_iff_exists.mp (mem_holders.mp hmem)
    simp [hother, h operation other hother]

/-- Leases are given out exactly if nothing is freed and every active operation is compatible. -/
theorem buffersAvailable_ok {leases : CommLeaseSet}
    (h : s.buffersAvailable leases.reads.toFinset leases.writes.toFinset = .ok ⟨⟩) :
    ∀ operation other, s.operations.lookup operation = some other → Compatible (entryOf leases) other := by
  unfold buffersAvailable at h
  split at h
  case h_1 => cases h
  case h_2 =>
    split at h
    case h_1 => cases h
    case h_2 hnone =>
      intro operation other hother
      exact conflictWith_eq_none.mp (firstConflict_eq_none.mp hnone operation other hother)

/-- The registry after a lease. -/
def leased (s : RegistryState) (leases : CommLeaseSet) : RegistryState :=
  { s with
    operations := s.operations.insert s.nextOperation (entryOf leases)
    nextOperation := s.nextOperation + 1 }

/-- The registry with another entry for an operation. -/
def withEntry (s : RegistryState) (operation : OperationId) (entry : OperationEntry) : RegistryState :=
  { s with operations := s.operations.insert operation entry }

/-- The registry without an operation. -/
def without (s : RegistryState) (operation : OperationId) : RegistryState :=
  { s with operations := s.operations.erase operation }

theorem submit_ensures (s : RegistryState) (leases : CommLeaseSet) :
    Ensures (submit leases) s
      (fun operation s' => operation = s.nextOperation ∧ s' = s.leased leases ∧
        ∀ other entry, s.operations.lookup other = some entry → Compatible (entryOf leases) entry)
      fun _ s' => s' = s := by
  refine .bind (.get ?_)
  refine .bind (.liftResult (fun _ hok => ?_) fun _ _ => rfl)
  exact ⟨rfl, rfl, buffersAvailable_ok hok⟩

/-- A submitted operation can begin to abort. -/
theorem beginAbort_eq {operation : OperationId} {entry : OperationEntry}
    (h : s.operations.lookup operation = some entry) (hstate : entry.state = .submitted) :
    beginAbort operation s = .ok ⟨⟩ (s.withEntry operation { entry with state := .aborting }) := by
  simp only [beginAbort, bind, EStateM.bind, get, getThe, MonadStateOf.get, EStateM.get, h, hstate, if_true]
  rfl

/-- An operation in the required state can end. -/
theorem retire_eq {operation : OperationId} {entry : OperationEntry} {required : OpState} {action : String}
    (h : s.operations.lookup operation = some entry) (hstate : entry.state = required) :
    retire operation required action s = .ok ⟨⟩ (s.without operation) := by
  simp only [retire, bind, EStateM.bind, get, getThe, MonadStateOf.get, EStateM.get, h, hstate, if_true]
  rfl

/-- Freeing a buffer changes no operation. -/
theorem freeBuffer_operations (s : RegistryState) (buffer : PhysicalAllocationId) :
    (final (freeBuffer buffer) s).operations = s.operations ∧
      (final (freeBuffer buffer) s).nextOperation = s.nextOperation := by
  apply Ensures.final (P := fun s' : RegistryState => s'.operations = s.operations ∧ s'.nextOperation = s.nextOperation)
  refine Ensures.bind (Ensures.get ?_)
  refine .bind (.require (fun _ => ?_) fun _ => ⟨rfl, rfl⟩)
  cases holderOf s fun entry => entry.References buffer with
  | some holder => exact ⟨rfl, rfl⟩
  | none => exact .bind (.require (fun _ => ⟨rfl, rfl⟩) fun _ => ⟨rfl, rfl⟩)

/-- Sealing an epoch changes no operation. -/
theorem sealAllocatorEpoch_operations (s : RegistryState) (floor : ℕ) :
    (final (sealAllocatorEpoch floor) s).operations = s.operations ∧
      (final (sealAllocatorEpoch floor) s).nextOperation = s.nextOperation := by
  apply Ensures.final (P := fun s' : RegistryState => s'.operations = s.operations ∧ s'.nextOperation = s.nextOperation)
  refine Ensures.bind (Ensures.get ?_)
  split
  · exact ⟨rfl, rfl⟩
  · exact ⟨rfl, rfl⟩

end RegistryState

end OnnxGenai.Comm
