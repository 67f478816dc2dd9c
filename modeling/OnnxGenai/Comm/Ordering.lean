import OnnxGenai.Comm.Types
import OnnxGenai.Lib.Fallible
import OnnxGenai.Lib.SharedLog

/-!
# The collective sequencer

All ranks of a group have to issue their collectives in one order. The sequencer keeps, for
each group, the common log of slots and each rank's cursor in it (`SharedLog`), the decisions
of the coordinator, which are global and published in the order of the executions, and the set
of slots that are submitted and not yet completed. Each public method takes the lock once, so
a method is one atomic step of the state; it is a computation that may fail, and what it did
before a failure stays done.

The protocol events go to a sink; here the sink is the list `trace` in the state. The sequence
numbers of the trace sources are left out.
-/

namespace OnnxGenai.Comm

open Lib

/-- A slot a rank has submitted and not completed. -/
@[ext]
structure ActiveSlot where
  group : GroupId
  rank : RankId
  inst : CommInstanceId
  deriving DecidableEq, Repr

/-- The order of the active set: group, rank, instance. -/
instance : LinearOrder ActiveSlot :=
  LinearOrder.lift' (fun a => toLex (a.group, toLex (a.rank, a.inst))) fun a b h =>
    ActiveSlot.ext (congrArg (fun p => (ofLex p).1) h) (congrArg (fun p => (ofLex (ofLex p).2).1) h)
      (congrArg (fun p => (ofLex (ofLex p).2).2) h)

instance transActiveSlot : IsTrans ActiveSlot (· ≤ ·) := inferInstance

instance antisymmActiveSlot : Std.Antisymm fun a b : ActiveSlot => a ≤ b := inferInstance

/-- A registered group. -/
structure GroupState where
  members : List RankId
  membershipHash : BitVec 64
  /-- The canonical slots and the cursors. -/
  log : SharedLog RankId Slot

/-- The linearization events of the sequencer. -/
inductive CollectiveOrderingEvent where
  | decide (execution : ExecutionId) (decision : CollectiveDecision)
  | submit (group : GroupId) (members : List RankId) (membershipHash : BitVec 64) (rank : RankId)
      (inst : CommInstanceId) (collective : CollectiveKind) (signature : BitVec 64)
  | observeSkip (group : GroupId) (members : List RankId) (membershipHash : BitVec 64) (rank : RankId)
      (inst : CommInstanceId)
  | completeLocal (group : GroupId) (members : List RankId) (membershipHash : BitVec 64) (rank : RankId)
      (inst : CommInstanceId) (success : Bool)
  | abort
  deriving DecidableEq, Repr

/-- The state under the sequencer's lock, and the events recorded so far. -/
structure SequencerState where
  decisions : FiniteMap ExecutionId CollectiveDecision
  decidedPrefix : ℕ
  groups : FiniteMap GroupId GroupState
  active : Finset ActiveSlot
  aborted : Bool
  trace : List CollectiveOrderingEvent

/-- Methods of the sequencer. -/
abbrev SequencerM := EStateM CommError SequencerState

/-- The slot a submit stands for. -/
def submittedSlot (inst : CommInstanceId) (collective : CollectiveKind) (signature : BitVec 64) : Slot :=
  ⟨inst, .submitted, some collective, signature⟩

/-- The slot a skip stands for. -/
def skippedSlot (inst : CommInstanceId) : Slot := ⟨inst, .skipped, none, 0⟩

namespace CollectiveSequencer

/-- A sequencer without groups. -/
def new : SequencerState := ⟨∅, 0, ∅, ∅, false, []⟩

/-- Record an event. -/
def emit (event : CollectiveOrderingEvent) : SequencerM PUnit :=
  modify fun s => { s with trace := s.trace ++ [event] }

/-- Members and hash of a registered group. -/
def groupIdentity (group : GroupId) : SequencerM (List RankId × BitVec 64) := do
  let s ← get
  let g ← getOr (s.groups.lookup group) (.ordering .completionUnknownGroup)
  pure (g.members, g.membershipHash)

/-- Register a group; the same membership may be registered again. -/
def registerGroup (group : GroupId) (members : List RankId) : SequencerM (BitVec 64) := do
  require (members ≠ []) (.invalidArgument "communicator group must not be empty")
  require (members.IsChain (· < ·)) (.invalidArgument "communicator group ranks must be sorted and unique")
  let s ← get
  match s.groups.lookup group with
  | some existing =>
    if existing.members = members ∧ existing.membershipHash = membershipHash members then
      pure (membershipHash members)
    else
      throw (.ordering (.differentMembership group))
  | none => do
    set { s with groups := s.groups.insert group ⟨members, membershipHash members, .empty members⟩ }
    pure (membershipHash members)

/-- Publish a decision: only the next execution can be decided. -/
def decideLocked (execution : ExecutionId) (decision : CollectiveDecision) : SequencerM PUnit := do
  let s ← get
  require (s.aborted = false) (.aborted "collective sequencer aborted")
  require (s.decidedPrefix + 1 ≤ u64Max) (.ordering .decisionsExhausted)
  require (execution = s.decidedPrefix + 1) (.ordering (.notNextDecision execution (s.decidedPrefix + 1)))
  set { s with decisions := s.decisions.insert execution decision, decidedPrefix := s.decidedPrefix + 1 }
  emit (.decide execution decision)

/-- The coordinator's decision. -/
def decide (execution : ExecutionId) (decision : CollectiveDecision) : SequencerM PUnit :=
  decideLocked execution decision

/-- The error for an entry the group's log refuses. -/
def refusal (rank : RankId) (slot : Slot) : SharedLog.Refusal Slot → CommError
  | .unknownReader => .unknownRank rank
  | .diverged cursor expected => .ordering (.diverged rank cursor expected slot)
  | .notAfter previous => .ordering (.notAfter slot.inst previous.inst)

/-- A rank takes its next slot in the group's common log. -/
def advanceGroupLocked (group : GroupId) (rank : RankId) (slot : Slot) :
    SequencerM (List RankId × BitVec 64) := do
  let s ← get
  let g ← getOr (s.groups.lookup group) (.ordering (.unknownGroup group))
  let log ← liftResult ((g.log.advance Slot.inst rank slot).mapError (refusal rank slot))
  set { s with groups := s.groups.insert group { g with log } }
  pure (g.members, g.membershipHash)

/-- An execution nobody decided yet is admitted by its first submit. -/
def admitUndecided (execution : ExecutionId) : SequencerM PUnit := do
  let s ← get
  if (s.decisions.lookup execution).isSome then pure ⟨⟩
  else decideLocked execution .admitted

/-- A rank submits a collective, just before it goes to the transport. -/
def submit (group : GroupId) (rank : RankId) (inst : CommInstanceId) (collective : CollectiveKind)
    (signature : BitVec 64) : SequencerM PUnit := do
  let s ← get
  require (s.aborted = false) (.aborted "collective sequencer aborted")
  admitUndecided inst.execution
  let s ← get
  require (s.decisions.lookup inst.execution = some .admitted)
    (.ordering (.executionSkipped inst.execution))
  let identity ← advanceGroupLocked group rank (submittedSlot inst collective signature)
  let s ← get
  require (ActiveSlot.mk group rank inst ∉ s.active) (.ordering (.duplicateCollective rank inst))
  set { s with active := insert (ActiveSlot.mk group rank inst) s.active }
  emit (.submit group identity.1 identity.2 rank inst collective signature)

/-- A rank passes over a slot of a skipped execution. -/
def observeSkip (group : GroupId) (rank : RankId) (inst : CommInstanceId) : SequencerM PUnit := do
  let s ← get
  require (s.aborted = false) (.aborted "collective sequencer aborted")
  require (s.decisions.lookup inst.execution = some .skipped)
    (.ordering (.executionNotSkipped inst.execution))
  let identity ← advanceGroupLocked group rank (skippedSlot inst)
  emit (.observeSkip group identity.1 identity.2 rank inst)

/-- A rank completes a collective. After an abort, which has completed every active slot, a
late completion is no error and records nothing. -/
def complete (group : GroupId) (rank : RankId) (inst : CommInstanceId) (success : Bool) : SequencerM PUnit := do
  let s ← get
  if ActiveSlot.mk group rank inst ∈ s.active then do
    set { s with active := s.active.erase ⟨group, rank, inst⟩ }
    let identity ← groupIdentity group
    emit (.completeLocal group identity.1 identity.2 rank inst success)
  else if s.aborted then pure ⟨⟩
  else throw (.ordering (.nonActive rank inst))

/-- One turn of the loop in `abort`: the slot is completed with an error. -/
def abortSlot (slot : ActiveSlot) : SequencerM PUnit := do
  modify fun s => { s with active := s.active.erase slot }
  let identity ← attempt (groupIdentity slot.group)
  match identity with
  | .ok identity => emit (.completeLocal slot.group identity.1 identity.2 slot.rank slot.inst false)
  | .error _ => pure ⟨⟩

/-- Close submission and complete every active slot with an error. -/
def abort : SequencerM PUnit := do
  let s ← get
  if s.aborted then pure ⟨⟩
  else do
    set { s with aborted := true }
    emit .abort
    each abortSlot s.active.sort

/-- The calls on a sequencer. -/
inductive Call where
  | registerGroup (group : GroupId) (members : List RankId)
  | decide (execution : ExecutionId) (decision : CollectiveDecision)
  | submit (group : GroupId) (rank : RankId) (inst : CommInstanceId) (collective : CollectiveKind)
      (signature : BitVec 64)
  | observeSkip (group : GroupId) (rank : RankId) (inst : CommInstanceId)
  | complete (group : GroupId) (rank : RankId) (inst : CommInstanceId) (success : Bool)
  | abort
  deriving DecidableEq, Repr

/-- A call as a step of the sequencer. -/
def perform : Call → SequencerM PUnit
  | .registerGroup group members => do
    let _ ← registerGroup group members
    pure ⟨⟩
  | .decide execution decision => decide execution decision
  | .submit group rank inst collective signature => submit group rank inst collective signature
  | .observeSkip group rank inst => observeSkip group rank inst
  | .complete group rank inst success => complete group rank inst success
  | .abort => abort

end CollectiveSequencer

end OnnxGenai.Comm
