import OnnxGenai.Comm.Collectives
import OnnxGenai.Comm.OrderingFrames

/-!
# Collective calls in one process

The ranks of an in-process world meet in shared memory. A collective call goes through three
structures, each behind its own lock: it leases its buffers from the registry, takes its slot
from the sequencer, and puts its contribution into the rendezvous entry of its instance, where
it waits for the others. Whoever comes last computes the outputs; each rank takes its own and
counts itself out, and the last one removes the entry. An abort can come between any two of
these steps.

A call is a small machine (`Stage`) that makes one step each time it holds one of the locks.
The lock of the rendezvous map is held from the check of the wait condition until the call
waits or leaves, so it is part of the world (`lock`); a waiting call may be woken at any time.
`Action` lists what can happen next; any calls, by any ranks of any groups, may be under way.

The flags `accepted`, `joined` and `left` of a call only record how far it came.
-/

namespace OnnxGenai.Comm

open Lib

/-- A call under way. -/
abbrev CallId := ℕ

/-- The instance of a group the ranks meet at. -/
abbrev CollectiveKey := GroupId × CommInstanceId

/-- The rendezvous entry of an instance. -/
structure DataCollectiveState where
  signature : BitVec 64
  contributions : List (Option RankSegments)
  outputs : Option (Except CommError (List RankSegments))
  consumed : ℕ

/-- What is left to do for a call that gives its leases back with an error. -/
inductive Exit where
  /-- Return the error. -/
  | plain (error : CommError)
  /-- Complete the slot, then return the error. -/
  | complete (error : CommError)
  /-- Read the cause of the abort and return it. -/
  | cause
  deriving DecidableEq

/-- How far a call is: the lock it takes next. -/
inductive Stage where
  /-- Look whether the world is aborted. -/
  | start
  /-- Lease the buffers. -/
  | checked
  /-- Take the slot. -/
  | leased (op : OperationId)
  /-- Take the rendezvous lock and contribute. -/
  | submitted (op : OperationId)
  /-- With the rendezvous lock: look whether to wait. -/
  | checking (op : OperationId)
  /-- Wait for the rendezvous lock. -/
  | waiting (op : OperationId)
  /-- With the rendezvous lock: look for an abort, then take the output. -/
  | leaving (op : OperationId)
  /-- Give the leases back. -/
  | done (op : OperationId) (buffers : List Bytes)
  /-- Complete the slot. -/
  | completing (buffers : List Bytes)
  /-- Begin to give the leases back after an error. -/
  | failing (op : OperationId) (exit : Exit)
  /-- Give the leases back after an error. -/
  | quiescing (op : OperationId) (exit : Exit)
  /-- The leases are back after an error. -/
  | exiting (exit : Exit)
  | returned (result : Except CommError (List Bytes))
  /-- The call panicked; its leases are never given back. -/
  | panicked (op : OperationId)
  deriving DecidableEq

/-- A collective call. -/
structure Call where
  comm : Communicator
  inst : CommInstanceId
  request : Request
  contribution : RankSegments
  stage : Stage
  /-- The sequencer accepted its slot. -/
  accepted : Bool
  /-- Its contribution is in the entry. -/
  joined : Bool
  /-- It took its output. -/
  left : Bool

namespace Call

/-- Where the call meets the others. -/
def key (c : Call) : CollectiveKey := (c.comm.group, c.inst)

/-- The slot of the call. -/
def slot (c : Call) : ActiveSlot := ⟨c.comm.group, c.comm.rank, c.inst⟩

/-- The call at another stage. -/
def goto (c : Call) (stage : Stage) : Call := { c with stage }

end Call

/-- The shared state of an in-process world, and the calls. -/
structure World where
  registry : RegistryState
  sequencer : SequencerState
  rendezvous : FiniteMap CollectiveKey DataCollectiveState
  /-- The call that holds the lock of the rendezvous map. -/
  lock : Option CallId
  /-- The cause of an abort, once it is published. -/
  aborted : Option String
  /-- Causes of aborts that are not published yet. -/
  causes : List String
  calls : FiniteMap CallId Call

namespace World

/-- The calls with one of them replaced. -/
def put (w : World) (id : CallId) (c : Call) : World := { w with calls := w.calls.insert id c }

/-- An entry before anybody contributed. -/
def freshEntry (c : Call) : DataCollectiveState :=
  ⟨c.request.signature, List.replicate c.comm.groupSize none, none, 0⟩

/-- The entry of the call's instance, made if it is not there. -/
def entryFor (w : World) (c : Call) : DataCollectiveState := (w.rendezvous.lookup c.key).getD (freshEntry c)

/-- The outputs, when the last contribution is in. `none` is a panic. -/
def outputsOf (kernels : FloatKernels) (c : Call) (contributions : List (Option RankSegments)) :
    Option (Option (Except CommError (List RankSegments))) :=
  if none ∈ contributions then some none
  else (c.request.compute kernels c.comm (contributions.reduceOption)).map some

/-- A call puts its contribution into the entry, and computes if it is the last. -/
def contribute (kernels : FloatKernels) (w : World) (id : CallId) (op : OperationId) (c : Call) : World :=
  let entry := w.entryFor c
  if entry.signature ≠ c.request.signature then
    { w with rendezvous := w.rendezvous.insert c.key entry }.put id
      (c.goto (.failing op (.complete (.ordering .signatureDiverged))))
  else
    let contributions := entry.contributions.set c.comm.selfPosition (some c.contribution)
    if entry.contributions[c.comm.selfPosition]? ≠ some none then
      { w with rendezvous := w.rendezvous.insert c.key { entry with contributions } }.put id
        (c.goto (.failing op (.plain (.ordering .contributedTwice))))
    else
      match outputsOf kernels c contributions with
      | some outputs =>
        { w with
          rendezvous := w.rendezvous.insert c.key
            { entry with contributions, outputs := outputs.or entry.outputs }
          lock := some id }.put id { c with stage := .checking op, joined := true }
      | none => { w with lock := some id }.put id (c.goto (.panicked op))

/-- The outputs of the call's instance are there. -/
def hasOutputs (w : World) (c : Call) : Bool :=
  ((w.rendezvous.lookup c.key).bind DataCollectiveState.outputs).isSome

/-- What a call does with the output it took. -/
def received (op : OperationId) (c : Call) (output : RankSegments) : Stage :=
  match c.request.deliver c.comm output with
  | none => .panicked op
  | some (.error error) => .failing op (.complete error)
  | some (.ok buffers) => .done op buffers

/-- A call counts itself out of the entry; the last one removes it. -/
def countOut (w : World) (c : Call) (entry : DataCollectiveState) : FiniteMap CollectiveKey DataCollectiveState :=
  if entry.consumed + 1 = c.comm.groupSize then w.rendezvous.erase c.key
  else w.rendezvous.insert c.key { entry with consumed := entry.consumed + 1 }

/-- A call takes its output. -/
def consume (w : World) (id : CallId) (op : OperationId) (c : Call) : World :=
  match w.rendezvous.lookup c.key with
  | none => w.put id (c.goto (.panicked op))
  | some entry =>
    match entry.outputs with
    | none => w.put id (c.goto (.panicked op))
    | some (.error error) =>
      { w with rendezvous := w.countOut c entry, lock := none }.put id
        { c with stage := .failing op (.complete error), left := true }
    | some (.ok outputs) =>
      match outputs[c.comm.selfPosition]? with
      | none => w.put id (c.goto (.panicked op))
      | some output =>
        { w with rendezvous := w.countOut c entry, lock := none }.put id
          { c with stage := received op c output, left := true }

/-- The end of a call that failed. -/
def leave (w : World) (id : CallId) (c : Call) : Exit → World
  | .plain error => w.put id (c.goto (.returned (.error error)))
  | .complete error =>
    { w with sequencer := final (CollectiveSequencer.complete c.comm.group c.comm.rank c.inst false) w.sequencer }.put
      id (c.goto (.returned (.error error)))
  | .cause => w.put id (c.goto (.returned (.error (.aborted (w.aborted.getD "collective aborted")))))

/-- The next step of a call; nothing while it needs a lock another call holds. -/
def advance (kernels : FloatKernels) (w : World) (id : CallId) (c : Call) : World :=
  match c.stage with
  | .start =>
    match w.aborted with
    | some cause => w.put id (c.goto (.returned (.error (.aborted cause))))
    | none => w.put id (c.goto .checked)
  | .checked =>
    match OwnershipRegistry.submit (c.request.leases c.comm) w.registry with
    | .ok op registry => { w with registry }.put id (c.goto (.leased op))
    | .error error registry => { w with registry }.put id (c.goto (.returned (.error (.ownership error))))
  | .leased op =>
    match CollectiveSequencer.submit c.comm.group c.comm.rank c.inst c.request.kind c.request.signature
        w.sequencer with
    | .ok _ sequencer => { w with sequencer }.put id { c with stage := .submitted op, accepted := true }
    | .error error sequencer => { w with sequencer }.put id (c.goto (.failing op (.plain error)))
  | .submitted op => if w.lock.isSome then w else w.contribute kernels id op c
  | .checking op =>
    if w.hasOutputs c = false ∧ w.sequencer.aborted = false then { w with lock := none }.put id (c.goto (.waiting op))
    else w.put id (c.goto (.leaving op))
  | .waiting op => if w.lock.isSome then w else { w with lock := some id }.put id (c.goto (.checking op))
  | .leaving op =>
    if w.sequencer.aborted then { w with lock := none }.put id (c.goto (.failing op .cause)) else w.consume id op c
  | .done op buffers =>
    match OwnershipRegistry.completeSuccess op w.registry with
    | .ok _ registry => { w with registry }.put id (c.goto (.completing buffers))
    | .error error registry => { w with registry }.put id (c.goto (.returned (.error (.ownership error))))
  | .completing buffers =>
    match CollectiveSequencer.complete c.comm.group c.comm.rank c.inst true w.sequencer with
    | .ok _ sequencer => { w with sequencer }.put id (c.goto (.returned (.ok buffers)))
    | .error error sequencer => { w with sequencer }.put id (c.goto (.returned (.error error)))
  | .failing op exit =>
    match OwnershipRegistry.beginAbort op w.registry with
    | .ok _ registry => { w with registry }.put id (c.goto (.quiescing op exit))
    | .error _ registry => { w with registry }.put id (c.goto (.exiting exit))
  | .quiescing op exit =>
    { w with registry := final (OwnershipRegistry.quiesceAbort op) w.registry }.put id (c.goto (.exiting exit))
  | .exiting exit => w.leave id c exit
  | .returned _ => w
  | .panicked _ => w

/-- What can happen next. -/
inductive Action where
  /-- A rank calls a collective. -/
  | call (id : CallId) (comm : Communicator) (inst : CommInstanceId) (request : Request)
  /-- A call makes its next step. -/
  | step (id : CallId)
  /-- A rank aborts the world: the sequencer is closed … -/
  | abort (cause : String)
  /-- … and the cause is published, if there is none yet. -/
  | publish (cause : String)
  /-- Handles for a group are made. -/
  | createGroup (group : GroupId) (members : List RankId)
  /-- The coordinator decides on an execution. -/
  | decide (execution : ExecutionId) (decision : CollectiveDecision)
  /-- A rank passes over a skipped slot. -/
  | observeSkip (comm : Communicator) (inst : CommInstanceId)
  /-- The allocator frees a buffer. -/
  | freeBuffer (buffer : PhysicalAllocationId)
  /-- The allocator seals an epoch. -/
  | sealEpoch (floor : ℕ)

/-- A call on the sequencer. -/
def sequenced (w : World) (call : CollectiveSequencer.Call) : World := { w with sequencer := w.sequencer.after call }

/-- The world after an action. A call whose arguments are refused returns at once. -/
def act (kernels : FloatKernels) (w : World) : Action → World
  | .call id comm inst request =>
    match request.prepare comm with
    | .ok contribution => w.put id ⟨comm, inst, request, contribution, .start, false, false, false⟩
    | .error _ => w
  | .step id =>
    match w.calls.lookup id with
    | some c => w.advance kernels id c
    | none => w
  | .abort cause => { w.sequenced .abort with causes := cause :: w.causes }
  | .publish cause => { w with aborted := w.aborted.or (some cause) }
  | .createGroup group members => w.sequenced (.registerGroup group members)
  | .decide execution decision => w.sequenced (.decide execution decision)
  | .observeSkip comm inst => w.sequenced (.observeSkip comm.group comm.rank inst)
  | .freeBuffer buffer => { w with registry := final (OwnershipRegistry.freeBuffer buffer) w.registry }
  | .sealEpoch floor => { w with registry := final (OwnershipRegistry.sealAllocatorEpoch floor) w.registry }

/-- A handle of a group that was made. -/
def Handles (w : World) (comm : Communicator) : Prop :=
  (w.sequencer.groups.lookup comm.group).map GroupState.members = some comm.members

/-- The actions that are possible: calls on existing handles, under new numbers, and the
publication of a cause somebody gave. -/
def Possible (w : World) : Action → Prop
  | .call id comm _ _ => w.calls.lookup id = none ∧ w.Handles comm
  | .publish cause => cause ∈ w.causes
  | .observeSkip comm _ => w.Handles comm
  | _ => True

instance decidablePossible (w : World) : ∀ action, Decidable (w.Possible action)
  | .call id comm _ _ => inferInstanceAs (Decidable (w.calls.lookup id = none ∧
      (w.sequencer.groups.lookup comm.group).map GroupState.members = some comm.members))
  | .publish cause => inferInstanceAs (Decidable (cause ∈ w.causes))
  | .observeSkip comm _ => inferInstanceAs (Decidable
      ((w.sequencer.groups.lookup comm.group).map GroupState.members = some comm.members))
  | .step _ | .abort _ | .createGroup .. | .decide .. | .freeBuffer _ | .sealEpoch _ => inferInstanceAs (Decidable True)

/-- A world of `size` ranks before the first call. -/
def new (size : ℕ) : World where
  registry := .new
  sequencer := CollectiveSequencer.new.after (.registerGroup 0 (List.range size))
  rendezvous := ∅
  lock := none
  aborted := none
  causes := []
  calls := ∅

end World

end OnnxGenai.Comm
