import OnnxGenai.Lib.FiniteMap
import OnnxGenai.Lib.Fallible

/-!
# The host-memory governor

`HostGovernor` (`pressure.rs`): the ledger of a machine's host memory, and the tickets of
those who wait for a part of it. A request is `Pending` until arbitration charges its bytes
and makes it `Granted`; its ticket then claims the allocation. A ticket that is dropped
posts a cancellation into a mailbox, which every operation of the governor drains first.

The counters of ids and sequence numbers are `u64`s that only grow by one, and are
numbers here. Byte counts are numbers below `2 ^ 64`, with the checks of the source.

A trace sink records each event together with the ledger it was emitted under, so the
trace here is the list of these pairs. Woken tickets are listed in `woken`.
-/

namespace OnnxGenai.Pressure

open Lib

abbrev DeviceId := ℕ

abbrev RequestId := ℕ

abbrev AllocationId := ℕ

abbrev Generation := ℕ

/-- The number of values of a `u64`. -/
def u64Size : ℕ := 2 ^ 64

/-- Arbitration rounds before a waiting request becomes mature. -/
def agingCap : ℕ := 8

/-- The errors of the governor. -/
inductive ResourceError where
  | invalidHostRequest (reason : String)
  | hostQuotaDenied (requestedBytes reclaimableBudgetBytes : ℕ)
  | hostMailboxBackpressure (capacity : ℕ)
  | hostPressureTimeout (requestId : RequestId)
  | hostReconfigurationInvalidated (requestId : RequestId) (staleGeneration currentGeneration : Generation)
  | hostLedgerInvariant (operation reason : String)
  deriving DecidableEq, Repr

/-- A request for host memory pages. -/
structure HostPageRequest where
  owner : DeviceId
  bytes : ℕ
  priority : ℕ
  pinned : Bool
  deriving DecidableEq, Repr

/-- A charged host allocation. -/
structure HostAllocation where
  id : AllocationId
  requestId : RequestId
  owner : DeviceId
  bytes : ℕ
  generation : Generation
  pinned : Bool
  deriving DecidableEq, Repr

/-- The state of a ticket. -/
inductive PressureState where
  | pending (request : HostPageRequest)
  | granted (allocation : HostAllocation)
  | claimed (allocation : HostAllocation)
  | cancelled
  | failed (error : ResourceError)
  deriving DecidableEq, Repr

/-- The result of a poll. -/
inductive TicketPoll where
  | pending
  | granted (allocation : HostAllocation)
  | cancelled
  | failed (error : ResourceError)
  deriving DecidableEq, Repr

/-- The outcome of a deadline. -/
inductive TimeoutOutcome where
  | pending
  | granted
  | noOp
  deriving DecidableEq, Repr

/-- The events of the governor. -/
inductive PressureEvent where
  | submit (request : RequestId) (generation : Generation) (owner : DeviceId) (extent : ℕ)
  | grant (request : RequestId) (allocation : AllocationId) (owner : DeviceId) (extent : ℕ)
  | claim (request : RequestId) (allocation : AllocationId) (extent : ℕ)
  | cancelPending (request : RequestId)
  | cancelGranted (request : RequestId) (allocation : AllocationId) (extent : ℕ)
  | timeoutPending (request : RequestId)
  | timeoutGranted (request : RequestId) (allocation : AllocationId) (extent : ℕ)
  | release (request : RequestId) (allocation : AllocationId) (extent : ℕ)
  | reconfigure (newGeneration : Generation)
  | reclaim (owner : DeviceId) (bytes : ℕ)
  deriving DecidableEq, Repr

/-- A cancellation posted by a dropped ticket. -/
structure CancelCommand where
  requestId : RequestId
  generation : Generation
  deriving DecidableEq, Repr

/-- The cancellation mailbox, with one slot reserved for each live request. -/
structure CancelMailbox where
  queue : List CancelCommand
  reserved : ℕ
  capacity : ℕ
  deriving DecidableEq, Repr

/-- One entry of the ledger. -/
structure LedgerEntry where
  owner : DeviceId
  bytes : ℕ
  priority : ℕ
  pinned : Bool
  generation : Generation
  submitSeq : ℕ
  age : ℕ
  state : PressureState
  deriving DecidableEq, Repr

namespace LedgerEntry

/-- Bytes granted and not yet claimed. -/
def reservedBytes (e : LedgerEntry) : ℕ :=
  match e.state with
  | .granted _ => e.bytes
  | _ => 0

/-- Bytes claimed. -/
def claimedBytes (e : LedgerEntry) : ℕ :=
  match e.state with
  | .claimed _ => e.bytes
  | _ => 0

/-- Whether the request waits. -/
def isPending (e : LedgerEntry) : Bool :=
  match e.state with
  | .pending _ => true
  | _ => false

end LedgerEntry

/-- The authoritative state. -/
structure Ledger where
  capacity : ℕ
  fixedCharge : ℕ
  free : ℕ
  reclaimable : FiniteMap DeviceId ℕ
  generation : Generation
  entries : FiniteMap RequestId LedgerEntry
  nextRequest : ℕ
  nextAlloc : ℕ
  nextSubmitSeq : ℕ
  reclaimShortfall : Bool

/-- The events so far, each with the ledger it was emitted under. -/
abbrev Trace := List (PressureEvent × Ledger)

/-- The shared state of a governor. -/
structure Governor where
  ledger : Ledger
  mailbox : CancelMailbox
  trace : Trace
  woken : List RequestId

abbrev GovM := EStateM ResourceError Governor

/-! ### Arithmetic -/

def checkedAdd (a b : ℕ) (operation : String) : Except ResourceError ℕ :=
  if a + b < u64Size then .ok (a + b) else .error (.hostLedgerInvariant operation s!"{a} + {b} overflowed u64")

def checkedSub (a b : ℕ) (operation : String) : Except ResourceError ℕ :=
  if b ≤ a then .ok (a - b)
  else .error (.hostLedgerInvariant operation s!"{a} - {b} underflowed (negative headroom)")

/-- Sum with overflow checks. -/
def checkedSum (operation : String) (values : List ℕ) : Except ResourceError ℕ :=
  values.foldlM (fun total bytes => checkedAdd total bytes operation) 0

/-- How a request id is printed. -/
def display (id : RequestId) : String := s!"PressureRequestId({id})"

/-! ### The mailbox -/

namespace CancelMailbox

/-- A mailbox must have room. -/
def new (capacity : ℕ) : Except ResourceError CancelMailbox :=
  if capacity = 0 then .error (.invalidHostRequest "cancellation mailbox capacity must be non-zero")
  else .ok ⟨[], 0, capacity⟩

/-- Reserve a slot for a new request. -/
def reserveSlot (m : CancelMailbox) : Except ResourceError CancelMailbox :=
  if m.reserved = m.capacity then .error (.hostMailboxBackpressure m.capacity)
  else .ok { m with reserved := m.reserved + 1 }

/-- Release the slot of a ticket that resolved without cancelling. -/
def releaseSlot (m : CancelMailbox) : CancelMailbox := { m with reserved := m.reserved - 1 }

/-- Take every queued cancellation, releasing their slots. -/
def drain (m : CancelMailbox) : List CancelCommand × CancelMailbox :=
  (m.queue, { m with queue := [], reserved := m.reserved - m.queue.length })

/-- Post a cancellation into a reserved slot; refused when there is none. -/
def publishCancel (m : CancelMailbox) (command : CancelCommand) : Bool × CancelMailbox :=
  if m.reserved ≤ m.queue.length then (false, m)
  else (true, { m with queue := m.queue ++ [command] })

end CancelMailbox

/-! ### The ledger -/

namespace Ledger

/-- The largest extent that could ever be charged. -/
def maxSatisfiable (l : Ledger) : ℕ := l.capacity - l.fixedCharge

def reclaimableTotal (l : Ledger) : Except ResourceError ℕ :=
  checkedSum "reclaimable total" (l.reclaimable.entries.map Sigma.snd)

def reservedTotal (l : Ledger) : Except ResourceError ℕ :=
  checkedSum "reserved total" (l.entries.entries.map fun e => e.2.reservedBytes)

def claimedTotal (l : Ledger) : Except ResourceError ℕ :=
  checkedSum "claimed total" (l.entries.entries.map fun e => e.2.claimedBytes)

/-- Change the state of an entry. -/
def setState (l : Ledger) (id : RequestId) (state : PressureState) : Ledger :=
  { l with entries := FiniteMap.adjust l.entries id fun e => { e with state := state } }

/-- Drop an entry. -/
def remove (l : Ledger) (id : RequestId) : Ledger := { l with entries := l.entries.erase id }

/-- Whether some pending request exceeds what is free. -/
def withReclaimNotices (l : Ledger) : Ledger :=
  { l with reclaimShortfall := l.entries.entries.any fun e => e.2.isPending && l.free < e.2.bytes }

end Ledger

/-! ### Arbitration -/

/-- A pending request as arbitration sees it. -/
structure Candidate where
  id : RequestId
  matured : Bool
  priority : ℕ
  submitSeq : ℕ
  deriving DecidableEq, Repr

/-- The order of arbitration: mature requests first, in the order they were submitted; then
the others by priority, and in the order they were submitted among equals. -/
def Candidate.before (a b : Candidate) : Prop :=
  if a.matured ≠ b.matured then a.matured = true
  else if a.matured then a.submitSeq ≤ b.submitSeq
  else if a.priority ≠ b.priority then b.priority < a.priority
  else a.submitSeq ≤ b.submitSeq

instance (a b : Candidate) : Decidable (a.before b) := by
  unfold Candidate.before
  infer_instance

namespace Ledger

/-- Whether an entry waits under the current configuration. -/
def waits (l : Ledger) (e : LedgerEntry) : Bool := e.isPending && e.generation = l.generation

/-- Age every request that waits. -/
def aged (l : Ledger) : Ledger :=
  { l with entries := FiniteMap.mapValues l.entries fun e =>
      if l.waits e then { e with age := min (e.age + 1) agingCap } else e }

/-- An entry as a candidate. -/
def candidate (id : RequestId) (e : LedgerEntry) : Candidate := ⟨id, agingCap ≤ e.age, e.priority, e.submitSeq⟩

/-- The requests that wait, in the order of arbitration. -/
def candidates (l : Ledger) : List Candidate :=
  ((l.entries.entries.filter fun e => l.waits e.2).map fun e => candidate e.1 e.2).insertionSort Candidate.before

/-- The allocation a request gets next. -/
def nextAllocation (l : Ledger) (id : RequestId) (e : LedgerEntry) : HostAllocation :=
  ⟨l.nextAlloc, id, e.owner, e.bytes, e.generation, e.pinned⟩

end Ledger

/-- Emit an event. -/
def emit (event : PressureEvent) : GovM Unit :=
  modify fun g => { g with trace := g.trace ++ [(event, g.ledger)] }

def getLedger : GovM Ledger := return (← get).ledger

def setLedger (l : Ledger) : GovM Unit := modify fun g => { g with ledger := l }

/-- Wake tickets. -/
def wakeAll (wakeups : List RequestId) : GovM Unit := modify fun g => { g with woken := g.woken ++ wakeups }

/-- Charge a request and publish its grant. -/
def grant (id : RequestId) (e : LedgerEntry) : GovM Unit := do
  let l ← getLedger
  let free ← liftResult (checkedSub l.free e.bytes "grant reserve")
  let allocation := l.nextAllocation id e
  setLedger ({ l with free := free, nextAlloc := l.nextAlloc + 1 }.setState id (.granted allocation))
  emit (.grant id allocation.id e.owner e.bytes)

/-- Grant candidates in order. One that does not fit is passed over, unless it is mature:
then what is free is kept for it. -/
def grantAll : List Candidate → GovM (List RequestId)
  | [] => pure []
  | c :: cs => do
    let l ← getLedger
    let e ← getOr (l.entries.lookup c.id)
      (.hostLedgerInvariant "grant" s!"candidate {display c.id} disappeared during arbitration")
    if l.free < e.bytes then
      if c.matured then pure [] else grantAll cs
    else do
      grant c.id e
      let wakeups ← grantAll cs
      return c.id :: wakeups

/-- Arbitrate: age the requests that wait, then grant in order. -/
def arbitrate : GovM (List RequestId) := do
  let l ← getLedger
  setLedger l.aged
  grantAll l.aged.candidates

/-- Fail after waking tickets. -/
def orWake {α : Type} (wakeups : List RequestId) : Except ResourceError α → GovM α
  | .ok a => pure a
  | .error e => do
    wakeAll wakeups
    throw e

/-- Arbitrate; tickets woken so far are woken also when it fails. -/
def arbitrateOrWake (wakeups : List RequestId) : GovM (List RequestId) := do
  orWake wakeups (← attempt arbitrate)

/-! ### Cancellations -/

/-- Apply one cancellation. -/
def applyCancel (command : CancelCommand) : GovM (List RequestId) := do
  let l ← getLedger
  match l.entries.lookup command.requestId with
  | none => pure []
  | some e =>
    if e.generation ≠ command.generation then pure []
    else match e.state with
      | .pending _ => do
        setLedger (l.setState command.requestId .cancelled)
        emit (.cancelPending command.requestId)
        setLedger ((l.setState command.requestId .cancelled).remove command.requestId)
        pure []
      | .granted allocation => do
        let free ← liftResult (checkedAdd l.free e.bytes "cancel granted credit")
        let l := { l with free := free }.setState command.requestId .cancelled
        setLedger l
        emit (.cancelGranted command.requestId allocation.id e.bytes)
        setLedger (l.remove command.requestId)
        arbitrate
      | .claimed _ => pure []
      | .cancelled | .failed _ => do
        setLedger (l.remove command.requestId)
        pure []

/-- Apply cancellations in order. -/
def applyCancels : List CancelCommand → GovM (List RequestId)
  | [] => pure []
  | c :: cs => do
    let wakeups ← applyCancel c
    let more ← applyCancels cs
    return wakeups ++ more

/-- Apply every queued cancellation. -/
def drainCancellations : GovM (List RequestId) := do
  let g ← get
  let (commands, mailbox) := g.mailbox.drain
  set { g with mailbox := mailbox }
  applyCancels commands

/-! ### The operations -/

/-- The first part of a request, up to the reservation of its slot. -/
def requestDrain (request : HostPageRequest) : GovM (List RequestId) := do
  require (request.bytes ≠ 0) (.invalidHostRequest "requested zero bytes")
  let wakeups ← drainCancellations
  let l ← getLedger
  if l.maxSatisfiable < request.bytes then do
    wakeAll wakeups
    throw (.hostQuotaDenied request.bytes l.maxSatisfiable)
  else pure wakeups

/-- The entry of a new request. -/
def Ledger.newEntry (l : Ledger) (request : HostPageRequest) : LedgerEntry :=
  ⟨request.owner, request.bytes, request.priority, request.pinned, l.generation, l.nextSubmitSeq, 0, .pending request⟩

/-- The second part of a request: reserve its slot, enter it and arbitrate. The result is
the id and the generation of its ticket. -/
def requestSubmit (request : HostPageRequest) (cancelWakeups : List RequestId) : GovM (RequestId × Generation) := do
  let g ← get
  let l := g.ledger
  let id := l.nextRequest
  let l' := { l with nextRequest := l.nextRequest + 1, nextSubmitSeq := l.nextSubmitSeq + 1 }
  setLedger l'
  match g.mailbox.reserveSlot with
  | .error err => do
    wakeAll cancelWakeups
    throw err
  | .ok mailbox => do
    modify fun g => { g with mailbox := mailbox }
    setLedger { l' with entries := l'.entries.insert id (l.newEntry request) }
    emit (.submit id l.generation request.owner request.bytes)
    let arbitrated ← arbitrateOrWake cancelWakeups
    setLedger (← getLedger).withReclaimNotices
    wakeAll (cancelWakeups ++ arbitrated)
    return (id, l.generation)

/-- Request host pages. -/
def requestHostPages (request : HostPageRequest) : GovM (RequestId × Generation) := do
  let wakeups ← requestDrain request
  requestSubmit request wakeups

/-- The allocation an entry has claimed. -/
def claimedAllocation (e : Option LedgerEntry) (id : RequestId) : Except ResourceError HostAllocation :=
  match e with
  | some e => match e.state with
    | .claimed recorded => .ok recorded
    | _ => .error (.hostLedgerInvariant "release" s!"request {display id} is not in the Claimed state")
  | none => .error (.hostLedgerInvariant "release" s!"no ledger entry for request {display id}")

/-- Check that an allocation is the one on record. -/
def checkRecorded (l : Ledger) (allocation : HostAllocation) : Except ResourceError HostAllocation := do
  let recorded ← claimedAllocation (l.entries.lookup allocation.requestId) allocation.requestId
  if allocation ≠ recorded then
    .error (.hostLedgerInvariant "release" "released allocation does not match the authoritative ledger charge")
  else .ok recorded

/-- Release a claimed allocation. -/
def releaseHostPages (allocation : HostAllocation) : GovM Unit := do
  let wakeups ← drainCancellations
  let l ← getLedger
  let recorded ← orWake wakeups (checkRecorded l allocation)
  let free ← orWake wakeups (checkedAdd l.free recorded.bytes "release credit")
  let l := { l with free := free }
  setLedger l
  emit (.release recorded.requestId recorded.id recorded.bytes)
  setLedger (l.remove recorded.requestId)
  let arbitrated ← arbitrateOrWake wakeups
  setLedger (← getLedger).withReclaimNotices
  wakeAll (wakeups ++ arbitrated)

/-- Credit reclaimed device bytes. -/
def reclaim (device : DeviceId) (bytes : ℕ) : GovM Unit :=
  if bytes = 0 then pure ()
  else do
    let wakeups ← drainCancellations
    let l ← getLedger
    let remaining ← orWake wakeups (checkedSub ((l.reclaimable.lookup device).getD 0) bytes "reclaim debit")
    let l := { l with reclaimable := l.reclaimable.insert device remaining }
    setLedger l
    let free ← orWake wakeups (checkedAdd l.free bytes "reclaim credit")
    setLedger { l with free := free }
    emit (.reclaim device bytes)
    let arbitrated ← arbitrateOrWake wakeups
    setLedger (← getLedger).withReclaimNotices
    wakeAll (wakeups ++ arbitrated)

/-- An entry under a new generation: a pending one of another generation fails. -/
def LedgerEntry.invalidated (newGeneration : Generation) (id : RequestId) (e : LedgerEntry) : LedgerEntry :=
  if e.isPending && e.generation ≠ newGeneration then
    { e with state := .failed (.hostReconfigurationInvalidated id e.generation newGeneration) }
  else e

/-- The requests that a new generation makes stale. -/
def Ledger.stale (l : Ledger) (newGeneration : Generation) : List RequestId :=
  (l.entries.entries.filter fun e => e.2.isPending && e.2.generation ≠ newGeneration).map Sigma.fst

/-- Start a new configuration generation and fail the requests of the last one. -/
def reconfigure : GovM Unit := do
  let wakeups ← drainCancellations
  let l ← getLedger
  let newGeneration := l.generation + 1
  setLedger { l with
    generation := newGeneration
    entries := FiniteMap.mapEntries l.entries (LedgerEntry.invalidated newGeneration) }
  emit (.reconfigure newGeneration)
  wakeAll (wakeups ++ l.stale newGeneration)

/-- Fire a deadline on a request. -/
def timeOut (id : RequestId) : GovM TimeoutOutcome := do
  let wakeups ← drainCancellations
  let l ← getLedger
  match l.entries.lookup id with
  | none => do
    wakeAll wakeups
    return .noOp
  | some e =>
    match e.state with
    | .pending _ => do
      setLedger (l.setState id (.failed (.hostPressureTimeout id)))
      emit (.timeoutPending id)
      wakeAll (wakeups ++ [id])
      return .pending
    | .granted allocation => do
      let free ← orWake wakeups (checkedAdd l.free e.bytes "timeout granted credit")
      setLedger ({ l with free := free }.setState id (.failed (.hostPressureTimeout id)))
      emit (.timeoutGranted id allocation.id e.bytes)
      let arbitrated ← arbitrateOrWake wakeups
      wakeAll (wakeups ++ arbitrated ++ [id])
      return .granted
    | _ => do
      wakeAll wakeups
      return .noOp

/-- The recomputed state of the ledger. -/
structure HostLedgerSnapshot where
  capacityBytes : ℕ
  fixedChargeBytes : ℕ
  freeBytes : ℕ
  reclaimableBytes : ℕ
  reservedBytes : ℕ
  claimedBytes : ℕ
  hostRamUsed : ℕ
  generation : Generation
  pending : ℕ
  deriving DecidableEq, Repr

/-- Recompute the ledger from its entries. -/
def Ledger.snapshot (l : Ledger) : Except ResourceError HostLedgerSnapshot := do
  let reclaimableBytes ← l.reclaimableTotal
  let reservedBytes ← l.reservedTotal
  let claimedBytes ← l.claimedTotal
  let used ← checkedAdd reclaimableBytes reservedBytes "snapshot used"
  let used ← checkedAdd used claimedBytes "snapshot used"
  let hostRamUsed ← checkedAdd used l.fixedCharge "snapshot used"
  let recomputedFree ← checkedSub l.capacity hostRamUsed "snapshot free"
  if recomputedFree ≠ l.free then
    .error (.hostLedgerInvariant "snapshot" s!"recomputed free {recomputedFree} != ledger free {l.free}")
  else if l.capacity < hostRamUsed then
    .error (.hostLedgerInvariant "snapshot" s!"host_ram_used {hostRamUsed} exceeds capacity {l.capacity}")
  else
    .ok ⟨l.capacity, l.fixedCharge, l.free, reclaimableBytes, reservedBytes, claimedBytes, hostRamUsed, l.generation,
      (l.entries.entries.filter fun e => e.2.isPending).length⟩

/-- A snapshot of the ledger. -/
def snapshot : GovM HostLedgerSnapshot := do
  let wakeups ← drainCancellations
  let l ← getLedger
  wakeAll wakeups
  liftResult l.snapshot

/-- Apply queued cancellations. -/
def processCancellations : GovM Unit := do
  let wakeups ← drainCancellations
  wakeAll wakeups

/-- What a poll finds in the ledger; a grant is claimed. -/
def claimEntry (id : RequestId) : GovM TicketPoll := do
  let l ← getLedger
  match l.entries.lookup id with
  | none => do
    setLedger (l.remove id)
    return .cancelled
  | some e =>
    match e.state with
    | .pending _ => return .pending
    | .granted allocation => do
      setLedger (l.setState id (.claimed allocation))
      emit (.claim id allocation.id allocation.bytes)
      return .granted allocation
    | .claimed _ => return .cancelled
    | .cancelled => do
      setLedger (l.remove id)
      return .cancelled
    | .failed err => do
      setLedger (l.remove id)
      return .failed err

/-- Try to claim the allocation granted to a request. -/
def tryClaim (id : RequestId) : GovM TicketPoll := do
  match ← attempt drainCancellations with
  | .error err => return .failed err
  | .ok wakeups => do
    let poll ← claimEntry id
    wakeAll wakeups
    return poll

/-! ### Configuration -/

/-- The configuration of a governor; its byte counts are `u64`s. -/
structure HostGovernorConfig where
  capacityBytes : ℕ
  fixedChargeBytes : ℕ
  initialReclaimable : List (DeviceId × ℕ)
  mailboxCapacity : ℕ
  bounded : capacityBytes < u64Size

/-- Sum the initial reclaimable bytes, by device and in all. -/
def initReclaimable : List (DeviceId × ℕ) → FiniteMap DeviceId ℕ × ℕ →
    Except ResourceError (FiniteMap DeviceId ℕ × ℕ)
  | [], acc => .ok acc
  | (device, bytes) :: rest, (reclaimable, total) => do
    let slot ← checkedAdd ((reclaimable.lookup device).getD 0) bytes "init reclaimable"
    let total ← checkedAdd total bytes "init reclaimable total"
    initReclaimable rest (reclaimable.insert device slot, total)

/-- A new governor. -/
def Governor.new (config : HostGovernorConfig) : Except ResourceError Governor := do
  let (reclaimable, total) ← initReclaimable config.initialReclaimable (∅, 0)
  let charged ← checkedAdd config.fixedChargeBytes total "init charge"
  let free ← checkedSub config.capacityBytes charged "init free"
  let mailbox ← CancelMailbox.new config.mailboxCapacity
  return ⟨⟨config.capacityBytes, config.fixedChargeBytes, free, reclaimable, 0, ∅, 1, 1, 0, false⟩, mailbox, [], []⟩

end OnnxGenai.Pressure
