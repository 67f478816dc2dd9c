import OnnxGenai.Scheduler.ByteBudget
import OnnxGenai.Scheduler.FairShare

/-!
# The continuous batching scheduler

`Scheduler` (`lib.rs`): requests wait, run in a batch, or are swapped out; `schedule` decides
what to run in each iteration. An operation that reserves or releases bytes is a program that
calls the shared byte budget; whether a scheduler has a budget at all is a flag.

The loops of the source end because each turn takes a sequence out of the batch, or a candidate
out of the two queues. They get that many turns here, and `admitLoop_fuel` and
`preemptLoop_fuel` say that more turns would change nothing.
-/

namespace OnnxGenai.Batching

open Lib

abbrev SequenceId := ℕ

/-- `u64::MAX`, and `usize::MAX` on the 64-bit targets. -/
def u64Max : ℕ := 2 ^ 64 - 1

/-- A pending request waiting to be scheduled. -/
structure Request where
  id : ℕ
  seqId : SequenceId
  priority : Priority
  promptTokens : ℕ
  maxTokens : ℕ
  arrivedAt : ℕ
  deriving DecidableEq, Repr

/-- A scheduler admission cap applied to preserve conservative byte reservation. -/
structure ScheduledBudgetCap where
  requestedMaxTokens : ℕ
  admittedMaxTokens : ℕ
  requestedBytes : ℕ
  admittedBytes : ℕ
  availableBytes : ℕ
  deriving DecidableEq, Repr

/-- A single request admitted by the minimal FCFS drive loop. -/
structure ScheduledRequest where
  requestId : ℕ
  seqId : SequenceId
  maxTokens : ℕ
  budgetCap : Option ScheduledBudgetCap
  deriving DecidableEq, Repr

/-- Why a queued request could not be admitted. -/
inductive SchedulerAdmissionError where
  | batchFull (running maxBatchSize : ℕ)
  | byteBudget (requestId : ℕ) (seqId : SequenceId) (promptTokens maxTokens bytesPerToken requested
      minimumRequired used limit available shortfall running maxBatchSize : ℕ)
  deriving DecidableEq, Repr

/-- A sequence in the running batch, or swapped out of it. -/
structure RunningSequence where
  seqId : SequenceId
  requestId : ℕ
  promptTokens : ℕ
  generatedTokens : ℕ
  maxTokens : ℕ
  priority : Priority
  arrivedAt : ℕ
  /-- Bytes reserved for this sequence against the shared budget. -/
  reservedBytes : ℕ
  budgetCap : Option ScheduledBudgetCap
  deriving DecidableEq, Repr

/-- The scheduler's decision for one iteration. -/
structure ScheduleDecision where
  prefill : List SequenceId
  decode : List SequenceId
  preempt : List SequenceId
  swapIn : List SequenceId
  deriving DecidableEq, Repr

inductive PriorityPolicy where
  | fcfs
  | priority
  | fairShare
  deriving DecidableEq, Repr

inductive PreemptionPolicy where
  | disabled
  | swap
  | recompute
  deriving DecidableEq, Repr

/-- Scheduler configuration. -/
structure SchedulerConfig where
  maxBatchSize : ℕ
  maxTotalTokens : ℕ
  priorityPolicy : PriorityPolicy
  preemptionPolicy : PreemptionPolicy
  bytesPerToken : Option ℕ
  deriving DecidableEq, Repr

/-- The continuous batching scheduler. -/
structure Scheduler where
  config : SchedulerConfig
  waiting : List Request
  running : List RunningSequence
  swapped : List RunningSequence
  nextRequestId : ℕ
  clock : ℕ
  fairShare : FairSharePolicy
  /-- Whether there is a shared byte budget. -/
  byteBudget : Bool

/-! ### The order of candidates -/

/-- What candidates are compared by. -/
structure CandidateKey where
  priority : Priority
  arrivedAt : ℕ
  requestId : ℕ
  deriving DecidableEq, Repr

def Request.key (r : Request) : CandidateKey := ⟨r.priority, r.arrivedAt, r.id⟩

def RunningSequence.key (s : RunningSequence) : CandidateKey := ⟨s.priority, s.arrivedAt, s.requestId⟩

def cmpCandidateKey (policy : PriorityPolicy) (a b : CandidateKey) : Ordering :=
  (match policy with
    | .fcfs => compare a.arrivedAt b.arrivedAt
    | .priority => (b.priority.cmp a.priority).then (compare a.arrivedAt b.arrivedAt)
    | .fairShare => compare a.arrivedAt b.arrivedAt).then (compare a.requestId b.requestId)

/-- A candidate taken out of one of the two queues. -/
inductive Candidate where
  | waiting (request : Request)
  | swapped (sequence : RunningSequence)
  deriving DecidableEq, Repr

namespace Scheduler

def new (config : SchedulerConfig) : Scheduler where
  config := config
  waiting := []
  running := []
  swapped := []
  nextRequestId := 0
  clock := 0
  fairShare := .new
  byteBudget := false

/-- `with_byte_budget`. -/
def withByteBudget (config : SchedulerConfig) : Scheduler := { new config with byteBudget := true }

/-- Submit a new request to the scheduler. -/
def addRequest (s : Scheduler) (seqId : SequenceId) (promptTokens maxTokens : ℕ) (priority : Priority) :
    ℕ × Scheduler :=
  (s.nextRequestId,
    { s with
      nextRequestId := s.nextRequestId + 1
      clock := s.clock + 1
      waiting := s.waiting ++ [⟨s.nextRequestId, seqId, priority, promptTokens, maxTokens, s.clock + 1⟩] })

/-! ### Bytes -/

/-- Estimated hot-tier KV bytes for a sequence's worst-case footprint. -/
def estimatedBytes (s : Scheduler) (promptTokens maxTokens : ℕ) : ℕ :=
  match s.config.bytesPerToken with
  | some bytesPerToken => min (min (promptTokens + maxTokens) u64Max * bytesPerToken) u64Max
  | none => 0

/-- Reserve `bytes` against the shared budget, if one is present. -/
def tryReserveBytes (s : Scheduler) (bytes : ℕ) : BudgetM (Except ByteBudgetError Unit) :=
  if s.byteBudget then BudgetM.tryReserve bytes else pure (.ok ())

/-- Release `bytes` back to the shared budget, if one is present. -/
def releaseBytes (s : Scheduler) (bytes : ℕ) : BudgetM Unit :=
  if s.byteBudget then BudgetM.release bytes else pure ()

def maxTokensForReservedBytes (s : Scheduler) (promptTokens reserved : ℕ) : Option ℕ :=
  match s.config.bytesPerToken with
  | none => none
  | some bytesPerToken =>
    if bytesPerToken = 0 then none
    else
      -- `checked_sub`, and at least one token
      let reservedTokens := reserved / bytesPerToken
      if promptTokens < reservedTokens then some (reservedTokens - promptTokens) else none

def admissionByteError (s : Scheduler) (request : Request) (requestedBytes : ℕ) (error : ByteBudgetError) :
    SchedulerAdmissionError :=
  let minimumRequired := s.estimatedBytes request.promptTokens 1
  .byteBudget request.id request.seqId request.promptTokens request.maxTokens
    (s.config.bytesPerToken.getD 0) requestedBytes minimumRequired error.used error.limit error.available
    (minimumRequired - error.available) s.running.length s.config.maxBatchSize

/-- Reserve the bytes of a request, or of a shorter run of it. -/
def reserveOrCapRequest (s : Scheduler) (request : Request) :
    BudgetM (Except SchedulerAdmissionError (Request × ℕ × Option ScheduledBudgetCap)) :=
  let requestedBytes := s.estimatedBytes request.promptTokens request.maxTokens
  if s.byteBudget then
    match s.config.bytesPerToken.filter fun bytes => 0 < bytes with
    | none => do
      match ← BudgetM.tryReserve requestedBytes with
      | .error error => return .error (s.admissionByteError request requestedBytes error)
      | .ok _ => return .ok (request, requestedBytes, none)
    | some bytesPerToken => do
      let minimumRequired := s.estimatedBytes request.promptTokens 1
      match ← BudgetM.tryReserveAtMost requestedBytes minimumRequired bytesPerToken with
      | .error error => return .error (s.admissionByteError request requestedBytes error)
      | .ok reservation =>
        if reservation.reserved = requestedBytes then return .ok (request, requestedBytes, none)
        else
          match s.maxTokensForReservedBytes request.promptTokens reservation.reserved with
          | none => do
            s.releaseBytes reservation.reserved
            let used ← BudgetM.used
            let limit ← BudgetM.limit
            return .error (s.admissionByteError request requestedBytes
              ⟨requestedBytes, used, limit, reservation.availableBefore,
                minimumRequired - reservation.availableBefore⟩)
          | some admittedMaxTokens =>
            let maxTokens := min admittedMaxTokens request.maxTokens
            return .ok ({ request with maxTokens := maxTokens }, reservation.reserved,
              some ⟨request.maxTokens, maxTokens, requestedBytes, reservation.reserved,
                reservation.availableBefore⟩)
  else return .ok (request, requestedBytes, none)

def pushAdmittedRequest (s : Scheduler) (request : Request) (bytes : ℕ) (budgetCap : Option ScheduledBudgetCap) :
    Scheduler :=
  { s with
    running := s.running ++ [⟨request.seqId, request.id, request.promptTokens, 0, request.maxTokens,
      request.priority, request.arrivedAt, bytes, budgetCap⟩] }

/-- Admit one queued request using FCFS and report why admission failed. -/
def driveNextFcfsResult (s : Scheduler) :
    BudgetM (Except SchedulerAdmissionError (Option ScheduledRequest) × Scheduler) :=
  if s.running.length ≥ s.config.maxBatchSize then
    return (.error (.batchFull s.running.length s.config.maxBatchSize), s)
  else
    match s.waiting with
    | [] => return (.ok none, s)
    | request :: rest => do
      match ← { s with waiting := rest }.reserveOrCapRequest request with
      | .error error => return (.error error, { s with waiting := request :: rest })
      | .ok (request, bytes, budgetCap) =>
        return (.ok (some ⟨request.id, request.seqId, request.maxTokens, budgetCap⟩),
          { s with waiting := rest }.pushAdmittedRequest request bytes budgetCap)

/-! ### Capacity and candidates -/

def runningTokenBudget (s : Scheduler) : ℕ := (s.running.map fun r => r.promptTokens + r.generatedTokens).sum

def hasCapacityForCandidate (s : Scheduler) : Bool :=
  decide (s.running.length < s.config.maxBatchSize) && decide (s.runningTokenBudget < s.config.maxTotalTokens)

/-- The best waiting request, with its index. -/
def bestWaiting (s : Scheduler) : Option (Request × ℕ) :=
  minBy (fun a b => cmpCandidateKey s.config.priorityPolicy a.1.key b.1.key) s.waiting.zipIdx

/-- The best swapped sequence, with its index. -/
def bestSwapped (s : Scheduler) : Option (RunningSequence × ℕ) :=
  minBy (fun a b => cmpCandidateKey s.config.priorityPolicy a.1.key b.1.key) s.swapped.zipIdx

/-- The running sequence of the lowest priority, the latest among those, with its index. -/
def lowestPriorityRunning (s : Scheduler) : Option (RunningSequence × ℕ) :=
  minBy (fun a b => ((a.1.priority.cmp b.1.priority).then (compare b.1.arrivedAt a.1.arrivedAt)).then
    (compare b.1.requestId a.1.requestId)) s.running.zipIdx

def takeWaiting (s : Scheduler) (p : Request × ℕ) : Option Candidate × Scheduler :=
  (some (.waiting p.1), { s with waiting := s.waiting.eraseIdx p.2 })

def takeSwapped (s : Scheduler) (p : RunningSequence × ℕ) : Option Candidate × Scheduler :=
  (some (.swapped p.1), { s with swapped := s.swapped.eraseIdx p.2 })

/-- The first candidate of a class, in both queues; the source has no case without one
(`selected_has_candidate`). -/
def popNextFairShareCandidate (s : Scheduler) : Option Candidate × Scheduler :=
  let (selected, fairShare) :=
    s.fairShare.select (s.waiting.map Request.priority ++ s.swapped.map RunningSequence.priority)
  let s := { s with fairShare := fairShare }
  match selected with
  | none => (none, s)
  | some priority =>
    let waiting := minBy (fun a b => (compare a.1.arrivedAt b.1.arrivedAt).then (compare a.1.id b.1.id))
      (s.waiting.zipIdx.filter fun p => p.1.priority = priority)
    let swapped := minBy (fun a b => (compare a.1.arrivedAt b.1.arrivedAt).then (compare a.1.requestId b.1.requestId))
      (s.swapped.zipIdx.filter fun p => p.1.priority = priority)
    match waiting, swapped with
    | some w, none => s.takeWaiting w
    | none, some p => s.takeSwapped p
    | some w, some p =>
      if w.1.arrivedAt < p.1.arrivedAt ∨ w.1.arrivedAt = p.1.arrivedAt ∧ w.1.id < p.1.requestId then s.takeWaiting w
      else s.takeSwapped p
    | none, none => (none, s)

def popNextCandidate (s : Scheduler) : Option Candidate × Scheduler :=
  if s.config.priorityPolicy = .fairShare then s.popNextFairShareCandidate
  else
    match s.bestWaiting, s.bestSwapped with
    | none, none => (none, s)
    | some w, none => s.takeWaiting w
    | none, some p => s.takeSwapped p
    | some w, some p =>
      if cmpCandidateKey s.config.priorityPolicy w.1.key p.1.key = .lt then s.takeWaiting w else s.takeSwapped p

/-! ### One iteration -/

/-- The loop that removes completed sequences, releasing their bytes. -/
def removeCompleted (s : Scheduler) : List RunningSequence → BudgetM (List RunningSequence)
  | [] => return []
  | sequence :: rest =>
    if sequence.generatedTokens < sequence.maxTokens then do
      let stillRunning ← s.removeCompleted rest
      return sequence :: stillRunning
    else do
      s.releaseBytes sequence.reservedBytes
      s.removeCompleted rest

/-- The loop of `apply_preemption`; `preempt` are the victims so far. -/
def preemptLoop : ℕ → Scheduler → List SequenceId → BudgetM (List SequenceId × Scheduler)
  | 0, s, preempt => return (preempt, s)
  | fuel + 1, s, preempt =>
    if s.hasCapacityForCandidate then return (preempt, s)
    else
      match s.bestWaiting, s.lowestPriorityRunning with
      | some best, some victim =>
        if best.1.priority.classIndex ≤ victim.1.priority.classIndex then return (preempt, s)
        else do
          s.releaseBytes victim.1.reservedBytes
          preemptLoop fuel
            { s with
              running := s.running.eraseIdx victim.2
              swapped := s.swapped ++ [{ victim.1 with reservedBytes := 0 }] }
            (preempt ++ [victim.1.seqId])
      | _, _ => return (preempt, s)

def applyPreemption (s : Scheduler) : BudgetM (List SequenceId × Scheduler) :=
  if s.config.preemptionPolicy = .disabled ∨ s.config.priorityPolicy = .fairShare ∨ s.running = [] ∨ s.waiting = [] then
    return ([], s)
  else preemptLoop s.running.length s []

/-- The loop that admits candidates while there is capacity. -/
def admitLoop : ℕ → Scheduler → ScheduleDecision → BudgetM (ScheduleDecision × Scheduler)
  | 0, s, decision => return (decision, s)
  | fuel + 1, s, decision =>
    if s.hasCapacityForCandidate then
      match s.popNextCandidate with
      | (none, s) => return (decision, s)
      | (some (.waiting request), s) => do
        match ← s.reserveOrCapRequest request with
        | .error _ => return (decision, { s with waiting := s.waiting ++ [request] })
        | .ok (request, bytes, budgetCap) =>
          admitLoop fuel (s.pushAdmittedRequest request bytes budgetCap)
            { decision with prefill := decision.prefill ++ [request.seqId] }
      | (some (.swapped sequence), s) => do
        let bytes := s.estimatedBytes sequence.promptTokens sequence.maxTokens
        match ← s.tryReserveBytes bytes with
        | .error _ => return (decision, { s with swapped := s.swapped ++ [sequence] })
        | .ok _ =>
          admitLoop fuel { s with running := s.running ++ [{ sequence with reservedBytes := bytes }] }
            { decision with swapIn := decision.swapIn ++ [sequence.seqId] }
    else return (decision, s)

/-- Called each iteration to decide what to run. -/
def schedule (s : Scheduler) : BudgetM (ScheduleDecision × Scheduler) := do
  let stillRunning ← s.removeCompleted s.running
  let s := { s with running := stillRunning }
  let previouslyRunning := s.running.map RunningSequence.seqId
  let (preempt, s) ← s.applyPreemption
  let (decision, s) ← admitLoop (s.waiting.length + s.swapped.length + 1) s ⟨[], [], preempt, []⟩
  return ({ decision with
    decode := (s.running.map RunningSequence.seqId).filter fun seqId => seqId ∈ previouslyRunning }, s)

/-! ### Progress and the end of a request -/

/-- Update the first element that `p` holds of. -/
def updateFirst {α : Type} (p : α → Bool) (f : α → α) : List α → List α
  | [] => []
  | a :: as => if p a then f a :: as else a :: updateFirst p f as

/-- Mark a sequence as having generated one more token. -/
def advance (s : Scheduler) (seqId : SequenceId) : Scheduler :=
  { s with
    running := updateFirst (fun r => r.seqId = seqId)
      (fun r => { r with generatedTokens := r.generatedTokens + 1 }) s.running }

/-- Remove the first running sequence that `p` holds of, releasing its bytes. -/
def removeRunning (s : Scheduler) (p : RunningSequence → Bool) : BudgetM Scheduler :=
  match s.running.find? p with
  | some sequence => do
    s.releaseBytes sequence.reservedBytes
    return { s with running := s.running.eraseP p }
  | none => return s

/-- Mark a sequence as completed. -/
def complete (s : Scheduler) (seqId : SequenceId) : BudgetM Scheduler := do
  let s ← s.removeRunning fun r => r.seqId = seqId
  return { s with swapped := s.swapped.filter fun r => r.seqId ≠ seqId }

/-- Cancel a queued or running request and release any hot-tier reservation it owns. -/
def cancelRequest (s : Scheduler) (requestId : ℕ) : BudgetM Scheduler := do
  let s ← { s with waiting := s.waiting.filter fun r => r.id ≠ requestId }.removeRunning
    fun r => r.requestId = requestId
  return { s with swapped := s.swapped.filter fun r => r.requestId ≠ requestId }

end Scheduler

end OnnxGenai.Batching
