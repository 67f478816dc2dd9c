import OnnxGenai.Lib.Calls

/-!
# The shared byte budget

`ByteBudget` (`byte_budget.rs`): bytes reserved against a limit that can be changed live and is
tightened by a live ceiling. Every method takes the budget's lock once, so it is one call that
the budget answers at once; `BudgetM` are the programs that make such calls. The ceiling is
asked for just before the lock is taken, and here together with it.
-/

namespace OnnxGenai.Batching

open Lib

/-- Over-budget rejection for a byte reservation. -/
structure ByteBudgetError where
  requested : ℕ
  used : ℕ
  limit : ℕ
  available : ℕ
  shortfall : ℕ
  deriving DecidableEq, Repr

/-- Successful reservation, perhaps of less than was requested. -/
structure ByteBudgetReservation where
  reserved : ℕ
  availableBefore : ℕ
  deriving DecidableEq, Repr

/-- The calls a scheduler makes. -/
inductive BudgetCall where
  | tryReserve (bytes : ℕ)
  | tryReserveAtMost (requested minimum unit : ℕ)
  | release (bytes : ℕ)
  | used
  | limit
  deriving DecidableEq, Repr

/-- What a call returns. -/
def BudgetCall.Answer : BudgetCall → Type
  | tryReserve _ => Except ByteBudgetError Unit
  | tryReserveAtMost _ _ _ => Except ByteBudgetError ByteBudgetReservation
  | release _ => Unit
  | used => ℕ
  | limit => ℕ

/-- Programs that call a byte budget. -/
abbrev BudgetM := Calls BudgetCall BudgetCall.Answer

namespace BudgetM

def tryReserve (bytes : ℕ) : BudgetM (Except ByteBudgetError Unit) := Calls.perform (BudgetCall.tryReserve bytes)

def tryReserveAtMost (requested minimum unit : ℕ) : BudgetM (Except ByteBudgetError ByteBudgetReservation) :=
  Calls.perform (BudgetCall.tryReserveAtMost requested minimum unit)

def release (bytes : ℕ) : BudgetM Unit := Calls.perform (BudgetCall.release bytes)

def used : BudgetM ℕ := Calls.perform BudgetCall.used

def limit : BudgetM ℕ := Calls.perform BudgetCall.limit

end BudgetM

/-- Answers to calls, in the order they are made. -/
abbrev Answers := ℕ → (call : BudgetCall) → call.Answer

/-- A shared, dynamic, cross-session KV byte budget. -/
structure ByteBudget where
  /-- The configured limit. -/
  configured : ℕ
  used : ℕ
  /-- What the `AdmissionCeiling` would report, if one is attached. -/
  ceiling : Option ℕ
  deriving DecidableEq, Repr

namespace ByteBudget

/-- A budget with an absolute byte limit. -/
def new (limitBytes : ℕ) : ByteBudget := ⟨limitBytes, 0, none⟩

/-- The byte ceiling in force. -/
def limit (budget : ByteBudget) : ℕ :=
  match budget.ceiling with
  | none => budget.configured
  | some live => min budget.configured live

/-- Bytes free. -/
def available (budget : ByteBudget) : ℕ := budget.limit - budget.used

def tryReserve (budget : ByteBudget) (bytes : ℕ) : Except ByteBudgetError Unit × ByteBudget :=
  if bytes > budget.available then
    (.error ⟨bytes, budget.used, budget.limit, budget.available, bytes - budget.available⟩, budget)
  else (.ok (), { budget with used := budget.used + bytes })

/-- `requested` bytes, or the largest multiple of `unit` that is available. -/
def fit (available requested unit : ℕ) : ℕ :=
  if requested ≤ available then requested
  else if unit = 0 then 0
  else available - available % unit

/-- Reserve `requested` bytes, or the largest multiple of `unit` that fits. -/
def tryReserveAtMost (budget : ByteBudget) (requested minimum unit : ℕ) :
    Except ByteBudgetError ByteBudgetReservation × ByteBudget :=
  let available := budget.available
  let reserved := fit available requested unit
  if reserved < minimum then
    (.error ⟨requested, budget.used, budget.limit, available, minimum - available⟩, budget)
  else (.ok ⟨reserved, available⟩, { budget with used := budget.used + reserved })

/-- Saturates at zero. -/
def release (budget : ByteBudget) (bytes : ℕ) : ByteBudget := { budget with used := budget.used - bytes }

/-- Result of a live `reconfigure`. -/
structure ReconfigureOutcome where
  oldLimit : ℕ
  newLimit : ℕ
  used : ℕ
  overage : ℕ
  deriving DecidableEq, Repr

/-- Replace the limit live. -/
def reconfigure (budget : ByteBudget) (newLimitBytes : ℕ) : ReconfigureOutcome × ByteBudget :=
  let budget' := { budget with configured := newLimitBytes }
  (⟨budget.configured, newLimitBytes, budget.used, budget.used - budget'.limit⟩, budget')

/-- One call. -/
def serve (budget : ByteBudget) : (call : BudgetCall) → call.Answer × ByteBudget
  | .tryReserve bytes => budget.tryReserve bytes
  | .tryReserveAtMost requested minimum unit => budget.tryReserveAtMost requested minimum unit
  | .release bytes => ((), budget.release bytes)
  | .used => (budget.used, budget)
  | .limit => (budget.limit, budget)

end ByteBudget

end OnnxGenai.Batching
