import Mathlib

/-!
# Runs of a system

A system is given by its initial states, by the action `step s a` it takes in state `s`,
and by the actions that are `allowed` there. `Reachable` are the states of its runs; what
holds at the start and is kept by every allowed action holds in all of them.
-/

namespace OnnxGenai.Lib

variable {σ α : Type}

/-- The states of the runs of a system. -/
inductive Reachable (init : σ → Prop) (allowed : σ → α → Prop) (step : σ → α → σ) : σ → Prop where
  | start {s : σ} (h : init s) : Reachable init allowed step s
  | next {s : σ} {a : α} (h : Reachable init allowed step s) (ha : allowed s a) :
      Reachable init allowed step (step s a)

namespace Reachable

variable {init : σ → Prop} {allowed : σ → α → Prop} {step : σ → α → σ}

/-- **The invariant rule.** -/
theorem invariant {I : σ → Prop} (hinit : ∀ s, init s → I s)
    (hstep : ∀ s a, I s → allowed s a → I (step s a)) {s : σ} (h : Reachable init allowed step s) : I s := by
  induction h with
  | start h => exact hinit _ h
  | next _ ha ih => exact hstep _ _ ih ha

end Reachable

/-! ### Runs by a list of actions -/

/-- Every action of a list is allowed when its turn comes. -/
def AllAllowed (allowed : σ → α → Prop) (step : σ → α → σ) : σ → List α → Prop
  | _, [] => True
  | s, a :: as => allowed s a ∧ AllAllowed allowed step (step s a) as

instance decidableAllAllowed (allowed : σ → α → Prop) (step : σ → α → σ) [∀ s a, Decidable (allowed s a)] :
    ∀ (s : σ) (as : List α), Decidable (AllAllowed allowed step s as)
  | _, [] => inferInstanceAs (Decidable True)
  | s, a :: as =>
    have := decidableAllAllowed allowed step (step s a) as
    inferInstanceAs (Decidable (_ ∧ _))

/-- A list of allowed actions leads to a reachable state. -/
theorem Reachable.foldl {init : σ → Prop} {allowed : σ → α → Prop} {step : σ → α → σ} (as : List α) {s : σ}
    (h : Reachable init allowed step s) (has : AllAllowed allowed step s as) :
    Reachable init allowed step (as.foldl step s) := by
  induction as generalizing s with
  | nil => exact h
  | cons a as ih => exact ih (h.next has.1) has.2

end OnnxGenai.Lib
