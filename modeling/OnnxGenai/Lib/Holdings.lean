import OnnxGenai.Lib.FiniteMap

/-!
# What the tasks of a system hold

Tasks come and go; each holds some units of some resources, and what it holds depends only on
the stage it is at. `held` counts the units of one resource over all tasks. A resource that is
handed out one unit at a time is held by at most one task.
-/

namespace OnnxGenai.Lib

variable {τ σ ρ : Type} [DecidableEq τ] [DecidableEq ρ]

/-- The units of `r` the tasks hold together. -/
def held (holds : σ → List ρ) (tasks : FiniteMap τ σ) (r : ρ) : ℕ :=
  FiniteMap.total tasks fun stage => (holds stage).count r

/-- A task goes on with its next stage, or ends. -/
def settle (tasks : FiniteMap τ σ) (t : τ) : Option σ → FiniteMap τ σ
  | some next => tasks.insert t next
  | none => tasks.erase t

theorem lookup_settle (tasks : FiniteMap τ σ) (t u : τ) (next : Option σ) :
    (settle tasks t next).lookup u = if u = t then next else tasks.lookup u := by
  cases next with
  | some next => exact FiniteMap.lookup_insert' tasks t u next
  | none => exact FiniteMap.lookup_erase' tasks t u

variable {tasks : FiniteMap τ σ} {t : τ} {st : σ} {r : ρ}

theorem forall_settle {next : Option σ} {P : τ → σ → Prop} (hnew : ∀ st, next = some st → P t st)
    (hold : ∀ u st, u ≠ t → tasks.lookup u = some st → P u st) :
    ∀ u st, (settle tasks t next).lookup u = some st → P u st := by
  intro u st hu
  rw [lookup_settle] at hu
  split at hu
  case isTrue heq =>
    subst heq
    exact hnew st hu
  case isFalse hne => exact hold u st hne hu

variable (holds : σ → List ρ)

/-- A new task adds what it holds. -/
theorem held_insert (h : tasks.lookup t = none) (st : σ) (r : ρ) :
    held holds (tasks.insert t st) r = held holds tasks r + (holds st).count r := by
  have := FiniteMap.total_insert tasks (fun stage => (holds stage).count r) t st
  rw [h] at this
  exact this

/-- A task that goes on exchanges what it holds. -/
theorem held_settle (h : tasks.lookup t = some st) (next : Option σ) (r : ρ) :
    held holds (settle tasks t next) r + (holds st).count r =
      held holds tasks r + ((next.map holds).getD []).count r := by
  cases next with
  | some next =>
    have := FiniteMap.total_insert tasks (fun stage => (holds stage).count r) t next
    rw [h] at this
    exact this
  | none =>
    have := FiniteMap.total_erase tasks (fun stage => (holds stage).count r) t
    rw [h] at this
    exact this

theorem held_pos (h : tasks.lookup t = some st) (hr : r ∈ holds st) : 0 < held holds tasks r :=
  (List.count_pos_iff.mpr hr).trans_le (FiniteMap.le_total (fun stage => (holds stage).count r) h)

/-- What is held is held by some task. -/
theorem exists_holder (h : 0 < held holds tasks r) : ∃ t st, tasks.lookup t = some st ∧ r ∈ holds st := by
  obtain ⟨t, st, hst, hpos⟩ := FiniteMap.exists_of_total_pos h
  exact ⟨t, st, hst, List.count_pos_iff.mp hpos⟩

/-- A resource of which one unit is out is held by one task. -/
theorem holder_unique {u : τ} {st' : σ} (hone : held holds tasks r ≤ 1) (ht : tasks.lookup t = some st)
    (hr : r ∈ holds st) (hu : tasks.lookup u = some st') (hr' : r ∈ holds st') : t = u := by
  by_contra hne
  have hsum := FiniteMap.add_le_total (fun stage => (holds stage).count r) (Ne.symm hne) ht hu
  have h1 : 0 < (holds st).count r := List.count_pos_iff.mpr hr
  have h2 : 0 < (holds st').count r := List.count_pos_iff.mpr hr'
  have htotal : FiniteMap.total tasks (fun stage => (holds stage).count r) ≤ 1 := hone
  omega

end OnnxGenai.Lib
