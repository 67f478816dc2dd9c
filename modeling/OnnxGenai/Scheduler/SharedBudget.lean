import OnnxGenai.Scheduler.Conservation

/-!
# Schedulers that share a byte budget

Any number of schedulers reserve and release bytes of one budget, and their calls interleave; the
limit and the live ceiling change in between. What the budget counts as used is what the running
sequences of all schedulers have reserved, and no sequence runs with less than its estimate.

The bytes a scheduler holds are a ghost value, which it may give back and no more: `release`
saturates at zero, so the budget itself would not notice. In the middle of an operation, between
two calls, the ghost value is ahead of or behind the running sequences; when the operation is
over it is what they have reserved.
-/

namespace OnnxGenai.Batching

open Lib Lib.Calls List Nat

/-- The bytes reserved by sequences. -/
def reservedTotal (l : List RunningSequence) : ℕ := (l.map RunningSequence.reservedBytes).sum

@[simp] theorem reservedTotal_cons (r : RunningSequence) (l : List RunningSequence) :
    reservedTotal (r :: l) = r.reservedBytes + reservedTotal l := by simp [reservedTotal]

@[simp] theorem reservedTotal_append (l l' : List RunningSequence) :
    reservedTotal (l ++ l') = reservedTotal l + reservedTotal l' := by simp [reservedTotal]

theorem reservedTotal_eraseIdx {l : List RunningSequence} {i : ℕ} {r : RunningSequence} (h : l[i]? = some r) :
    reservedTotal l = r.reservedBytes + reservedTotal (l.eraseIdx i) :=
  ((perm_eraseIdx h).map RunningSequence.reservedBytes).sum_eq.trans (by simp [reservedTotal])

theorem reservedTotal_eraseP {l : List RunningSequence} {p : RunningSequence → Bool} {r : RunningSequence}
    (h : l.find? p = some r) : reservedTotal l = r.reservedBytes + reservedTotal (l.eraseP p) := by
  induction l with
  | nil => cases h
  | cons a l ih =>
    by_cases ha : p a = true
    · rw [find?_cons_of_pos ha] at h
      cases h
      rw [eraseP_cons_of_pos ha, reservedTotal_cons]
    · rw [find?_cons_of_neg ha] at h
      rw [eraseP_cons_of_neg ha, reservedTotal_cons, reservedTotal_cons, ih h]
      omega

/-- What the calls do to the bytes a scheduler holds: it releases no more than those. -/
def budgetContract : Contract BudgetCall BudgetCall.Answer ℕ where
  pre held
    | .release bytes => bytes ≤ held
    | _ => True
  post held
    | .tryReserve bytes, .ok _, held' => held' = held + bytes
    | .tryReserve _, .error _, held' => held' = held
    | .tryReserveAtMost _ _ _, .ok reservation, held' => held' = held + reservation.reserved
    | .tryReserveAtMost _ _ _, .error _, held' => held' = held
    | .release bytes, _, held' => held' = held - bytes
    | .used, _, held' => held' = held
    | .limit, _, held' => held' = held

namespace Scheduler

/-- Nothing is swapped out with bytes, and nothing runs with less than its estimate. -/
structure Covered (s : Scheduler) : Prop where
  budget : s.byteBudget = true
  unit : s.config.bytesPerToken.isSome = true
  swapped : ∀ r ∈ s.swapped, r.reservedBytes = 0
  running : ∀ r ∈ s.running, s.estimatedBytes r.promptTokens r.maxTokens ≤ r.reservedBytes

/-- The scheduler is covered, and holds what its running sequences have reserved. -/
structure Holds (s : Scheduler) (held : ℕ) : Prop where
  covered : s.Covered
  held : held = reservedTotal s.running

/-! ### Reservations -/

section Reservations

variable {s : Scheduler} {held : ℕ}

theorem releaseBytes_meets (hb : s.byteBudget = true) {bytes : ℕ} {Q : Unit → ℕ → Prop} (hle : bytes ≤ held)
    (hQ : Q () (held - bytes)) : Meets budgetContract (s.releaseBytes bytes) held Q := by
  unfold releaseBytes
  rw [if_pos hb]
  refine Meets.perform hle fun _ held' hpost => ?_
  cases hpost
  exact hQ

theorem tryReserveBytes_meets (hb : s.byteBudget = true) {bytes : ℕ} {Q : Except ByteBudgetError Unit → ℕ → Prop}
    (herror : ∀ error, Q (.error error) held) (hok : Q (.ok ()) (held + bytes)) :
    Meets budgetContract (s.tryReserveBytes bytes) held Q := by
  unfold tryReserveBytes
  rw [if_pos hb]
  refine Meets.perform trivial fun answer held' hpost => ?_
  cases answer with
  | error error =>
    cases hpost
    exact herror error
  | ok u =>
    cases hpost
    exact hok

/-- Tokens that fit a reservation cost no more than it. -/
theorem estimatedBytes_maxTokens {promptTokens reserved n m : ℕ}
    (h : s.maxTokensForReservedBytes promptTokens reserved = some n) (hm : m ≤ n) :
    s.estimatedBytes promptTokens m ≤ reserved := by
  unfold maxTokensForReservedBytes at h
  unfold estimatedBytes
  cases hunit : s.config.bytesPerToken with
  | none =>
    rw [hunit] at h
    cases h
  | some bytesPerToken =>
    rw [hunit] at h
    dsimp only at h ⊢
    split at h
    case isTrue => cases h
    case isFalse =>
      split at h
      case isFalse => cases h
      case isTrue hlt =>
        cases h
        have htokens : min (promptTokens + m) u64Max ≤ reserved / bytesPerToken :=
          (min_le_left _ _).trans (by omega)
        calc min (min (promptTokens + m) u64Max * bytesPerToken) u64Max
            ≤ min (promptTokens + m) u64Max * bytesPerToken := min_le_left _ _
          _ ≤ reserved / bytesPerToken * bytesPerToken := mul_le_mul_right _ htokens
          _ ≤ reserved := div_mul_le_self _ _

/-- **A request is admitted with its estimate**, after the cap, or nothing is held for it. -/
theorem reserveOrCapRequest_meets (hb : s.byteBudget = true) (request : Request) :
    Meets budgetContract (s.reserveOrCapRequest request) held fun result held' =>
      match result with
      | .error _ => held' = held
      | .ok (admitted, bytes, _) =>
        held' = held + bytes ∧ s.estimatedBytes admitted.promptTokens admitted.maxTokens ≤ bytes ∧
          ∃ maxTokens, admitted = { request with maxTokens := maxTokens } := by
  simp only [reserveOrCapRequest]
  rw [if_pos hb]
  split
  · refine Meets.bind (Meets.perform trivial fun answer held' hpost => ?_)
    cases answer with
    | error error => exact hpost
    | ok u => exact ⟨hpost, le_rfl, request.maxTokens, rfl⟩
  · refine Meets.bind (Meets.perform trivial fun answer held' hpost => ?_)
    cases answer with
    | error error => exact hpost
    | ok reservation =>
      change held' = held + reservation.reserved at hpost
      dsimp only
      split
      case isTrue hall =>
        rw [hall] at hpost
        exact ⟨hpost, le_rfl, request.maxTokens, rfl⟩
      case isFalse =>
        split
        · refine Meets.bind (releaseBytes_meets hb (by omega) ?_)
          refine Meets.bind (Meets.perform trivial fun _ held₁ h₁ => ?_)
          refine Meets.bind (Meets.perform trivial fun _ held₂ h₂ => ?_)
          change held₁ = _ at h₁
          change held₂ = _ at h₂
          change held₂ = held
          omega
        · rename_i n hn
          exact ⟨hpost, estimatedBytes_maxTokens hn (min_le_left _ _), _, rfl⟩

end Reservations

/-! ### Operations -/

section Operations

variable {s : Scheduler} {held : ℕ}

/-- Taking sequences out keeps the others covered. -/
theorem Covered.of_subset (h : s.Covered) {s' : Scheduler} (hsetup : SameSetup s s')
    (hrunning : ∀ r ∈ s'.running, r ∈ s.running) (hswapped : ∀ r ∈ s'.swapped, r ∈ s.swapped) : s'.Covered where
  budget := hsetup.byteBudget.trans h.budget
  unit := by
    rw [hsetup.config]
    exact h.unit
  swapped r hr := h.swapped r (hswapped r hr)
  running r hr := by
    rw [estimatedBytes, hsetup.config]
    exact h.running r (hrunning r hr)

/-- One more running sequence, with its estimate. -/
theorem Covered.withRunning (h : s.Covered) {r : RunningSequence}
    (hr : s.estimatedBytes r.promptTokens r.maxTokens ≤ r.reservedBytes) :
    Covered { s with running := s.running ++ [r] } where
  budget := h.budget
  unit := h.unit
  swapped := h.swapped
  running q hq := by
    rcases mem_append.mp hq with hq | hq
    · exact h.running q hq
    · rw [mem_singleton.mp hq]
      exact hr

/-- One more swapped sequence, which holds nothing. -/
theorem Covered.park (h : s.Covered) {r : RunningSequence} (hr : r.reservedBytes = 0) :
    Covered { s with swapped := s.swapped ++ [r] } where
  budget := h.budget
  unit := h.unit
  swapped q hq := by
    rcases mem_append.mp hq with hq | hq
    · exact h.swapped q hq
    · rw [mem_singleton.mp hq]
      exact hr
  running := h.running

/-- Waiting requests hold nothing. -/
theorem Holds.requeue (h : s.Holds held) (waiting : List Request) (fairShare : FairSharePolicy) :
    Holds { s with waiting, fairShare } held :=
  ⟨h.covered.of_subset ⟨rfl, rfl, rfl, rfl⟩ (fun _ hr => hr) fun _ hr => hr, h.held⟩

/-- A sequence that starts brings its reservation. -/
theorem Holds.start (h : s.Holds held) {r : RunningSequence}
    (hr : s.estimatedBytes r.promptTokens r.maxTokens ≤ r.reservedBytes) :
    Holds { s with running := s.running ++ [r] } (held + r.reservedBytes) := by
  refine ⟨h.covered.withRunning hr, ?_⟩
  rw [reservedTotal_append, ← h.held]
  rfl

theorem removeCompleted_meets (hb : s.byteBudget = true) (held : ℕ) (l : List RunningSequence) :
    Meets budgetContract (s.removeCompleted l) (held + reservedTotal l) fun still held' =>
      still = l.filter RunningSequence.unfinished ∧ held' = held + reservedTotal still := by
  induction l generalizing held with
  | nil => exact ⟨rfl, rfl⟩
  | cons sequence rest ih =>
    unfold removeCompleted
    split
    case isTrue hlt =>
      have hcons : held + reservedTotal (sequence :: rest) = (held + sequence.reservedBytes) + reservedTotal rest := by
        rw [reservedTotal_cons]
        omega
      rw [hcons]
      refine Meets.bind ((ih _).mono fun still held' hstill => ?_)
      obtain ⟨rfl, rfl⟩ := hstill
      refine ⟨?_, ?_⟩
      · rw [filter_cons_of_pos (by simpa [RunningSequence.unfinished] using hlt)]
      · rw [reservedTotal_cons]
        omega
    case isFalse hge =>
      refine Meets.bind (releaseBytes_meets hb (by rw [reservedTotal_cons]; omega) ?_)
      have hcons : held + reservedTotal (sequence :: rest) - sequence.reservedBytes = held + reservedTotal rest := by
        rw [reservedTotal_cons]
        omega
      rw [hcons]
      refine (ih _).mono fun still held' hstill => ⟨?_, hstill.2⟩
      rw [hstill.1, filter_cons_of_neg (by simpa [RunningSequence.unfinished] using hge)]

theorem preemptLoop_meets (fuel : ℕ) (h : s.Holds held) (preempt : List SequenceId) :
    Meets budgetContract (preemptLoop fuel s preempt) held fun result held' => result.2.Holds held' := by
  induction fuel generalizing s held preempt with
  | zero => exact h
  | succ fuel ih =>
    unfold preemptLoop
    split
    · exact h
    · split
      · rename_i best victim hbest hvictim
        split
        · exact h
        · have hmem := minBy_getElem? hvictim
          have htotal := reservedTotal_eraseIdx hmem
          have hheld := h.held
          refine Meets.bind (releaseBytes_meets h.covered.budget (by omega) (ih ⟨?_, ?_⟩ _))
          · have hrest : Covered { s with running := s.running.eraseIdx victim.2 } :=
              h.covered.of_subset ⟨rfl, rfl, rfl, rfl⟩ (fun r => mem_of_mem_eraseIdx) fun r hr => hr
            exact hrest.park rfl
          · show held - victim.1.reservedBytes = reservedTotal (s.running.eraseIdx victim.2)
            omega
      · exact h

theorem applyPreemption_meets (h : s.Holds held) :
    Meets budgetContract s.applyPreemption held fun result held' => result.2.Holds held' := by
  unfold applyPreemption
  split
  · exact h
  · exact preemptLoop_meets _ h _

theorem admitLoop_meets (fuel : ℕ) (h : s.Holds held) (decision : ScheduleDecision) :
    Meets budgetContract (admitLoop fuel s decision) held fun result held' => result.2.Holds held' := by
  induction fuel generalizing s held decision with
  | zero => exact h
  | succ fuel ih =>
    unfold admitLoop
    split
    case isFalse => exact h
    case isTrue =>
      have hpop := popNextCandidate_popped s
      generalize s.popNextCandidate = popped at hpop ⊢
      obtain ⟨candidate, s'⟩ := popped
      cases hpop with
      | none fairShare hw hs => exact h.requeue _ _
      | @waiting request i fairShare hi =>
        have hpopped := h.requeue (s.waiting.eraseIdx i) fairShare
        refine Meets.bind ((reserveOrCapRequest_meets hpopped.covered.budget request).mono fun result held' hresult => ?_)
        cases result with
        | error _ =>
          subst hresult
          exact hpopped.requeue _ _
        | ok admitted =>
          obtain ⟨admitted, bytes, cap⟩ := admitted
          obtain ⟨rfl, hestimate, maxTokens, rfl⟩ := hresult
          exact ih (hpopped.start hestimate) _
      | @swapped sequence i fairShare hi =>
        have hpopped : Holds { s with swapped := s.swapped.eraseIdx i, fairShare := fairShare } held :=
          ⟨h.covered.of_subset ⟨rfl, rfl, rfl, rfl⟩ (fun r hr => hr) fun r => mem_of_mem_eraseIdx, h.held⟩
        refine Meets.bind (tryReserveBytes_meets hpopped.covered.budget (fun error => ?_) ?_)
        · exact ⟨hpopped.covered.park (h.covered.swapped sequence (mem_of_getElem? hi)), h.held⟩
        · exact ih (hpopped.start le_rfl) _

section

variable (h : s.Holds held)

include h

theorem schedule_meets : Meets budgetContract s.schedule held fun result held' => result.2.Holds held' := by
  have hremove := removeCompleted_meets h.covered.budget 0 s.running
  rw [zero_add, ← h.held] at hremove
  refine Meets.bind (hremove.mono fun still held' hstill => ?_)
  obtain ⟨rfl, rfl⟩ := hstill
  have hholds : Holds { s with running := s.running.filter RunningSequence.unfinished }
      (0 + reservedTotal (s.running.filter RunningSequence.unfinished)) := by
    refine ⟨h.covered.of_subset ⟨rfl, rfl, rfl, rfl⟩ (fun r hr => (mem_filter.mp hr).1) fun r hr => hr, ?_⟩
    exact zero_add _
  refine Meets.bind ((applyPreemption_meets hholds).mono fun result held₁ h₁ => ?_)
  refine Meets.bind ((admitLoop_meets _ h₁ _).mono fun result held₂ h₂ => ?_)
  exact h₂

theorem driveNextFcfsResult_meets :
    Meets budgetContract s.driveNextFcfsResult held fun result held' => result.2.Holds held' := by
  unfold driveNextFcfsResult
  split
  · exact h
  · cases hw : s.waiting with
    | nil => exact h
    | cons request rest =>
      have hpopped := h.requeue rest s.fairShare
      refine Meets.bind ((reserveOrCapRequest_meets hpopped.covered.budget request).mono fun result held' hresult => ?_)
      cases result with
      | error _ =>
        subst hresult
        exact hpopped.requeue _ _
      | ok admitted =>
        obtain ⟨admitted, bytes, cap⟩ := admitted
        obtain ⟨rfl, hestimate, maxTokens, rfl⟩ := hresult
        exact hpopped.start hestimate

theorem removeRunning_meets (p : RunningSequence → Bool) :
    Meets budgetContract (s.removeRunning p) held fun s' held' => s'.Holds held' := by
  unfold removeRunning
  split
  · rename_i sequence hfind
    have htotal := reservedTotal_eraseP hfind
    have hheld := h.held
    refine Meets.bind (releaseBytes_meets h.covered.budget (by omega) ⟨?_, ?_⟩)
    · exact h.covered.of_subset ⟨rfl, rfl, rfl, rfl⟩ (fun _ => mem_of_mem_eraseP) fun _ hr => hr
    · show held - sequence.reservedBytes = reservedTotal (s.running.eraseP p)
      omega
  · exact h

/-- Dropping swapped sequences releases nothing, as they hold nothing. -/
theorem Holds.filterSwapped (p : RunningSequence → Bool) : Holds { s with swapped := s.swapped.filter p } held :=
  ⟨h.covered.of_subset ⟨rfl, rfl, rfl, rfl⟩ (fun _ hr => hr) fun _ hr => (mem_filter.mp hr).1, h.held⟩

theorem complete_meets (seqId : SequenceId) :
    Meets budgetContract (s.complete seqId) held fun s' held' => s'.Holds held' :=
  Meets.bind ((removeRunning_meets h _).mono fun _ _ ht => ht.filterSwapped _)

theorem cancelRequest_meets (requestId : ℕ) :
    Meets budgetContract (s.cancelRequest requestId) held fun s' held' => s'.Holds held' := by
  have hqueue := h.requeue (s.waiting.filter fun r => r.id ≠ requestId) s.fairShare
  exact Meets.bind ((removeRunning_meets hqueue _).mono fun _ _ ht => ht.filterSwapped _)

theorem addRequest_holds (seqId : SequenceId) (promptTokens maxTokens : ℕ) (priority : Priority) :
    (s.addRequest seqId promptTokens maxTokens priority).2.Holds held :=
  ⟨⟨h.covered.budget, h.covered.unit, h.covered.swapped, h.covered.running⟩, h.held⟩

/-- A token more changes neither the reservation nor the estimate. -/
theorem advance_holds (seqId : SequenceId) : (s.advance seqId).Holds held := by
  have hsame : (s.advance seqId).running.map (fun r => (r.promptTokens, r.maxTokens, r.reservedBytes)) =
      s.running.map fun r => (r.promptTokens, r.maxTokens, r.reservedBytes) := by
    refine map_updateFirst _ _ _ ?_ _
    exact fun _ => rfl
  refine ⟨⟨h.covered.budget, h.covered.unit, h.covered.swapped, fun r hr => ?_⟩, ?_⟩
  · have hmem := mem_map_of_mem (f := fun r : RunningSequence => (r.promptTokens, r.maxTokens, r.reservedBytes)) hr
    rw [hsame] at hmem
    obtain ⟨q, hq, heq⟩ := mem_map.mp hmem
    simp only [Prod.mk.injEq] at heq
    rw [← heq.1, ← heq.2.1, ← heq.2.2]
    exact h.covered.running q hq
  · have hbytes := congrArg (fun l => (l.map fun t : ℕ × ℕ × ℕ => t.2.2).sum) hsame
    simp only [map_map] at hbytes
    rw [h.held]
    exact hbytes.symm

/-- **Every operation keeps the accounts.** -/
theorem perform_meets (op : Operation) :
    Meets budgetContract (s.perform op) held fun s' held' => s'.Holds held' := by
  cases op with
  | addRequest seqId promptTokens maxTokens priority => exact addRequest_holds h _ _ _ _
  | driveNextFcfsResult => exact Meets.bind ((driveNextFcfsResult_meets h).mono fun _ _ h' => h')
  | schedule => exact Meets.bind ((schedule_meets h).mono fun _ _ h' => h')
  | advance seqId => exact advance_holds h seqId
  | complete seqId => exact complete_meets h seqId
  | cancelRequest requestId => exact cancelRequest_meets h requestId

end

end Operations

end Scheduler

/-! ### Many schedulers -/

/-- Schedulers, one for each `i`, that share a budget. -/
abbrev Device (ι : Type) := Shared BudgetCall BudgetCall.Answer ι ByteBudget Scheduler

/-- What happens on a device. -/
inductive DeviceAction (ι : Type) where
  /-- Scheduler `i` starts an operation. -/
  | start (i : ι) (op : Operation)
  /-- The next call of scheduler `i` is served. -/
  | turn (i : ι)
  | reconfigure (newLimitBytes : ℕ)
  /-- The live ceiling changes. -/
  | ceiling (live : Option ℕ)

namespace Device

variable {ι : Type} [DecidableEq ι]

def step (w : Device ι) : DeviceAction ι → Device ι
  | .start i op => Shared.start (fun s => s.perform op) w i
  | .turn i => Shared.turn ByteBudget.serve w i
  | .reconfigure newLimitBytes => { w with server := (w.server.reconfigure newLimitBytes).2 }
  | .ceiling live => { w with server := { w.server with ceiling := live } }

/-- A new budget, and new schedulers that use it. -/
def Initial (w : Device ι) : Prop :=
  w.server.used = 0 ∧ ∀ i, ∃ config fairShare, config.bytesPerToken.isSome = true ∧
    w.clients i = .done { Scheduler.withByteBudget config with fairShare := fairShare }

/-- The runs of a device. -/
def Reaches (w : Device ι) : Prop := Reachable Initial (fun _ _ => True) step w

section Accounts

variable [Fintype ι]

/-- The budget counts what the schedulers hold. -/
def Counted (budget : ByteBudget) (held : ι → ℕ) : Prop := budget.used = ∑ i, held i

theorem sum_update (held : ι → ℕ) (i : ι) (n : ℕ) : ∑ j, Function.update held i n j + held i = ∑ j, held j + n := by
  rw [Finset.sum_update_of_mem (Finset.mem_univ i), ← Finset.add_sum_erase _ held (Finset.mem_univ i),
    Finset.sdiff_singleton_eq_erase]
  omega

/-- **The budget serves by the contract.** -/
theorem serve_counted (budget : ByteBudget) (held : ι → ℕ) (i : ι) (call : BudgetCall) (hc : Counted budget held)
    (hpre : budgetContract.pre (held i) call) :
    ∃ held', budgetContract.post (held i) call (budget.serve call).1 held' ∧
      Counted (budget.serve call).2 (Function.update held i held') := by
  unfold Counted at hc ⊢
  cases call with
  | tryReserve bytes =>
    have hsum := sum_update held i (held i + bytes)
    simp only [ByteBudget.serve, ByteBudget.tryReserve]
    split
    · exact ⟨held i, rfl, by rw [Function.update_eq_self]; exact hc⟩
    · refine ⟨held i + bytes, rfl, ?_⟩
      dsimp only
      omega
  | tryReserveAtMost requested minimum unit =>
    simp only [ByteBudget.serve, ByteBudget.tryReserveAtMost]
    split
    · exact ⟨held i, rfl, by rw [Function.update_eq_self]; exact hc⟩
    · refine ⟨_, rfl, ?_⟩
      have hsum := sum_update held i (held i + ByteBudget.fit budget.available requested unit)
      dsimp only
      omega
  | release bytes =>
    refine ⟨held i - bytes, rfl, ?_⟩
    have hsum := sum_update held i (held i - bytes)
    have hle : bytes ≤ held i := hpre
    simp only [ByteBudget.serve, ByteBudget.release]
    omega
  | used | limit => exact ⟨held i, rfl, by rw [Function.update_eq_self]; exact hc⟩

/-- The accounts of a device. -/
def Accounted (w : Device ι) : Prop := Shared.Accounts budgetContract Counted (fun _ => Scheduler.Holds) w

omit [DecidableEq ι] in
theorem Accounted.initial {w : Device ι} (h : w.Initial) : w.Accounted := by
  refine ⟨fun _ => 0, ?_, fun i => ?_⟩
  · unfold Counted
    rw [h.1, Finset.sum_const_zero]
  · obtain ⟨config, fairShare, hunit, hclient⟩ := h.2 i
    rw [hclient]
    exact ⟨⟨rfl, hunit, fun r hr => absurd hr not_mem_nil, fun r hr => absurd hr not_mem_nil⟩, rfl⟩

theorem Accounted.step {w : Device ι} (h : w.Accounted) (a : DeviceAction ι) : (w.step a).Accounted := by
  cases a with
  | start i op => exact Shared.Accounts.start h fun s held hs => Scheduler.perform_meets hs op
  | turn i => exact Shared.Accounts.turn h serve_counted i
  | reconfigure | ceiling => exact h.environment fun held hc => hc

theorem Reaches.accounted {w : Device ι} (h : w.Reaches) : w.Accounted :=
  Reachable.invariant (I := Accounted) (fun _ => Accounted.initial) (fun _ a hw _ => hw.step a) h

end Accounts

/-- Two new schedulers with a budget. -/
def pair (limitBytes : ℕ) (bytesPerToken : Fin 2 → ℕ) : Device (Fin 2) :=
  ⟨.new limitBytes, fun i => .done (Scheduler.withByteBudget ⟨4, 100, .fcfs, .disabled, some (bytesPerToken i)⟩)⟩

end Device

end OnnxGenai.Batching
