import OnnxGenai.Scheduler.Batching

/-!
# What an operation moves

Requests are followed by their tags, the request id and the sequence id, which never change. For
each operation of the scheduler it is said here which tags it moves from one of the three lists
to another, whatever the byte budget answers.
-/

namespace OnnxGenai.Batching

open Lib Lib.Calls List

/-- What identifies a request: its id and its sequence. -/
abbrev Tag := ℕ × SequenceId

def Request.tag (r : Request) : Tag := (r.id, r.seqId)

def RunningSequence.tag (s : RunningSequence) : Tag := (s.requestId, s.seqId)

/-- A sequence that may generate more tokens. -/
def RunningSequence.unfinished (s : RunningSequence) : Bool := decide (s.generatedTokens < s.maxTokens)

namespace Scheduler

def waitingTags (s : Scheduler) : List Tag := s.waiting.map Request.tag

def runningTags (s : Scheduler) : List Tag := s.running.map RunningSequence.tag

def swappedTags (s : Scheduler) : List Tag := s.swapped.map RunningSequence.tag

/-- The running sequences that `schedule` keeps. -/
def unfinishedTags (s : Scheduler) : List Tag := (s.running.filter RunningSequence.unfinished).map RunningSequence.tag

/-- The requests the scheduler has. -/
def tags (s : Scheduler) : List Tag := s.waitingTags ++ s.runningTags ++ s.swappedTags

/-- What no operation but `addRequest` changes. -/
structure SameSetup (s s' : Scheduler) : Prop where
  config : s'.config = s.config
  nextRequestId : s'.nextRequestId = s.nextRequestId
  clock : s'.clock = s.clock
  byteBudget : s'.byteBudget = s.byteBudget

theorem SameSetup.refl (s : Scheduler) : SameSetup s s := ⟨rfl, rfl, rfl, rfl⟩

theorem SameSetup.after {s t u : Scheduler} (h' : SameSetup t u) (h : SameSetup s t) : SameSetup s u :=
  ⟨h'.config.trans h.config, h'.nextRequestId.trans h.nextRequestId, h'.clock.trans h.clock,
    h'.byteBudget.trans h.byteBudget⟩

/-! ### Reservations -/

theorem releaseBytes_every (s : Scheduler) (bytes : ℕ) {Q : Unit → Prop} (h : Q ()) : Every (s.releaseBytes bytes) Q := by
  unfold releaseBytes
  split
  · exact .perform fun _ => h
  · exact .done h

theorem tryReserveBytes_every (s : Scheduler) (bytes : ℕ) {Q : Except ByteBudgetError Unit → Prop} (h : ∀ r, Q r) :
    Every (s.tryReserveBytes bytes) Q := by
  unfold tryReserveBytes
  split
  · exact .perform h
  · exact .done (h _)

/-- A request that is admitted is the one that was popped, but for its ceiling. -/
theorem reserveOrCapRequest_every (s : Scheduler) (request : Request) :
    Every (s.reserveOrCapRequest request) fun result =>
      ∀ admitted bytes cap, result = .ok (admitted, bytes, cap) →
        ∃ maxTokens, admitted = { request with maxTokens := maxTokens } := by
  have hsame : ∀ bytes cap, ∀ admitted bytes' cap',
      (Except.ok (request, bytes, cap) : Except SchedulerAdmissionError (Request × ℕ × Option ScheduledBudgetCap)) =
        .ok (admitted, bytes', cap') → ∃ maxTokens, admitted = { request with maxTokens := maxTokens } := by
    intro bytes cap admitted bytes' cap' h
    cases h
    exact ⟨request.maxTokens, rfl⟩
  simp only [reserveOrCapRequest]
  split
  case isFalse => exact .done (hsame _ _)
  case isTrue =>
    split
    · refine .bind (.perform fun answer => ?_)
      cases answer with
      | error error => exact .done fun _ _ _ h => nomatch h
      | ok _ => exact .done (hsame _ _)
    · refine .bind (.perform fun answer => ?_)
      cases answer with
      | error error => exact .done fun _ _ _ h => nomatch h
      | ok reservation =>
        dsimp only
        split
        · exact .done (hsame _ _)
        · split
          · refine .bind (releaseBytes_every _ _ ?_)
            refine .bind (.perform fun _ => .bind (.perform fun _ => ?_))
            exact .done fun _ _ _ h => nomatch h
          · refine .done fun _ _ _ h => ?_
            cases h
            exact ⟨_, rfl⟩

/-! ### Popping a candidate -/

/-- What popping a candidate does to the queues. -/
inductive Popped (s : Scheduler) : Option Candidate → Scheduler → Prop where
  /-- There is none. -/
  | none (fairShare : FairSharePolicy) (hw : s.waiting = []) (hs : s.swapped = []) :
      Popped s none { s with fairShare := fairShare }
  /-- A waiting request. -/
  | waiting {r : Request} {i : ℕ} (fairShare : FairSharePolicy) (h : s.waiting[i]? = some r) :
      Popped s (some (.waiting r)) { s with waiting := s.waiting.eraseIdx i, fairShare := fairShare }
  /-- A swapped sequence. -/
  | swapped {q : RunningSequence} {i : ℕ} (fairShare : FairSharePolicy) (h : s.swapped[i]? = some q) :
      Popped s (some (.swapped q)) { s with swapped := s.swapped.eraseIdx i, fairShare := fairShare }

/-- The selected class has a candidate, in one of the queues. -/
theorem selected_has_candidate {s : Scheduler} {p : Priority}
    (h : p ∈ s.waiting.map Request.priority ++ s.swapped.map RunningSequence.priority) :
    (s.waiting.zipIdx.filter fun w => w.1.priority = p) ≠ [] ∨ (s.swapped.zipIdx.filter fun q => q.1.priority = p) ≠ [] := by
  rcases mem_append.mp h with h | h
  · obtain ⟨r, hr, rfl⟩ := mem_map.mp h
    obtain ⟨i, hi⟩ := mem_iff_getElem?.mp hr
    refine .inl (ne_nil_of_mem (a := (r, i)) (mem_filter.mpr ⟨?_, by simp⟩))
    exact mem_zipIdx_iff_getElem?.mpr hi
  · obtain ⟨q, hq, rfl⟩ := mem_map.mp h
    obtain ⟨i, hi⟩ := mem_iff_getElem?.mp hq
    refine .inr (ne_nil_of_mem (a := (q, i)) (mem_filter.mpr ⟨?_, by simp⟩))
    exact mem_zipIdx_iff_getElem?.mpr hi

theorem minBy_filter_getElem? {α : Type} {cmp : α × ℕ → α × ℕ → Ordering} {f : α × ℕ → Bool} {l : List α} {m : α × ℕ}
    (h : minBy cmp (l.zipIdx.filter f) = some m) : l[m.2]? = some m.1 :=
  mem_zipIdx_iff_getElem?.mp (mem_filter.mp (minBy_mem h)).1

theorem popNextFairShareCandidate_popped (s : Scheduler) :
    Popped s s.popNextFairShareCandidate.1 s.popNextFairShareCandidate.2 := by
  simp only [popNextFairShareCandidate]
  generalize hsel : s.fairShare.select (s.waiting.map Request.priority ++ s.swapped.map RunningSequence.priority) = r
  obtain ⟨selected, fairShare⟩ := r
  have hfst : (s.fairShare.select (s.waiting.map Request.priority ++ s.swapped.map RunningSequence.priority)).1 = selected := by
    rw [hsel]
  cases selected with
  | none =>
    have hempty := FairSharePolicy.select_eq_none.mp hfst
    rw [append_eq_nil_iff, map_eq_nil_iff, map_eq_nil_iff] at hempty
    exact .none _ hempty.1 hempty.2
  | some priority =>
    dsimp only
    split
    · rename_i w hw _
      exact .waiting _ (minBy_filter_getElem? hw)
    · rename_i p _ hp
      exact .swapped _ (minBy_filter_getElem? hp)
    · rename_i w p hw hp
      split
      · exact .waiting _ (minBy_filter_getElem? hw)
      · exact .swapped _ (minBy_filter_getElem? hp)
    · rename_i hw hp
      rcases selected_has_candidate (FairSharePolicy.select_mem hfst) with h | h
      · exact absurd (minBy_eq_none.mp hw) h
      · exact absurd (minBy_eq_none.mp hp) h

theorem minBy_getElem? {α : Type} {cmp : α × ℕ → α × ℕ → Ordering} {l : List α} {m : α × ℕ}
    (h : minBy cmp l.zipIdx = some m) : l[m.2]? = some m.1 := mem_zipIdx_iff_getElem?.mp (minBy_mem h)

theorem bestWaiting_eq_none {s : Scheduler} : s.bestWaiting = none ↔ s.waiting = [] := by
  simp [bestWaiting]

theorem bestSwapped_eq_none {s : Scheduler} : s.bestSwapped = none ↔ s.swapped = [] := by
  simp [bestSwapped]

theorem popNextCandidate_popped (s : Scheduler) : Popped s s.popNextCandidate.1 s.popNextCandidate.2 := by
  unfold popNextCandidate
  split
  · exact popNextFairShareCandidate_popped s
  · split
    · rename_i hw hs
      exact .none s.fairShare (bestWaiting_eq_none.mp hw) (bestSwapped_eq_none.mp hs)
    · rename_i w hw _
      exact .waiting s.fairShare (minBy_getElem? hw)
    · rename_i p _ hp
      exact .swapped s.fairShare (minBy_getElem? hp)
    · rename_i w p hw hp
      split
      · exact .waiting s.fairShare (minBy_getElem? hw)
      · exact .swapped s.fairShare (minBy_getElem? hp)

/-- Popping takes the candidate out of its queue. -/
theorem Popped.count {s s' : Scheduler} {c : Candidate} (h : Popped s (some c) s') :
    s'.waiting.length + s'.swapped.length + 1 = s.waiting.length + s.swapped.length := by
  cases h with
  | waiting _ h | swapped _ h =>
    have hlt := (List.getElem?_eq_some_iff.mp h).1
    simp only [length_eraseIdx, hlt, if_true]
    omega

/-! ### The loops end -/

/-- More turns than there are candidates change nothing. -/
theorem admitLoop_fuel {s : Scheduler} {fuel : ℕ} (h : s.waiting.length + s.swapped.length < fuel)
    (decision : ScheduleDecision) : admitLoop (fuel + 1) s decision = admitLoop fuel s decision := by
  induction fuel generalizing s decision with
  | zero => cases h
  | succ fuel ih =>
    unfold admitLoop
    split
    case isFalse => rfl
    case isTrue =>
      have hpop := popNextCandidate_popped s
      generalize s.popNextCandidate = popped at hpop ⊢
      obtain ⟨candidate, s'⟩ := popped
      cases candidate with
      | none => rfl
      | some candidate =>
        have hcount := hpop.count
        have hlt : s'.waiting.length + s'.swapped.length < fuel := by dsimp only at hcount; omega
        cases candidate with
        | waiting request =>
          refine bind_congr_fun fun result => ?_
          cases result with
          | error _ => rfl
          | ok admitted =>
            refine ih ?_ _
            exact hlt
        | swapped sequence =>
          refine bind_congr_fun fun result => ?_
          cases result with
          | error _ => rfl
          | ok _ =>
            refine ih ?_ _
            exact hlt

/-- More turns than there are running sequences change nothing. -/
theorem preemptLoop_fuel {s : Scheduler} {fuel : ℕ} (h : s.running.length ≤ fuel) (preempt : List SequenceId) :
    preemptLoop (fuel + 1) s preempt = preemptLoop fuel s preempt := by
  induction fuel generalizing s preempt with
  | zero =>
    have hempty : s.running = [] := length_eq_zero_iff.mp (Nat.le_zero.mp h)
    have hnone : s.lowestPriorityRunning = none := by simp [lowestPriorityRunning, hempty]
    unfold preemptLoop
    split
    · rfl
    · rw [hnone]
      cases s.bestWaiting <;> rfl
  | succ fuel ih =>
    unfold preemptLoop
    split
    · rfl
    · cases hbest : s.bestWaiting with
      | none => rfl
      | some best =>
        cases hvictim : s.lowestPriorityRunning with
        | none => rfl
        | some victim =>
          dsimp only
          split
          · rfl
          · have hlt := (List.getElem?_eq_some_iff.mp (minBy_getElem? hvictim)).1
            refine bind_congr_fun fun _ => ih ?_ _
            simp only [length_eraseIdx, hlt, if_true]
            omega

/-! ### Removing, preempting, admitting -/

theorem removeCompleted_every (s : Scheduler) (l : List RunningSequence) :
    Every (s.removeCompleted l) fun still => still = l.filter RunningSequence.unfinished := by
  induction l with
  | nil => exact .done rfl
  | cons sequence rest ih =>
    unfold removeCompleted
    split
    case isTrue hlt =>
      refine .bind (ih.mono fun still hstill => .done ?_)
      rw [hstill, filter_cons_of_pos (by simpa [RunningSequence.unfinished] using hlt)]
    case isFalse hge =>
      refine .bind (releaseBytes_every _ _ (ih.mono fun still hstill => ?_))
      rw [hstill, filter_cons_of_neg (by simpa [RunningSequence.unfinished] using hge)]

/-- The victims `V` were swapped out. -/
structure Preempted (s : Scheduler) (preempt : List SequenceId) (preempt' : List SequenceId) (s' : Scheduler)
    (V : List Tag) : Prop where
  setup : SameSetup s s'
  preempt : preempt' = preempt ++ V.map Prod.snd
  waiting : s'.waiting = s.waiting
  running : s.runningTags.Perm (s'.runningTags ++ V)
  swapped : s'.swappedTags = s.swappedTags ++ V

theorem Preempted.refl (s : Scheduler) (preempt : List SequenceId) : Preempted s preempt preempt s [] where
  setup := .refl s
  preempt := by simp
  waiting := rfl
  running := by simp
  swapped := by simp

theorem preemptLoop_every (fuel : ℕ) (s : Scheduler) (preempt : List SequenceId) :
    Every (preemptLoop fuel s preempt) fun result => ∃ V, Preempted s preempt result.1 result.2 V := by
  induction fuel generalizing s preempt with
  | zero => exact .done ⟨[], .refl s preempt⟩
  | succ fuel ih =>
    unfold preemptLoop
    split
    · exact .done ⟨[], .refl s preempt⟩
    · split
      · rename_i best victim hbest hvictim
        split
        · exact .done ⟨[], .refl s preempt⟩
        · refine .bind (releaseBytes_every _ _ ((ih _ _).mono fun result hV => ?_))
          obtain ⟨V, hV⟩ := hV
          have hperm := (perm_eraseIdx (minBy_getElem? hvictim)).map RunningSequence.tag
          refine ⟨victim.1.tag :: V, hV.setup.after ⟨rfl, rfl, rfl, rfl⟩, ?_, hV.waiting, ?_, ?_⟩
          · rw [hV.preempt]
            simp [RunningSequence.tag]
          · refine hperm.trans ((List.Perm.cons _ hV.running).trans ?_)
            exact perm_middle.symm
          · rw [hV.swapped]
            simp [swappedTags, RunningSequence.tag]
      · exact .done ⟨[], .refl s preempt⟩

theorem applyPreemption_every (s : Scheduler) :
    Every s.applyPreemption fun result => ∃ V, Preempted s [] result.1 result.2 V := by
  unfold applyPreemption
  split
  · exact .done ⟨[], .refl s []⟩
  · exact preemptLoop_every _ _ _

/-- The waiting requests `P` and the swapped sequences `Q` were admitted. -/
structure Admitted (s : Scheduler) (decision decision' : ScheduleDecision) (s' : Scheduler) (P Q : List Tag) : Prop where
  setup : SameSetup s s'
  decision : decision' = { decision with
    prefill := decision.prefill ++ P.map Prod.snd, swapIn := decision.swapIn ++ Q.map Prod.snd }
  running : s'.runningTags.Perm (s.runningTags ++ (P ++ Q))
  waiting : s.waitingTags.Perm (s'.waitingTags ++ P)
  swapped : s.swappedTags.Perm (s'.swappedTags ++ Q)
  bound : s.running.length ≤ s.config.maxBatchSize → s'.running.length ≤ s.config.maxBatchSize

theorem Admitted.refl (s : Scheduler) (decision : ScheduleDecision) : Admitted s decision decision s [] [] where
  setup := .refl s
  decision := by simp
  running := by simp
  waiting := by simp
  swapped := by simp
  bound h := h

theorem length_lt_of_hasCapacity {s : Scheduler} (h : s.hasCapacityForCandidate = true) :
    s.running.length < s.config.maxBatchSize := by
  simp only [hasCapacityForCandidate, Bool.and_eq_true, decide_eq_true_eq] at h
  exact h.1

theorem admitLoop_every (fuel : ℕ) (s : Scheduler) (decision : ScheduleDecision) :
    Every (admitLoop fuel s decision) fun result => ∃ P Q, Admitted s decision result.1 result.2 P Q := by
  induction fuel generalizing s decision with
  | zero => exact .done ⟨[], [], .refl s decision⟩
  | succ fuel ih =>
    unfold admitLoop
    split
    case isFalse => exact .done ⟨[], [], .refl s decision⟩
    case isTrue hcapacity =>
      have hroom := length_lt_of_hasCapacity hcapacity
      have hpop := popNextCandidate_popped s
      generalize s.popNextCandidate = popped at hpop ⊢
      obtain ⟨candidate, s'⟩ := popped
      cases hpop with
      | none fairShare hw hs =>
        exact .done ⟨[], [], ⟨⟨rfl, rfl, rfl, rfl⟩, by simp, by simp [runningTags],
          by simp [waitingTags], by simp [swappedTags], fun h => h⟩⟩
      | @waiting request i fairShare hi =>
        have hperm := (perm_eraseIdx hi).map Request.tag
        refine .bind ((reserveOrCapRequest_every _ request).mono fun result hresult => ?_)
        cases result with
        | error _ =>
          refine .done ⟨[], [], ⟨⟨rfl, rfl, rfl, rfl⟩, by simp, by simp [runningTags], ?_, by simp [swappedTags],
            fun h => h⟩⟩
          refine hperm.trans ?_
          simpa [waitingTags] using (perm_append_singleton _ _).symm
        | ok admitted =>
          obtain ⟨admitted, bytes, cap⟩ := admitted
          obtain ⟨maxTokens, rfl⟩ := hresult admitted bytes cap rfl
          refine (ih _ _).mono fun result hPQ => ?_
          obtain ⟨P, Q, h⟩ := hPQ
          refine ⟨request.tag :: P, Q, h.setup.after ⟨rfl, rfl, rfl, rfl⟩, ?_, ?_, ?_, h.swapped,
            fun _ => h.bound (by simpa [pushAdmittedRequest] using hroom)⟩
          · rw [h.decision]
            simp [Request.tag]
          · refine h.running.trans (List.Perm.of_eq ?_)
            simp [runningTags, pushAdmittedRequest, Request.tag, RunningSequence.tag]
          · refine hperm.trans ((List.Perm.cons _ h.waiting).trans ?_)
            exact perm_middle.symm
      | @swapped sequence i fairShare hi =>
        have hperm := (perm_eraseIdx hi).map RunningSequence.tag
        refine .bind (tryReserveBytes_every _ _ fun result => ?_)
        cases result with
        | error _ =>
          refine .done ⟨[], [], ⟨⟨rfl, rfl, rfl, rfl⟩, by simp, by simp [runningTags], by simp [waitingTags], ?_,
            fun h => h⟩⟩
          refine hperm.trans ?_
          simpa [swappedTags] using (perm_append_singleton _ _).symm
        | ok _ =>
          refine (ih _ _).mono fun result hPQ => ?_
          obtain ⟨P, Q, h⟩ := hPQ
          refine ⟨P, sequence.tag :: Q, h.setup.after ⟨rfl, rfl, rfl, rfl⟩, ?_, ?_, h.waiting, ?_,
            fun _ => h.bound (by simpa using hroom)⟩
          · rw [h.decision]
            simp [RunningSequence.tag]
          · refine h.running.trans ?_
            have hmiddle : (sequence.tag :: (P ++ Q)).Perm (P ++ sequence.tag :: Q) := perm_middle.symm
            simpa [runningTags, RunningSequence.tag] using hmiddle.append_left s.runningTags
          · refine hperm.trans ((List.Perm.cons _ h.swapped).trans ?_)
            exact perm_middle.symm

/-! ### Operations -/

/-- One iteration: the finished sequences are dropped, the victims `V` are swapped out of the
unfinished ones, and the requests `P` and the sequences `Q` are admitted. -/
structure Scheduled (s : Scheduler) (decision : ScheduleDecision) (s' : Scheduler) (still V P Q : List Tag) : Prop where
  setup : SameSetup s s'
  kept : s.unfinishedTags.Perm (still ++ V)
  running : s'.runningTags.Perm (still ++ (P ++ Q))
  waiting : s.waitingTags.Perm (s'.waitingTags ++ P)
  swapped : (s.swappedTags ++ V).Perm (s'.swappedTags ++ Q)
  decision : decision = ⟨P.map Prod.snd,
    (s'.runningTags.map Prod.snd).filter fun seqId => seqId ∈ s.unfinishedTags.map Prod.snd,
    V.map Prod.snd, Q.map Prod.snd⟩
  bound : s.running.length ≤ s.config.maxBatchSize → s'.running.length ≤ s.config.maxBatchSize

theorem map_tag_seqId (l : List RunningSequence) :
    (l.map RunningSequence.tag).map Prod.snd = l.map RunningSequence.seqId := by
  rw [map_map]
  rfl

/-- **What an iteration does**, whatever the byte budget answers. -/
theorem schedule_every (s : Scheduler) :
    Every s.schedule fun result => ∃ still V P Q, Scheduled s result.1 result.2 still V P Q := by
  refine .bind ((removeCompleted_every s s.running).mono fun still hstill => ?_)
  subst hstill
  refine .bind ((applyPreemption_every _).mono fun preempted hV => ?_)
  obtain ⟨V, hV⟩ := hV
  obtain ⟨preempt, t⟩ := preempted
  refine .bind ((admitLoop_every _ t _).mono fun admitted hPQ => ?_)
  obtain ⟨P, Q, h⟩ := hPQ
  obtain ⟨decision, u⟩ := admitted
  refine .done ⟨t.runningTags, V, P, Q, ?_⟩
  refine ⟨h.setup.after (hV.setup.after ⟨rfl, rfl, rfl, rfl⟩), hV.running, h.running, ?_, ?_, ?_, fun hbound => ?_⟩
  · have hwaiting := h.waiting
    rw [waitingTags, hV.waiting] at hwaiting
    exact hwaiting
  · have hswapped := h.swapped
    rw [hV.swapped] at hswapped
    exact hswapped
  · have hdecision : decision = _ := h.decision
    have hpreempt : preempt = _ := hV.preempt
    subst hdecision hpreempt
    simp only [nil_append, runningTags, unfinishedTags, map_tag_seqId]
  · have hlength := hV.running.length_eq
    simp only [runningTags, length_append, length_map] at hlength
    have hfilter := length_filter_le RunningSequence.unfinished s.running
    have hconfig : t.config = s.config := hV.setup.config
    rw [← hconfig]
    refine h.bound ?_
    rw [hconfig]
    omega

/-- Removing the first running sequence that `p` holds of. -/
theorem removeRunning_every (s : Scheduler) (p : RunningSequence → Bool) :
    Every (s.removeRunning p) fun s' => s' = { s with running := s.running.eraseP p } := by
  unfold removeRunning
  split
  · exact .bind (releaseBytes_every _ _ (.done rfl))
  · rename_i hnone
    refine .done ?_
    rw [eraseP_of_forall_not fun r hr => by simpa using find?_eq_none.mp hnone r hr]

theorem complete_every (s : Scheduler) (seqId : SequenceId) :
    Every (s.complete seqId) fun s' => s' = { s with
      running := s.running.eraseP fun r => r.seqId = seqId
      swapped := s.swapped.filter fun r => r.seqId ≠ seqId } := by
  refine .bind ((removeRunning_every s _).mono fun t ht => .done ?_)
  subst ht
  rfl

theorem cancelRequest_every (s : Scheduler) (requestId : ℕ) :
    Every (s.cancelRequest requestId) fun s' => s' = { s with
      waiting := s.waiting.filter fun r => r.id ≠ requestId
      running := s.running.eraseP fun r => r.requestId = requestId
      swapped := s.swapped.filter fun r => r.requestId ≠ requestId } := by
  refine .bind ((removeRunning_every _ _).mono fun t ht => .done ?_)
  subst ht
  rfl

/-- The first waiting request was admitted, or nothing changed. -/
theorem driveNextFcfsResult_every (s : Scheduler) :
    Every s.driveNextFcfsResult fun result => result.2 = s ∨
      s.running.length < s.config.maxBatchSize ∧ ∃ request rest sequence, s.waiting = request :: rest ∧
        sequence.tag = request.tag ∧ result.2 = { s with waiting := rest, running := s.running ++ [sequence] } := by
  unfold driveNextFcfsResult
  split
  case isTrue => exact .done (.inl rfl)
  case isFalse hroom =>
    cases hw : s.waiting with
    | nil => exact .done (.inl rfl)
    | cons request rest =>
      refine .bind ((reserveOrCapRequest_every _ request).mono fun result hresult => ?_)
      cases result with
      | error _ => exact .done (.inl (by rw [← hw]))
      | ok admitted =>
        obtain ⟨admitted, bytes, cap⟩ := admitted
        obtain ⟨maxTokens, rfl⟩ := hresult admitted bytes cap rfl
        exact .done (.inr ⟨Nat.not_le.mp hroom, request, rest, _, rfl, rfl, rfl⟩)

end Scheduler

end OnnxGenai.Batching
