import OnnxGenai.Lib.Runs
import OnnxGenai.Scheduler.Moves

/-!
# No request is lost or duplicated

Over every run of a scheduler, whatever the byte budget answers: a request that was issued and
has not ended is in exactly one of the three lists, once, and a request that ended is in none.
A request ends when its sequence is completed, when it is cancelled, or when `schedule` finds
that it used up its tokens; which requests ended is recorded beside the scheduler.
-/

namespace OnnxGenai.Batching

open Lib Lib.Calls List

/-- The operations of a scheduler. -/
inductive Operation where
  | addRequest (seqId : SequenceId) (promptTokens maxTokens : ℕ) (priority : Priority)
  | driveNextFcfsResult
  | schedule
  | advance (seqId : SequenceId)
  | complete (seqId : SequenceId)
  | cancelRequest (requestId : ℕ)
  deriving DecidableEq, Repr

namespace Scheduler

/-- The scheduler after an operation. -/
def perform (s : Scheduler) : Operation → BudgetM Scheduler
  | .addRequest seqId promptTokens maxTokens priority => return (s.addRequest seqId promptTokens maxTokens priority).2
  | .driveNextFcfsResult => do
    let result ← s.driveNextFcfsResult
    return result.2
  | .schedule => do
    let result ← s.schedule
    return result.2
  | .advance seqId => return s.advance seqId
  | .complete seqId => s.complete seqId
  | .cancelRequest requestId => s.cancelRequest requestId

/-- The issued requests an operation ends. -/
def ended (s : Scheduler) : Operation → List ℕ
  | .schedule => (s.running.filter fun r => !r.unfinished).map RunningSequence.requestId
  | .complete seqId =>
    ((s.running.find? fun r => r.seqId = seqId).toList ++ s.swapped.filter fun r => r.seqId = seqId).map
      RunningSequence.requestId
  | .cancelRequest requestId => if requestId < s.nextRequestId then [requestId] else []
  | _ => []

/-- How often a request is in the three lists. -/
def occurrences (s : Scheduler) (id : ℕ) : ℕ :=
  s.waiting.countP (fun r => r.id = id) + s.running.countP (fun r => r.requestId = id) +
    s.swapped.countP (fun r => r.requestId = id)

theorem countP_requestTags (l : List Request) (id : ℕ) :
    (l.map Request.tag).countP (fun tag => tag.1 = id) = l.countP fun r => r.id = id := by
  rw [countP_map]
  rfl

theorem countP_sequenceTags (l : List RunningSequence) (id : ℕ) :
    (l.map RunningSequence.tag).countP (fun tag => tag.1 = id) = l.countP fun r => r.requestId = id := by
  rw [countP_map]
  rfl

theorem count_requestIds (l : List RunningSequence) (id : ℕ) :
    (l.map RunningSequence.requestId).count id = l.countP fun r => r.requestId = id := by
  rw [count, countP_map]
  rfl

/-- Occurrences are those of the tags. -/
theorem occurrences_eq (s : Scheduler) (id : ℕ) : s.occurrences id = s.tags.countP fun tag => tag.1 = id := by
  simp only [occurrences, tags, waitingTags, runningTags, swappedTags, countP_append, countP_requestTags,
    countP_sequenceTags]

theorem occurrences_of_perm {s s' : Scheduler} (h : s'.tags.Perm s.tags) (id : ℕ) :
    s'.occurrences id = s.occurrences id := by
  rw [occurrences_eq, occurrences_eq]
  exact h.countP_eq _

end Scheduler

/-- A scheduler, and the requests that have ended. -/
structure History where
  scheduler : Scheduler
  ended : List ℕ

namespace History

open Scheduler

/-- An operation, with the answers of the byte budget. -/
def step (h : History) (a : Operation × Answers) : History :=
  ⟨(h.scheduler.perform a.1).answered a.2, h.ended ++ h.scheduler.ended a.1⟩

/-- A new scheduler, of any configuration, with or without a byte budget. -/
def Initial (h : History) : Prop :=
  ∃ config fairShare byteBudget, h = ⟨{ Scheduler.new config with fairShare := fairShare, byteBudget := byteBudget }, []⟩

/-- Every issued request is in the lists once until it ends. -/
structure Conserved (h : History) : Prop where
  issued : ∀ id ∈ h.ended, id < h.scheduler.nextRequestId
  once : ∀ id, h.scheduler.occurrences id = if id < h.scheduler.nextRequestId ∧ id ∉ h.ended then 1 else 0
  batch : h.scheduler.running.length ≤ h.scheduler.config.maxBatchSize

namespace Conserved

variable {h : History}

theorem le_one (hc : h.Conserved) (id : ℕ) : h.scheduler.occurrences id ≤ 1 := by
  rw [hc.once]
  split <;> simp

theorem lt_of_pos (hc : h.Conserved) {id : ℕ} (hpos : 0 < h.scheduler.occurrences id) :
    id < h.scheduler.nextRequestId := by
  rw [hc.once] at hpos
  split at hpos
  case isTrue hif => exact hif.1
  case isFalse => cases hpos

/-- A step that takes the requests `ended` out of the lists, and leaves the others. -/
theorem remove (hc : h.Conserved) {s' : Scheduler} {ended : List ℕ} (hsetup : SameSetup h.scheduler s')
    (hissued : ∀ id ∈ ended, id < h.scheduler.nextRequestId) (hgone : ∀ id ∈ ended, s'.occurrences id = 0)
    (hkept : ∀ id, id ∉ ended → s'.occurrences id = h.scheduler.occurrences id)
    (hbatch : s'.running.length ≤ h.scheduler.config.maxBatchSize) : Conserved ⟨s', h.ended ++ ended⟩ where
  issued := by
    intro id hid
    rw [hsetup.nextRequestId]
    exact (mem_append.mp hid).elim (hc.issued id) (hissued id)
  once := by
    intro id
    rw [hsetup.nextRequestId]
    by_cases hid : id ∈ ended
    · rw [if_neg fun hnot => hnot.2 (mem_append_right _ hid)]
      exact hgone id hid
    · rw [hkept id hid, hc.once]
      simp only [mem_append, hid, or_false]
  batch := by
    rw [hsetup.config]
    exact hbatch

/-- The same, when the occurrences that go are counted by `ended`. -/
theorem remove_of_count (hc : h.Conserved) {s' : Scheduler} {ended : List ℕ} (hsetup : SameSetup h.scheduler s')
    (hcount : ∀ id, h.scheduler.occurrences id = s'.occurrences id + ended.count id)
    (hbatch : s'.running.length ≤ h.scheduler.config.maxBatchSize) : Conserved ⟨s', h.ended ++ ended⟩ := by
  refine hc.remove hsetup (fun id hid => hc.lt_of_pos ?_) (fun id hid => ?_) (fun id hid => ?_) hbatch
  · have := hcount id
    have hpos := count_pos_iff.mpr hid
    omega
  · have := hcount id
    have hpos := count_pos_iff.mpr hid
    have hle := hc.le_one id
    omega
  · have := hcount id
    rw [count_eq_zero_of_not_mem hid] at this
    omega

/-- A step that only moves requests between the lists. -/
theorem moved (hc : h.Conserved) {s' : Scheduler} (hsetup : SameSetup h.scheduler s')
    (hperm : s'.tags.Perm h.scheduler.tags) (hbatch : s'.running.length ≤ h.scheduler.config.maxBatchSize) :
    Conserved ⟨s', h.ended ++ []⟩ :=
  hc.remove_of_count hsetup (fun id => by simp [occurrences_of_perm hperm]) hbatch

end Conserved

end History

namespace Scheduler

/-- **`schedule` moves requests between the lists, and drops the finished ones.** -/
theorem Scheduled.tags_perm {s s' : Scheduler} {decision : ScheduleDecision} {still V P Q : List Tag}
    (h : Scheduled s decision s' still V P Q) : s'.tags.Perm (s.waitingTags ++ s.unfinishedTags ++ s.swappedTags) := by
  refine perm_iff_count.mpr fun tag => ?_
  have hkept := h.kept.count_eq tag
  have hrunning := h.running.count_eq tag
  have hwaiting := h.waiting.count_eq tag
  have hswapped := h.swapped.count_eq tag
  simp only [tags, count_append] at hkept hrunning hwaiting hswapped ⊢
  omega

/-- Erasing the first element that `p` holds of. -/
theorem countP_eraseP {α : Type} (p q : α → Bool) (l : List α) :
    l.countP q = (l.eraseP p).countP q + (l.find? p).toList.countP q := by
  induction l with
  | nil => rfl
  | cons a l ih =>
    by_cases ha : p a = true
    · simp [countP_cons, ha]
    · simp [countP_cons, ha, ih]
      omega

/-- The running sequences are the unfinished and the finished ones. -/
theorem countP_unfinished (s : Scheduler) (id : ℕ) :
    s.running.countP (fun r => r.requestId = id) =
      s.unfinishedTags.countP (fun tag => tag.1 = id) + (s.ended .schedule).count id := by
  simp only [unfinishedTags, ended, countP_sequenceTags, count_requestIds]
  simpa using countP_eq_countP_filter_add s.running (fun r => decide (r.requestId = id)) RunningSequence.unfinished

theorem occurrences_schedule {s s' : Scheduler} {decision : ScheduleDecision} {still V P Q : List Tag}
    (h : Scheduled s decision s' still V P Q) (id : ℕ) :
    s.occurrences id = s'.occurrences id + (s.ended .schedule).count id := by
  rw [occurrences_eq s', h.tags_perm.countP_eq, occurrences, countP_unfinished]
  simp only [countP_append, waitingTags, swappedTags, countP_requestTags, countP_sequenceTags]
  omega

theorem countP_filter_ne {α : Type} (key : α → ℕ) (k id : ℕ) (l : List α) :
    (l.filter fun a => key a ≠ k).countP (fun a => key a = id) = if id = k then 0 else l.countP fun a => key a = id := by
  rw [countP_filter]
  split
  case isTrue heq =>
    subst heq
    exact countP_eq_zero.mpr fun a _ => by simp
  case isFalse hne =>
    refine countP_congr fun a _ => ?_
    simp only [Bool.and_eq_true, decide_eq_true_eq, and_iff_left_iff_imp]
    exact fun ha => ha ▸ hne

theorem countP_eraseP_key {α : Type} (key : α → ℕ) (k id : ℕ) (l : List α) :
    (l.eraseP fun a => key a = k).countP (fun a => key a = id) =
      l.countP (fun a => key a = id) - if id = k then 1 else 0 := by
  induction l with
  | nil => simp
  | cons a l ih =>
    by_cases ha : key a = k
    · by_cases hid : id = k
      · simp [ha, hid]
      · simp [ha, hid, Ne.symm hid]
    · by_cases hid : id = k
      · subst hid
        simpa [ha] using ih
      · simp [ha, hid, countP_cons, ih]

/-- Cancelling takes the request out of every list. -/
theorem occurrences_cancel (s : Scheduler) (requestId id : ℕ) :
    ({ s with
      waiting := s.waiting.filter fun r => r.id ≠ requestId
      running := s.running.eraseP fun r => r.requestId = requestId
      swapped := s.swapped.filter fun r => r.requestId ≠ requestId } : Scheduler).occurrences id =
      if id = requestId then s.running.countP (fun r => r.requestId = id) - 1 else s.occurrences id := by
  simp only [occurrences]
  rw [countP_filter_ne Request.id, countP_filter_ne RunningSequence.requestId,
    countP_eraseP_key RunningSequence.requestId]
  split <;> simp

/-- An update that keeps what `g` reads. -/
theorem map_updateFirst {α β : Type} (p : α → Bool) (f : α → α) (g : α → β) (h : ∀ a, g (f a) = g a) (l : List α) :
    (updateFirst p f l).map g = l.map g := by
  induction l with
  | nil => rfl
  | cons a l ih =>
    unfold updateFirst
    split
    · rw [map_cons, h, map_cons]
    · rw [map_cons, ih, map_cons]

theorem runningTags_advance (s : Scheduler) (seqId : SequenceId) : (s.advance seqId).runningTags = s.runningTags := by
  refine map_updateFirst _ _ _ ?_ _
  exact fun _ => rfl

end Scheduler

namespace History

open Scheduler

namespace Conserved

variable {h : History}

section

variable (hc : h.Conserved)

include hc

theorem addRequest (seqId : SequenceId) (promptTokens maxTokens : ℕ) (priority : Priority) :
    Conserved ⟨(h.scheduler.addRequest seqId promptTokens maxTokens priority).2, h.ended ++ []⟩ where
  issued id hid := by
    rw [append_nil] at hid
    exact (hc.issued id hid).trans (Nat.lt_succ_self _)
  once id := by
    have honce := hc.once id
    have hoccurs : (h.scheduler.addRequest seqId promptTokens maxTokens priority).2.occurrences id =
        h.scheduler.occurrences id + if h.scheduler.nextRequestId = id then 1 else 0 := by
      simp only [Scheduler.addRequest, occurrences, countP_append, countP_singleton, decide_eq_true_eq]
      omega
    rw [hoccurs, honce, append_nil]
    show _ = if id < h.scheduler.nextRequestId + 1 ∧ id ∉ h.ended then 1 else 0
    by_cases hid : h.scheduler.nextRequestId = id
    · subst hid
      have hnew : h.scheduler.nextRequestId ∉ h.ended := fun hmem => lt_irrefl _ (hc.issued _ hmem)
      simp [hnew]
    · have hlt : id < h.scheduler.nextRequestId + 1 ↔ id < h.scheduler.nextRequestId := by omega
      simp [hid, hlt]
  batch := hc.batch

theorem schedule :
    Every (h.scheduler.perform .schedule) fun s' => Conserved ⟨s', h.ended ++ h.scheduler.ended .schedule⟩ := by
  refine .bind ((schedule_every h.scheduler).mono fun result hresult => .done ?_)
  obtain ⟨still, V, P, Q, hs⟩ := hresult
  exact hc.remove_of_count hs.setup (occurrences_schedule hs) (hs.bound hc.batch)

theorem driveNextFcfsResult :
    Every (h.scheduler.perform .driveNextFcfsResult) fun s' => Conserved ⟨s', h.ended ++ []⟩ := by
  refine .bind ((driveNextFcfsResult_every h.scheduler).mono fun result hresult => .done ?_)
  rcases hresult with hsame | ⟨hroom, request, rest, sequence, hw, htag, hnew⟩
  · rw [hsame]
    exact hc.moved (.refl _) (.refl _) hc.batch
  · rw [hnew]
    refine hc.moved ⟨rfl, rfl, rfl, rfl⟩ ?_ (by simpa using hroom)
    simp only [tags, waitingTags, runningTags, swappedTags, hw, map_append, map_cons, map_nil, htag]
    refine perm_iff_count.mpr fun tag => ?_
    simp only [count_append, count_cons, count_nil]
    omega

theorem complete (seqId : SequenceId) : Every (h.scheduler.perform (.complete seqId))
      fun s' => Conserved ⟨s', h.ended ++ h.scheduler.ended (.complete seqId)⟩ := by
  refine (complete_every h.scheduler seqId).mono fun s' hs' => ?_
  subst hs'
  refine hc.remove_of_count ⟨rfl, rfl, rfl, rfl⟩ (fun id => ?_) ((length_eraseP_le).trans hc.batch)
  have hrunning := countP_eraseP (fun r : RunningSequence => decide (r.seqId = seqId))
    (fun r => decide (r.requestId = id)) h.scheduler.running
  have hswapped := countP_eq_countP_filter_add h.scheduler.swapped (fun r => decide (r.requestId = id))
    fun r => decide (r.seqId = seqId)
  simp only [occurrences, Scheduler.ended, map_append, count_append, count_requestIds, ne_eq, decide_not]
  omega

theorem cancelRequest (requestId : ℕ) : Every (h.scheduler.perform (.cancelRequest requestId))
      fun s' => Conserved ⟨s', h.ended ++ h.scheduler.ended (.cancelRequest requestId)⟩ := by
  refine (cancelRequest_every h.scheduler requestId).mono fun s' hs' => ?_
  subst hs'
  have hoccurs := occurrences_cancel h.scheduler requestId
  have hbatch : (h.scheduler.running.eraseP fun r => r.requestId = requestId).length ≤ h.scheduler.config.maxBatchSize :=
    length_eraseP_le.trans hc.batch
  simp only [Scheduler.ended]
  split
  case isTrue hissued =>
    refine hc.remove ⟨rfl, rfl, rfl, rfl⟩ (fun id hid => ?_) (fun id hid => ?_) (fun id hid => ?_) hbatch
    · rw [mem_singleton.mp hid]
      exact hissued
    · have hle := hc.le_one id
      rw [occurrences] at hle
      rw [hoccurs, if_pos (mem_singleton.mp hid)]
      omega
    · rw [hoccurs, if_neg fun heq => hid (mem_singleton.mpr heq)]
  case isFalse hnot =>
    refine hc.remove ⟨rfl, rfl, rfl, rfl⟩ (fun id hid => nomatch hid) (fun id hid => nomatch hid) (fun id _ => ?_) hbatch
    rw [hoccurs]
    split
    case isTrue heq =>
      -- a request that was not issued is in no list
      have hzero : h.scheduler.occurrences id = 0 := by
        rw [hc.once, if_neg fun hc => hnot (heq ▸ hc.1)]
      rw [hzero]
      rw [occurrences] at hzero
      omega
    case isFalse => rfl

theorem advance (seqId : SequenceId) : Conserved ⟨h.scheduler.advance seqId, h.ended ++ []⟩ := by
  refine hc.moved ⟨rfl, rfl, rfl, rfl⟩ (List.Perm.of_eq ?_) ?_
  · rw [tags, tags, runningTags_advance]
    rfl
  · have hlength := congrArg length (runningTags_advance h.scheduler seqId)
    simp only [runningTags, length_map] at hlength
    rw [hlength]
    exact hc.batch

/-- One operation, whatever the byte budget answers. -/
theorem perform (op : Operation) :
    Every (h.scheduler.perform op) fun s' => Conserved ⟨s', h.ended ++ h.scheduler.ended op⟩ := by
  cases op with
  | addRequest seqId promptTokens maxTokens priority => exact .done (hc.addRequest _ _ _ _)
  | driveNextFcfsResult => exact hc.driveNextFcfsResult
  | schedule => exact hc.schedule
  | advance seqId => exact .done (hc.advance seqId)
  | complete seqId => exact hc.complete seqId
  | cancelRequest requestId => exact hc.cancelRequest requestId

end

theorem initial (hi : h.Initial) : h.Conserved := by
  obtain ⟨config, fairShare, byteBudget, rfl⟩ := hi
  exact ⟨fun id hid => absurd hid not_mem_nil, fun id => rfl, Nat.zero_le _⟩

end Conserved

/-- The runs of a scheduler. -/
def Reaches (h : History) : Prop := Reachable Initial (fun _ _ => True) step h

theorem Reaches.conserved {h : History} (hr : h.Reaches) : h.Conserved :=
  Reachable.invariant (I := Conserved) (fun _ => Conserved.initial) (fun _ a hc _ => (hc.perform a.1).answered a.2) hr

/-- **No request is lost or duplicated.** In every run, a request that was issued and has not
ended is in exactly one of the lists, once; the batch is within its size; and `schedule` moves
requests between the lists and drops exactly the running ones that used up their tokens. -/
theorem requests_conserved {h : History} (hr : h.Reaches) :
    (∀ id < h.scheduler.nextRequestId, id ∉ h.ended → h.scheduler.occurrences id = 1) ∧
      (∀ id ∈ h.ended, h.scheduler.occurrences id = 0) ∧
      h.scheduler.running.length ≤ h.scheduler.config.maxBatchSize ∧
      ∀ answers : Answers,
        (h.scheduler.schedule.answered answers).2.tags.Perm
          (h.scheduler.waitingTags ++ h.scheduler.unfinishedTags ++ h.scheduler.swappedTags) ∧
        (h.scheduler.schedule.answered answers).2.running.length ≤ h.scheduler.config.maxBatchSize := by
  have hc := hr.conserved
  refine ⟨fun id hissued hid => ?_, fun id hid => ?_, hc.batch, fun answers => ?_⟩
  · rw [hc.once, if_pos ⟨hissued, hid⟩]
  · rw [hc.once, if_neg fun hnot => hnot.2 hid]
  · obtain ⟨still, V, P, Q, hs⟩ := (schedule_every h.scheduler).answered answers
    exact ⟨hs.tags_perm, hs.bound hc.batch⟩

/-- Answers of a budget that has no room. -/
def refuse : Answers := fun _ call =>
  match call with
  | .tryReserve _ => .error ⟨0, 0, 0, 0, 0⟩
  | .tryReserveAtMost _ _ _ => .error ⟨0, 0, 0, 0, 0⟩
  | .release _ => ()
  | .used => (0 : ℕ)
  | .limit => (0 : ℕ)

/-- Two requests, of which the second preempts the first. -/
def preempting : List (Operation × Answers) :=
  [(.addRequest 7 1 2 .low, refuse), (.schedule, refuse), (.addRequest 8 1 2 .high, refuse), (.schedule, refuse)]

/-- A scheduler with room for one sequence. -/
def single : History := ⟨Scheduler.new ⟨1, 100, .priority, .swap, none⟩, []⟩

theorem requests_conserved_preempting :
    (preempting.foldl step single).scheduler.occurrences 0 = 1 ∧ (preempting.foldl step single).scheduler.swapped.length = 1 :=
  ⟨(requests_conserved (Reachable.foldl preempting (.start ⟨_, .new, false, rfl⟩) (by decide))).1 0 (by decide) (by decide),
    by decide⟩

end History

end OnnxGenai.Batching
