import OnnxGenai.Scheduler.Conservation

/-!
# The decisions of an iteration

A decision is consistent if its four lists name different sequences, the sequences to prefill,
decode and swap in are those that run after the iteration, and the preempted ones are swapped
out. An iteration can fail this: `apply_preemption` takes its victims by priority, but the
admission loop then takes the best candidate by the configured policy, and the victims are among
the candidates. Under `Fcfs` an old victim is the first of them; under `Priority` it is behind the
request it made room for, but a batch that was full by tokens can have room left for both.

When this happens can be read off the state before the iteration (`Readmits`). The victims are the
running sequences up to some `last` one in the order of victims, and a candidate is admitted, if
the byte budget has room, exactly if those ahead of it leave room for it in the batch.
-/

namespace OnnxGenai.Batching

open Lib Lib.Calls List

/-! ### The order of candidates -/

/-- The place of a candidate in the order of a policy. -/
def CandidateKey.rank (policy : PriorityPolicy) (k : CandidateKey) : ℕ ×ₗ ℕ ×ₗ ℕ :=
  toLex (if policy = .priority then 2 - k.priority.classIndex else 0, toLex (k.arrivedAt, k.requestId))

theorem Priority.classIndex_le (p : Priority) : p.classIndex ≤ 2 := by cases p <;> decide

theorem Priority.cmp_eq_gt (p q : Priority) : p.cmp q = .gt ↔ q.classIndex < p.classIndex := compare_gt_iff_gt

theorem Priority.cmp_eq_lt (p q : Priority) : p.cmp q = .lt ↔ p.classIndex < q.classIndex := compare_lt_iff_lt

theorem Priority.cmp_eq_eq (p q : Priority) : p.cmp q = .eq ↔ p.classIndex = q.classIndex := compare_eq_iff_eq

theorem cmpCandidateKey_eq (policy : PriorityPolicy) (a b : CandidateKey) :
    (cmpCandidateKey policy a b = .gt ↔ b.rank policy < a.rank policy) ∧
      (cmpCandidateKey policy a b = .lt ↔ a.rank policy < b.rank policy) := by
  have ha := a.priority.classIndex_le
  have hb := b.priority.classIndex_le
  constructor <;> cases policy <;>
    simp only [cmpCandidateKey, CandidateKey.rank, Ordering.then_eq_gt, Ordering.then_eq_lt, Ordering.then_eq_eq,
      compare_gt_iff_gt, compare_lt_iff_lt, compare_eq_iff_eq, Prod.Lex.toLex_lt_toLex, Priority.cmp_eq_gt,
      Priority.cmp_eq_lt, Priority.cmp_eq_eq, if_true, if_false, reduceCtorEq, lt_self_iff_false, false_or,
      true_and] <;>
    omega

/-- The place of a running sequence in the order of victims: the lowest priority first, and the
latest arrival among those. -/
def RunningSequence.victimRank (r : RunningSequence) : ℕ ×ₗ ℕᵒᵈ ×ₗ ℕᵒᵈ :=
  toLex (r.priority.classIndex, toLex (OrderDual.toDual r.arrivedAt, OrderDual.toDual r.requestId))

theorem victim_cmp_eq_gt (a b : RunningSequence) :
    ((a.priority.cmp b.priority).then (compare b.arrivedAt a.arrivedAt)).then
      (compare b.requestId a.requestId) = .gt ↔ b.victimRank < a.victimRank := by
  simp only [RunningSequence.victimRank, Ordering.then_eq_gt, Ordering.then_eq_eq, compare_gt_iff_gt,
    compare_eq_iff_eq, Prod.Lex.toLex_lt_toLex, Priority.cmp_eq_gt, Priority.cmp_eq_eq, OrderDual.toDual_lt_toDual,
    OrderDual.toDual_inj]
  omega

theorem requestId_eq_of_victimRank_eq {a b : RunningSequence} (h : a.victimRank = b.victimRank) :
    a.requestId = b.requestId :=
  congrArg (fun rank : ℕ ×ₗ ℕᵒᵈ ×ₗ ℕᵒᵈ => OrderDual.ofDual (ofLex (ofLex rank).2).2) h

theorem priority_le_of_victimRank_le {a b : RunningSequence} (h : a.victimRank ≤ b.victimRank) :
    a.priority.classIndex ≤ b.priority.classIndex := by
  rcases Prod.Lex.toLex_le_toLex.mp h with h | h
  · exact h.le
  · exact h.1.le

theorem requestId_eq_of_rank_eq {policy : PriorityPolicy} {a b : CandidateKey} (h : a.rank policy = b.rank policy) :
    a.requestId = b.requestId :=
  congrArg (fun rank => (ofLex (ofLex rank).2).2) h

/-- A candidate, as the batch sees it: its key, and the tokens it brings. -/
abbrev Entry := CandidateKey × ℕ

def Request.entry (r : Request) : Entry := (r.key, r.promptTokens)

def RunningSequence.entry (r : RunningSequence) : Entry := (r.key, r.promptTokens + r.generatedTokens)

def Candidate.entry : Candidate → Entry
  | .waiting request => request.entry
  | .swapped sequence => sequence.entry

/-- A victim holds no bytes. -/
def RunningSequence.parked (r : RunningSequence) : RunningSequence := { r with reservedBytes := 0 }

namespace Scheduler

/-- The candidates for admission. -/
def candidates (s : Scheduler) : List Entry := s.waiting.map Request.entry ++ s.swapped.map RunningSequence.entry

/-- The candidates that are admitted before one with the key `k`. -/
def ahead (s : Scheduler) (k : CandidateKey) : List Entry :=
  s.candidates.filter fun c => c.1.rank s.config.priorityPolicy < k.rank s.config.priorityPolicy

/-- The candidates ahead of one with the key `k` leave room for it in the batch. -/
def HasRoom (s : Scheduler) (k : CandidateKey) : Prop :=
  s.running.length + (s.ahead k).length < s.config.maxBatchSize ∧
    s.runningTokenBudget + ((s.ahead k).map Prod.snd).sum < s.config.maxTotalTokens

instance (s : Scheduler) (k : CandidateKey) : Decidable (s.HasRoom k) := instDecidableAnd

/-- The state with the victims up to `last` swapped out. -/
def swapOut (s : Scheduler) (last : RunningSequence) : Scheduler :=
  { s with
    running := s.running.filter fun r => last.victimRank < r.victimRank
    swapped := s.swapped ++ (s.running.filter fun r => r.victimRank ≤ last.victimRank).map RunningSequence.parked }

/-- The best waiting request goes before `last`, and without those behind `last` the batch is
full: if any victims are enough, `last` is among them. -/
structure Preempts (s : Scheduler) (last : RunningSequence) : Prop where
  best : s.bestWaiting.any (fun best => last.priority.classIndex < best.1.priority.classIndex) = true
  full : { s with
    running := s.running.filter fun r => last.victimRank ≤ r.victimRank }.hasCapacityForCandidate = false

instance (s : Scheduler) (last : RunningSequence) : Decidable (s.Preempts last) :=
  decidable_of_iff (_ ∧ _) ⟨fun h => ⟨h.1, h.2⟩, fun h => ⟨h.best, h.full⟩⟩

/-- An iteration takes a sequence back that it has just preempted: `last` is the last victim, and
those ahead of the victim `v` leave room for it. -/
def Readmits (s : Scheduler) : Prop :=
  s.config.preemptionPolicy ≠ .disabled ∧ s.config.priorityPolicy ≠ .fairShare ∧
    ∃ last ∈ s.running, s.Preempts last ∧
      ∃ v ∈ s.running, v.victimRank ≤ last.victimRank ∧ (s.swapOut last).HasRoom v.key

instance (s : Scheduler) : Decidable s.Readmits := by
  unfold Readmits
  infer_instance

/-- The state without the sequences that used up their tokens. -/
def dropCompleted (s : Scheduler) : Scheduler := { s with running := s.running.filter RunningSequence.unfinished }

/-- Sequences are distinct. -/
def DistinctSeqs (s : Scheduler) : Prop := (s.tags.map Prod.snd).Nodup

instance (s : Scheduler) : Decidable s.DistinctSeqs := List.nodupDecidable _

/-- What a decision should say about the scheduler after it. -/
structure Consistent (decision : ScheduleDecision) (s' : Scheduler) : Prop where
  nodup : (decision.prefill ++ decision.decode ++ decision.preempt ++ decision.swapIn).Nodup
  running : ∀ seqId, seqId ∈ decision.prefill ++ decision.decode ++ decision.swapIn ↔
    seqId ∈ s'.running.map RunningSequence.seqId
  preempted : ∀ seqId ∈ decision.preempt, seqId ∈ s'.swapped.map RunningSequence.seqId

/-! ### Admission -/

/-- A candidate `c` has moved into the batch. -/
structure Admits (s : Scheduler) (c : Entry) (t : Scheduler) : Prop where
  config : t.config = s.config
  length : t.running.length = s.running.length + 1
  tokens : t.runningTokenBudget = s.runningTokenBudget + c.2
  candidates : s.candidates.Perm (c :: t.candidates)

variable {s t : Scheduler} {c : Entry} {k : CandidateKey} {fuel : ℕ} {preempt : List SequenceId}
  {last : RunningSequence}

/-- The place of a candidate in the order of the scheduler's policy. -/
abbrev rank (s : Scheduler) (k : CandidateKey) : ℕ ×ₗ ℕ ×ₗ ℕ := k.rank s.config.priorityPolicy

/-- The candidate that moved counts as ahead of those behind it. -/
theorem Admits.hasRoom_iff (h : Admits s c t) (hlt : s.rank c.1 < s.rank k) : t.HasRoom k ↔ s.HasRoom k := by
  have hahead : (s.ahead k).Perm (c :: t.ahead k) := by
    refine (h.candidates.filter _).trans (List.Perm.of_eq ?_)
    rw [filter_cons_of_pos (by simpa using hlt), ahead, h.config]
  have hlength := hahead.length_eq
  have hsum := (hahead.map Prod.snd).sum_eq
  have hgrown := h.length
  have htokens := h.tokens
  simp only [length_cons, map_cons, sum_cons] at hlength hsum
  simp only [HasRoom, h.config]
  constructor <;> rintro ⟨hbatch, hbudget⟩ <;> constructor <;> omega

/-- An admission takes room from everyone. -/
theorem Admits.hasRoom (h : Admits s c t) (hk : t.HasRoom k) : s.HasRoom k := by
  by_cases hlt : s.rank c.1 < s.rank k
  · exact (h.hasRoom_iff hlt).mp hk
  · have hahead : (s.ahead k).Perm (t.ahead k) := by
      refine (h.candidates.filter _).trans (List.Perm.of_eq ?_)
      rw [filter_cons_of_neg (by simpa using hlt), ahead, h.config]
    have hlength := hahead.length_eq
    have hsum := (hahead.map Prod.snd).sum_eq
    have hgrown := h.length
    have htokens := h.tokens
    obtain ⟨hbatch, hbudget⟩ := hk
    rw [h.config] at hbatch hbudget
    constructor <;> omega

theorem HasRoom.capacity (h : s.HasRoom k) : s.hasCapacityForCandidate = true := by
  obtain ⟨hbatch, hbudget⟩ := h
  simp only [hasCapacityForCandidate, Bool.and_eq_true, decide_eq_true_eq]
  constructor <;> omega

/-- Nothing is ahead of the first candidate. -/
theorem hasRoom_of_least (hcapacity : s.hasCapacityForCandidate = true)
    (hleast : ∀ c ∈ s.candidates, s.rank k ≤ s.rank c.1) : s.HasRoom k := by
  have hahead : s.ahead k = [] := by
    refine filter_eq_nil_iff.mpr fun c hc => ?_
    simpa using hleast c hc
  simp only [hasCapacityForCandidate, Bool.and_eq_true, decide_eq_true_eq] at hcapacity
  simpa [HasRoom, hahead] using hcapacity

/-- A candidate was popped, and none has a smaller key. -/
structure PoppedLeast (s : Scheduler) (c : Candidate) (t : Scheduler) : Prop where
  config : t.config = s.config
  running : t.running = s.running
  candidates : s.candidates.Perm (c.entry :: t.candidates)
  least : ∀ c' ∈ s.candidates, c.entry.1.rank s.config.priorityPolicy ≤ c'.1.rank s.config.priorityPolicy

theorem bestWaiting_le {w : Request × ℕ} (h : s.bestWaiting = some w) :
    ∀ r ∈ s.waiting, s.rank w.1.key ≤ s.rank r.key := by
  exact minBy_zipIdx_le (fun r : Request => s.rank r.key) (fun _ _ => (cmpCandidateKey_eq _ _ _).1) h

theorem bestSwapped_le {p : RunningSequence × ℕ} (h : s.bestSwapped = some p) :
    ∀ q ∈ s.swapped, s.rank p.1.key ≤ s.rank q.key := by
  exact minBy_zipIdx_le (fun r : RunningSequence => s.rank r.key) (fun _ _ => (cmpCandidateKey_eq _ _ _).1) h

theorem mem_candidates : c ∈ s.candidates ↔ (∃ r ∈ s.waiting, r.entry = c) ∨ ∃ q ∈ s.swapped, q.entry = c := by
  simp [candidates]

theorem takeWaiting_least {w : Request × ℕ} (hw : s.bestWaiting = some w)
    (hswapped : ∀ q ∈ s.swapped, s.rank w.1.key ≤ s.rank q.key) :
    PoppedLeast s (.waiting w.1) { s with waiting := s.waiting.eraseIdx w.2 } where
  config := rfl
  running := rfl
  candidates := ((perm_eraseIdx (minBy_getElem? hw)).map Request.entry).append_right _
  least := by
    intro c hc
    rcases mem_candidates.mp hc with ⟨r, hr, rfl⟩ | ⟨q, hq, rfl⟩
    · exact bestWaiting_le hw r hr
    · exact hswapped q hq

theorem takeSwapped_least {p : RunningSequence × ℕ} (hp : s.bestSwapped = some p)
    (hwaiting : ∀ r ∈ s.waiting, s.rank p.1.key ≤ s.rank r.key) :
    PoppedLeast s (.swapped p.1) { s with swapped := s.swapped.eraseIdx p.2 } where
  config := rfl
  running := rfl
  candidates :=
    (((perm_eraseIdx (minBy_getElem? hp)).map RunningSequence.entry).append_left _).trans perm_middle
  least := by
    intro c hc
    rcases mem_candidates.mp hc with ⟨r, hr, rfl⟩ | ⟨q, hq, rfl⟩
    · exact hwaiting r hr
    · exact bestSwapped_le hp q hq

/-- **Popping takes the least candidate**, but for the fair share policy. -/
theorem popNextCandidate_least (hpolicy : s.config.priorityPolicy ≠ .fairShare) :
    (s.candidates = [] ∧ s.popNextCandidate = (none, s)) ∨
      ∃ c t, s.popNextCandidate = (some c, t) ∧ PoppedLeast s c t := by
  unfold popNextCandidate
  rw [if_neg hpolicy]
  cases hw : s.bestWaiting with
  | none =>
    have hwaiting := bestWaiting_eq_none.mp hw
    cases hp : s.bestSwapped with
    | none => exact .inl ⟨by simp [candidates, hwaiting, bestSwapped_eq_none.mp hp], rfl⟩
    | some p => exact .inr ⟨_, _, rfl, takeSwapped_least hp (by simp [hwaiting])⟩
  | some w =>
    cases hp : s.bestSwapped with
    | none => exact .inr ⟨_, _, rfl, takeWaiting_least hw (by simp [bestSwapped_eq_none.mp hp])⟩
    | some p =>
      dsimp only
      split
      case isTrue hlt =>
        have hlt := (cmpCandidateKey_eq _ _ _).2.mp hlt
        exact .inr ⟨_, _, rfl, takeWaiting_least hw fun q hq => hlt.le.trans (bestSwapped_le hp q hq)⟩
      case isFalse hge =>
        have hge := not_lt.mp fun hlt => hge ((cmpCandidateKey_eq _ _ _).2.mpr hlt)
        exact .inr ⟨_, _, rfl, takeSwapped_least hp fun r hr => hge.trans (bestWaiting_le hw r hr)⟩

theorem PoppedLeast.pushed {request : Request} (h : PoppedLeast s (.waiting request) t) (maxTokens bytes : ℕ)
    (cap : Option ScheduledBudgetCap) :
    Admits s request.entry (t.pushAdmittedRequest { request with maxTokens := maxTokens } bytes cap) where
  config := h.config
  length := by simp [pushAdmittedRequest, h.running]
  tokens := by simp [pushAdmittedRequest, runningTokenBudget, h.running, Request.entry]
  candidates := h.candidates

theorem PoppedLeast.swappedIn {sequence : RunningSequence} (h : PoppedLeast s (.swapped sequence) t) (bytes : ℕ) :
    Admits s sequence.entry { t with running := t.running ++ [{ sequence with reservedBytes := bytes }] } where
  config := h.config
  length := by simp [h.running]
  tokens := by simp [runningTokenBudget, h.running, RunningSequence.entry]
  candidates := h.candidates

/-- The key of a swapped sequence that had room when its turn came. -/
def SwapsIn (s : Scheduler) (seqId : SequenceId) : Prop := ∃ v ∈ s.swapped, v.seqId = seqId ∧ s.HasRoom v.key

/-- **What is swapped in had room**, whatever the byte budget answers. -/
theorem admitLoop_swapIn (fuel : ℕ) (hpolicy : s.config.priorityPolicy ≠ .fairShare) (decision : ScheduleDecision) :
    Every (admitLoop fuel s decision) fun result =>
      ∀ seqId ∈ result.1.swapIn, seqId ∈ decision.swapIn ∨ s.SwapsIn seqId := by
  induction fuel generalizing s decision with
  | zero => exact .done fun seqId h => .inl h
  | succ fuel ih =>
    unfold admitLoop
    split
    case isFalse => exact .done fun seqId h => .inl h
    case isTrue hcapacity =>
      have hpop := popNextCandidate_popped s
      rcases popNextCandidate_least hpolicy with ⟨_, hnone⟩ | ⟨c, t, hsome, hleast⟩
      · rw [hnone]
        exact .done fun seqId h => .inl h
      · rw [hsome] at hpop ⊢
        have hpolicy' : t.config.priorityPolicy ≠ .fairShare := by rw [hleast.config]; exact hpolicy
        cases hpop with
        | @waiting request i fairShare hi =>
          refine .bind ((reserveOrCapRequest_every _ request).mono fun result hresult => ?_)
          cases result with
          | error _ => exact .done fun seqId h => .inl h
          | ok admitted =>
            obtain ⟨admitted, bytes, cap⟩ := admitted
            obtain ⟨maxTokens, rfl⟩ := hresult admitted bytes cap rfl
            refine .mono (ih ?_ _) fun result hin => ?_
            · exact hpolicy'
            intro seqId hid
            rcases hin seqId hid with h | ⟨v, hv, hseq, hroom⟩
            · exact .inl h
            · exact .inr ⟨v, hv, hseq, (hleast.pushed maxTokens bytes cap).hasRoom hroom⟩
        | @swapped sequence i fairShare hi =>
          refine .bind (tryReserveBytes_every _ _ fun result => ?_)
          cases result with
          | error _ => exact .done fun seqId h => .inl h
          | ok _ =>
            refine .mono (ih ?_ _) fun result hin => ?_
            · exact hpolicy'
            intro seqId hid
            rcases hin seqId hid with h | ⟨v, hv, hseq, hroom⟩
            · rcases mem_append.mp h with h | h
              · exact .inl h
              · have hmem : sequence ∈ s.swapped := mem_of_getElem? hi
                exact .inr ⟨sequence, hmem, (mem_singleton.mp h).symm, hasRoom_of_least hcapacity hleast.least⟩
            · refine .inr ⟨v, mem_of_mem_eraseIdx hv, hseq, (hleast.swappedIn _).hasRoom hroom⟩

/-- The answer of a budget that has room. -/
def grant : (call : BudgetCall) → call.Answer
  | .tryReserve _ => .ok ()
  | .tryReserveAtMost requested _ _ => .ok ⟨requested, requested⟩
  | .release _ => ()
  | .used => (0 : ℕ)
  | .limit => (0 : ℕ)

theorem tryReserveBytes_grant (s : Scheduler) (bytes : ℕ) :
    (s.tryReserveBytes bytes).answered (fun _ => grant) = .ok () := by
  unfold tryReserveBytes
  split <;> rfl

theorem reserveOrCapRequest_grant (s : Scheduler) (request : Request) :
    ∃ bytes, (s.reserveOrCapRequest request).answered (fun _ => grant) = .ok (request, bytes, none) := by
  refine ⟨s.estimatedBytes request.promptTokens request.maxTokens, ?_⟩
  simp only [reserveOrCapRequest]
  split
  case isFalse => rfl
  case isTrue =>
    split
    · rfl
    · rw [answered_const_bind]
      show Calls.answered _ (if _ then _ else _) = _
      rw [if_pos rfl]
      rfl

/-- Admissions only add to a decision. -/
theorem admitLoop_swapIn_mono {decision : ScheduleDecision} {seqId : SequenceId} (h : seqId ∈ decision.swapIn)
    (answers : Answers) : seqId ∈ ((admitLoop fuel s decision).answered answers).1.swapIn := by
  obtain ⟨P, Q, hPQ⟩ := (admitLoop_every fuel s decision).answered answers
  rw [hPQ.decision]
  exact mem_append_left _ h

/-- **A swapped sequence that has room is swapped in**, if the byte budget has room. -/
theorem admitLoop_grant (hpolicy : s.config.priorityPolicy ≠ .fairShare)
    (hids : (s.candidates.map fun c => c.1.requestId).Nodup) (hfuel : s.candidates.length < fuel)
    {v : RunningSequence} (hv : v ∈ s.swapped) (hroom : s.HasRoom v.key) (decision : ScheduleDecision) :
    v.seqId ∈ ((admitLoop fuel s decision).answered fun _ => grant).1.swapIn := by
  induction fuel generalizing s decision with
  | zero => cases hfuel
  | succ fuel ih =>
    unfold admitLoop
    rw [if_pos hroom.capacity]
    have hpop := popNextCandidate_popped s
    have hmem : v.entry ∈ s.candidates := mem_candidates.mpr (.inr ⟨v, hv, rfl⟩)
    rcases popNextCandidate_least hpolicy with ⟨hnone, _⟩ | ⟨c, t, hsome, hleast⟩
    · rw [hnone] at hmem
      cases hmem
    · rw [hsome] at hpop ⊢
      have hids' := (hleast.candidates.map fun c => c.1.requestId).nodup hids
      rw [map_cons, nodup_cons] at hids'
      have hlength := hleast.candidates.length_eq
      have hlt : t.candidates.length < fuel := by rw [length_cons] at hlength; omega
      have hpolicy' : t.config.priorityPolicy ≠ .fairShare := by rw [hleast.config]; exact hpolicy
      -- a candidate that is still queued comes after the popped one
      have hbehind : v.entry ∈ t.candidates → s.rank c.entry.1 < s.rank v.key := by
        intro hqueued
        refine lt_of_le_of_ne (hleast.least _ hmem) fun heq => hids'.1 ?_
        rw [requestId_eq_of_rank_eq heq]
        exact mem_map_of_mem hqueued
      cases hpop with
      | @waiting request i fairShare hi =>
        have hafter := hbehind (mem_candidates.mpr (.inr ⟨v, hv, rfl⟩))
        obtain ⟨bytes, hgrant⟩ := reserveOrCapRequest_grant _ request
        rw [answered_const_bind, hgrant]
        have hadmits := hleast.pushed request.maxTokens bytes none
        refine ih ?_ ?_ ?_ ?_ ((hadmits.hasRoom_iff hafter).mpr hroom) _
        exacts [hpolicy', hids'.2, hlt, hv]
      | @swapped sequence i fairShare hi =>
        rw [answered_const_bind, tryReserveBytes_grant]
        rcases mem_cons.mp ((perm_eraseIdx hi).mem_iff.mp hv) with rfl | hv'
        · exact admitLoop_swapIn_mono (mem_append_right _ (mem_singleton.mpr rfl)) _
        · have hafter := hbehind (mem_candidates.mpr (.inr ⟨v, hv', rfl⟩))
          have hadmits := hleast.swappedIn (s.estimatedBytes sequence.promptTokens sequence.maxTokens)
          refine ih ?_ ?_ ?_ ?_ ((hadmits.hasRoom_iff hafter).mpr hroom) _
          exacts [hpolicy', hids'.2, hlt, hv']

/-! ### Preemption -/

theorem filter_eraseIdx {α : Type} {l : List α} {i : ℕ} {m : α} (h : l[i]? = some m) {p : α → Bool} (hp : p m = false) :
    (l.eraseIdx i).filter p = l.filter p := by
  induction l generalizing i with
  | nil => rfl
  | cons a l ih =>
    cases i with
    | zero =>
      cases h
      rw [eraseIdx_cons_zero, filter_cons_of_neg (by simp [hp])]
    | succ i => rw [eraseIdx_cons_succ, filter_cons, filter_cons, ih h]

/-- `m` is the first victim. -/
structure FirstVictim (s : Scheduler) (m : RunningSequence) (i : ℕ) : Prop where
  mem : s.running[i]? = some m
  least : ∀ r ∈ s.running, m.victimRank ≤ r.victimRank
  lt : ∀ r ∈ s.running.eraseIdx i, m.victimRank < r.victimRank

theorem firstVictim (hids : (s.running.map RunningSequence.requestId).Nodup) {m : RunningSequence × ℕ}
    (h : s.lowestPriorityRunning = some m) : FirstVictim s m.1 m.2 := by
  have hmem := minBy_getElem? h
  have hleast := minBy_zipIdx_le RunningSequence.victimRank (fun _ _ => victim_cmp_eq_gt _ _) h
  refine ⟨hmem, hleast, fun r hr => lt_of_le_of_ne (hleast r (mem_of_mem_eraseIdx hr)) fun heq => ?_⟩
  have hids' := ((perm_eraseIdx hmem).map RunningSequence.requestId).nodup hids
  refine (nodup_cons.mp hids').1 ?_
  rw [requestId_eq_of_victimRank_eq heq]
  exact mem_map_of_mem hr

/-- The state after one victim. -/
def afterVictim (s : Scheduler) (m : RunningSequence) (i : ℕ) : Scheduler :=
  { s with running := s.running.eraseIdx i, swapped := s.swapped ++ [m.parked] }

/-- The victims up to `last` are out, in some order. -/
structure SwappedOut (s : Scheduler) (last : RunningSequence) (preempt preempt' : List SequenceId) (t : Scheduler) :
    Prop where
  config : t.config = s.config
  waiting : t.waiting = s.waiting
  running : t.running = (s.swapOut last).running
  swapped : t.swapped.Perm (s.swapOut last).swapped
  preempt : preempt'.Perm (preempt ++ (s.running.filter fun r => r.victimRank ≤ last.victimRank).map RunningSequence.seqId)

namespace FirstVictim

variable {s : Scheduler} {m last : RunningSequence} {i : ℕ} (h : FirstVictim s m i)

include h

theorem filter_lt : (s.running.filter fun r => m.victimRank < r.victimRank) = s.running.eraseIdx i := by
  rw [← filter_eraseIdx h.mem (by simp), filter_eq_self]
  exact fun r hr => decide_eq_true (h.lt r hr)

theorem filter_le (hlast : last ∈ s.running) :
    (s.running.filter fun r => r.victimRank ≤ last.victimRank).Perm
      (m :: (s.running.eraseIdx i).filter fun r => r.victimRank ≤ last.victimRank) := by
  refine ((perm_eraseIdx h.mem).filter _).trans (List.Perm.of_eq ?_)
  rw [filter_cons_of_pos (by simpa using h.least last hlast)]

/-- The first victim alone. -/
theorem filter_le_self : (s.running.filter fun r => r.victimRank ≤ m.victimRank).Perm [m] := by
  refine (h.filter_le (mem_of_getElem? h.mem)).trans (List.Perm.of_eq ?_)
  rw [filter_eq_nil_iff.mpr fun r hr => by simpa using h.lt r hr]

theorem swappedOut (preempt : List SequenceId) :
    SwappedOut s m preempt (preempt ++ [m.seqId]) (s.afterVictim m i) where
  config := rfl
  waiting := rfl
  running := h.filter_lt.symm
  swapped := (h.filter_le_self.map RunningSequence.parked).symm.append_left s.swapped
  preempt := (h.filter_le_self.map RunningSequence.seqId).symm.append_left preempt

/-- Going on after the first victim. -/
theorem swappedOut_of_after (hlast : last ∈ s.running.eraseIdx i) {preempt' : List SequenceId}
    (ht : SwappedOut (s.afterVictim m i) last (preempt ++ [m.seqId]) preempt' t) :
    SwappedOut s last preempt preempt' t where
  config := ht.config
  waiting := ht.waiting
  running := by
    rw [ht.running]
    refine filter_eraseIdx h.mem ?_
    simpa using (h.lt last hlast).le
  swapped := by
    refine ht.swapped.trans ?_
    have hperm := (h.filter_le (mem_of_mem_eraseIdx hlast)).map RunningSequence.parked
    simpa [swapOut, afterVictim] using (hperm.symm.append_left s.swapped)
  preempt := by
    refine ht.preempt.trans ?_
    have hperm := (h.filter_le (mem_of_mem_eraseIdx hlast)).map RunningSequence.seqId
    simpa [afterVictim] using hperm.symm.append_left preempt

theorem preempts_after_iff (hlast : last ∈ s.running.eraseIdx i) : (s.afterVictim m i).Preempts last ↔ s.Preempts last := by
  have hfilter : ((s.running.eraseIdx i).filter fun r => last.victimRank ≤ r.victimRank) =
      s.running.filter fun r => last.victimRank ≤ r.victimRank :=
    filter_eraseIdx h.mem (by simpa using h.lt last hlast)
  have hfull : { s.afterVictim m i with
        running := (s.running.eraseIdx i).filter fun r => last.victimRank ≤ r.victimRank }.hasCapacityForCandidate =
      { s with running := s.running.filter fun r => last.victimRank ≤ r.victimRank }.hasCapacityForCandidate := by
    rw [hfilter]
    rfl
  constructor
  · exact fun hp => ⟨hp.best, hfull ▸ hp.full⟩
  · exact fun hp => ⟨hp.best, hfull.trans hp.full⟩

theorem filter_ge : (s.running.filter fun r => m.victimRank ≤ r.victimRank) = s.running :=
  filter_eq_self.mpr fun r hr => decide_eq_true (h.least r hr)

end FirstVictim

/-- **The victims are a beginning of the order of victims**, whatever the byte budget answers. -/
theorem preemptLoop_victims (fuel : ℕ) (hids : (s.running.map RunningSequence.requestId).Nodup)
    (preempt : List SequenceId) :
    Every (preemptLoop fuel s preempt) fun result => result = (preempt, s) ∨
      ∃ last ∈ s.running, s.Preempts last ∧ SwappedOut s last preempt result.1 result.2 := by
  induction fuel generalizing s preempt with
  | zero => exact .done (.inl rfl)
  | succ fuel ih =>
    unfold preemptLoop
    split
    case isTrue => exact .done (.inl rfl)
    case isFalse hfull =>
      split
      · rename_i best victim hbest hvictim
        split
        case isTrue => exact .done (.inl rfl)
        case isFalse hprio =>
          have hfirst := firstVictim hids hvictim
          have hmem := mem_of_getElem? hfirst.mem
          have hpreempts : s.Preempts victim.1 := by
            refine ⟨by simpa [hbest] using hprio, ?_⟩
            rw [hfirst.filter_ge]
            exact eq_false_of_ne_true hfull
          have hids' : ((s.running.eraseIdx victim.2).map RunningSequence.requestId).Nodup :=
            hids.sublist ((eraseIdx_sublist _ _).map _)
          refine .bind (releaseBytes_every _ _ ?_)
          refine .mono (ih (s := s.afterVictim victim.1 victim.2) hids' _) fun result hresult => ?_
          rcases hresult with rfl | ⟨last, hlast, hp, hout⟩
          · exact .inr ⟨victim.1, hmem, hpreempts, hfirst.swappedOut preempt⟩
          · exact .inr ⟨last, mem_of_mem_eraseIdx hlast, (hfirst.preempts_after_iff hlast).mp hp,
              hfirst.swappedOut_of_after hlast hout⟩
      · exact .done (.inl rfl)

theorem hasCapacity_congr (hconfig : t.config = s.config) (hrunning : t.running = s.running) :
    t.hasCapacityForCandidate = s.hasCapacityForCandidate := by
  unfold hasCapacityForCandidate runningTokenBudget
  rw [hconfig, hrunning]

/-- Fewer running sequences leave more room. -/
theorem hasCapacity_of_sublist {l : List RunningSequence} (hl : l.Sublist s.running)
    (h : s.hasCapacityForCandidate = true) : { s with running := l }.hasCapacityForCandidate = true := by
  have hsum : (l.map fun r => r.promptTokens + r.generatedTokens).sum ≤ s.runningTokenBudget :=
    (hl.map fun r => r.promptTokens + r.generatedTokens).sum_le_sum fun _ _ => Nat.zero_le _
  have hlength := hl.length_le
  simp only [hasCapacityForCandidate, Bool.and_eq_true, decide_eq_true_eq] at h ⊢
  exact ⟨hlength.trans_lt h.1, hsum.trans_lt h.2⟩

/-- With room in the batch nothing is preempted. -/
theorem preemptLoop_capacity (h : s.hasCapacityForCandidate = true) (fuel : ℕ) (preempt : List SequenceId) :
    preemptLoop fuel s preempt = pure (preempt, s) := by
  cases fuel with
  | zero => rfl
  | succ fuel =>
    unfold preemptLoop
    rw [if_pos h]

/-- **If the victims up to `last` are enough, they are the victims.** -/
theorem preemptLoop_enough (hids : (s.running.map RunningSequence.requestId).Nodup)
    (hfuel : s.running.length ≤ fuel) (hlast : last ∈ s.running) (hp : s.Preempts last)
    (hcapacity : (s.swapOut last).hasCapacityForCandidate = true) (preempt : List SequenceId) :
    Every (preemptLoop fuel s preempt) fun result => SwappedOut s last preempt result.1 result.2 := by
  induction fuel generalizing s preempt with
  | zero =>
    rw [length_eq_zero_iff.mp (Nat.le_zero.mp hfuel)] at hlast
    cases hlast
  | succ fuel ih =>
    have hfull : ¬ s.hasCapacityForCandidate = true := by
      intro h
      have hpart := hasCapacity_of_sublist (l := s.running.filter fun r => last.victimRank ≤ r.victimRank)
        filter_sublist h
      rw [hp.full] at hpart
      cases hpart
    have hprio := hp.best
    unfold preemptLoop
    rw [if_neg hfull]
    cases hbest : s.bestWaiting with
    | none =>
      rw [hbest] at hprio
      cases hprio
    | some best =>
      cases hvictim : s.lowestPriorityRunning with
      | none =>
        have hempty : s.running = [] := by simpa [lowestPriorityRunning] using hvictim
        rw [hempty] at hlast
        cases hlast
      | some victim =>
        have hfirst := firstVictim hids hvictim
        have hle := priority_le_of_victimRank_le (hfirst.least last hlast)
        have hids' : ((s.running.eraseIdx victim.2).map RunningSequence.requestId).Nodup :=
          hids.sublist ((eraseIdx_sublist _ _).map _)
        have hfuel' : (s.running.eraseIdx victim.2).length ≤ fuel := by
          have := (perm_eraseIdx hfirst.mem).length_eq
          rw [length_cons] at this
          omega
        rw [hbest] at hprio
        simp only [Option.any_some, decide_eq_true_eq] at hprio
        dsimp only
        rw [if_neg (by omega)]
        refine .bind (releaseBytes_every _ _ ?_)
        rcases mem_cons.mp ((perm_eraseIdx hfirst.mem).mem_iff.mp hlast) with rfl | hlast'
        · have hroom : (s.afterVictim victim.1 victim.2).hasCapacityForCandidate = true := by
            rw [← hcapacity]
            exact hasCapacity_congr rfl hfirst.filter_lt.symm
          show Every (preemptLoop fuel (s.afterVictim victim.1 victim.2) (preempt ++ [victim.1.seqId])) _
          rw [preemptLoop_capacity hroom]
          exact .done (hfirst.swappedOut preempt)
        · have hroom : ((s.afterVictim victim.1 victim.2).swapOut last).hasCapacityForCandidate = true := by
            rw [← hcapacity]
            refine hasCapacity_congr rfl ?_
            exact filter_eraseIdx (p := fun r => decide (last.victimRank < r.victimRank)) hfirst.mem
              (by simpa using (hfirst.lt last hlast').le)
          exact (ih (s := s.afterVictim victim.1 victim.2) hids' hfuel' hlast'
            ((hfirst.preempts_after_iff hlast').mpr hp) hroom _).mono fun result =>
              hfirst.swappedOut_of_after hlast'

theorem SwappedOut.hasRoom_iff {preempt' : List SequenceId} (h : SwappedOut s last preempt preempt' t)
    (k : CandidateKey) : t.HasRoom k ↔ (s.swapOut last).HasRoom k := by
  have hahead : (t.ahead k).Perm ((s.swapOut last).ahead k) := by
    unfold ahead candidates
    rw [h.config, h.waiting]
    exact ((h.swapped.map RunningSequence.entry).append_left _).filter _
  have hlength := hahead.length_eq
  have hsum := (hahead.map Prod.snd).sum_eq
  have hconfig : t.config = (s.swapOut last).config := h.config
  unfold HasRoom runningTokenBudget
  rw [hlength, hsum, h.running, hconfig]

/-! ### One iteration -/

theorem applyPreemption_victims (hids : (s.running.map RunningSequence.requestId).Nodup) :
    Every s.applyPreemption fun result => result = ([], s) ∨
      s.config.preemptionPolicy ≠ .disabled ∧ s.config.priorityPolicy ≠ .fairShare ∧
        ∃ last ∈ s.running, s.Preempts last ∧ SwappedOut s last [] result.1 result.2 := by
  unfold applyPreemption
  split
  case isTrue => exact .done (.inl rfl)
  case isFalse hnot =>
    simp only [not_or] at hnot
    refine (preemptLoop_victims _ hids []).mono fun result hresult => ?_
    rcases hresult with h | h
    · exact .inl h
    · exact .inr ⟨hnot.1, hnot.2.1, h⟩

theorem applyPreemption_enough (hids : (s.running.map RunningSequence.requestId).Nodup)
    (hpreemption : s.config.preemptionPolicy ≠ .disabled) (hpolicy : s.config.priorityPolicy ≠ .fairShare)
    (hlast : last ∈ s.running) (hp : s.Preempts last) (hcapacity : (s.swapOut last).hasCapacityForCandidate = true) :
    Every s.applyPreemption fun result => SwappedOut s last [] result.1 result.2 := by
  have hwaiting : s.waiting ≠ [] := by
    intro hempty
    have hbest := hp.best
    rw [bestWaiting_eq_none.mpr hempty] at hbest
    cases hbest
  unfold applyPreemption
  rw [if_neg (by simp [hpreemption, hpolicy, hwaiting, ne_nil_of_mem hlast])]
  exact preemptLoop_enough hids le_rfl hlast hp hcapacity []

/-- The requests are distinct. -/
def DistinctIds (s : Scheduler) : Prop := (s.tags.map Prod.fst).Nodup

section Distinct

variable {s t : Scheduler} {last : RunningSequence} {preempt : List SequenceId}

/-- The victims are taken from the running sequences. -/
theorem victims_sublist (s : Scheduler) (last : RunningSequence) :
    (s.dropCompleted.running.filter fun r => r.victimRank ≤ last.victimRank).Sublist s.running :=
  filter_sublist.trans filter_sublist

theorem DistinctIds.running (h : s.DistinctIds) : (s.dropCompleted.running.map RunningSequence.requestId).Nodup := by
  simp only [DistinctIds, tags, map_append] at h
  have hrunning := (nodup_append.mp (nodup_append.mp h).1).2.1
  rw [runningTags, map_map] at hrunning
  exact hrunning.sublist (filter_sublist.map _)

theorem DistinctIds.candidates (h : s.DistinctIds) (hout : SwappedOut s.dropCompleted last [] preempt t) :
    (t.candidates.map fun c => c.1.requestId).Nodup := by
  have hswapped := hout.swapped.map RunningSequence.requestId
  have hperm : (t.candidates.map fun c => c.1.requestId).Perm (s.waiting.map Request.id ++
      (s.dropCompleted.running.filter fun r => r.victimRank ≤ last.victimRank).map RunningSequence.requestId ++
      s.swapped.map RunningSequence.requestId) := by
    have hcandidates : (t.candidates.map fun c => c.1.requestId) =
        s.waiting.map Request.id ++ t.swapped.map RunningSequence.requestId := by
      rw [Scheduler.candidates, hout.waiting, map_append, map_map, map_map]
      rfl
    rw [hcandidates, append_assoc]
    refine (hswapped.trans ?_).append_left _
    rw [swapOut, map_append, map_map]
    exact perm_append_comm
  refine hperm.nodup_iff.mpr (h.sublist ?_)
  simp only [tags, waitingTags, runningTags, swappedTags, map_append, map_map]
  exact ((List.Sublist.refl _).append ((victims_sublist s last).map _)).append (List.Sublist.refl _)

/-- A swapped sequence of a victim's name is the victim. -/
theorem DistinctSeqs.victim (h : s.DistinctSeqs) (hout : SwappedOut s.dropCompleted last [] preempt t)
    {q : RunningSequence} (hq : q ∈ t.swapped) (hpreempt : q.seqId ∈ preempt) :
    ∃ v ∈ s.dropCompleted.running, v.victimRank ≤ last.victimRank ∧ q.key = v.key := by
  obtain ⟨v, hv, hseq⟩ := mem_map.mp (hout.preempt.mem_iff.mp hpreempt)
  have hvrun : v ∈ s.running := (victims_sublist s last).subset hv
  simp only [DistinctSeqs, tags, waitingTags, runningTags, swappedTags, map_append, map_map] at h
  obtain ⟨hleft, _, hdisjoint⟩ := nodup_append.mp h
  rcases mem_append.mp (hout.swapped.mem_iff.mp hq) with hold | hnew
  · refine absurd hseq (hdisjoint _ ?_ _ (mem_map_of_mem hold))
    exact mem_append_right _ (mem_map_of_mem hvrun)
  · obtain ⟨u, hu, rfl⟩ := mem_map.mp hnew
    have hmem := mem_filter.mp hu
    exact ⟨u, hmem.1, of_decide_eq_true hmem.2, rfl⟩

end Distinct

/-- **No victim comes back**, if none has room. -/
theorem schedule_disjoint (hids : s.DistinctIds) (hseqs : s.DistinctSeqs) (h : ¬ s.dropCompleted.Readmits) :
    Every s.schedule fun result => ∀ seqId ∈ result.1.preempt, seqId ∉ result.1.swapIn := by
  refine .bind ((removeCompleted_every s s.running).mono fun still hstill => ?_)
  subst hstill
  refine .bind ((applyPreemption_victims hids.running).mono fun preempted hpreempted => ?_)
  obtain ⟨preempt, t⟩ := preempted
  refine .bind ?_
  rcases hpreempted with hnone | ⟨hpreemption, hpolicy, last, hlast, hp, hout⟩
  · cases hnone
    refine (admitLoop_every _ _ _).mono fun admitted hPQ => .done ?_
    obtain ⟨P, Q, hPQ⟩ := hPQ
    intro seqId hid
    rw [hPQ.decision] at hid
    cases hid
  · have hpolicy' : t.config.priorityPolicy ≠ .fairShare := by
      rw [hout.config]
      exact hpolicy
    refine ((admitLoop_every _ _ _).and (admitLoop_swapIn _ hpolicy' _)).mono fun admitted hadmitted => .done ?_
    obtain ⟨⟨P, Q, hPQ⟩, hin⟩ := hadmitted
    intro seqId hid hswapIn
    have hid : seqId ∈ preempt := by
      rw [hPQ.decision] at hid
      exact hid
    rcases hin seqId hswapIn with hnil | ⟨q, hq, rfl, hroom⟩
    · cases hnil
    · obtain ⟨v, hv, hle, hkey⟩ := hseqs.victim hout hq hid
      rw [hkey, hout.hasRoom_iff] at hroom
      exact h ⟨hpreemption, hpolicy, last, hlast, hp, v, hv, hle, hroom⟩

/-- Preemption, then admission, with a byte budget that has room. -/
theorem schedule_grant (h : (s.dropCompleted.applyPreemption.answered fun _ => grant) = (preempt, t)) :
    (s.schedule.answered fun _ => grant).1.preempt = preempt ∧
      (s.schedule.answered fun _ => grant).1.swapIn =
        ((admitLoop (t.waiting.length + t.swapped.length + 1) t ⟨[], [], preempt, []⟩).answered fun _ => grant).1.swapIn := by
  have hstill := (removeCompleted_every s s.running).answered fun _ => grant
  obtain ⟨P, Q, hPQ⟩ := (admitLoop_every (t.waiting.length + t.swapped.length + 1) t ⟨[], [], preempt, []⟩).answered
    fun _ => grant
  have hpreempt := congrArg ScheduleDecision.preempt hPQ.decision
  unfold schedule
  rw [answered_const_bind, hstill, answered_const_bind]
  unfold dropCompleted at h
  rw [h]
  rw [answered_const_bind]
  exact ⟨hpreempt, rfl⟩

/-- **A victim that has room comes back**, if the byte budget has room for all. -/
theorem schedule_readmits (hids : s.DistinctIds) (h : s.dropCompleted.Readmits) :
    ∃ seqId ∈ (s.schedule.answered fun _ => grant).1.preempt, seqId ∈ (s.schedule.answered fun _ => grant).1.swapIn := by
  obtain ⟨hpreemption, hpolicy, last, hlast, hp, v, hv, hle, hroom⟩ := h
  have hout := (applyPreemption_enough hids.running hpreemption hpolicy hlast hp hroom.capacity).answered fun _ => grant
  generalize hresult : (s.dropCompleted.applyPreemption.answered fun _ => grant) = preempted at hout
  obtain ⟨preempt, t⟩ := preempted
  obtain ⟨hpreempts, hswapIn⟩ := schedule_grant hresult
  have hvictim : v ∈ s.dropCompleted.running.filter fun r => r.victimRank ≤ last.victimRank :=
    mem_filter.mpr ⟨hv, decide_eq_true hle⟩
  have hswapped : v.parked ∈ t.swapped :=
    hout.swapped.mem_iff.mpr (mem_append_right _ (mem_map_of_mem hvictim))
  have hpolicy' : t.config.priorityPolicy ≠ .fairShare := by
    rw [hout.config]
    exact hpolicy
  have hfuel : t.candidates.length < t.waiting.length + t.swapped.length + 1 := by simp [candidates]
  refine ⟨v.seqId, ?_, ?_⟩
  · rw [hpreempts]
    exact hout.preempt.mem_iff.mpr (mem_map_of_mem hvictim)
  · rw [hswapIn]
    exact admitLoop_grant hpolicy' (hids.candidates hout) hfuel hswapped ((hout.hasRoom_iff _).mpr hroom) _

/-- **A decision is consistent exactly if no victim is swapped back in.** -/
theorem Scheduled.consistent_iff {s' : Scheduler} {decision : ScheduleDecision} {still V P Q : List Tag}
    (h : Scheduled s decision s' still V P Q) (hseqs : s.DistinctSeqs) :
    Consistent decision s' ↔ ∀ seqId ∈ decision.preempt, seqId ∉ decision.swapIn := by
  -- how often a sequence is named by each list
  have hcounts : ∀ seqId,
      (s.waitingTags.map Prod.snd).count seqId + (s.unfinishedTags.map Prod.snd).count seqId +
        (s.swappedTags.map Prod.snd).count seqId ≤ 1 := by
    intro seqId
    have hsub := ((filter_sublist (p := RunningSequence.unfinished) (l := s.running)).map
      RunningSequence.tag).map Prod.snd
    have hle := hsub.count_le seqId
    have hone := nodup_iff_count_le_one.mp hseqs seqId
    simp only [tags, map_append, count_append] at hone
    simp only [unfinishedTags, runningTags] at hle hone ⊢
    omega
  have hkept := fun seqId => (h.kept.map Prod.snd).count_eq seqId
  have hrunning := fun seqId => (h.running.map Prod.snd).count_eq seqId
  have hwaiting := fun seqId => (h.waiting.map Prod.snd).count_eq seqId
  have hswapped := fun seqId => (h.swapped.map Prod.snd).count_eq seqId
  simp only [map_append, count_append] at hkept hrunning hwaiting hswapped
  have hdecode : ∀ seqId,
      ((s'.runningTags.map Prod.snd).filter fun seqId => seqId ∈ s.unfinishedTags.map Prod.snd).count seqId =
        if 0 < (s.unfinishedTags.map Prod.snd).count seqId then (s'.runningTags.map Prod.snd).count seqId else 0 := by
    intro seqId
    split
    case isTrue hpos => exact count_filter (decide_eq_true (count_pos_iff.mp hpos))
    case isFalse hzero =>
      refine count_eq_zero_of_not_mem fun hmem => hzero (count_pos_iff.mpr ?_)
      exact of_decide_eq_true (mem_filter.mp hmem).2
  have hdecision := h.decision
  subst hdecision
  constructor
  · intro hc seqId hpreempt hin
    exact (nodup_append.mp hc.nodup).2.2 seqId (mem_append_right _ hpreempt) seqId hin rfl
  · intro hdisjoint
    have hnot : ∀ seqId, (V.map Prod.snd).count seqId = 0 ∨ (Q.map Prod.snd).count seqId = 0 := by
      intro seqId
      by_cases hmem : seqId ∈ V.map Prod.snd
      · exact .inr (count_eq_zero_of_not_mem (hdisjoint seqId hmem))
      · exact .inl (count_eq_zero_of_not_mem hmem)
    refine ⟨nodup_iff_count_le_one.mpr fun seqId => ?_, fun seqId => ?_, fun seqId hpreempt => ?_⟩
    · have := hnot seqId
      have := hcounts seqId
      have := hkept seqId
      have := hrunning seqId
      have := hwaiting seqId
      have := hswapped seqId
      simp only [count_append, hdecode]
      split <;> omega
    · have := hnot seqId
      have := hkept seqId
      have := hrunning seqId
      rw [← map_tag_seqId, ← count_pos_iff, ← count_pos_iff]
      simp only [count_append, hdecode]
      change _ ↔ 0 < (s'.runningTags.map Prod.snd).count seqId
      split <;> omega
    · have := hnot seqId
      have hpos : 0 < (V.map Prod.snd).count seqId := count_pos_iff.mpr hpreempt
      have := hswapped seqId
      rw [← map_tag_seqId, ← count_pos_iff]
      change 0 < (s'.swappedTags.map Prod.snd).count seqId
      omega

end Scheduler

namespace History

open Scheduler

theorem Conserved.distinctIds {h : History} (hc : h.Conserved) : h.scheduler.DistinctIds := by
  refine nodup_iff_count_le_one.mpr fun id => ?_
  have hle := hc.le_one id
  rw [occurrences_eq] at hle
  rw [count, countP_map]
  exact hle

/-- **When decisions are consistent.** In every reachable state with distinct sequences, the
decision of an iteration is consistent, whatever the byte budget answers, exactly if no victim
has room to come back. -/
theorem decision_consistent_iff {h : History} (hr : h.Reaches) (hseqs : h.scheduler.DistinctSeqs) :
    (∀ answers : Answers, Consistent (h.scheduler.schedule.answered answers).1 (h.scheduler.schedule.answered answers).2) ↔
      ¬ h.scheduler.dropCompleted.Readmits := by
  have hids := hr.conserved.distinctIds
  have hiff : ∀ answers : Answers,
      Consistent (h.scheduler.schedule.answered answers).1 (h.scheduler.schedule.answered answers).2 ↔
        ∀ seqId ∈ (h.scheduler.schedule.answered answers).1.preempt,
          seqId ∉ (h.scheduler.schedule.answered answers).1.swapIn := by
    intro answers
    obtain ⟨still, V, P, Q, hs⟩ := (schedule_every h.scheduler).answered answers
    exact hs.consistent_iff hseqs
  constructor
  · intro hall hreadmits
    obtain ⟨seqId, hpreempt, hin⟩ := schedule_readmits hids hreadmits
    exact (hiff _).mp (hall _) seqId hpreempt hin
  · intro hnot answers
    exact (hiff answers).mpr ((schedule_disjoint hids hseqs hnot).answered answers)

/-- A low request runs, and a high one waits. -/
def overtaking : List (Operation × Answers) :=
  [(.addRequest 7 1 2 .low, refuse), (.schedule, refuse), (.addRequest 8 1 2 .high, refuse)]

theorem decision_consistent_iff_overtaking :
    ¬ (overtaking.foldl step single).scheduler.dropCompleted.Readmits ∧
      Consistent ((overtaking.foldl step single).scheduler.schedule.answered refuse).1
        ((overtaking.foldl step single).scheduler.schedule.answered refuse).2 :=
  ⟨by decide, (decision_consistent_iff (Reachable.foldl overtaking (.start ⟨_, .new, false, rfl⟩) (by decide))
    (by decide)).mpr (by decide) refuse⟩

/-- A scheduler with room for one sequence, first come first served. -/
def singleFcfs : History := ⟨Scheduler.new ⟨1, 100, .fcfs, .swap, none⟩, []⟩

/-- The low request is preempted for the high one, and then swapped in before it, since it came
first. -/
theorem preempted_and_swapped_in :
    (overtaking.foldl step singleFcfs).Reaches ∧ (overtaking.foldl step singleFcfs).scheduler.DistinctSeqs ∧
      ((overtaking.foldl step singleFcfs).scheduler.schedule.answered refuse).1 = ⟨[], [7], [7], [7]⟩ ∧
      ¬ Consistent ((overtaking.foldl step singleFcfs).scheduler.schedule.answered refuse).1
        ((overtaking.foldl step singleFcfs).scheduler.schedule.answered refuse).2 :=
  ⟨Reachable.foldl overtaking (.start ⟨_, .new, false, rfl⟩) (by decide), by decide, by decide,
    fun h => absurd h.nodup (by decide)⟩

end History

end OnnxGenai.Batching
