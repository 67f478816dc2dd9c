import OnnxGenai.Comm.Ordering
import OnnxGenai.Lib.Runs

/-!
# What the sequencer guarantees

The state changes only by six kinds of moves: a group is registered, the next execution is
decided, a rank submits or passes over its next slot, a rank completes an active slot, and an
abort completes all of them (`Move`). Every call makes such moves and nothing else, whether it
succeeds or is rejected, so what every move keeps holds in every reachable state.

A call that is rejected changes nothing, with one exception: a submit of an execution that is
next to be decided publishes its admission before it looks at the group's log. If the group
then refuses the slot, because it does not know the rank or the rank has not come to the end
of the log, the admission stays.
-/

namespace OnnxGenai.Comm

open Lib CollectiveSequencer FiniteMap
open List hiding get modify

/-! ### Reading the trace -/

/-- The slot of `rank` in `group` that an event says was accepted. -/
def CollectiveOrderingEvent.slot? (group : GroupId) (rank : RankId) : CollectiveOrderingEvent → Option Slot
  | .submit g _ _ r inst collective signature =>
    if g = group ∧ r = rank then some (submittedSlot inst collective signature) else none
  | .observeSkip g _ _ r inst => if g = group ∧ r = rank then some (skippedSlot inst) else none
  | _ => none

/-- The active slot an event completes. -/
def CollectiveOrderingEvent.completed? : CollectiveOrderingEvent → Option ActiveSlot
  | .completeLocal group _ _ rank inst _ => some ⟨group, rank, inst⟩
  | _ => none

namespace SequencerState

/-- The slots of a group that a rank was let have, in the order it got them. -/
def acceptedSlots (s : SequencerState) (group : GroupId) (rank : RankId) : List Slot :=
  s.trace.filterMap (·.slot? group rank)

/-- The common log of a group. -/
def log (s : SequencerState) (group : GroupId) : List Slot :=
  ((s.groups.lookup group).map fun g => g.log.entries).getD []

/-- How often a slot was submitted. -/
def submissions (s : SequencerState) (slot : ActiveSlot) : ℕ :=
  (s.acceptedSlots slot.group slot.rank).countP fun entry =>
    entry.disposition = .submitted ∧ entry.inst = slot.inst

/-- How often a slot was completed, by its rank or by an abort. -/
def completions (s : SequencerState) (slot : ActiveSlot) : ℕ :=
  s.trace.countP fun event => event.completed? = some slot

end SequencerState

/-- The decision that goes with what was done with a slot. -/
def SlotDisposition.decision : SlotDisposition → CollectiveDecision
  | .submitted => .admitted
  | .skipped => .skipped

/-! ### Moves -/

namespace SequencerState

/-- The next execution is decided. -/
def published (s : SequencerState) (decision : CollectiveDecision) : SequencerState :=
  { s with
    decisions := s.decisions.insert (s.decidedPrefix + 1) decision
    decidedPrefix := s.decidedPrefix + 1
    trace := s.trace ++ [.decide (s.decidedPrefix + 1) decision] }

/-- A new group. -/
def registered (s : SequencerState) (group : GroupId) (members : List RankId) : SequencerState :=
  { s with groups := s.groups.insert group ⟨members, membershipHash members, .empty members⟩ }

/-- A group's log after a rank took a slot. -/
def withLog (s : SequencerState) (group : GroupId) (g : GroupState) (log : SharedLog RankId Slot) : SequencerState :=
  { s with groups := s.groups.insert group { g with log } }

/-- A slot becomes active. -/
def activated (s : SequencerState) (g : GroupState) (slot : ActiveSlot) (collective : CollectiveKind)
    (signature : BitVec 64) : SequencerState :=
  { s with
    active := insert slot s.active
    trace := s.trace ++
      [.submit slot.group g.members g.membershipHash slot.rank slot.inst collective signature] }

/-- A slot was passed over. -/
def passed (s : SequencerState) (g : GroupState) (group : GroupId) (rank : RankId) (inst : CommInstanceId) :
    SequencerState :=
  { s with trace := s.trace ++ [.observeSkip group g.members g.membershipHash rank inst] }

/-- The event that completes a slot. -/
def completion (g : GroupState) (slot : ActiveSlot) (success : Bool) : CollectiveOrderingEvent :=
  .completeLocal slot.group g.members g.membershipHash slot.rank slot.inst success

/-- A slot is completed. -/
def settled (s : SequencerState) (g : GroupState) (slot : ActiveSlot) (success : Bool) : SequencerState :=
  { s with active := s.active.erase slot, trace := s.trace ++ [completion g slot success] }

/-- The events of completing slots with an error. -/
def failures (s : SequencerState) (slots : List ActiveSlot) : List CollectiveOrderingEvent :=
  slots.filterMap fun slot => (s.groups.lookup slot.group).map fun g => completion g slot false

/-- An abort completes every active slot. -/
def stopped (s : SequencerState) : SequencerState :=
  { s with
    aborted := true
    active := ∅
    trace := s.trace ++ .abort :: s.failures s.active.sort }

/-- The ways the state changes while no slot is completed. -/
inductive Quiet : SequencerState → SequencerState → Prop where
  | registered {s : SequencerState} {group : GroupId} (members : List RankId)
      (hnew : s.groups.lookup group = none) : Quiet s (s.registered group members)
  | published {s : SequencerState} (decision : CollectiveDecision) (hrun : s.aborted = false) :
      Quiet s (s.published decision)
  | submitted {s : SequencerState} {slot : ActiveSlot} {collective : CollectiveKind} {signature : BitVec 64}
      {g : GroupState} {log : SharedLog RankId Slot} (hrun : s.aborted = false)
      (hadmitted : s.decisions.lookup slot.inst.execution = some .admitted)
      (hgroup : s.groups.lookup slot.group = some g)
      (hlog : g.log.advance Slot.inst slot.rank (submittedSlot slot.inst collective signature) = .ok log)
      (hnew : slot ∉ s.active) :
      Quiet s ((s.withLog slot.group g log).activated g slot collective signature)
  | passed {s : SequencerState} {group : GroupId} {rank : RankId} {inst : CommInstanceId} {g : GroupState}
      {log : SharedLog RankId Slot} (hrun : s.aborted = false)
      (hskipped : s.decisions.lookup inst.execution = some .skipped) (hgroup : s.groups.lookup group = some g)
      (hlog : g.log.advance Slot.inst rank (skippedSlot inst) = .ok log) :
      Quiet s ((s.withLog group g log).passed g group rank inst)

/-- The ways the state changes. -/
inductive Move : SequencerState → SequencerState → Prop where
  | quiet {s s' : SequencerState} (h : Quiet s s') : Move s s'
  | settled {s : SequencerState} {slot : ActiveSlot} {g : GroupState} (success : Bool) (hactive : slot ∈ s.active)
      (hgroup : s.groups.lookup slot.group = some g) : Move s (s.settled g slot success)
  | stopped {s : SequencerState} (hrun : s.aborted = false) : Move s s.stopped

/-! ### The invariant -/

/-- What holds between any two calls. -/
structure Inv (s : SequencerState) : Prop where
  /-- Logs increase by instance, and no cursor is beyond the end. -/
  logs : ∀ group g, s.groups.lookup group = some g → g.log.WellFormed Slot.inst
  /-- The slots a rank was let have are what the log says it took. -/
  accepted : ∀ group rank,
    s.acceptedSlots group rank = ((s.groups.lookup group).map fun g => g.log.accepted rank).getD []
  /-- The decided executions are `1`, …, `decidedPrefix`. -/
  decided : ∀ execution : ℕ, (s.decisions.lookup execution).isSome ↔ 1 ≤ execution ∧ execution ≤ s.decidedPrefix
  /-- Every slot agrees with the decision on its execution. -/
  agrees : ∀ group, ∀ slot ∈ s.log group,
    s.decisions.lookup slot.inst.execution = some slot.disposition.decision
  /-- A submitted slot is active or completed. -/
  settled : ∀ slot, s.submissions slot = s.completions slot + if slot ∈ s.active then 1 else 0
  /-- After an abort nothing is active. -/
  closed : s.aborted = true → s.active = ∅
  /-- Without an abort the trace has none. -/
  open_ : s.aborted = false → CollectiveOrderingEvent.abort ∉ s.trace
  /-- After an abort the trace has completions only. -/
  sealed : s.trace.Pairwise fun earlier later => earlier = .abort → later.completed?.isSome

variable {group : GroupId} {g : GroupState} {slot : ActiveSlot} {s' : SequencerState}

theorem mem_log {s : SequencerState} {slot : Slot} (h : slot ∈ s.log group) :
    ∃ g, s.groups.lookup group = some g ∧ slot ∈ g.log.entries := by
  unfold log at h
  cases hg : s.groups.lookup group with
  | none => simp [hg] at h
  | some g => exact ⟨g, rfl, by simpa [hg] using h⟩

theorem log_of_lookup {s : SequencerState} (h : s.groups.lookup group = some g) : s.log group = g.log.entries := by
  simp [log, h]

namespace Inv

variable {s : SequencerState}

/-- The accepted slots of a rank are a beginning of the common log. -/
theorem isPrefix (h : Inv s) (group : GroupId) (rank : RankId) : s.acceptedSlots group rank <+: s.log group := by
  rw [h.accepted]
  unfold log
  cases s.groups.lookup group with
  | none => simp
  | some g => exact g.log.accepted_isPrefix rank

/-- The common log increases by instance. -/
theorem increasing (h : Inv s) (group : GroupId) : (s.log group).Pairwise fun a b => a.inst < b.inst := by
  unfold log
  cases hg : s.groups.lookup group with
  | none => exact List.Pairwise.nil
  | some g => exact (h.logs group g hg).increasing

/-- No slot is submitted twice. -/
theorem submissions_le_one (h : Inv s) (slot : ActiveSlot) : s.submissions slot ≤ 1 := by
  have hinc := (h.increasing slot.group).sublist (h.isPrefix slot.group slot.rank).sublist
  have hdistinct : ((s.acceptedSlots slot.group slot.rank).map Slot.inst).Nodup :=
    pairwise_map.mpr (hinc.imp fun hlt => hlt.ne)
  have hcount := nodup_iff_count_le_one.mp hdistinct slot.inst
  rw [count, countP_map] at hcount
  refine (countP_mono_left fun entry _ hentry => ?_).trans hcount
  simp only [decide_eq_true_eq] at hentry
  simp [hentry.2]

/-- An active slot was submitted, so its group is registered. -/
theorem group_of_active (h : Inv s) (hactive : slot ∈ s.active) :
    ∃ g, s.groups.lookup slot.group = some g ∧
      ∃ entry ∈ g.log.accepted slot.rank, entry.inst = slot.inst := by
  have hpos : 0 < s.submissions slot := by
    rw [h.settled, if_pos hactive]
    omega
  obtain ⟨entry, hmem, hentry⟩ := countP_pos_iff.mp hpos
  rw [h.accepted] at hmem
  cases hg : s.groups.lookup slot.group with
  | none => simp [hg] at hmem
  | some g => exact ⟨g, rfl, entry, by simpa [hg] using hmem, by simpa using (by simpa using hentry : _ ∧ _).2⟩

/-- A slot a rank can take next is not active. -/
theorem not_active (h : Inv s) {entry : Slot} {log : SharedLog RankId Slot}
    (hgroup : s.groups.lookup slot.group = some g) (hentry : entry.inst = slot.inst)
    (hlog : g.log.advance Slot.inst slot.rank entry = .ok log) : slot ∉ s.active := by
  intro hactive
  obtain ⟨g', hg', earlier, hmem, hsame⟩ := h.group_of_active hactive
  cases hgroup.symm.trans hg'
  have hlt := ((h.logs slot.group g hgroup).took hlog).after earlier hmem
  rw [hsame, hentry] at hlt
  exact lt_irrefl _ hlt

/-- The log holds only decided executions. -/
theorem execution_le (h : Inv s) {slot : Slot} (hslot : slot ∈ s.log group) : slot.inst.execution ≤ s.decidedPrefix :=
  ((h.decided _).mp (by rw [h.agrees group slot hslot]; rfl)).2

end Inv

/-! ### What a move does to the trace -/

section Trace

variable (s : SequencerState) (g : GroupState) (slot other : ActiveSlot) (group : GroupId) (rank : RankId)

theorem acceptedSlots_append {event : CollectiveOrderingEvent} (h : s'.trace = s.trace ++ [event]) :
    s'.acceptedSlots group rank = s.acceptedSlots group rank ++ (event.slot? group rank).toList := by
  simp only [acceptedSlots, h, filterMap_append, filterMap_cons, filterMap_nil]
  cases event.slot? group rank <;> rfl

theorem completions_append {event : CollectiveOrderingEvent} (h : s'.trace = s.trace ++ [event]) :
    s'.completions other = s.completions other + if event.completed? = some other then 1 else 0 := by
  simp [completions, h, countP_cons]

theorem failures_cons {slots : List ActiveSlot} (h : s.groups.lookup slot.group = some g) :
    s.failures (slot :: slots) = completion g slot false :: s.failures slots := by
  simp [failures, h]

/-- Every failure is a completion. -/
theorem mem_failures {event : CollectiveOrderingEvent} {slots : List ActiveSlot} (h : event ∈ s.failures slots) :
    event.completed?.isSome ∧ event.slot? group rank = none := by
  obtain ⟨slot, _, hevent⟩ := mem_filterMap.mp h
  obtain ⟨g, _, rfl⟩ := Option.map_eq_some_iff.mp hevent
  exact ⟨rfl, rfl⟩

@[simp] theorem acceptedSlots_stopped : s.stopped.acceptedSlots group rank = s.acceptedSlots group rank := by
  have hnone : (s.failures s.active.sort).filterMap (·.slot? group rank) = [] :=
    filterMap_eq_nil_iff.mpr fun event hevent => (s.mem_failures group rank hevent).2
  rw [acceptedSlots, stopped, filterMap_append, filterMap_cons, hnone]
  exact append_nil _

theorem countP_failures (slots : List ActiveSlot)
    (h : ∀ slot ∈ slots, ∃ g, s.groups.lookup slot.group = some g) :
    (s.failures slots).countP (fun event => event.completed? = some other) = slots.count other := by
  induction slots with
  | nil => rfl
  | cons first rest ih =>
    obtain ⟨g, hg⟩ := h first (by simp)
    have hrest := ih fun slot hslot => h slot (by simp [hslot])
    rw [s.failures_cons g first hg, countP_cons, hrest, count_cons]
    simp [completion, CollectiveOrderingEvent.completed?]

theorem completions_stopped (h : ∀ slot ∈ s.active, ∃ g, s.groups.lookup slot.group = some g) :
    s.stopped.completions other = s.completions other + if other ∈ s.active then 1 else 0 := by
  have hcount := s.countP_failures other s.active.sort fun slot hslot => h slot (by simpa using hslot)
  have hsort : s.active.sort.count other = if other ∈ s.active then 1 else 0 := by
    rw [(Finset.sort_nodup _ _).count]
    simp
  simp only [completions, stopped, countP_append, countP_cons, hcount, hsort]
  simp [CollectiveOrderingEvent.completed?]

end Trace

/-! ### Every move keeps the invariant -/

namespace Inv

variable {s : SequencerState}

/-- Before an abort, events may be recorded as long as they are in order among themselves. -/
theorem sealed_append (h : Inv s) (hrun : s.aborted = false) {events : List CollectiveOrderingEvent}
    (hevents : events.Pairwise fun earlier later => earlier = .abort → later.completed?.isSome) :
    (s.trace ++ events).Pairwise fun earlier later => earlier = .abort → later.completed?.isSome := by
  rw [pairwise_append]
  refine ⟨h.sealed, hevents, ?_⟩
  rintro earlier hearlier later - rfl
  exact absurd hearlier (h.open_ hrun)

/-- Before an abort, a move that records one event keeps the invariant if the logs and the
active slots follow the event. -/
theorem record (h : Inv s) (hrun : s.aborted = false) {event : CollectiveOrderingEvent}
    (htrace : s'.trace = s.trace ++ [event]) (hevent : event ≠ .abort) (haborted : s'.aborted = s.aborted)
    (logs : ∀ group g, s'.groups.lookup group = some g → g.log.WellFormed Slot.inst)
    (accepted : ∀ group rank, ((s'.groups.lookup group).map fun g => g.log.accepted rank).getD [] =
      s.acceptedSlots group rank ++ (event.slot? group rank).toList)
    (decided : ∀ execution : ℕ,
      (s'.decisions.lookup execution).isSome ↔ 1 ≤ execution ∧ execution ≤ s'.decidedPrefix)
    (agrees : ∀ group, ∀ slot ∈ s'.log group,
      s'.decisions.lookup slot.inst.execution = some slot.disposition.decision)
    (settled : ∀ slot : ActiveSlot, ((event.slot? slot.group slot.rank).toList.countP fun entry =>
        entry.disposition = .submitted ∧ entry.inst = slot.inst) + (if slot ∈ s.active then 1 else 0) =
      (if event.completed? = some slot then 1 else 0) + if slot ∈ s'.active then 1 else 0) : Inv s' where
  logs := logs
  accepted := fun group rank => (acceptedSlots_append s group rank htrace).trans (accepted group rank).symm
  decided := decided
  agrees := agrees
  settled := by
    intro slot
    have hbefore := h.settled slot
    have hnow := settled slot
    unfold submissions at hbefore ⊢
    rw [acceptedSlots_append s _ _ htrace, countP_append, completions_append s slot htrace]
    omega
  closed := by
    intro habort
    cases (haborted.trans hrun).symm.trans habort
  open_ := by
    intro _
    rw [htrace, mem_append, not_or]
    exact ⟨h.open_ hrun, by simpa using hevent.symm⟩
  sealed := htrace ▸ h.sealed_append hrun (pairwise_singleton _ _)

theorem registered (h : Inv s) {members : List RankId} (hnew : s.groups.lookup group = none) :
    Inv (s.registered group members) := by
  have hlookup : ∀ other, (s.registered group members).groups.lookup other =
      if other = group then some ⟨members, membershipHash members, .empty members⟩ else s.groups.lookup other :=
    fun other => lookup_insert' _ _ _ _
  exact {
    logs := by
      intro other g hg
      rw [hlookup] at hg
      split at hg
      · cases hg
        exact SharedLog.wellFormed_empty _ _
      · exact h.logs other g hg
    accepted := by
      intro other rank
      rw [hlookup]
      split
      case isTrue heq =>
        subst heq
        have hnone : s.acceptedSlots other rank = [] := by rw [h.accepted, hnew]; rfl
        have hsame : (s.registered other members).acceptedSlots other rank = s.acceptedSlots other rank := rfl
        simp [hsame, hnone]
      case isFalse => exact h.accepted other rank
    decided := h.decided
    agrees := by
      intro other slot hslot
      obtain ⟨g, hg, hmem⟩ := mem_log hslot
      rw [hlookup] at hg
      split at hg
      · cases hg
        simp at hmem
      · exact h.agrees other slot (by rw [log_of_lookup hg]; exact hmem)
    settled := h.settled
    closed := h.closed
    open_ := h.open_
    sealed := h.sealed }

theorem lookup_published (h : Inv s) (decision : CollectiveDecision) {execution : ℕ}
    {earlier : CollectiveDecision} (hdecided : s.decisions.lookup execution = some earlier) :
    (s.published decision).decisions.lookup execution = some earlier := by
  have hle := ((h.decided execution).mp (by rw [hdecided]; rfl)).2
  have hne : execution ≠ s.decidedPrefix + 1 := by omega
  simp only [published, lookup_insert', if_neg hne, hdecided]

theorem published (h : Inv s) (hrun : s.aborted = false) (decision : CollectiveDecision) :
    Inv (s.published decision) := by
  refine h.record hrun rfl (by simp) rfl h.logs (fun group rank => ?_) (fun execution => ?_)
    (fun group slot hslot => h.lookup_published decision (h.agrees group slot hslot)) fun slot => rfl
  · exact (h.accepted group rank).symm.trans (append_nil _).symm
  · simp only [SequencerState.published, lookup_insert']
    split
    case isTrue heq => simp [heq]
    case isFalse hne =>
      rw [h.decided]
      omega

/-! A rank takes its next slot, submitted or skipped. -/

section Taken

variable {group : GroupId} {g : GroupState} {rank : RankId} {entry : Slot} {log : SharedLog RankId Slot}

theorem lookup_withLog (s : SequencerState) (group other : GroupId) (g : GroupState) (log : SharedLog RankId Slot) :
    (s.withLog group g log).groups.lookup other =
      if other = group then some { g with log } else s.groups.lookup other :=
  lookup_insert' _ _ _ _

section

variable (h : Inv s) (hgroup : s.groups.lookup group = some g) (hlog : g.log.advance Slot.inst rank entry = .ok log)

include h hgroup hlog

theorem taken_logs (other : GroupId) (g' : GroupState)
    (hg' : (s.withLog group g log).groups.lookup other = some g') : g'.log.WellFormed Slot.inst := by
  rw [lookup_withLog] at hg'
  split at hg'
  · cases hg'
    exact ((h.logs group g hgroup).took hlog).wellFormed
  · exact h.logs other g' hg'

theorem taken_accepted (other : GroupId) (reader : RankId) :
    (((s.withLog group g log).groups.lookup other).map fun g => g.log.accepted reader).getD [] =
      s.acceptedSlots other reader ++ (if group = other ∧ rank = reader then some entry else none).toList := by
  have htook := (h.logs group g hgroup).took hlog
  rw [lookup_withLog, h.accepted]
  by_cases hother : other = group
  · subst hother
    by_cases hreader : reader = rank
    · subst hreader
      simp [hgroup, htook.mine]
    · simp [hgroup, htook.others reader hreader, Ne.symm hreader]
  · simp [hother, Ne.symm hother]

theorem taken_agrees (hentry : s.decisions.lookup entry.inst.execution = some entry.disposition.decision) (other : GroupId)
    (slot : Slot) (hslot : slot ∈ (s.withLog group g log).log other) :
    s.decisions.lookup slot.inst.execution = some slot.disposition.decision := by
  obtain ⟨g', hg', hmem⟩ := mem_log hslot
  rw [lookup_withLog] at hg'
  split at hg'
  case isFalse => exact h.agrees other slot (by rw [log_of_lookup hg']; exact hmem)
  case isTrue =>
    cases hg'
    rcases ((h.logs group g hgroup).took hlog).mem_entries hmem with hold | rfl
    · exact h.agrees group slot (by rw [log_of_lookup hgroup]; exact hold)
    · exact hentry

end

end Taken

theorem submitted (h : Inv s) {collective : CollectiveKind} {signature : BitVec 64} {log : SharedLog RankId Slot}
    (hrun : s.aborted = false) (hadmitted : s.decisions.lookup slot.inst.execution = some .admitted)
    (hgroup : s.groups.lookup slot.group = some g)
    (hlog : g.log.advance Slot.inst slot.rank (submittedSlot slot.inst collective signature) = .ok log)
    (hnew : slot ∉ s.active) : Inv ((s.withLog slot.group g log).activated g slot collective signature) := by
  refine h.record hrun rfl (by simp) rfl (h.taken_logs hgroup hlog) (h.taken_accepted hgroup hlog) h.decided
    (h.taken_agrees hgroup hlog hadmitted) fun other => ?_
  simp only [CollectiveOrderingEvent.slot?, CollectiveOrderingEvent.completed?, activated, withLog]
  by_cases heq : slot = other
  · subst heq
    simp [hnew, submittedSlot]
  · split
    case isTrue hsame =>
      have hinst : slot.inst ≠ other.inst := fun hinst => heq (ActiveSlot.ext hsame.1 hsame.2 hinst)
      simp [submittedSlot, hinst, Ne.symm heq]
    case isFalse => simp [Ne.symm heq]

theorem passed (h : Inv s) {rank : RankId} {inst : CommInstanceId} {log : SharedLog RankId Slot}
    (hrun : s.aborted = false) (hskipped : s.decisions.lookup inst.execution = some .skipped)
    (hgroup : s.groups.lookup group = some g) (hlog : g.log.advance Slot.inst rank (skippedSlot inst) = .ok log) :
    Inv ((s.withLog group g log).passed g group rank inst) := by
  refine h.record hrun rfl (by simp) rfl (h.taken_logs hgroup hlog) (h.taken_accepted hgroup hlog) h.decided
    (h.taken_agrees hgroup hlog hskipped) fun other => ?_
  simp only [CollectiveOrderingEvent.slot?]
  split <;> rfl

/-- A sequencer with an active slot is not aborted. -/
theorem running_of_active (h : Inv s) (hactive : slot ∈ s.active) : s.aborted = false := by
  cases habort : s.aborted with
  | false => rfl
  | true =>
    rw [h.closed habort] at hactive
    simp at hactive

theorem completed (h : Inv s) (success : Bool) (hactive : slot ∈ s.active) :
    Inv (s.settled g slot success) := by
  refine h.record (h.running_of_active hactive) rfl (by simp [completion]) rfl h.logs (fun group rank => ?_) h.decided h.agrees
    fun other => ?_
  · exact (h.accepted group rank).symm.trans (append_nil _).symm
  · simp only [completion, CollectiveOrderingEvent.slot?, CollectiveOrderingEvent.completed?, SequencerState.settled]
    by_cases heq : slot = other
    · subst heq
      simp [hactive]
    · simp [heq, Ne.symm heq]

/-- The groups of the active slots are registered. -/
theorem groups_of_active (h : Inv s) : ∀ slot ∈ s.active, ∃ g, s.groups.lookup slot.group = some g := by
  intro slot hslot
  obtain ⟨g, hg, -⟩ := h.group_of_active hslot
  exact ⟨g, hg⟩

theorem stopped (h : Inv s) (hrun : s.aborted = false) : Inv s.stopped where
  logs := h.logs
  accepted := by
    intro group rank
    rw [acceptedSlots_stopped]
    exact h.accepted group rank
  decided := h.decided
  agrees := h.agrees
  settled := by
    intro other
    have hsame : s.stopped.submissions other = s.submissions other := by simp [submissions]
    rw [hsame, s.completions_stopped other h.groups_of_active, h.settled]
    simp [SequencerState.stopped]
  closed := fun _ => rfl
  open_ := fun hrun' => absurd hrun' (by simp [SequencerState.stopped])
  sealed := by
    apply h.sealed_append hrun
    have hfailed : ∀ event ∈ s.failures s.active.sort, event.completed?.isSome :=
      fun event hevent => (s.mem_failures 0 0 hevent).1
    rw [pairwise_cons]
    refine ⟨fun event hevent _ => hfailed event hevent, ?_⟩
    exact pairwise_of_forall_mem_list fun _ _ later hlater _ => hfailed later hlater

theorem quiet (h : Inv s) (hquiet : Quiet s s') : Inv s' := by
  cases hquiet with
  | registered members hnew => exact h.registered hnew
  | published decision hrun => exact h.published hrun decision
  | submitted hrun hadmitted hgroup hlog hnew => exact h.submitted hrun hadmitted hgroup hlog hnew
  | passed hrun hskipped hgroup hlog => exact h.passed hrun hskipped hgroup hlog

/-- **The step lemma.** -/
theorem move (h : Inv s) (hmove : Move s s') : Inv s' := by
  cases hmove with
  | quiet hquiet => exact h.quiet hquiet
  | settled success hactive hgroup => exact h.completed success hactive
  | stopped hrun => exact h.stopped hrun

theorem initial : Inv new where
  logs := by intro group g hg; simp [new] at hg
  accepted := by intro group rank; rfl
  decided := by
    intro execution
    simp only [new, AList.lookup_empty, Option.isSome_none]
    constructor
    · intro h
      cases h
    · rintro ⟨h₁, h₂⟩
      omega
  agrees := by
    intro group slot hslot
    obtain ⟨g, hg, -⟩ := mem_log hslot
    simp [new] at hg
  settled := by intro slot; rfl
  closed := fun _ => rfl
  open_ := by simp [new]
  sealed := List.Pairwise.nil

end Inv

/-! ### Every method makes moves only -/

/-- The execution that can be decided now. -/
def NextDecision (s : SequencerState) (execution : ℕ) : Prop :=
  s.aborted = false ∧ s.decidedPrefix + 1 ≤ u64Max ∧ execution = s.decidedPrefix + 1

/-- The rank has taken every slot of the group's log. -/
def AtEnd (s : SequencerState) (group : GroupId) (rank : RankId) : Prop :=
  ∃ g, s.groups.lookup group = some g ∧ g.log.cursors.lookup rank = some g.log.entries.length

/-- A submit that publishes an admission and is then refused by the group's log. -/
def LeavesAdmission (s : SequencerState) : Call → Prop
  | .submit group rank inst _ _ => s.NextDecision inst.execution ∧ ¬ s.AtEnd group rank
  | _ => False

/-- Any number of changes that complete no slot. -/
abbrev Quietly : SequencerState → SequencerState → Prop := Relation.ReflTransGen Quiet

/-- Any number of moves. -/
abbrev Moves : SequencerState → SequencerState → Prop := Relation.ReflTransGen Move

variable {s : SequencerState}

theorem Quietly.moves (h : Quietly s s') : Moves s s' :=
  Relation.ReflTransGen.lift id (fun _ _ => Move.quiet) _ _ h

theorem decideLocked_ensures (s : SequencerState) (execution : ExecutionId) (decision : CollectiveDecision) :
    Ensures (decideLocked execution decision) s
      (fun _ s' => s.NextDecision execution ∧ s' = s.published decision)
      fun _ s' => s' = s ∧ ¬ s.NextDecision execution := by
  refine .bind (.get ?_)
  refine .bind (.require (fun hrun => ?_) fun hrun => ⟨rfl, fun h => hrun h.1⟩)
  refine .bind (.require (fun hmax => ?_) fun hmax => ⟨rfl, fun h => hmax h.2.1⟩)
  refine .bind (.require (fun hnext => ?_) fun hnext => ⟨rfl, fun h => hnext h.2.2⟩)
  subst hnext
  exact ⟨⟨hrun, hmax, rfl⟩, rfl⟩

theorem advanceGroupLocked_ensures (s : SequencerState) (group : GroupId) (rank : RankId) (slot : Slot) :
    Ensures (advanceGroupLocked group rank slot) s
      (fun identity s' => ∃ g log, s.groups.lookup group = some g ∧ g.log.advance Slot.inst rank slot = .ok log ∧
        identity = (g.members, g.membershipHash) ∧ s' = s.withLog group g log)
      fun _ s' => s' = s ∧
        ∀ g log, s.groups.lookup group = some g → g.log.advance Slot.inst rank slot ≠ .ok log := by
  refine .bind (.get ?_)
  refine .bind (.getOr (fun g hg => ?_) fun hnone => ⟨rfl, fun g _ hg => ?_⟩)
  · refine .bind (.liftResult (fun log hlog => ?_) fun e he => ⟨rfl, fun g' log hg' hlog => ?_⟩)
    · cases hadvance : g.log.advance Slot.inst rank slot with
      | error refused => simp [hadvance, Except.mapError] at hlog
      | ok log' =>
        obtain rfl : log' = log := by simpa [hadvance, Except.mapError] using hlog
        exact ⟨g, log', hg, hadvance, rfl, rfl⟩
    · cases hg.symm.trans hg'
      simp [hlog, Except.mapError] at he
  · simp [hnone] at hg

theorem registerGroup_ensures (s : SequencerState) (group : GroupId) (members : List RankId) :
    Ensures (registerGroup group members) s (fun _ s' => Quietly s s') fun _ s' => s' = s := by
  refine .bind (.require (fun _ => ?_) fun _ => rfl)
  refine .bind (.require (fun _ => ?_) fun _ => rfl)
  refine .bind (.get ?_)
  cases hgroup : s.groups.lookup group with
  | none => exact .single (.registered members hgroup)
  | some existing =>
    simp only
    split
    · exact Relation.ReflTransGen.refl
    · exact rfl

/-- An execution that is next to be decided is undecided. -/
theorem Inv.lookup_next (h : Inv s) {execution : ℕ} (hnext : s.NextDecision execution) :
    s.decisions.lookup execution = none := by
  cases hdecided : s.decisions.lookup execution with
  | none => rfl
  | some decision =>
    have hle := ((h.decided execution).mp (by rw [hdecided]; rfl)).2
    have heq := hnext.2.2
    omega

/-- A slot of the execution that is next to be decided is taken only at the end of the log. -/
theorem Inv.advance_next (h : Inv s) {rank : RankId} {slot : Slot} (hnext : s.NextDecision slot.inst.execution) :
    (∃ g log, s.groups.lookup group = some g ∧ g.log.advance Slot.inst rank slot = .ok log) ↔ s.AtEnd group rank := by
  have hafter : ∀ g, s.groups.lookup group = some g → ∀ entry ∈ g.log.entries, entry.inst < slot.inst := by
    intro g hg entry hentry
    apply CommInstanceId.lt_of_execution_lt
    have hmem : entry ∈ s.log group := by rw [log_of_lookup hg]; exact hentry
    have hle := h.execution_le hmem
    have heq := hnext.2.2
    exact Nat.lt_of_le_of_lt hle (by omega)
  constructor
  · rintro ⟨g, log, hg, hlog⟩
    exact ⟨g, hg, ((h.logs group g hg).advance_new (hafter g hg)).mp ⟨log, hlog⟩⟩
  · rintro ⟨g, hg, hend⟩
    obtain ⟨log, hlog⟩ := ((h.logs group g hg).advance_new (hafter g hg)).mpr hend
    exact ⟨g, log, hg, hlog⟩

/-- The slot is taken in the group's log and becomes active. -/
def Submits (s : SequencerState) (slot : ActiveSlot) (collective : CollectiveKind) (signature : BitVec 64)
    (s' : SequencerState) : Prop :=
  ∃ g log, s.groups.lookup slot.group = some g ∧
    g.log.advance Slot.inst slot.rank (submittedSlot slot.inst collective signature) = .ok log ∧
    s' = (s.withLog slot.group g log).activated g slot collective signature

/-- The part of `submit` from the check of the decision on. -/
theorem submit_tail_ensures (h : Inv s) (hrun : s.aborted = false) (group : GroupId) (rank : RankId)
    (inst : CommInstanceId) (collective : CollectiveKind) (signature : BitVec 64) :
    Ensures (do
        let s ← get
        require (s.decisions.lookup inst.execution = some .admitted)
          (.ordering (.executionSkipped inst.execution))
        let identity ← advanceGroupLocked group rank (submittedSlot inst collective signature)
        let s ← get
        require (ActiveSlot.mk group rank inst ∉ s.active) (.ordering (.duplicateCollective rank inst))
        set { s with active := insert (ActiveSlot.mk group rank inst) s.active }
        emit (.submit group identity.1 identity.2 rank inst collective signature) : SequencerM PUnit) s
      (fun _ s' => Quiet s s' ∧ Submits s ⟨group, rank, inst⟩ collective signature s')
      fun _ s' => s' = s ∧ (s.decisions.lookup inst.execution = some .admitted →
        ∀ g log, s.groups.lookup group = some g →
          g.log.advance Slot.inst rank (submittedSlot inst collective signature) ≠ .ok log) := by
  refine .bind (.get ?_)
  refine .bind (.require (fun hadmitted => ?_) fun hnot => ⟨rfl, fun hyes => absurd hyes hnot⟩)
  refine .bind ((advanceGroupLocked_ensures s group rank _).mono (fun identity s' hs' => ?_)
    fun _ s' hs' => ⟨hs'.1, fun _ => hs'.2⟩)
  obtain ⟨g, log, hgroup, hlog, rfl, rfl⟩ := hs'
  have hnew : ActiveSlot.mk group rank inst ∉ s.active := h.not_active hgroup rfl hlog
  refine .bind (.get ?_)
  refine .bind (.require (fun _ => ?_) fun hdup => absurd hnew hdup)
  exact ⟨Quiet.submitted hrun hadmitted hgroup hlog hnew, g, log, hgroup, hlog, rfl⟩

theorem submit_ensures (h : Inv s) (group : GroupId) (rank : RankId) (inst : CommInstanceId)
    (collective : CollectiveKind) (signature : BitVec 64) :
    Ensures (submit group rank inst collective signature) s
      (fun _ s' => Quietly s s' ∧ ¬ s.LeavesAdmission (.submit group rank inst collective signature) ∧
        s.aborted = false ∧ ∃ m, (m = s ∨ m = s.published .admitted) ∧ Inv m ∧ Submits m ⟨group, rank, inst⟩ collective signature s')
      fun _ s' => s' = s ∧ ¬ s.LeavesAdmission (.submit group rank inst collective signature) ∨
        s' = s.published .admitted ∧ s.LeavesAdmission (.submit group rank inst collective signature) := by
  refine .bind (.get ?_)
  refine .bind (.require (fun hrun => ?_) fun hrun => .inl ⟨rfl, fun hleaves => hrun hleaves.1.1⟩)
  -- the execution is decided already, or this submit decides it
  refine .bind ?_
  refine .bind (.get ?_)
  split
  case isTrue hdecided =>
    have hold : ¬ s.NextDecision inst.execution := by
      intro hnext
      rw [h.lookup_next hnext] at hdecided
      cases hdecided
    exact (submit_tail_ensures h hrun group rank inst collective signature).mono
      (fun _ s' hs' => ⟨.single hs'.1, fun hleaves => hold hleaves.1, hrun, s, .inl rfl, h, hs'.2⟩)
      fun _ s' hs' => .inl ⟨hs'.1, fun hleaves => hold hleaves.1⟩
  case isFalse hundecided =>
    refine (decideLocked_ensures s inst.execution .admitted).mono (fun _ s' hs' => ?_)
      fun _ s' hs' => .inl ⟨hs'.1, fun hleaves => hs'.2 hleaves.1⟩
    obtain ⟨hnext, rfl⟩ := hs'
    have hpublished := h.published hrun .admitted
    have hadmitted : (s.published .admitted).decisions.lookup inst.execution = some .admitted := by
      rw [hnext.2.2]
      exact AList.lookup_insert _
    have hend : (∃ g log, s.groups.lookup group = some g ∧
        g.log.advance Slot.inst rank (submittedSlot inst collective signature) = .ok log) ↔ s.AtEnd group rank :=
      h.advance_next hnext
    refine (submit_tail_ensures hpublished hrun group rank inst collective signature).mono
      (fun _ s' hs' => ⟨?_, ?_, hrun, _, .inr rfl, hpublished, hs'.2⟩) fun _ s' hs' => .inr ⟨hs'.1, hnext, fun hat => ?_⟩
    · exact .tail (.single (.published .admitted hrun)) hs'.1
    · obtain ⟨g, log, hgroup, hlog, -⟩ := hs'.2
      exact fun hleaves => hleaves.2 (hend.mp ⟨g, log, hgroup, hlog⟩)
    · obtain ⟨g, log, hgroup, hlog⟩ := hend.mpr hat
      exact hs'.2 hadmitted g log hgroup hlog

theorem observeSkip_ensures (s : SequencerState) (group : GroupId) (rank : RankId) (inst : CommInstanceId) :
    Ensures (observeSkip group rank inst) s (fun _ s' => Quietly s s') fun _ s' => s' = s := by
  refine .bind (.get ?_)
  refine .bind (.require (fun hrun => ?_) fun _ => rfl)
  refine .bind (.require (fun hskipped => ?_) fun _ => rfl)
  refine .bind ((advanceGroupLocked_ensures s group rank _).mono (fun identity s' hs' => ?_) fun _ _ hs' => hs'.1)
  obtain ⟨g, log, hgroup, hlog, rfl, rfl⟩ := hs'
  exact .single (Quiet.passed hrun hskipped hgroup hlog)

theorem complete_ensures (h : Inv s) (group : GroupId) (rank : RankId) (inst : CommInstanceId) (success : Bool) :
    Ensures (complete group rank inst success) s
      (fun _ s' => Moves s s' ∧ (s' = s ∧ s.aborted = true ∨ ∃ g, s' = s.settled g ⟨group, rank, inst⟩ success))
      fun _ s' => s' = s ∧ ActiveSlot.mk group rank inst ∉ s.active ∧ s.aborted = false := by
  refine .bind (.get ?_)
  split
  case isTrue hactive =>
    obtain ⟨g, hgroup, -⟩ := h.group_of_active hactive
    refine .bind (.set ?_)
    refine .bind (.bind (.get ?_))
    refine .bind (.getOr (fun g' hg' => ?_) fun hnone => ?_)
    · cases hgroup.symm.trans hg'
      exact ⟨.single (Move.settled success hactive hgroup), .inr ⟨g, rfl⟩⟩
    · cases hgroup.symm.trans hnone
  case isFalse hactive =>
    split
    case isTrue habort => exact ⟨Relation.ReflTransGen.refl, .inl ⟨rfl, habort⟩⟩
    case isFalse habort => exact ⟨rfl, hactive, by simpa using habort⟩

/-- One turn of the abort loop. -/
theorem abortSlot_eq (s : SequencerState) (hgroup : s.groups.lookup slot.group = some g) :
    abortSlot slot s = .ok ⟨⟩ (s.settled g slot false) := by
  have hidentity : groupIdentity slot.group { s with active := s.active.erase slot } =
      .ok (g.members, g.membershipHash) { s with active := s.active.erase slot } := by
    simp only [groupIdentity, getOr, bind, EStateM.bind, get, getThe, MonadStateOf.get, EStateM.get, hgroup]
    rfl
  simp only [abortSlot, bind, EStateM.bind, modify, modifyGet, MonadStateOf.modifyGet, EStateM.modifyGet, attempt,
    hidentity]
  rfl

/-- The abort loop completes the slots one after the other. -/
theorem each_abortSlot_eq (slots : List ActiveSlot) :
    ∀ s : SequencerState, (∀ slot ∈ slots, ∃ g, s.groups.lookup slot.group = some g) →
      each abortSlot slots s =
        .ok ⟨⟩ { s with active := s.active \ slots.toFinset, trace := s.trace ++ s.failures slots } := by
  induction slots with
  | nil =>
    intro s _
    simp [each, failures, pure, EStateM.pure]
  | cons slot rest ih =>
    intro s h
    obtain ⟨g, hgroup⟩ := h slot (by simp)
    have hrest := ih (s.settled g slot false) fun other hother => h other (by simp [hother])
    have hactive : s.active.erase slot \ rest.toFinset = s.active \ (slot :: rest).toFinset := by
      ext other
      simp only [Finset.mem_sdiff, Finset.mem_erase, mem_toFinset, mem_cons]
      tauto
    simp only [each, bind, EStateM.bind, abortSlot_eq s hgroup, hrest]
    rw [s.failures_cons g slot hgroup, ← hactive]
    simp only [settled, append_assoc, cons_append, nil_append]
    rfl

theorem abort_ensures (h : Inv s) :
    Ensures abort s (fun _ s' => Moves s s' ∧ (s' = s ∧ s.aborted = true ∨ s' = s.stopped)) fun _ _ => False := by
  refine .bind (.get ?_)
  split
  case isTrue habort => exact ⟨Relation.ReflTransGen.refl, .inl ⟨rfl, habort⟩⟩
  case isFalse hrun =>
    have hrun' : s.aborted = false := by simpa using hrun
    refine .bind (.set ?_)
    refine .bind (.modify ?_)
    refine .of_ok (each_abortSlot_eq _ _ fun slot hslot => h.groups_of_active slot (by simpa using hslot)) ?_
    have hstopped : s.stopped = { s with
        aborted := true
        active := s.active \ (s.active.sort).toFinset
        trace := s.trace ++ [.abort] ++ s.failures s.active.sort } := by
      simp [SequencerState.stopped]
    exact ⟨.single (hstopped ▸ Move.stopped hrun'), .inr hstopped.symm⟩

/-- **What one call does**: moves if it succeeds, nothing if it is rejected; only a submit
that leaves an admission behind is rejected with a change. -/
theorem perform_ensures (h : Inv s) (call : Call) :
    Ensures (perform call) s (fun _ s' => Moves s s' ∧ ¬ s.LeavesAdmission call)
      fun _ s' => s' = s ∧ ¬ s.LeavesAdmission call ∨ s' = s.published .admitted ∧ s.LeavesAdmission call := by
  cases call with
  | registerGroup group members =>
    refine .bind ((registerGroup_ensures s group members).mono (fun _ s' hs' => ?_) fun _ s' hs' => ?_)
    · exact ⟨hs'.moves, not_false⟩
    · exact .inl ⟨hs', not_false⟩
  | decide execution decision =>
    refine (decideLocked_ensures s execution decision).mono (fun _ s' hs' => ?_) fun _ s' hs' => ?_
    · obtain ⟨hnext, rfl⟩ := hs'
      exact ⟨.single (.quiet (.published decision hnext.1)), not_false⟩
    · exact .inl ⟨hs'.1, not_false⟩
  | submit group rank inst collective signature =>
    exact (submit_ensures h group rank inst collective signature).mono (fun _ _ hs' => ⟨hs'.1.moves, hs'.2.1⟩)
      fun _ _ hs' => hs'
  | observeSkip group rank inst =>
    exact (observeSkip_ensures s group rank inst).mono (fun _ _ hs' => ⟨hs'.moves, not_false⟩)
      fun _ _ hs' => .inl ⟨hs', not_false⟩
  | complete group rank inst success =>
    exact (complete_ensures h group rank inst success).mono (fun _ _ hs' => ⟨hs'.1, not_false⟩)
      fun _ _ hs' => .inl ⟨hs'.1, not_false⟩
  | abort =>
    exact (abort_ensures h).mono (fun _ _ hs' => ⟨hs'.1, not_false⟩) fun _ _ hs' => hs'.elim

/-! ### Runs -/

/-- The state after a call. -/
def after (s : SequencerState) (call : Call) : SequencerState := final (perform call) s

/-- The error a call is answered with, if it is rejected. -/
def rejection? (s : SequencerState) (call : Call) : Option CommError :=
  match perform call s with
  | .ok _ _ => none
  | .error error _ => some error

/-- States of the runs: any calls in any order. -/
abbrev Reaches : SequencerState → Prop := Reachable (· = new) (fun _ _ => True) after

theorem Inv.moves (h : Inv s) (hmoves : Moves s s') : Inv s' := by
  induction hmoves with
  | refl => exact h
  | tail _ hmove ih => exact ih.move hmove

theorem Inv.after (h : Inv s) (call : Call) : Inv (s.after call) := by
  apply Ensures.final
  refine (perform_ensures h call).mono (fun _ s' hs' => h.moves hs'.1) fun _ s' hs' => ?_
  rcases hs' with ⟨rfl, -⟩ | ⟨rfl, hleaves⟩
  · exact h
  · cases call with
    | submit group rank inst collective signature => exact h.published hleaves.1.1 .admitted
    | registerGroup | decide | observeSkip | complete | abort => exact absurd hleaves not_false

/-- **The run lemma.** -/
theorem Inv.of_reaches (h : Reaches s) : Inv s :=
  Reachable.invariant (fun _ hs => hs ▸ Inv.initial) (fun _ call hs _ => hs.after call) h

/-- A decision that was made stays. -/
theorem Inv.lookup_moves (h : Inv s) (hmoves : Moves s s') {execution : ExecutionId} {decision : CollectiveDecision}
    (hdecided : s.decisions.lookup execution = some decision) : s'.decisions.lookup execution = some decision := by
  induction hmoves with
  | refl => exact hdecided
  | tail hsteps hmove ih =>
    cases hmove with
    | quiet hquiet =>
      cases hquiet with
      | published later hrun => exact (h.moves hsteps).lookup_published later ih
      | registered | submitted | passed => exact ih
    | settled | stopped => exact ih

theorem Inv.lookup_after (h : Inv s) (call : Call) {execution : ExecutionId} {decision : CollectiveDecision}
    (hdecided : s.decisions.lookup execution = some decision) :
    (s.after call).decisions.lookup execution = some decision := by
  apply Ensures.final (P := fun s' : SequencerState => s'.decisions.lookup execution = some decision)
  refine (perform_ensures h call).mono (fun _ s' hs' => h.lookup_moves hs'.1 hdecided) fun _ s' hs' => ?_
  rcases hs' with ⟨rfl, -⟩ | ⟨rfl, -⟩
  · exact hdecided
  · exact h.lookup_published .admitted hdecided

/-- What a rejected call must leave alone: decisions, logs and cursors, active slots. -/
structure Unchanged (s s' : SequencerState) : Prop where
  decisions : s'.decisions = s.decisions
  decidedPrefix : s'.decidedPrefix = s.decidedPrefix
  groups : s'.groups = s.groups
  active : s'.active = s.active

/-- A rejected call changes nothing unless it leaves an admission behind. -/
theorem Inv.unchanged_iff (h : Inv s) (call : Call) :
    ((s.rejection? call).isSome → s.Unchanged (s.after call)) ↔ ¬ s.LeavesAdmission call := by
  unfold rejection? SequencerState.after final
  rcases (perform_ensures h call).outcome with ⟨a, s', hperform, hspec⟩ | ⟨e, s', hperform, hspec⟩ <;> rw [hperform]
  · simp [hspec.2]
  · constructor
    · intro hsame hleaves
      have hprefix := (hsame rfl).decidedPrefix
      rcases hspec with ⟨-, hnot⟩ | ⟨rfl, -⟩
      · exact hnot hleaves
      · simp [SequencerState.published] at hprefix
    · intro hnot _
      rcases hspec with ⟨rfl, -⟩ | ⟨-, hleaves⟩
      · exact ⟨rfl, rfl, rfl, rfl⟩
      · exact absurd hleaves hnot

/-- What collective ordering promises of a state. -/
structure Ordered (s : SequencerState) : Prop where
  /-- Each rank's accepted slots are a beginning of the group's common log. -/
  isPrefix : ∀ group rank, s.acceptedSlots group rank <+: s.log group
  /-- The common log increases strictly by instance. -/
  increasing : ∀ group, (s.log group).Pairwise fun a b => a.inst < b.inst
  /-- Accepted slots agree with the decisions: submitted ones are admitted, skipped ones skipped. -/
  agrees : ∀ group rank, ∀ slot ∈ s.acceptedSlots group rank,
    s.decisions.lookup slot.inst.execution = some slot.disposition.decision
  /-- The decisions are those on the executions `1`, …, `decidedPrefix`. -/
  decided : ∀ execution : ℕ, (s.decisions.lookup execution).isSome ↔ 1 ≤ execution ∧ execution ≤ s.decidedPrefix
  /-- Once there is an abort, only completions follow it. -/
  closed : ∀ before later, s.trace = before ++ .abort :: later → ∀ event ∈ later, event.completed?.isSome
  /-- No slot is submitted or completed twice. -/
  once : ∀ slot, s.completions slot ≤ s.submissions slot ∧ s.submissions slot ≤ 1
  /-- A submitted slot is completed exactly when it is no longer active. -/
  settled : ∀ slot, s.submissions slot = 1 → (s.completions slot = 1 ↔ slot ∉ s.active)
  /-- An abort completes whatever is active. -/
  stopped : .abort ∈ s.trace → s.active = ∅

theorem Inv.ordered (h : Inv s) : s.Ordered where
  isPrefix := h.isPrefix
  increasing := h.increasing
  agrees := fun group rank slot hslot => h.agrees group slot ((h.isPrefix group rank).subset hslot)
  decided := h.decided
  closed := by
    intro before later htrace event hevent
    have hsealed := h.sealed
    rw [htrace, pairwise_append, pairwise_cons] at hsealed
    exact hsealed.2.1.1 event hevent rfl
  once := by
    intro slot
    have hsettled := h.settled slot
    exact ⟨by omega, h.submissions_le_one slot⟩
  settled := by
    intro slot hone
    have hsettled := h.settled slot
    split at hsettled
    case isTrue hactive =>
      simp only [hactive, not_true, iff_false]
      omega
    case isFalse hactive =>
      simp only [hactive, not_false_iff, iff_true]
      omega
  stopped := by
    intro habort
    cases hrun : s.aborted with
    | true => exact h.closed hrun
    | false => exact absurd habort (h.open_ hrun)

/-- **Collective ordering.** In every reachable state the accepted slots of each rank are a
beginning of one increasing log and agree with the gap-free decisions, nothing but completions
follows an abort and every submitted slot is completed at most once; no call changes a decision;
and a call that is rejected changes nothing exactly if it is not a submit that publishes an
admission and is then refused by its group's log. -/
theorem ordered_of_reaches (h : Reaches s) :
    s.Ordered ∧ ∀ call,
      (∀ execution decision, s.decisions.lookup execution = some decision →
        (s.after call).decisions.lookup execution = some decision) ∧
      (((s.rejection? call).isSome → s.Unchanged (s.after call)) ↔ ¬ s.LeavesAdmission call) := by
  have hinv := Inv.of_reaches h
  refine ⟨hinv.ordered, fun call => ⟨?_, hinv.unchanged_iff call⟩⟩
  intro execution decision hdecided
  exact hinv.lookup_after call hdecided

/-- Two ranks; rank `0` has submitted the first collective and rank `1` has not. -/
def oneAhead : SequencerState :=
  [Call.registerGroup 0 [0, 1], .submit 0 0 ⟨1, 0⟩ .allReduce 7].foldl after new

theorem oneAhead_reaches : Reaches oneAhead :=
  Reachable.foldl _ (.start rfl) (by simp [AllAllowed])

/-- Rank `1` follows: the second slot of a run in which both ranks submit is accepted. -/
theorem ordered_of_reaches_two :
    Reaches oneAhead ∧ oneAhead.Ordered ∧
      ¬ oneAhead.LeavesAdmission (.submit 0 1 ⟨1, 0⟩ .allReduce 7) := by
  have hmain := ordered_of_reaches oneAhead_reaches
  refine ⟨oneAhead_reaches, hmain.1, ((hmain.2 _).2).mp ?_⟩
  intro hrejected
  cases hrejected

/-- Rank `1` submits a collective of the second execution before it has taken the first slot:
the call is rejected, but the second execution is admitted now and cannot be skipped. -/
theorem rejected_submit_admits :
    Reaches oneAhead ∧
      oneAhead.rejection? (.submit 0 1 ⟨2, 0⟩ .allReduce 7) = some (.ordering
        (.diverged 1 0 (submittedSlot ⟨1, 0⟩ .allReduce 7) (submittedSlot ⟨2, 0⟩ .allReduce 7))) ∧
      oneAhead.decisions.lookup 2 = none ∧
      (oneAhead.after (.submit 0 1 ⟨2, 0⟩ .allReduce 7)).decisions.lookup 2 = some .admitted ∧
      (oneAhead.after (.submit 0 1 ⟨2, 0⟩ .allReduce 7)).rejection? (.decide 2 .skipped) =
        some (.ordering (.notNextDecision 2 3)) := by
  refine ⟨oneAhead_reaches, ?_⟩
  decide +kernel

end SequencerState

end OnnxGenai.Comm
