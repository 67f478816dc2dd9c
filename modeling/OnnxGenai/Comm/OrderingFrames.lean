import OnnxGenai.Comm.OrderingSafety

/-!
# What the callers of the sequencer see of each other

A caller relies on its own slot: once accepted it stays accepted, and it stays active until the
caller completes it or an abort does. `Frame` says what no call of somebody else takes away;
`Accepted` and `Completed` say what a rank's own submit and completion do.
-/

namespace OnnxGenai.Comm.SequencerState

open Lib CollectiveSequencer

variable {s : SequencerState}

/-- What stays as it was: accepted slots, the members of groups, and active slots unless an
abort has completed them. -/
structure Frame (s s' : SequencerState) : Prop where
  accepted : ∀ group rank, s.acceptedSlots group rank ⊆ s'.acceptedSlots group rank
  members : ∀ group members, (s.groups.lookup group).map GroupState.members = some members →
    (s'.groups.lookup group).map GroupState.members = some members
  active : ∀ slot ∈ s.active, slot ∈ s'.active ∨ s'.aborted = true
  aborted : s.aborted = true → s'.aborted = true

theorem Frame.refl (s : SequencerState) : Frame s s :=
  ⟨fun _ _ _ h => h, fun _ _ h => h, fun _ h => .inl h, fun h => h⟩

theorem Frame.trans {a b c : SequencerState} (hab : Frame a b) (hbc : Frame b c) : Frame a c where
  accepted := fun group rank _ h => hbc.accepted group rank (hab.accepted group rank h)
  members := fun group members h => hbc.members group members (hab.members group members h)
  active := by
    intro slot h
    rcases hab.active slot h with h | h
    · exact hbc.active slot h
    · exact .inr (hbc.aborted h)
  aborted := fun h => hbc.aborted (hab.aborted h)

/-- The members of a group stay when its log changes. -/
theorem members_withLog {group other : GroupId} {g : GroupState} {log : SharedLog RankId Slot} {members : List RankId}
    (hgroup : s.groups.lookup group = some g)
    (h : (s.groups.lookup other).map GroupState.members = some members) :
    ((s.withLog group g log).groups.lookup other).map GroupState.members = some members := by
  rw [Inv.lookup_withLog]
  split
  case isTrue heq =>
    subst heq
    rw [hgroup] at h
    exact h
  case isFalse => exact h

/-- Recording an event takes no accepted slot away. -/
theorem accepted_append {s' : SequencerState} {event : CollectiveOrderingEvent}
    (h : s'.trace = s.trace ++ [event]) (group : GroupId) (rank : RankId) :
    s.acceptedSlots group rank ⊆ s'.acceptedSlots group rank := by
  rw [acceptedSlots_append s group rank h]
  exact List.subset_append_left _ _

theorem Quiet.frame {s' : SequencerState} (h : Quiet s s') : Frame s s' := by
  cases h with
  | registered members hnew =>
    refine ⟨fun _ _ _ h => h, ?_, fun _ h => .inl h, fun h => h⟩
    intro other members' h
    simp only [SequencerState.registered, FiniteMap.lookup_insert']
    split
    case isTrue heq =>
      subst heq
      simp [hnew] at h
    case isFalse => exact h
  | published decision hrun => exact ⟨accepted_append rfl, fun _ _ h => h, fun _ h => .inl h, fun h => h⟩
  | submitted hrun hadmitted hgroup hlog hnew =>
    exact ⟨accepted_append rfl, fun _ _ => members_withLog hgroup, fun _ h => .inl (Finset.mem_insert_of_mem h),
      fun h => h⟩
  | passed hrun hskipped hgroup hlog =>
    exact ⟨accepted_append rfl, fun _ _ => members_withLog hgroup, fun _ h => .inl h, fun h => h⟩

theorem Quietly.frame {s' : SequencerState} (h : Quietly s s') : Frame s s' := by
  induction h with
  | refl => exact Frame.refl s
  | tail _ hquiet ih => exact ih.trans hquiet.frame

theorem frame_stopped (s : SequencerState) : Frame s s.stopped := by
  refine ⟨fun group rank slot h => ?_, fun _ _ h => h, fun _ _ => .inr rfl, fun _ => rfl⟩
  rw [acceptedSlots_stopped]
  exact h

theorem Inv.frame_abort (h : Inv s) : Frame s (s.after .abort) ∧ (s.after .abort).aborted = true := by
  apply Ensures.final (P := fun s' => Frame s s' ∧ s'.aborted = true)
  refine (abort_ensures h).mono (fun _ s' hs' => ?_) fun _ _ hs' => hs'.elim
  rcases hs'.2 with ⟨heq, habort⟩ | heq
  · rw [heq]
    exact ⟨Frame.refl s, habort⟩
  · rw [heq]
    exact ⟨frame_stopped s, rfl⟩

theorem Quietly.aborted_eq {s' : SequencerState} (h : Quietly s s') : s'.aborted = s.aborted := by
  induction h with
  | refl => rfl
  | tail _ hquiet ih => cases hquiet <;> exact ih

theorem quietly_registerGroup (s : SequencerState) (group : GroupId) (members : List RankId) :
    Quietly s (s.after (.registerGroup group members)) := by
  apply Ensures.final (P := fun s' => Quietly s s')
  refine Ensures.bind ((registerGroup_ensures s group members).mono (fun _ _ hs' => hs') fun _ s' hs' => ?_)
  rw [hs']

theorem quietly_decide (s : SequencerState) (execution : ExecutionId) (decision : CollectiveDecision) :
    Quietly s (s.after (.decide execution decision)) := by
  apply Ensures.final (P := fun s' => Quietly s s')
  refine (decideLocked_ensures s execution decision).mono (fun _ s' hs' => ?_) fun _ s' hs' => ?_
  · rw [hs'.2]
    exact .single (.published decision hs'.1.1)
  · rw [hs'.1]

theorem quietly_observeSkip (s : SequencerState) (group : GroupId) (rank : RankId) (inst : CommInstanceId) :
    Quietly s (s.after (.observeSkip group rank inst)) := by
  apply Ensures.final (P := fun s' => Quietly s s')
  refine (observeSkip_ensures s group rank inst).mono (fun _ _ hs' => hs') fun _ s' hs' => ?_
  rw [hs']

/-- A completion takes one slot from the active ones and changes nothing else the others see. -/
structure Completed (s : SequencerState) (slot : ActiveSlot) (s' : SequencerState) : Prop where
  accepted : ∀ group rank, s'.acceptedSlots group rank = s.acceptedSlots group rank
  groups : s'.groups = s.groups
  active : ∀ other ∈ s.active, other ≠ slot → other ∈ s'.active
  aborted : s'.aborted = s.aborted

theorem completed_refl (s : SequencerState) (slot : ActiveSlot) : Completed s slot s :=
  ⟨fun _ _ => rfl, rfl, fun _ h _ => h, rfl⟩

theorem completed_settled (s : SequencerState) (g : GroupState) (slot : ActiveSlot) (success : Bool) :
    Completed s slot (s.settled g slot success) :=
  ⟨fun group rank => (acceptedSlots_append s group rank rfl).trans (List.append_nil _), rfl, fun _ h hne => Finset.mem_erase.mpr ⟨hne, h⟩, rfl⟩

theorem Inv.complete_completed (h : Inv s) (slot : ActiveSlot) (success : Bool) :
    Ensures (complete slot.group slot.rank slot.inst success) s (fun _ s' => Inv s' ∧ Completed s slot s')
      fun _ s' => Inv s' ∧ Completed s slot s' ∧ slot ∉ s.active ∧ s.aborted = false := by
  refine (complete_ensures h slot.group slot.rank slot.inst success).mono (fun _ s' hs' => ?_) fun _ s' hs' => ?_
  · refine ⟨h.moves hs'.1, ?_⟩
    rcases hs'.2 with ⟨heq, -⟩ | ⟨g, heq⟩
    · rw [heq]
      exact completed_refl s slot
    · rw [heq]
      exact completed_settled s g slot success
  · rw [hs'.1]
    exact ⟨h, completed_refl s slot, hs'.2⟩

/-- An accepted submit: the slot is new to the rank, it is accepted and active, and nothing
else the others see has changed. -/
structure Accepted (s : SequencerState) (slot : ActiveSlot) (entry : Slot) (s' : SequencerState) : Prop where
  inv : Inv s'
  frame : Frame s s'
  new : ∀ earlier ∈ s.acceptedSlots slot.group slot.rank, earlier.inst < slot.inst
  taken : entry ∈ s'.acceptedSlots slot.group slot.rank
  active : slot ∈ s'.active
  running : s.aborted = false
  aborted : s'.aborted = s.aborted

theorem Inv.submit_accepted (h : Inv s) (slot : ActiveSlot) (collective : CollectiveKind) (signature : BitVec 64) :
    Ensures (submit slot.group slot.rank slot.inst collective signature) s
      (fun _ s' => Accepted s slot (submittedSlot slot.inst collective signature) s')
      fun _ s' => Inv s' ∧ Frame s s' ∧ s'.aborted = s.aborted := by
  refine (submit_ensures h slot.group slot.rank slot.inst collective signature).mono (fun _ s' hs' => ?_)
    fun _ s' hs' => ?_
  · obtain ⟨hquietly, -, hrun, m, hm, hinv, g, log, hgroup, hlog, rfl⟩ := hs'
    have hsame : ∀ group rank, m.acceptedSlots group rank = s.acceptedSlots group rank := by
      rcases hm with rfl | rfl
      · exact fun _ _ => rfl
      · exact fun group rank => (acceptedSlots_append s group rank rfl).trans (List.append_nil _)
    have haborted : m.aborted = s.aborted := by rcases hm with rfl | rfl <;> rfl
    exact {
      inv := h.moves hquietly.moves
      frame := hquietly.frame
      new := by
        intro earlier hearlier
        rw [← hsame, hinv.accepted, hgroup] at hearlier
        exact ((hinv.logs _ g hgroup).took hlog).after earlier hearlier
      taken := by
        rw [acceptedSlots_append m _ _ rfl]
        simp [CollectiveOrderingEvent.slot?]
      active := Finset.mem_insert_self _ _
      running := hrun
      aborted := haborted }
  · rcases hs' with ⟨rfl, -⟩ | ⟨rfl, hleaves⟩
    · exact ⟨h, Frame.refl _, rfl⟩
    · exact ⟨h.published hleaves.1.1 .admitted, (Quiet.published .admitted hleaves.1.1).frame, rfl⟩

/-- Slots of one group at one instance are the same, whoever took them. -/
theorem Inv.slot_unique (h : Inv s) {group : GroupId} {rank rank' : RankId} {slot slot' : Slot}
    (hslot : slot ∈ s.acceptedSlots group rank) (hslot' : slot' ∈ s.acceptedSlots group rank')
    (hinst : slot.inst = slot'.inst) : slot = slot' := by
  have hmem := (h.isPrefix group rank).subset hslot
  have hmem' := (h.isPrefix group rank').subset hslot'
  have hdistinct : ((s.log group).map Slot.inst).Nodup :=
    List.pairwise_map.mpr ((h.increasing group).imp fun hlt => hlt.ne)
  exact List.inj_on_of_nodup_map hdistinct hmem hmem' hinst

end OnnxGenai.Comm.SequencerState
