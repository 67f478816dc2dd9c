import OnnxGenai.Comm.RendezvousSteps

/-!
# Leases and slots of the calls

Every step of a call keeps `Leases` and `Slots`. A step changes one call, at most one operation of
the registry and at most one slot of the sequencer; `Kept` says what the other calls rely on when
the sequencer changes.
-/

namespace OnnxGenai.Comm

open Lib SequencerState Option FiniteMap

namespace World

variable {kernels : FloatKernels} {w w' : World} {id : CallId} {c c' : Call}

/-! ### Leases -/

theorem holds_insert (hcalls : w'.calls = w.calls.insert id c') (j : CallId) :
    w'.holds j = if j = id then c'.stage.op? else w.holds j := by
  unfold holds
  rw [hcalls, lookup_insert']
  split
  · rfl
  · rfl

theorem holds_of_lookup (hc : w.calls.lookup id = some c) : w.holds id = c.stage.op? := by
  rw [holds, hc]
  rfl

namespace Leases

/-- Nothing about leases changes. -/
theorem same (h : Leases w) (hoperations : w'.registry.operations = w.registry.operations)
    (hnext : w'.registry.nextOperation = w.registry.nextOperation) (hholds : w'.holds = w.holds) : Leases w' := by
  constructor
  · rw [hholds, hoperations]
    exact h.held
  · rw [hholds, hoperations]
    exact h.owned
  · rw [hholds]
    exact h.apart
  · rw [hoperations]
    exact h.compatible
  · rw [hoperations, hnext]
    exact h.below

/-- A call that keeps what it holds. -/
theorem turn (h : Leases w) (hc : w.calls.lookup id = some c) (hop : c'.stage.op? = c.stage.op?)
    (hcalls : w'.calls = w.calls.insert id c') (hregistry : w'.registry = w.registry) : Leases w' := by
  refine h.same (by rw [hregistry]) (by rw [hregistry]) (funext fun j => ?_)
  rw [holds_insert hcalls]
  split
  case isTrue heq =>
    subst heq
    rw [hop, holds_of_lookup hc]
  case isFalse => rfl

/-- A call takes, changes or gives back an operation that no other call holds. -/
theorem replace (h : Leases w) {op : OperationId} (found : Option OperationEntry)
    (hmine : ∀ other state, w.holds id = some (other, state) → other = op)
    (hothers : ∀ j state, w.holds j = some (op, state) → j = id)
    (hcalls : w'.calls = w.calls.insert id c') (hop : c'.stage.op? = found.map fun entry => (op, entry.state))
    (hlookup : ∀ other, w'.registry.operations.lookup other =
      if other = op then found else w.registry.operations.lookup other)
    (hcompatible : ∀ entry ∈ found, ∀ other entry', other ≠ op → w.registry.operations.lookup other = some entry' →
      RegistryState.Compatible entry entry')
    (hbelow : ∀ entry ∈ found, op < w'.registry.nextOperation)
    (hnext : w.registry.nextOperation ≤ w'.registry.nextOperation) : Leases w' := by
  have hholds := holds_insert (w := w) hcalls
  -- what a call holds afterwards is the entry, or what it held before
  have hcases : ∀ j other state, w'.holds j = some (other, state) →
      (j = id ∧ other = op ∧ ∃ entry ∈ found, entry.state = state) ∨
        j ≠ id ∧ other ≠ op ∧ w.holds j = some (other, state) := by
    intro j other state hj
    rw [hholds] at hj
    split at hj
    case isTrue heq =>
      rw [hop] at hj
      obtain ⟨entry, hentry, hpair⟩ := map_eq_some_iff.mp hj
      cases hpair
      exact .inl ⟨heq, rfl, entry, hentry, rfl⟩
    case isFalse hne =>
      refine .inr ⟨hne, ?_, hj⟩
      rintro rfl
      exact hne (hothers j state hj)
  constructor
  · intro j other state hj
    rcases hcases j other state hj with ⟨-, rfl, entry, hentry, hstate⟩ | ⟨-, hne, hj⟩
    · exact ⟨entry, by rw [hlookup, if_pos rfl]; exact hentry, hstate⟩
    · rw [hlookup, if_neg hne]
      exact h.held j other state hj
  · intro other entry hentry
    rw [hlookup] at hentry
    split at hentry
    case isTrue heq => exact ⟨id, by rw [hholds, if_pos rfl, hop, hentry, heq]; rfl⟩
    case isFalse hne =>
      obtain ⟨j, hj⟩ := h.owned other entry hentry
      refine ⟨j, ?_⟩
      rw [hholds, if_neg ?_, hj]
      rintro rfl
      exact hne (hmine other _ hj)
  · intro j j' other state state' hj hj'
    rcases hcases j other state hj with ⟨rfl, rfl, -⟩ | ⟨-, hne, hj⟩ <;>
      rcases hcases j' other state' hj' with ⟨rfl, heq, -⟩ | ⟨-, hne', hj'⟩
    · rfl
    · exact absurd rfl hne'
    · exact absurd heq hne
    · exact h.apart j j' other state state' hj hj'
  · intro other other' entry entry' hne hentry hentry'
    rw [hlookup] at hentry hentry'
    split at hentry <;> split at hentry'
    case isTrue.isTrue heq heq' => exact absurd (heq.trans heq'.symm) hne
    case isTrue.isFalse hne' => exact hcompatible entry hentry other' entry' hne' hentry'
    case isFalse.isTrue hne' _ => exact (hcompatible entry' hentry' other entry hne' hentry).symm
    case isFalse.isFalse => exact h.compatible other other' entry entry' hne hentry hentry'
  · intro other entry hentry
    rw [hlookup] at hentry
    split at hentry
    case isTrue heq => exact heq ▸ hbelow entry hentry
    case isFalse => exact (h.below other entry hentry).trans_le hnext

/-- A call leases its buffers. -/
theorem lease (h : Leases w) {leases : CommLeaseSet} (hc : w.holds id = none)
    (hcompatible : ∀ op entry, w.registry.operations.lookup op = some entry →
      RegistryState.Compatible (RegistryState.entryOf leases) entry)
    (hcalls : w'.calls = w.calls.insert id c') (hop : c'.stage.op? = some (w.registry.nextOperation, .submitted))
    (hregistry : w'.registry = w.registry.leased leases) : Leases w' := by
  refine h.replace (some (RegistryState.entryOf leases)) (fun _ _ hj => nomatch hc.symm.trans hj) ?_ hcalls hop
    (fun other => by rw [hregistry]; exact lookup_insert' _ _ _ _) ?_ ?_ ?_
  · intro j state hj
    obtain ⟨entry, hentry, -⟩ := h.held j _ state hj
    exact absurd (h.below _ entry hentry) (lt_irrefl _)
  · rintro _ ⟨⟩ other entry - hentry
    exact hcompatible other entry hentry
  · rintro _ ⟨⟩
    rw [hregistry]
    exact Nat.lt_succ_self _
  · rw [hregistry]
    exact Nat.le_succ _

section Held

variable {op : OperationId} {state : OpState} (h : Leases w) (hc : w.holds id = some (op, state))

include h hc

theorem eq_of_holds : (∀ other state', w.holds id = some (other, state') → other = op) ∧
    ∀ j state', w.holds j = some (op, state') → j = id :=
  ⟨fun _ _ hj => (Prod.mk.inj (some.inj (hj.symm.trans hc))).1, fun j state' hj => h.apart j id op state' state hj hc⟩

/-- A call gives its leases back. -/
theorem release (hcalls : w'.calls = w.calls.insert id c') (hop : c'.stage.op? = none)
    (hregistry : w'.registry = w.registry.without op) : Leases w' := by
  obtain ⟨hmine, hothers⟩ := h.eq_of_holds hc
  refine h.replace none hmine hothers hcalls hop (fun other => by rw [hregistry]; exact lookup_erase' _ _ _)
    (fun _ hnone => nomatch hnone) (fun _ hnone => nomatch hnone) ?_
  rw [hregistry]
  exact le_rfl

/-- A call begins to give its leases back after an error. -/
theorem beginAbort {entry : OperationEntry} (hentry : w.registry.operations.lookup op = some entry)
    (hcalls : w'.calls = w.calls.insert id c') (hop : c'.stage.op? = some (op, .aborting))
    (hregistry : w'.registry = w.registry.withEntry op { entry with state := .aborting }) : Leases w' := by
  obtain ⟨hmine, hothers⟩ := h.eq_of_holds hc
  refine h.replace (some { entry with state := .aborting }) hmine hothers hcalls hop
    (fun other => by rw [hregistry]; exact lookup_insert' _ _ _ _) ?_ ?_ ?_
  · rintro _ ⟨⟩ other entry' hne hentry'
    exact h.compatible op other entry entry' hne.symm hentry hentry'
  · rintro _ ⟨⟩
    rw [hregistry]
    exact h.below op entry hentry
  · rw [hregistry]
    exact le_rfl

end Held

theorem step (h : Leases w) (hc : w.calls.lookup id = some c) (hstep : Step kernels w id c w') : Leases w' := by
  have hholds := holds_of_lookup hc
  cases hstep with
  | idle => exact h
  | turn lock hop => exact h.turn hc hop rfl rfl
  | lease hstage hcompatible =>
    rw [hstage] at hholds
    exact h.lease hholds hcompatible rfl rfl rfl
  | accept hstage | refuse _ hstage | join hstage =>
    refine h.turn hc ?_ rfl rfl
    rw [hstage]
    rfl
  | leave hstage hrun hentry hresult htakes =>
    refine h.turn hc ?_ rfl rfl
    rw [hstage]
    rcases htakes.cases with rfl | ⟨_, rfl⟩ | ⟨_, _, _, -, -, -, rfl⟩ <;> rfl
  | release hstage | quiesce hstage =>
    rw [hstage] at hholds
    exact h.release hholds rfl rfl rfl
  | beginAbort hstage hentry =>
    rw [hstage] at hholds
    exact h.beginAbort hholds hentry rfl rfl rfl
  | complete hstage =>
    refine h.turn hc ?_ rfl rfl
    rcases hstage with ⟨_, hstage, -⟩ | ⟨_, hstage, -⟩ <;> rw [hstage] <;> rfl

end Leases

/-! ### Slots -/

/-- A call keeps its arguments. -/
structure SameArgs (c c' : Call) : Prop where
  comm : c'.comm = c.comm
  inst : c'.inst = c.inst
  request : c'.request = c.request
  contribution : c'.contribution = c.contribution

theorem SameArgs.refl (c : Call) : SameArgs c c := ⟨rfl, rfl, rfl, rfl⟩

theorem SameArgs.key (h : SameArgs c c') : c'.key = c.key := by
  unfold Call.key
  rw [h.comm, h.inst]

theorem SameArgs.slot (h : SameArgs c c') : c'.slot = c.slot := by
  unfold Call.slot
  rw [h.comm, h.inst]

theorem SameArgs.slotOf (h : SameArgs c c') : World.slotOf c' = World.slotOf c := by
  unfold World.slotOf
  rw [h.inst, h.request]

/-- What the others see of a change of the sequencer. -/
structure Kept (w w' : World) (id : CallId) : Prop where
  inv : w'.sequencer.Inv
  accepted : ∀ group rank, w.sequencer.acceptedSlots group rank ⊆ w'.sequencer.acceptedSlots group rank
  members : ∀ group members, (w.sequencer.groups.lookup group).map GroupState.members = some members →
    (w'.sequencer.groups.lookup group).map GroupState.members = some members
  aborted : w.sequencer.aborted = true → w'.sequencer.aborted = true
  pending : ∀ j d, j ≠ id → w.calls.lookup j = some d → d.stage.Pending →
    d.slot ∈ w'.sequencer.active ∨ w'.sequencer.aborted = true

namespace Slots

theorem kept_of_frame (h : Slots w) (hinv : w'.sequencer.Inv) (hframe : Frame w.sequencer w'.sequencer) (id : CallId) :
    Kept w w' id where
  inv := hinv
  accepted := hframe.accepted
  members := hframe.members
  aborted := hframe.aborted
  pending := by
    intro j d _ hd hpending
    rcases h.pending j d hd hpending with hactive | haborted
    · exact hframe.active d.slot hactive
    · exact .inr (hframe.aborted haborted)

theorem kept_of_completed (h : Slots w) (hc : w.calls.lookup id = some c) (haccepted : c.accepted = true)
    (hinv : w'.sequencer.Inv) (hcompleted : Completed w.sequencer c.slot w'.sequencer) : Kept w w' id where
  inv := hinv
  accepted := fun group rank _ hslot => by rw [hcompleted.accepted]; exact hslot
  members := fun group members hmembers => by rw [hcompleted.groups]; exact hmembers
  aborted := fun haborted => by rw [hcompleted.aborted]; exact haborted
  pending := by
    intro j d hne hd hpending
    rcases h.pending j d hd hpending with hactive | haborted
    · refine .inl (hcompleted.active d.slot hactive fun heq => hne ?_)
      exact h.unique j id d c hd hc ((h.fits j d hd).order.2.2 hpending) haccepted heq
    · exact .inr (by rw [hcompleted.aborted]; exact haborted)

/-- One call changes its stage and its flags, and the sequencer keeps what the others rely on. -/
theorem put (h : Slots w) (hc : w.calls.lookup id = some c) (hkept : Kept w w' id)
    (hcalls : w'.calls = w.calls.insert id c') (hargs : SameArgs c c') (hfits : c'.Fits w'.sequencer.aborted)
    (htaken : c'.accepted = true → slotOf c ∈ w'.sequencer.acceptedSlots c.comm.group c.comm.rank)
    (hunique : c'.accepted = true → c.accepted = true ∨
      ∀ j d, w.calls.lookup j = some d → d.accepted = true → d.slot ≠ c.slot)
    (hpending : c'.stage.Pending → c.slot ∈ w'.sequencer.active ∨ w'.sequencer.aborted = true) : Slots w' := by
  have hother : ∀ j d, j ≠ id → w.calls.lookup j = some d → c'.accepted = true → d.accepted = true →
      d.slot ≠ c.slot := by
    intro j d hne hd haccepted' haccepted heq
    rcases hunique haccepted' with hc' | hnew
    · exact hne (h.unique j id d c hd hc haccepted hc' heq)
    · exact hnew j d hd haccepted heq
  constructor
  · exact hkept.inv
  · rw [hcalls]
    refine forall_insert ?_ fun j d _ hd => hkept.members _ _ (h.handles j d hd)
    rw [hargs.comm]
    exact hkept.members _ _ (h.handles id c hc)
  · rw [hcalls]
    refine forall_insert ?_ fun j d _ hd => h.prepared j d hd
    rw [hargs.request, hargs.comm, hargs.contribution]
    exact h.prepared id c hc
  · rw [hcalls]
    exact forall_insert hfits fun j d _ hd => (h.fits j d hd).mono hkept.aborted
  · rw [hcalls]
    refine forall_insert ?_ fun j d _ hd haccepted => hkept.accepted _ _ (h.taken j d hd haccepted)
    intro haccepted
    rw [hargs.slotOf, hargs.comm]
    exact htaken haccepted
  · rw [hcalls]
    intro j j' d d' hd hd' haccepted haccepted' hslot
    rw [lookup_insert'] at hd hd'
    split at hd <;> split at hd'
    case isTrue.isTrue heq heq' => rw [heq, heq']
    case isTrue.isFalse heq hne =>
      cases hd
      rw [hargs.slot] at hslot
      exact absurd hslot.symm (hother j' d' hne hd' haccepted haccepted')
    case isFalse.isTrue hne heq =>
      cases hd'
      rw [hargs.slot] at hslot
      exact absurd hslot (hother j d hne hd haccepted' haccepted)
    case isFalse.isFalse => exact h.unique j j' d d' hd hd' haccepted haccepted' hslot
  · rw [hcalls]
    refine forall_insert ?_ hkept.pending
    rw [hargs.slot]
    exact hpending

theorem step (h : Slots w) (hc : w.calls.lookup id = some c) (hstep : Step kernels w id c w') : Slots w' := by
  have hfits := h.fits id c hc
  have htaken := h.taken id c hc
  have hpending := h.pending id c hc
  have hsame : ∀ {w' : World}, w'.sequencer = w.sequencer → Kept w w' id := by
    intro w' heq
    exact h.kept_of_frame (heq ▸ h.sequencer) (heq ▸ Frame.refl _) id
  cases hstep with
  | idle => exact h
  | turn lock hop hpending' hfits' =>
    exact h.put hc (hsame rfl) rfl ⟨rfl, rfl, rfl, rfl⟩ hfits' htaken .inl fun hp => hpending (hpending' hp)
  | lease hstage =>
    simp only [Call.Fits, hstage] at hfits
    exact h.put hc (hsame rfl) rfl ⟨rfl, rfl, rfl, rfl⟩ hfits htaken .inl False.elim
  | accept hstage haccepted =>
    simp only [Call.Fits, hstage] at hfits
    refine h.put hc (h.kept_of_frame haccepted.inv haccepted.frame id) rfl ⟨rfl, rfl, rfl, rfl⟩ ⟨rfl, hfits.2⟩
      (fun _ => haccepted.taken) (fun _ => .inr ?_) fun _ => .inl haccepted.active
    -- an earlier accepted call with this slot would be among the slots the rank has
    intro j d hd hacc hslot
    have hearlier := h.taken j d hd hacc
    have hgroup : d.comm.group = c.comm.group := congrArg ActiveSlot.group hslot
    have hrank : d.comm.rank = c.comm.rank := congrArg ActiveSlot.rank hslot
    have hinst : d.inst = c.inst := congrArg ActiveSlot.inst hslot
    rw [hgroup, hrank] at hearlier
    have hlt : d.inst < c.inst := haccepted.new _ hearlier
    exact absurd hinst hlt.ne
  | refuse error hstage hinv hframe haborted =>
    simp only [Call.Fits, hstage] at hfits
    refine h.put hc (h.kept_of_frame hinv hframe id) rfl ⟨rfl, rfl, rfl, rfl⟩ hfits (fun hacc => ?_) .inl False.elim
    cases hfits.1.symm.trans hacc
  | join hstage =>
    simp only [Call.Fits, hstage] at hfits hpending
    exact h.put hc (hsame rfl) rfl ⟨rfl, rfl, rfl, rfl⟩ ⟨hfits.1, rfl, hfits.2.2⟩ htaken .inl fun _ => hpending trivial
  | leave hstage hrun hentry hresult htakes =>
    simp only [Call.Fits, hstage] at hfits hpending
    refine h.put hc (hsame rfl) rfl ⟨rfl, rfl, rfl, rfl⟩ ?_ htaken .inl fun _ => hpending trivial
    rcases htakes.cases with rfl | ⟨_, rfl⟩ | ⟨_, _, _, -, -, -, rfl⟩ <;> exact ⟨hfits.1, hfits.2.1, rfl⟩
  | release hstage =>
    simp only [Call.Fits, hstage] at hfits hpending
    exact h.put hc (hsame rfl) rfl ⟨rfl, rfl, rfl, rfl⟩ hfits htaken .inl fun _ => hpending trivial
  | @beginAbort _ exit _ hstage | @quiesce _ exit hstage =>
    simp only [Call.Fits, hstage] at hfits hpending
    refine h.put hc (hsame rfl) rfl ⟨rfl, rfl, rfl, rfl⟩ hfits htaken .inl fun hp => hpending ?_
    cases exit <;> exact hp
  | complete hstage hinv hcompleted =>
    have hall : c.accepted = true ∧ c.joined = true ∧ c.left = true := by
      unfold Call.Fits at hfits
      rcases hstage with ⟨_, hstage, -⟩ | ⟨_, hstage, -⟩
      · rw [hstage] at hfits
        exact hfits
      · rw [hstage] at hfits
        exact hfits
    refine h.put hc (h.kept_of_completed hc hall.1 hinv hcompleted) rfl ⟨rfl, rfl, rfl, rfl⟩ (.inr (.inl hall))
      (fun hacc => ?_) .inl False.elim
    have hslot := htaken hacc
    rw [← hcompleted.accepted] at hslot
    exact hslot

end Slots

end World

end OnnxGenai.Comm
