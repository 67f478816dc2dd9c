import OnnxGenai.Comm.RendezvousMeetings
import OnnxGenai.Lib.Runs

/-!
# Collectives meet correctly

Every step of a call, and everything else that can happen in an in-process world, keeps the
invariants of `RendezvousSteps`. So in every run, whatever the order of the steps:

* a call returns buffers only if every rank of its group has joined the same instance, and they
  are computed from what these ranks contributed;
* no two active operations hold conflicting leases, and when every call has returned there are
  no active operations.

Two more things hold under a condition on the run (`Careful`). The output is the collective of
the contributions for the rank's own arguments if calls of one instance that have the same
signature have the same arguments: the signature is a hash. And when every call has returned
no entry with outputs is left in the rendezvous map, if an abort never comes while an instance
that every rank has submitted still has a rank that has not taken its output: a rank that finds
the world aborted goes without counting itself out, and the entry stays for good.
-/

namespace OnnxGenai.Comm

open Lib SequencerState FiniteMap

namespace World

variable {kernels : FloatKernels} {w w' : World} {id : CallId} {c c' : Call}

/-! ### Steps of a call -/

theorem Inv.meetings_step (h : Inv kernels w) (hc : w.calls.lookup id = some c) (hstep : Step kernels w id c w') :
    Meetings kernels w' := by
  have hmeetings := h.meetings
  cases hstep with
  | idle => exact hmeetings
  | turn lock hop hpending hfits hbuffers hready =>
    refine hmeetings.put hc rfl rfl ⟨rfl, rfl, rfl, rfl⟩ rfl rfl (fun _ _ h => h) (fun h => h) hready fun _ h => ?_
    cases hbuffers.symm.trans h
  | lease | beginAbort | quiesce =>
    exact hmeetings.put hc rfl rfl ⟨rfl, rfl, rfl, rfl⟩ rfl rfl (fun _ _ h => h) (fun h => h) nofun
      nofun
  | accept hstage haccepted =>
    exact hmeetings.put hc rfl rfl ⟨rfl, rfl, rfl, rfl⟩ rfl rfl haccepted.frame.members haccepted.frame.aborted
      nofun nofun
  | refuse error hstage hinv hframe =>
    exact hmeetings.put hc rfl rfl ⟨rfl, rfl, rfl, rfl⟩ rfl rfl hframe.members hframe.aborted nofun
      nofun
  | @join op _ hstage houtputs =>
    have hargs : SameArgs c { c with stage := .checking op, joined := true } := ⟨rfl, rfl, rfl, rfl⟩
    exact h.meetings_join hc ⟨_, hstage⟩ houtputs hargs rfl rfl ⟨_, rfl⟩ rfl rfl rfl
  | @leave _ _ _ stage hstage hrun hentry hresult htakes =>
    have hargs : SameArgs c { c with stage, left := true } := ⟨rfl, rfl, rfl, rfl⟩
    exact h.meetings_leave hc hstage hentry hresult hargs rfl rfl htakes rfl rfl rfl
  | release hstage =>
    refine hmeetings.put hc rfl rfl ⟨rfl, rfl, rfl, rfl⟩ rfl rfl (fun _ _ h => h) (fun h => h) nofun
      fun _ h => ?_
    rw [hstage]
    exact h
  | complete hstage hinv hcompleted =>
    refine hmeetings.put hc rfl rfl ⟨rfl, rfl, rfl, rfl⟩ rfl rfl (fun _ _ h => ?_) (fun h => ?_)
      nofun fun _ h => ?_
    · rw [← hcompleted.groups] at h
      exact h
    · rw [← hcompleted.aborted] at h
      exact h
    · rcases hstage with ⟨_, hstage, rfl⟩ | ⟨_, -, rfl⟩
      · rw [hstage]
        exact h
      · exact nomatch h

/-- **A step of a call keeps the invariant.** -/
theorem Inv.step (h : Inv kernels w) (hc : w.calls.lookup id = some c) (hstep : Step kernels w id c w') :
    Inv kernels w' :=
  ⟨h.leases.step hc hstep, h.slots.step hc hstep, h.meetings_step hc hstep⟩

/-! ### What happens around the calls -/

/-- The calls stay where they are while the sequencer or the registry's epochs change. -/
theorem Inv.around (h : Inv kernels w) (hcalls : w'.calls = w.calls) (hrendezvous : w'.rendezvous = w.rendezvous)
    (hoperations : w'.registry.operations = w.registry.operations)
    (hnext : w'.registry.nextOperation = w.registry.nextOperation) (hinv : w'.sequencer.Inv)
    (hframe : Frame w.sequencer w'.sequencer) : Inv kernels w' where
  leases := by
    apply h.leases.same hoperations hnext
    unfold holds
    rw [hcalls]
  slots := by
    constructor
    · exact hinv
    · rw [hcalls]
      exact fun j d hd => hframe.members _ _ (h.slots.handles j d hd)
    · rw [hcalls]
      exact h.slots.prepared
    · rw [hcalls]
      exact fun j d hd => (h.slots.fits j d hd).mono hframe.aborted
    · rw [hcalls]
      exact fun j d hd haccepted => hframe.accepted _ _ (h.slots.taken j d hd haccepted)
    · rw [hcalls]
      exact h.slots.unique
    · rw [hcalls]
      intro j d hd hpending
      rcases h.slots.pending j d hd hpending with hactive | haborted
      · exact hframe.active d.slot hactive
      · exact .inr (hframe.aborted haborted)
  meetings := by
    apply h.meetings.same hrendezvous
    · rw [hcalls]
      exact SameAt.refl w.calls
    · exact hframe.members
    · rw [hcalls]
      intro j d op hd hstage
      rcases h.meetings.ready j d op hd hstage with hhas | haborted
      · exact .inl hhas
      · exact .inr (hframe.aborted haborted)
    · rw [hcalls]
      exact h.meetings.outcomes

/-- A new call. -/
theorem Inv.call (h : Inv kernels w) {comm : Communicator} {inst : CommInstanceId} {request : Request}
    {contribution : RankSegments} (hnew : w.calls.lookup id = none) (hhandle : w.Handles comm)
    (hprepare : request.prepare comm = .ok contribution) :
    Inv kernels (w.put id ⟨comm, inst, request, contribution, .start, false, false, false⟩) where
  leases := by
    apply h.leases.same
    · rfl
    · rfl
    · funext j
      rw [holds_insert (w := w) rfl]
      split
      case isTrue heq =>
        subst heq
        unfold holds
        rw [hnew]
        rfl
      case isFalse => rfl
  slots := by
    constructor
    · exact h.slots.sequencer
    · exact forall_insert hhandle fun j d _ hd => h.slots.handles j d hd
    · exact forall_insert hprepare fun j d _ hd => h.slots.prepared j d hd
    · exact forall_insert ⟨rfl, rfl, rfl⟩ fun j d _ hd => h.slots.fits j d hd
    · exact forall_insert nofun fun j d _ hd => h.slots.taken j d hd
    · intro j j' d d' hd hd' haccepted haccepted' hslot
      have hold : ∀ {i : CallId} {e : Call}, (w.put id ⟨comm, inst, request, contribution, .start, false, false,
          false⟩).calls.lookup i = some e → e.accepted = true → w.calls.lookup i = some e := by
        intro i e he hacc
        simp only [put, lookup_insert'] at he
        split at he
        · cases he
          exact nomatch hacc
        · exact he
      exact h.slots.unique j j' d d' (hold hd haccepted) (hold hd' haccepted') haccepted haccepted' hslot
    · exact forall_insert (fun hpending => hpending.elim) fun j d _ hd => h.slots.pending j d hd
  meetings := by
    apply h.meetings.same
    · rfl
    · exact SameAt.insert_new hnew rfl rfl
    · exact fun _ _ h => h
    · exact fun j d op => forall_insert nofun (fun j d _ hd => h.meetings.ready j d op hd) j d
    · exact fun j d buffers => forall_insert nofun (fun j d _ hd => h.meetings.outcomes j d buffers hd) j d

/-- **Whatever happens keeps the invariant.** -/
theorem Inv.act (h : Inv kernels w) {action : Action} (hpossible : w.Possible action) :
    Inv kernels (w.act kernels action) := by
  have hsequencer := h.slots.sequencer
  cases action with
  | call id comm inst request =>
    simp only [World.act]
    cases hprepare : request.prepare comm with
    | ok contribution => exact h.call hpossible.1 hpossible.2 hprepare
    | error error => exact h
  | step id =>
    simp only [World.act]
    cases hc : w.calls.lookup id with
    | some c => exact h.step hc (h.advance_step hc)
    | none => exact h
  | abort cause => exact h.around rfl rfl rfl rfl (hsequencer.after _) hsequencer.frame_abort.1
  | publish cause => exact h.around rfl rfl rfl rfl hsequencer (Frame.refl _)
  | createGroup group members =>
    exact h.around rfl rfl rfl rfl (hsequencer.after _) (quietly_registerGroup _ group members).frame
  | decide execution decision =>
    exact h.around rfl rfl rfl rfl (hsequencer.after _) (quietly_decide _ execution decision).frame
  | observeSkip comm inst =>
    exact h.around rfl rfl rfl rfl (hsequencer.after _) (quietly_observeSkip _ comm.group comm.rank inst).frame
  | freeBuffer buffer =>
    obtain ⟨hoperations, hnext⟩ := RegistryState.freeBuffer_operations w.registry buffer
    exact h.around rfl rfl hoperations hnext hsequencer (Frame.refl _)
  | sealEpoch floor =>
    obtain ⟨hoperations, hnext⟩ := RegistryState.sealAllocatorEpoch_operations w.registry floor
    exact h.around rfl rfl hoperations hnext hsequencer (Frame.refl _)

theorem inv_new (kernels : FloatKernels) (size : ℕ) : Inv kernels (World.new size) where
  leases := by
    constructor
    · exact fun _ _ _ h => nomatch h
    · exact fun _ _ h => nomatch h
    · exact fun _ _ _ _ _ h => nomatch h
    · exact fun _ _ _ _ _ h => nomatch h
    · exact fun _ _ h => nomatch h
  slots := by
    constructor
    · exact SequencerState.Inv.initial.after _
    · exact fun _ _ h => nomatch h
    · exact fun _ _ h => nomatch h
    · exact fun _ _ h => nomatch h
    · exact fun _ _ h => nomatch h
    · exact fun _ _ _ _ h => nomatch h
    · exact fun _ _ h => nomatch h
  meetings := by
    constructor
    · exact fun _ _ h => nomatch h
    · exact fun _ _ h => nomatch h
    · exact fun _ _ h => nomatch h
    · exact fun _ _ _ h => nomatch h
    · exact fun _ _ _ h => nomatch h

/-! ### Careful runs -/

/-- Every rank of the call's group has submitted the call's instance. -/
def Submitted (w : World) (c : Call) : Prop :=
  ∀ k < c.comm.groupSize, ∃ id d, w.calls.lookup id = some d ∧
    d.accepted = true ∧ d.key = c.key ∧ d.comm.selfPosition = k

/-- A call that has the signature of an earlier call of its instance has its arguments, and the
world is not aborted while an instance that every rank has submitted is not finished. -/
def Careful (w : World) : Action → Prop
  | .call _ comm inst request => ∀ id c, w.calls.lookup id = some c →
    c.key = (comm.group, inst) → c.request.kind = request.kind → c.request.signature = request.signature →
      c.request.words = request.words
  | .abort _ => w.sequencer.aborted = false → ∀ id c, w.calls.lookup id = some c →
    c.accepted = true → w.Submitted c → c.left = true
  | _ => True

instance decidableSubmitted (w : World) (c : Call) : Decidable (w.Submitted c) :=
  inferInstanceAs (Decidable (∀ k < c.comm.groupSize, ∃ id d, w.calls.lookup id = some d ∧
    d.accepted = true ∧ d.key = c.key ∧ d.comm.selfPosition = k))

instance decidableCareful (w : World) : ∀ action, Decidable (w.Careful action)
  | .call _ comm inst request => inferInstanceAs (Decidable (∀ id c, w.calls.lookup id = some c →
    c.key = (comm.group, inst) → c.request.kind = request.kind → c.request.signature = request.signature →
      c.request.words = request.words))
  | .abort _ => inferInstanceAs (Decidable (w.sequencer.aborted = false → ∀ id c, w.calls.lookup id = some c →
    c.accepted = true → w.Submitted c → c.left = true))
  | .step _ | .publish _ | .createGroup .. | .decide .. | .observeSkip .. | .freeBuffer _ | .sealEpoch _ =>
    inferInstanceAs (Decidable True)

/-- The states of careful runs. -/
abbrev Reaches (kernels : FloatKernels) (size : ℕ) : World → Prop :=
  Reachable (· = World.new size) (fun w action => w.Possible action ∧ w.Careful action) (World.act kernels)

/-- What a careful run keeps besides: equal signatures mean equal arguments, and after an abort an
instance is finished or never will be. -/
structure Cared (w : World) : Prop where
  agreed : ∀ id id' c c', w.calls.lookup id = some c → w.calls.lookup id' = some c' → c.key = c'.key →
    c.request.kind = c'.request.kind → c.request.signature = c'.request.signature → c.request.words = c'.request.words
  finished : w.sequencer.aborted = true → ∀ id c, w.calls.lookup id = some c → c.accepted = true →
    w.Submitted c → c.left = true

/-- A step leaves the other calls alone; the call keeps its arguments, is accepted only while the
world is not aborted, and does not come back once it has left. -/
theorem Step.changes (hc : w.calls.lookup id = some c) (h : Step kernels w id c w') :
    w'.sequencer.aborted = w.sequencer.aborted ∧ ∃ c', (∀ j, w'.calls.lookup j = if j = id then some c' else
      w.calls.lookup j) ∧ SameArgs c c' ∧ (c'.accepted = c.accepted ∨ w.sequencer.aborted = false) ∧
      (c.left = true → c'.left = true) := by
  have hput : ∀ j c', (w.calls.insert id c').lookup j = if j = id then some c' else w.calls.lookup j :=
    fun j c' => lookup_insert' _ _ _ _
  cases h with
  | idle =>
    refine ⟨rfl, c, fun j => ?_, .refl c, .inl rfl, fun h => h⟩
    split
    case isTrue heq => rw [heq, hc]
    case isFalse => rfl
  | turn | lease | join | release | beginAbort | quiesce =>
    exact ⟨rfl, _, (hput · _), ⟨rfl, rfl, rfl, rfl⟩, .inl rfl, fun h => h⟩
  | accept hstage haccepted =>
    exact ⟨haccepted.aborted, _, (hput · _), ⟨rfl, rfl, rfl, rfl⟩, .inr haccepted.running, fun h => h⟩
  | refuse error hstage hinv hframe haborted =>
    exact ⟨haborted, _, (hput · _), ⟨rfl, rfl, rfl, rfl⟩, .inl rfl, fun h => h⟩
  | leave => exact ⟨rfl, _, (hput · _), ⟨rfl, rfl, rfl, rfl⟩, .inl rfl, fun _ => rfl⟩
  | complete hstage hinv hcompleted =>
    exact ⟨hcompleted.aborted, _, (hput · _), ⟨rfl, rfl, rfl, rfl⟩, .inl rfl, fun h => h⟩

theorem Cared.step (h : Cared w) (hc : w.calls.lookup id = some c) (hstep : Step kernels w id c w') : Cared w' := by
  obtain ⟨haborted, c', hlookup, hargs, haccepted, hleft⟩ := hstep.changes hc
  -- every call after the step comes from one before it
  have hback : ∀ j d, w'.calls.lookup j = some d → ∃ d₀, w.calls.lookup j = some d₀ ∧ SameArgs d₀ d ∧
      (d.accepted = d₀.accepted ∨ w.sequencer.aborted = false) ∧ (d₀.left = true → d.left = true) := by
    intro j d hd
    rw [hlookup] at hd
    split at hd
    case isTrue heq =>
      subst heq
      cases hd
      exact ⟨c, hc, hargs, haccepted, hleft⟩
    case isFalse => exact ⟨d, hd, .refl d, .inl rfl, fun h => h⟩
  constructor
  · intro j j' d d' hd hd' hkey hkind hsignature
    obtain ⟨d₀, hd₀, hsame, -, -⟩ := hback j d hd
    obtain ⟨d₀', hd₀', hsame', -, -⟩ := hback j' d' hd'
    rw [hsame.key, hsame'.key] at hkey
    rw [hsame.request, hsame'.request] at hkind hsignature ⊢
    exact h.agreed j j' d₀ d₀' hd₀ hd₀' hkey hkind hsignature
  · intro hstop j d hd hacc hall
    rw [haborted] at hstop
    have hkept : ∀ {i : CallId} {e : Call}, w'.calls.lookup i = some e → e.accepted = true →
        ∃ e₀, w.calls.lookup i = some e₀ ∧ SameArgs e₀ e ∧ e₀.accepted = true ∧ (e₀.left = true → e.left = true) := by
      intro i e he hacc
      obtain ⟨e₀, he₀, hsame, hacc', hl⟩ := hback i e he
      rcases hacc' with heq | hrun
      · exact ⟨e₀, he₀, hsame, heq ▸ hacc, hl⟩
      · cases hrun.symm.trans hstop
    obtain ⟨d₀, hd₀, hsame, hacc₀, hl⟩ := hkept hd hacc
    apply hl
    apply h.finished hstop j d₀ hd₀ hacc₀
    intro k hk
    rw [← hsame.comm] at hk
    obtain ⟨i, e, he, heacc, hekey, heplace⟩ := hall k hk
    obtain ⟨e₀, he₀, hesame, heacc₀, -⟩ := hkept he heacc
    refine ⟨i, e₀, he₀, heacc₀, ?_, ?_⟩
    · rw [← hesame.key, hekey, hsame.key]
    · rw [← hesame.comm, heplace]

/-- The calls stay where they are, and there is no abort. -/
theorem Cared.around (h : Cared w) (hcalls : w'.calls = w.calls)
    (haborted : w'.sequencer.aborted = w.sequencer.aborted) : Cared w' := by
  constructor
  · rw [hcalls]
    exact h.agreed
  · unfold Submitted
    rw [hcalls, haborted]
    exact h.finished

theorem Cared.call (h : Cared w) {comm : Communicator} {inst : CommInstanceId} {request : Request}
    {contribution : RankSegments} (hnew : w.calls.lookup id = none)
    (hcareful : w.Careful (.call id comm inst request)) :
    Cared (w.put id ⟨comm, inst, request, contribution, .start, false, false, false⟩) := by
  constructor
  · intro j j' d d' hd hd' hkey hkind hsignature
    simp only [put, lookup_insert'] at hd hd'
    split at hd <;> split at hd'
    · cases hd
      cases hd'
      rfl
    · cases hd
      exact (hcareful j' d' hd' hkey.symm hkind.symm hsignature.symm).symm
    · cases hd'
      exact hcareful j d hd hkey hkind hsignature
    · exact h.agreed j j' d d' hd hd' hkey hkind hsignature
  · intro hstop
    apply forall_insert
    · exact nofun
    · intro j d _ hd hacc hall
      apply h.finished hstop j d hd hacc
      intro k hk
      exact (exists_insert_of_not hnew (by simp)).mp (hall k hk)

theorem Cared.act (h : Cared w) (hinv : Inv kernels w) {action : Action} (hpossible : w.Possible action)
    (hcareful : w.Careful action) : Cared (w.act kernels action) := by
  cases action with
  | call id comm inst request =>
    simp only [World.act]
    cases hprepare : request.prepare comm with
    | ok contribution => exact h.call hpossible.1 hcareful
    | error error => exact h
  | step id =>
    simp only [World.act]
    cases hc : w.calls.lookup id with
    | some c => exact h.step hc (hinv.advance_step hc)
    | none => exact h
  | abort cause =>
    refine ⟨h.agreed, fun _ => ?_⟩
    cases hstop : w.sequencer.aborted with
    | true => exact h.finished hstop
    | false => exact hcareful hstop
  | createGroup group members => exact h.around rfl (quietly_registerGroup _ group members).aborted_eq
  | decide execution decision => exact h.around rfl (quietly_decide _ execution decision).aborted_eq
  | observeSkip comm inst => exact h.around rfl (quietly_observeSkip _ comm.group comm.rank inst).aborted_eq
  | publish | freeBuffer | sealEpoch => exact h.around rfl rfl

theorem cared_of_reaches {size : ℕ} (h : Reaches kernels size w) : Inv kernels w ∧ Cared w := by
  apply h.invariant (I := fun w => Inv kernels w ∧ Cared w)
  · rintro _ rfl
    exact ⟨inv_new kernels size, ⟨(fun _ _ _ _ h => nomatch h), fun _ _ _ h => nomatch h⟩⟩
  · intro w action hw hallowed
    exact ⟨hw.1.act hallowed.1, hw.2.act hw.1 hallowed.1 hallowed.2⟩

/-! ### What calls return -/

/-- Every rank of the call's group has contributed to its instance, and these are the contributions
in rank order. -/
def Contributed (w : World) (c : Call) (inputs : List RankSegments) : Prop :=
  inputs.length = c.comm.groupSize ∧ ∀ k p, inputs[k]? = some p → Joined w.calls c.key k p

/-- Every call has returned. -/
def AllReturned (w : World) : Prop := ∀ id c, w.calls.lookup id = some c → ∃ result, c.stage = .returned result

/-- A call that has its buffers has the collective of all contributions. -/
theorem Inv.isCollective (h : Inv kernels w) (hcared : Cared w) (hc : w.calls.lookup id = some c)
    {buffers : List Bytes} (hjoined : c.joined = true) (ho : Outcome kernels w.calls c buffers) :
    ∃ inputs, w.Contributed c inputs ∧ c.request.IsCollective c.comm inputs buffers := by
  obtain ⟨inputs, hlength, hinputs, j, d, hd, hdjoined, hkey, outputs, output, hcompute, houtput, hdeliver⟩ := ho
  refine ⟨inputs, ⟨hlength, hinputs⟩, ?_⟩
  have haccepted := h.slots.accepted_of_joined hc hjoined
  have hslot := h.slots.slotOf_eq hd hc (h.slots.accepted_of_joined hd hdjoined) haccepted hkey
  have hwords := hcared.agreed j id d c hd hc hkey (kind_of_slotOf hslot) (signature_of_slotOf hslot)
  rw [Request.compute_congr (h.slots.members_eq hd hc hkey) hwords] at hcompute
  refine Request.isCollective_of_deliver (h.slots.prepared id c hc) ?_ hlength hcompute houtput hdeliver
  intro input hinput
  obtain ⟨k, hk⟩ := List.getElem?_of_mem hinput
  obtain ⟨i, e, he, hejoined, hekey, -, rfl⟩ := hinputs k input hk
  have heslot := h.slots.slotOf_eq he hc (h.slots.accepted_of_joined he hejoined) haccepted hekey
  rw [Request.length_of_prepare (h.slots.prepared i e he), kind_of_slotOf heslot, Communicator.groupSize,
    Communicator.groupSize, h.slots.members_eq he hc hekey]

/-- When every call has returned, no operation is active. -/
theorem Leases.none_active (h : Leases w) (hall : w.AllReturned) (op : OperationId) :
    w.registry.operations.lookup op = none := by
  cases hentry : w.registry.operations.lookup op with
  | none => rfl
  | some entry =>
    obtain ⟨id, hholds⟩ := h.owned op entry hentry
    obtain ⟨c, hc, hop⟩ := Option.bind_eq_some_iff.mp hholds
    obtain ⟨result, hstage⟩ := hall id c hc
    rw [hstage] at hop
    exact nomatch hop

/-- When every call has returned, an entry that is left lacks a contribution. -/
theorem Inv.none_completed (h : Inv kernels w) (hcared : Cared w) (hall : w.AllReturned) {key : CollectiveKey}
    {entry : DataCollectiveState} (hentry : w.rendezvous.lookup key = some entry) : none ∈ entry.contributions := by
  by_contra hnone
  have hok := h.meetings.entries key entry hentry
  obtain ⟨members, hmembers, hsize⟩ := hok.size
  -- the call at each place has joined, and so it was accepted
  have hplace : ∀ k < entry.contributions.length, ∃ id c, w.calls.lookup id = some c ∧ c.joined = true ∧
      c.key = key ∧ c.comm.selfPosition = k := by
    intro k hk
    cases hget : entry.contributions[k] with
    | none => exact absurd (hget ▸ List.getElem_mem hk) hnone
    | some p =>
      have hsome : entry.contributions[k]? = some (some p) := by rw [List.getElem?_eq_getElem hk, hget]
      obtain ⟨id, c, hc, hjoined, hkey, hk, -⟩ := (hok.contributions k p).mp hsome
      exact ⟨id, c, hc, hjoined, hkey, hk⟩
  have hleft : ∀ k < entry.contributions.length, Left w.calls key k := by
    intro k hk
    obtain ⟨id, c, hc, hjoined, hkey, hpos⟩ := hplace k hk
    refine ⟨id, c, hc, ?_, hkey, hpos⟩
    have haccepted := h.slots.accepted_of_joined hc hjoined
    obtain ⟨result, hstage⟩ := hall id c hc
    have hfits := h.slots.fits id c hc
    simp only [Call.Fits, hstage] at hfits
    rcases hfits with ⟨hnot, -, -, -⟩ | ⟨-, -, hl⟩ | ⟨-, -, -, hstop, -⟩
    · cases hnot.symm.trans haccepted
    · exact hl
    · apply hcared.finished hstop id c hc haccepted
      intro k' hk'
      subst hkey
      rw [h.length_entry hc hentry] at hk'
      obtain ⟨id', c', hc', hjoined', hkey', hpos'⟩ := hplace k' hk'
      exact ⟨id', c', hc', h.slots.accepted_of_joined hc' hjoined', hkey', hpos'⟩
  have hfull : leftPlaces w.calls key entry.contributions.length = Finset.range entry.contributions.length := by
    ext k
    rw [mem_leftPlaces, Finset.mem_range]
    exact ⟨fun h => h.1, fun hk => ⟨hk, hleft k hk⟩⟩
  have hconsumed := hok.consumed
  rw [hfull, Finset.card_range] at hconsumed
  exact absurd hok.unfinished (by omega)

/-- What collectives promise of a state. -/
structure Sound (w : World) : Prop where
  /-- A call returns buffers only if every rank of its group contributed to its instance, and they
  hold the collective of the contributions. -/
  returned : ∀ id c buffers, w.calls.lookup id = some c → c.stage = .returned (.ok buffers) →
    ∃ inputs, w.Contributed c inputs ∧ c.request.IsCollective c.comm inputs buffers
  /-- No two active operations hold conflicting leases. -/
  compatible : ∀ op op' entry entry', op ≠ op' → w.registry.operations.lookup op = some entry →
    w.registry.operations.lookup op' = some entry' → RegistryState.Compatible entry entry'
  /-- When every call has returned no operation is active … -/
  released : w.AllReturned → ∀ op, w.registry.operations.lookup op = none
  /-- … and an entry that is left belongs to an instance some rank never contributed to. -/
  reaped : w.AllReturned → ∀ key entry, w.rendezvous.lookup key = some entry → none ∈ entry.contributions

/-- **Collectives rendezvous correctly** in every state of a careful run of a world of any size. -/
theorem sound_of_reaches {size : ℕ} (h : Reaches kernels size w) : w.Sound := by
  obtain ⟨hinv, hcared⟩ := cared_of_reaches h
  constructor
  · intro id c buffers hc hstage
    have hbuffers : c.stage.buffers? = some buffers := by rw [hstage]; rfl
    have hfits := hinv.slots.fits id c hc
    simp only [Call.Fits, hstage] at hfits
    have hjoined : c.joined = true := by
      rcases hfits with ⟨-, -, -, hnone⟩ | ⟨-, hjoined, -⟩ | ⟨-, hjoined, -⟩
      · cases hnone
      · exact hjoined
      · exact hjoined
    exact hinv.isCollective hcared hc hjoined (hinv.meetings.outcomes id c buffers hc hbuffers)
  · exact hinv.leases.compatible
  · exact hinv.leases.none_active
  · exact fun hall key entry hentry => hinv.none_completed hcared hall hentry

/-! ### Two ranks -/

/-- A rank of a group of two. -/
def pair (rank : RankId) (h : rank ∈ [0, 1]) : Communicator := ⟨0, [0, 1], rank, h⟩

/-- The sum of one byte over two ranks. -/
def sumOf (buffer : PhysicalAllocationId) (byte : BitVec 8) : Request := .allReduce ⟨buffer, [byte]⟩ 1 .u8 .sum

/-- Kernels for runs without floats. -/
def noFloats : FloatKernels := ⟨fun _ a _ => a, fun _ a _ => a, fun _ a _ => a⟩

/-- Both ranks call; rank `0` joins and waits, rank `1` completes the sum and returns it. -/
def oneReturned : List Action :=
  [.call 0 (pair 0 (by simp)) ⟨1, 0⟩ (sumOf 10 1), .call 1 (pair 1 (by simp)) ⟨1, 0⟩ (sumOf 11 2)] ++
    List.replicate 5 (.step 0) ++ List.replicate 8 (.step 1)

/-- Then rank `0` wakes up and returns it too, and the world is aborted. -/
def abortedAfter : World :=
  (oneReturned ++ List.replicate 5 (Action.step 0) ++ [Action.abort "stop", .publish "stop"]).foldl (World.act noFloats)
    (World.new 2)

/-- The world is aborted before rank `0` wakes up. -/
def abortedBefore : World :=
  (oneReturned ++ [Action.abort "stop", .publish "stop"] ++ List.replicate 6 (Action.step 0)).foldl (World.act noFloats)
    (World.new 2)

theorem abortedAfter_reaches : Reaches noFloats 2 abortedAfter :=
  Reachable.foldl _ (.start rfl) (by decide +kernel)

/-- An abort after both ranks took their outputs leaves nothing behind. -/
theorem sound_of_reaches_two :
    Reaches noFloats 2 abortedAfter ∧
      (∀ id c, abortedAfter.calls.lookup id = some c → c.stage = .returned (.ok [[3]])) ∧ abortedAfter.Sound :=
  ⟨abortedAfter_reaches, by decide +kernel, sound_of_reaches abortedAfter_reaches⟩

/-- After an abort before rank `0` wakes up it returns an error and does not count itself out:
both calls have returned, and the entry of the completed sum is still there. -/
theorem completed_entry_remains :
    Reachable (· = World.new 2) World.Possible (World.act noFloats) abortedBefore ∧
      (∀ id c, abortedBefore.calls.lookup id = some c →
        c.stage = .returned (.ok [[3]]) ∨ c.stage = .returned (.error (.aborted "stop"))) ∧
      abortedBefore.AllReturned ∧
      ∃ entry, abortedBefore.rendezvous.lookup (0, ⟨1, 0⟩) = some entry ∧ none ∉ entry.contributions := by
  have hstages : ∀ id c, abortedBefore.calls.lookup id = some c →
      c.stage = .returned (.ok [[3]]) ∨ c.stage = .returned (.error (.aborted "stop")) := by decide +kernel
  have hentry : ∃ key entry, abortedBefore.rendezvous.lookup key = some entry ∧
      key = (0, ⟨1, 0⟩) ∧ none ∉ entry.contributions := by decide +kernel
  refine ⟨Reachable.foldl _ (.start rfl) (by decide +kernel), hstages, ?_, ?_⟩
  · intro id c hc
    rcases hstages id c hc with hstage | hstage
    · exact ⟨_, hstage⟩
    · exact ⟨_, hstage⟩
  · obtain ⟨key, entry, hlookup, rfl, hnone⟩ := hentry
    exact ⟨entry, hlookup, hnone⟩

/-- **Whatever the callers do**, an active operation is held by one call, no two conflict and none
outlives the calls; and buffers are returned only after every rank has joined, as one of them
computed them from what all contributed, in rank order. -/
theorem leased_of_possible {size : ℕ} (h : Reachable (· = World.new size) World.Possible (World.act kernels) w) :
    (∀ op entry, w.registry.operations.lookup op = some entry → ∃! id, w.holds id = some (op, entry.state)) ∧
      (∀ op op' entry entry', op ≠ op' → w.registry.operations.lookup op = some entry →
        w.registry.operations.lookup op' = some entry' → RegistryState.Compatible entry entry') ∧
      (w.AllReturned → ∀ op, w.registry.operations.lookup op = none) ∧
      ∀ id c buffers, w.calls.lookup id = some c → c.stage = .returned (.ok buffers) →
        Outcome kernels w.calls c buffers := by
  have hinv : Inv kernels w := h.invariant (by rintro _ rfl; exact inv_new kernels size) fun _ _ hw ha => hw.act ha
  refine ⟨fun op entry hentry => ?_, hinv.leases.compatible, hinv.leases.none_active, fun id c buffers hc hstage => ?_⟩
  · obtain ⟨id, hid⟩ := hinv.leases.owned op entry hentry
    exact ⟨id, hid, fun j hj => hinv.leases.apart j id op _ _ hj hid⟩
  · exact hinv.meetings.outcomes id c buffers hc (by rw [hstage]; rfl)

theorem leased_of_possible_aborted :
    ∃ id c, abortedBefore.calls.lookup id = some c ∧ Outcome noFloats abortedBefore.calls c [[3]] := by
  have hcall : ∃ id c, abortedBefore.calls.lookup id = some c ∧ c.stage = .returned (.ok [[3]]) := by decide +kernel
  obtain ⟨id, c, hc, hstage⟩ := hcall
  have hrun : Reachable (· = World.new 2) World.Possible (World.act noFloats) abortedBefore :=
    Reachable.foldl _ (.start rfl) (by decide +kernel)
  exact ⟨id, c, hc, (leased_of_possible hrun).2.2.2 id c _ hc hstage⟩

end World

end OnnxGenai.Comm
