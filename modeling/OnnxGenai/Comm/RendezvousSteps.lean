import OnnxGenai.Comm.Rendezvous

/-!
# The invariant of the rendezvous, and the steps that are possible under it

Three invariants support each other. `Leases`: every active operation of the registry belongs to
one call at a stage that holds leases, and no two operations conflict. `Slots`: of the calls the
sequencer accepted there is one for each rank and instance, and its slot is active until the call
completes it or an abort does. `Meetings`: the rendezvous entry of an instance holds exactly the
contributions of the calls that joined, it has outputs when all ranks have joined, and it counts
the calls that left.

Under them several branches of the code are never taken: a diverging signature, a second
contribution, a panic while the outputs are computed or taken, leases that cannot be given back.
`Step` lists the branches that are left, and `advance_step` shows that a call makes one of them.
-/

namespace OnnxGenai.Comm

open Lib SequencerState List Option

/-! ### Stages -/

namespace Stage

/-- The operation a call holds, and its state. -/
def op? : Stage → Option (OperationId × OpState)
  | .leased op | .submitted op | .checking op | .waiting op | .leaving op | .done op _ | .failing op _
  | .panicked op => some (op, .submitted)
  | .quiescing op _ => some (op, .aborting)
  | .start | .checked | .completing _ | .exiting _ | .returned _ => none

/-- The call still has to complete its slot. -/
def Pending : Stage → Prop
  | .submitted _ | .checking _ | .waiting _ | .leaving _ | .done _ _ | .completing _
  | .failing _ (.complete _) | .quiescing _ (.complete _) | .exiting (.complete _) => True
  | _ => False

/-- The buffers of a call that has its output. -/
def buffers? : Stage → Option (List Bytes)
  | .done _ buffers | .completing buffers | .returned (.ok buffers) => some buffers
  | _ => none

end Stage

/-- How far a call came, by what is left of it after an error. -/
def Exit.Fits (aborted : Bool) (c : Call) : Exit → Prop
  | .plain _ => c.accepted = false ∧ c.joined = false ∧ c.left = false
  | .complete _ => c.accepted = true ∧ c.joined = true ∧ c.left = true
  | .cause => c.accepted = true ∧ c.joined = true ∧ c.left = false ∧ aborted = true

/-- How far a call came, by its stage. -/
def Call.Fits (aborted : Bool) (c : Call) : Prop :=
  match c.stage with
  | .start | .checked | .leased _ => c.accepted = false ∧ c.joined = false ∧ c.left = false
  | .submitted _ => c.accepted = true ∧ c.joined = false ∧ c.left = false
  | .checking _ | .waiting _ | .leaving _ => c.accepted = true ∧ c.joined = true ∧ c.left = false
  | .done _ _ | .completing _ | .panicked _ => c.accepted = true ∧ c.joined = true ∧ c.left = true
  | .failing _ exit | .quiescing _ exit | .exiting exit => exit.Fits aborted c
  | .returned result =>
    (c.accepted = false ∧ c.joined = false ∧ c.left = false ∧ result.toOption = none) ∨
      (c.accepted = true ∧ c.joined = true ∧ c.left = true) ∨
      (c.accepted = true ∧ c.joined = true ∧ c.left = false ∧ aborted = true ∧ result.toOption = none)

namespace Call.Fits

variable {aborted aborted' : Bool} {c : Call}

theorem mono (h : c.Fits aborted) (himp : aborted = true → aborted' = true) : c.Fits aborted' := by
  unfold Call.Fits at h ⊢
  have hexit : ∀ exit : Exit, exit.Fits aborted c → exit.Fits aborted' c := by
    intro exit hfits
    cases exit with
    | plain | complete => exact hfits
    | cause => exact ⟨hfits.1, hfits.2.1, hfits.2.2.1, himp hfits.2.2.2⟩
  cases hstage : c.stage with
  | failing _ exit | quiescing _ exit | exiting exit => rw [hstage] at h; exact hexit exit h
  | returned result =>
    rw [hstage] at h
    rcases h with h | h | ⟨h₁, h₂, h₃, h₄, h₅⟩
    · exact .inl h
    · exact .inr (.inl h)
    · exact .inr (.inr ⟨h₁, h₂, h₃, himp h₄, h₅⟩)
  | start | checked | leased | submitted | checking | waiting | leaving | done | completing | panicked =>
    rw [hstage] at h
    exact h

/-- How far a call came: it left only if it joined, and joined only if it was accepted. -/
theorem order (h : c.Fits aborted) :
    (c.joined = true → c.accepted = true) ∧ (c.left = true → c.joined = true) ∧
      (c.stage.Pending → c.accepted = true) := by
  unfold Call.Fits at h
  have hexit : ∀ exit : Exit, exit.Fits aborted c →
      (c.joined = true → c.accepted = true) ∧ (c.left = true → c.joined = true) := by
    intro exit hfits
    cases exit <;> simp_all [Exit.Fits]
  cases hstage : c.stage with
  | failing op exit | quiescing op exit | exiting exit =>
    rw [hstage] at h
    have hboth := hexit exit h
    refine ⟨hboth.1, hboth.2, ?_⟩
    cases exit with
    | plain | cause => exact fun hpending => absurd hpending not_false
    | complete => exact fun _ => h.1
  | returned =>
    rw [hstage] at h
    rcases h with ⟨h₁, h₂, h₃, -⟩ | ⟨h₁, h₂, h₃⟩ | ⟨h₁, h₂, h₃, -, -⟩ <;> simp [h₁, h₂, h₃, Stage.Pending]
  | start | checked | leased | submitted | checking | waiting | leaving | done | completing | panicked =>
    rw [hstage] at h
    obtain ⟨h₁, h₂, h₃⟩ := h
    simp [h₁, h₂, h₃, Stage.Pending]

end Call.Fits

namespace World

/-! ### Who has joined and who has left -/

section Roster

variable (calls : FiniteMap CallId Call) (key : CollectiveKey)

/-- The rank at place `k` has joined, with contribution `p`. -/
def Joined (k : ℕ) (p : RankSegments) : Prop :=
  ∃ id c, calls.lookup id = some c ∧ c.joined = true ∧ c.key = key ∧ c.comm.selfPosition = k ∧ c.contribution = p

/-- The rank at place `k` has left with its output. -/
def Left (k : ℕ) : Prop :=
  ∃ id c, calls.lookup id = some c ∧ c.left = true ∧ c.key = key ∧ c.comm.selfPosition = k

open Classical in
/-- The places whose ranks have left. -/
noncomputable def leftPlaces (n : ℕ) : Finset ℕ := (Finset.range n).filter (Left calls key)

theorem mem_leftPlaces {n k : ℕ} : k ∈ leftPlaces calls key n ↔ k < n ∧ Left calls key k := by
  simp [leftPlaces]

end Roster

/-- How a call got its buffers: every rank joined, and the outputs were computed from what they
contributed, by the arguments of one of them. -/
def Outcome (kernels : FloatKernels) (calls : FiniteMap CallId Call) (c : Call) (buffers : List Bytes) : Prop :=
  ∃ inputs : List RankSegments, inputs.length = c.comm.groupSize ∧
    (∀ k p, inputs[k]? = some p → Joined calls c.key k p) ∧
    ∃ id d, calls.lookup id = some d ∧ d.joined = true ∧ d.key = c.key ∧
      ∃ outputs output, d.request.compute kernels d.comm inputs = some (.ok outputs) ∧
        outputs[c.comm.selfPosition]? = some output ∧ c.request.deliver c.comm output = some (.ok buffers)

/-! ### The invariants -/

/-- The operation a call holds, and its state. -/
def holds (w : World) (id : CallId) : Option (OperationId × OpState) :=
  (w.calls.lookup id).bind fun c => c.stage.op?

/-- Leases belong to calls, and do not conflict. -/
structure Leases (w : World) : Prop where
  held : ∀ id op state, w.holds id = some (op, state) →
    ∃ entry, w.registry.operations.lookup op = some entry ∧ entry.state = state
  owned : ∀ op entry, w.registry.operations.lookup op = some entry → ∃ id, w.holds id = some (op, entry.state)
  apart : ∀ id id' op state state', w.holds id = some (op, state) → w.holds id' = some (op, state') → id = id'
  compatible : ∀ op op' entry entry', op ≠ op' → w.registry.operations.lookup op = some entry →
    w.registry.operations.lookup op' = some entry' → RegistryState.Compatible entry entry'
  below : ∀ op entry, w.registry.operations.lookup op = some entry → op < w.registry.nextOperation

/-- The slot of a call in its group's log. -/
def slotOf (c : Call) : Slot := submittedSlot c.inst c.request.kind c.request.signature

/-- Accepted calls have their slots, one for each rank and instance. -/
structure Slots (w : World) : Prop where
  sequencer : w.sequencer.Inv
  handles : ∀ id c, w.calls.lookup id = some c → w.Handles c.comm
  prepared : ∀ id c, w.calls.lookup id = some c → c.request.prepare c.comm = .ok c.contribution
  fits : ∀ id c, w.calls.lookup id = some c → c.Fits w.sequencer.aborted
  taken : ∀ id c, w.calls.lookup id = some c → c.accepted = true →
    slotOf c ∈ w.sequencer.acceptedSlots c.comm.group c.comm.rank
  unique : ∀ id id' c c', w.calls.lookup id = some c → w.calls.lookup id' = some c' →
    c.accepted = true → c'.accepted = true → c.slot = c'.slot → id = id'
  pending : ∀ id c, w.calls.lookup id = some c → c.stage.Pending →
    c.slot ∈ w.sequencer.active ∨ w.sequencer.aborted = true

/-- An entry agrees with the calls of its instance. -/
structure EntryOk (kernels : FloatKernels) (w : World) (key : CollectiveKey) (entry : DataCollectiveState) :
    Prop where
  size : ∃ members, (w.sequencer.groups.lookup key.1).map GroupState.members = some members ∧
    entry.contributions.length = members.length
  contributions : ∀ k p, entry.contributions[k]? = some (some p) ↔ Joined w.calls key k p
  outputs : entry.outputs = none ↔ none ∈ entry.contributions
  computed : ∀ result, entry.outputs = some result → ∃ id c, w.calls.lookup id = some c ∧ c.joined = true ∧
    c.key = key ∧ c.request.compute kernels c.comm (entry.contributions.reduceOption) = some result ∧
    ∀ outputs, result = .ok outputs → outputs.length = entry.contributions.length
  consumed : entry.consumed = (leftPlaces w.calls key entry.contributions.length).card
  unfinished : entry.consumed < entry.contributions.length

/-- The rendezvous map agrees with the calls. -/
structure Meetings (kernels : FloatKernels) (w : World) : Prop where
  entries : ∀ key entry, w.rendezvous.lookup key = some entry → EntryOk kernels w key entry
  signatures : ∀ key entry, w.rendezvous.lookup key = some entry →
    ∃ id c, w.calls.lookup id = some c ∧ c.joined = true ∧ c.key = key ∧ c.request.signature = entry.signature
  gone : ∀ id c, w.calls.lookup id = some c → c.joined = true → w.rendezvous.lookup c.key = none →
    ∀ k < c.comm.groupSize, Left w.calls c.key k
  ready : ∀ id c op, w.calls.lookup id = some c → c.stage = .leaving op →
    w.hasOutputs c = true ∨ w.sequencer.aborted = true
  outcomes : ∀ id c buffers, w.calls.lookup id = some c → c.stage.buffers? = some buffers →
    Outcome kernels w.calls c buffers

/-- All of it. -/
structure Inv (kernels : FloatKernels) (w : World) : Prop where
  leases : Leases w
  slots : Slots w
  meetings : Meetings kernels w

/-! ### Consequences -/

variable {kernels : FloatKernels} {w : World} {id id' : CallId} {c c' : Call}

section

variable (h : Slots w) (hc : w.calls.lookup id = some c) (hc' : w.calls.lookup id' = some c')

include h hc hc'

/-- Calls on one group have the same members. -/
theorem Slots.members_eq (hkey : c.key = c'.key) : c.comm.members = c'.comm.members := by
  have hgroup : c.comm.group = c'.comm.group := congrArg Prod.fst hkey
  have hhandle := h.handles id c hc
  have hhandle' := h.handles id' c' hc'
  unfold Handles at hhandle hhandle'
  rw [hgroup] at hhandle
  exact some.inj (hhandle.symm.trans hhandle')

/-- Accepted calls at one place of one instance are one call. -/
theorem Slots.same (haccepted : c.accepted = true) (haccepted' : c'.accepted = true) (hkey : c.key = c'.key)
    (hplace : c.comm.selfPosition = c'.comm.selfPosition) : id = id' ∧ c = c' := by
  have hrank : c.comm.rank = c'.comm.rank := by
    have hget := c.comm.getElem?_selfPosition
    rw [hplace, h.members_eq hc hc' hkey, c'.comm.getElem?_selfPosition] at hget
    exact (some.inj hget).symm
  have hslot : c.slot = c'.slot := by
    unfold Call.slot
    rw [show c.comm.group = c'.comm.group from congrArg Prod.fst hkey, hrank,
      show c.inst = c'.inst from congrArg Prod.snd hkey]
  obtain rfl := h.unique id id' c c' hc hc' haccepted haccepted' hslot
  exact ⟨rfl, some.inj (hc.symm.trans hc')⟩

/-- Accepted calls of one instance are of one family and have one signature. -/
theorem Slots.slotOf_eq (haccepted : c.accepted = true) (haccepted' : c'.accepted = true) (hkey : c.key = c'.key) :
    slotOf c = slotOf c' := by
  have htaken := h.taken id c hc haccepted
  have htaken' := h.taken id' c' hc' haccepted'
  rw [show c.comm.group = c'.comm.group from congrArg Prod.fst hkey] at htaken
  exact h.sequencer.slot_unique htaken htaken' (congrArg Prod.snd hkey : c.inst = c'.inst)

end

theorem kind_of_slotOf (h : slotOf c = slotOf c') : c.request.kind = c'.request.kind :=
  some.inj (congrArg Slot.collective h)

theorem signature_of_slotOf (h : slotOf c = slotOf c') : c.request.signature = c'.request.signature :=
  congrArg Slot.signature h

section

variable (h : Slots w) (hc : w.calls.lookup id = some c)

include h hc

/-- A call that joined was accepted. -/
theorem Slots.accepted_of_joined (hjoined : c.joined = true) : c.accepted = true :=
  (h.fits id c hc).order.1 hjoined

/-- A call that left had joined. -/
theorem Slots.joined_of_left (hleft : c.left = true) : c.joined = true :=
  (h.fits id c hc).order.2.1 hleft

/-- Nobody has left at the place of a call that has not. -/
theorem Slots.not_left (haccepted : c.accepted = true)
    (hnot : c.left = false) : ¬ Left w.calls c.key c.comm.selfPosition := by
  rintro ⟨id', c', hc', hleft, hkey, hplace⟩
  have haccepted' := h.accepted_of_joined hc' (h.joined_of_left hc' hleft)
  obtain ⟨-, rfl⟩ := h.same hc hc' haccepted haccepted' hkey.symm hplace.symm
  cases hnot.symm.trans hleft

/-- Nobody has joined at the place of a call that has not. -/
theorem Slots.not_joined (haccepted : c.accepted = true)
    (hnot : c.joined = false) (p : RankSegments) : ¬ Joined w.calls c.key c.comm.selfPosition p := by
  rintro ⟨id', c', hc', hjoined, hkey, hplace, -⟩
  obtain ⟨-, rfl⟩ := h.same hc hc' haccepted (h.accepted_of_joined hc' hjoined) hkey.symm hplace.symm
  cases hnot.symm.trans hjoined

end

/-! ### Joining -/

/-- A list of options without `none` is a list of values. -/
theorem eq_map_some {α : Type} : ∀ {l : List (Option α)}, none ∉ l → l = l.reduceOption.map some
  | [], _ => rfl
  | none :: _, h => absurd (mem_cons_self) h
  | some a :: l, h => by
    rw [reduceOption_cons_of_some, map_cons,
      ← eq_map_some fun hmem => h (mem_cons_of_mem _ hmem)]

/-- The entry a call finds, or makes, when it comes to join. -/
theorem Inv.entryFor_ok (h : Inv kernels w) (hc : w.calls.lookup id = some c) (haccepted : c.accepted = true)
    (hnot : c.joined = false) :
    EntryOk kernels w c.key (w.entryFor c) ∧ (w.entryFor c).signature = c.request.signature := by
  unfold entryFor
  cases hentry : w.rendezvous.lookup c.key with
  | some entry =>
    refine ⟨h.meetings.entries c.key entry hentry, ?_⟩
    obtain ⟨id', c', hc', hjoined, hkey, hsignature⟩ := h.meetings.signatures c.key entry hentry
    have haccepted' := h.slots.accepted_of_joined hc' hjoined
    rw [getD_some, ← hsignature]
    exact signature_of_slotOf (h.slots.slotOf_eq hc' hc haccepted' haccepted hkey)
  | none =>
    have hleft : (c.left = true → c.joined = true) := h.slots.joined_of_left hc
    have hnotLeft : c.left = false := by
      cases hl : c.left with
      | false => rfl
      | true => cases hnot.symm.trans (hleft hl)
    -- whoever had joined would have left together with the rank of this call
    have hnobody : ∀ id' c', w.calls.lookup id' = some c' → c'.key = c.key → c'.joined ≠ true := by
      intro id' c' hc' hkey hjoined
      have hplace : c.comm.selfPosition < c'.comm.groupSize := by
        unfold Communicator.groupSize
        rw [h.slots.members_eq hc' hc hkey]
        exact c.comm.selfPosition_lt
      have hgone := h.meetings.gone id' c' hc' hjoined (by rw [hkey]; exact hentry) _ hplace
      rw [hkey] at hgone
      exact h.slots.not_left hc haccepted hnotLeft hgone
    have hpos : 0 < c.comm.groupSize := Nat.lt_of_le_of_lt (Nat.zero_le _) c.comm.selfPosition_lt
    refine ⟨?_, rfl⟩
    exact {
      size := ⟨c.comm.members, h.slots.handles id c hc, by simp [freshEntry, Communicator.groupSize]⟩
      contributions := by
        intro k p
        constructor
        · intro hk
          have hmem := mem_of_getElem? hk
          simp [freshEntry] at hmem
        · rintro ⟨id', c', hc', hjoined, hkey, -, -⟩
          exact absurd hjoined (hnobody id' c' hc' hkey)
      outputs := by
        simp only [getD_none, freshEntry, true_iff]
        exact mem_replicate.mpr ⟨hpos.ne', rfl⟩
      computed := by
        intro result hresult
        simp [freshEntry] at hresult
      consumed := by
        have hempty : ∀ k, ¬ Left w.calls c.key k := by
          rintro k ⟨id', c', hc', hl, hkey, -⟩
          exact hnobody id' c' hc' hkey (h.slots.joined_of_left hc' hl)
        simp [freshEntry, leftPlaces, hempty]
      unfinished := by simpa [freshEntry] using hpos }

/-- The contributions once a call has joined. -/
def withContribution (w : World) (c : Call) : List (Option RankSegments) :=
  (w.entryFor c).contributions.set c.comm.selfPosition (some c.contribution)

section

variable (h : Inv kernels w) (hc : w.calls.lookup id = some c) (haccepted : c.accepted = true) (hnot : c.joined = false)

include h hc haccepted hnot

/-- The place of a call in the entry is its own and still free. -/
theorem Inv.place_free : (w.entryFor c).contributions[c.comm.selfPosition]? = some none := by
  obtain ⟨hok, -⟩ := h.entryFor_ok hc haccepted hnot
  obtain ⟨members, hmembers, hlength⟩ := hok.size
  have hsame : c.comm.members = members := by
    have hhandle := h.slots.handles id c hc
    exact some.inj (hhandle.symm.trans hmembers)
  have hlt : c.comm.selfPosition < (w.entryFor c).contributions.length := by
    rw [hlength, ← hsame]
    exact c.comm.selfPosition_lt
  rw [getElem?_eq_getElem hlt]
  cases hget : (w.entryFor c).contributions[c.comm.selfPosition] with
  | none => rfl
  | some p =>
    have hsome : (w.entryFor c).contributions[c.comm.selfPosition]? = some (some p) := by
      rw [getElem?_eq_getElem hlt, hget]
    exact absurd ((hok.contributions _ p).mp hsome) (h.slots.not_joined hc haccepted hnot p)

theorem Inv.length_entryFor : (w.entryFor c).contributions.length = c.comm.groupSize := by
  obtain ⟨members, hmembers, hlength⟩ := (h.entryFor_ok hc haccepted hnot).1.size
  have hhandle := h.slots.handles id c hc
  rw [hlength, Communicator.groupSize, some.inj (hhandle.symm.trans hmembers)]

/-- After a call joined, a place holds what its rank contributed. -/
theorem Inv.getElem?_withContribution (k : ℕ) (p : RankSegments) : (w.withContribution c)[k]? = some (some p) ↔
      Joined w.calls c.key k p ∨ c.comm.selfPosition = k ∧ c.contribution = p := by
  have hok := (h.entryFor_ok hc haccepted hnot).1
  unfold withContribution
  rw [getElem?_set]
  split
  case isTrue heq =>
    subst heq
    have hlt : c.comm.selfPosition < (w.entryFor c).contributions.length := by
      rw [h.length_entryFor hc haccepted hnot]
      exact c.comm.selfPosition_lt
    simp only [hlt, if_true, some.injEq, true_and]
    constructor
    · exact .inr
    · rintro (hjoined | heq)
      · exact absurd hjoined (h.slots.not_joined hc haccepted hnot p)
      · exact heq
  case isFalse hne =>
    rw [hok.contributions]
    simp [hne]

/-- **The last rank to join computes outputs for all.** -/
theorem Inv.compute_ok (hall : none ∉ w.withContribution c) :
    ∃ result, c.request.compute kernels c.comm (w.withContribution c).reduceOption = some result ∧
      ∀ outputs, result = .ok outputs → outputs.length = (w.withContribution c).length := by
  have hmap := eq_map_some hall
  have hlength : (w.withContribution c).length = c.comm.groupSize := by
    unfold withContribution
    rw [length_set, h.length_entryFor hc haccepted hnot]
  have hget : ∀ k p, (w.withContribution c).reduceOption[k]? = some p →
      Joined w.calls c.key k p ∨ c.comm.selfPosition = k ∧ c.contribution = p := by
    intro k p hk
    apply (h.getElem?_withContribution hc haccepted hnot k p).mp
    rw [hmap, getElem?_map, hk]
    rfl
  rw [hlength]
  apply Request.compute_total (h.slots.prepared id c hc)
  · intro input hinput
    obtain ⟨k, hk⟩ := getElem?_of_mem hinput
    rcases hget k input hk with ⟨id', c', hc', hjoined, hkey, -, rfl⟩ | ⟨-, rfl⟩
    · have hslot := h.slots.slotOf_eq hc' hc (h.slots.accepted_of_joined hc' hjoined) haccepted hkey
      rw [Request.length_of_prepare (h.slots.prepared id' c' hc'), kind_of_slotOf hslot, Communicator.groupSize,
        Communicator.groupSize, h.slots.members_eq hc' hc hkey]
    · exact Request.length_of_prepare (h.slots.prepared id c hc)
  · have hlen := congrArg length hmap
    rw [length_map, hlength] at hlen
    exact hlen.symm
  · have hown := (h.getElem?_withContribution hc haccepted hnot c.comm.selfPosition c.contribution).mpr
      (.inr ⟨rfl, rfl⟩)
    rw [hmap, getElem?_map] at hown
    obtain ⟨p, hp, heq⟩ := map_eq_some_iff.mp hown
    rw [hp, some.inj heq]

end

/-! ### Leaving -/

/-- The entry of a call that joined and has not left is there. -/
theorem Inv.entry_of_joined (h : Inv kernels w) (hc : w.calls.lookup id = some c) (hjoined : c.joined = true)
    (hnot : c.left = false) : ∃ entry, w.rendezvous.lookup c.key = some entry := by
  cases hentry : w.rendezvous.lookup c.key with
  | some entry => exact ⟨entry, rfl⟩
  | none =>
    have hgone := h.meetings.gone id c hc hjoined hentry _ c.comm.selfPosition_lt
    exact absurd hgone (h.slots.not_left hc (h.slots.accepted_of_joined hc hjoined) hnot)

/-! ### Steps -/

/-- What a call takes along when it leaves. -/
inductive Takes (op : OperationId) (c : Call) : Except CommError (List RankSegments) → Stage → Prop where
  | error (error : CommError) : Takes op c (.error error) (.failing op (.complete error))
  | output {outputs : List RankSegments} {output : RankSegments}
      (houtput : outputs[c.comm.selfPosition]? = some output) : Takes op c (.ok outputs) (received op c output)

/-- A call that leaves panics, fails, or has its buffers. -/
theorem Takes.cases {op : OperationId} {result : Except CommError (List RankSegments)} {stage : Stage}
    (h : Takes op c result stage) :
    stage = .panicked op ∨ (∃ error, stage = .failing op (.complete error)) ∨
      ∃ outputs output buffers, result = .ok outputs ∧ outputs[c.comm.selfPosition]? = some output ∧
        c.request.deliver c.comm output = some (.ok buffers) ∧ stage = .done op buffers := by
  cases h with
  | error error => exact .inr (.inl ⟨error, rfl⟩)
  | @output outputs output houtput =>
    unfold received
    cases hdeliver : c.request.deliver c.comm output with
    | none => exact .inl rfl
    | some delivered =>
      cases delivered with
      | error error => exact .inr (.inl ⟨error, rfl⟩)
      | ok buffers => exact .inr (.inr ⟨outputs, output, buffers, rfl, houtput, hdeliver, rfl⟩)

/-- The steps of a call. -/
inductive Step (kernels : FloatKernels) (w : World) (id : CallId) (c : Call) : World → Prop where
  /-- The call waits for a lock, or has ended. -/
  | idle : Step kernels w id c w
  /-- Only the stage changes, and perhaps who holds the rendezvous lock. -/
  | turn {stage : Stage} (lock : Option CallId) (hop : stage.op? = c.stage.op?)
      (hpending : stage.Pending → c.stage.Pending) (hfits : (c.goto stage).Fits w.sequencer.aborted)
      (hbuffers : stage.buffers? = none)
      (hready : ∀ op, stage = .leaving op → w.hasOutputs c = true ∨ w.sequencer.aborted = true) :
      Step kernels w id c ({ w with lock }.put id (c.goto stage))
  | lease (hstage : c.stage = .checked)
      (hcompatible : ∀ op entry, w.registry.operations.lookup op = some entry →
        RegistryState.Compatible (RegistryState.entryOf (c.request.leases c.comm)) entry) :
      Step kernels w id c ({ w with registry := w.registry.leased (c.request.leases c.comm) }.put id
        (c.goto (.leased w.registry.nextOperation)))
  | accept {op : OperationId} {sequencer : SequencerState} (hstage : c.stage = .leased op)
      (haccepted : Accepted w.sequencer c.slot (slotOf c) sequencer) :
      Step kernels w id c ({ w with sequencer }.put id { c with stage := .submitted op, accepted := true })
  | refuse {op : OperationId} {sequencer : SequencerState} (error : CommError) (hstage : c.stage = .leased op)
      (hinv : sequencer.Inv) (hframe : Frame w.sequencer sequencer)
      (haborted : sequencer.aborted = w.sequencer.aborted) :
      Step kernels w id c ({ w with sequencer }.put id (c.goto (.failing op (.plain error))))
  | join {op : OperationId} {outputs : Option (Except CommError (List RankSegments))}
      (hstage : c.stage = .submitted op) (houtputs : outputsOf kernels c (w.withContribution c) = some outputs) :
      Step kernels w id c ({ w with
        rendezvous := w.rendezvous.insert c.key { w.entryFor c with contributions := w.withContribution c, outputs }
        lock := some id }.put id { c with stage := .checking op, joined := true })
  | leave {op : OperationId} {entry : DataCollectiveState} {result : Except CommError (List RankSegments)}
      {stage : Stage} (hstage : c.stage = .leaving op) (hrun : w.sequencer.aborted = false)
      (hentry : w.rendezvous.lookup c.key = some entry) (hresult : entry.outputs = some result)
      (htakes : Takes op c result stage) :
      Step kernels w id c ({ w with rendezvous := w.countOut c entry, lock := none }.put id
        { c with stage, left := true })
  | release {op : OperationId} {buffers : List Bytes} (hstage : c.stage = .done op buffers) :
      Step kernels w id c ({ w with registry := w.registry.without op }.put id (c.goto (.completing buffers)))
  | beginAbort {op : OperationId} {exit : Exit} {entry : OperationEntry} (hstage : c.stage = .failing op exit)
      (hentry : w.registry.operations.lookup op = some entry) :
      Step kernels w id c ({ w with registry := w.registry.withEntry op { entry with state := .aborting } }.put id
        (c.goto (.quiescing op exit)))
  | quiesce {op : OperationId} {exit : Exit} (hstage : c.stage = .quiescing op exit) :
      Step kernels w id c ({ w with registry := w.registry.without op }.put id (c.goto (.exiting exit)))
  | complete {sequencer : SequencerState} {result : Except CommError (List Bytes)}
      (hstage : (∃ buffers, c.stage = .completing buffers ∧ result = .ok buffers) ∨
        ∃ error, c.stage = .exiting (.complete error) ∧ result = .error error)
      (hinv : sequencer.Inv) (hcompleted : Completed w.sequencer c.slot sequencer) :
      Step kernels w id c ({ w with sequencer }.put id (c.goto (.returned result)))

section

variable (h : Inv kernels w) (hc : w.calls.lookup id = some c)

include h hc

/-- The entry's outputs after a call has joined. -/
theorem Inv.outputs_before_join (haccepted : c.accepted = true)
    (hnot : c.joined = false) : (w.entryFor c).outputs = none := by
  rw [(h.entryFor_ok hc haccepted hnot).1.outputs]
  exact mem_of_getElem? (h.place_free hc haccepted hnot)

theorem Inv.contribute_step {op : OperationId}
    (hstage : c.stage = .submitted op) : Step kernels w id c (w.contribute kernels id op c) := by
  have hfits := h.slots.fits id c hc
  simp only [Call.Fits, hstage] at hfits
  obtain ⟨haccepted, hnot, -⟩ := hfits
  have hsignature := (h.entryFor_ok hc haccepted hnot).2
  have hfree := h.place_free hc haccepted hnot
  obtain ⟨outputs, houtputs⟩ : ∃ outputs, outputsOf kernels c (w.withContribution c) = some outputs := by
    unfold outputsOf
    split
    · exact ⟨none, rfl⟩
    case isFalse hall =>
      obtain ⟨result, hresult, -⟩ := h.compute_ok hc haccepted hnot hall
      exact ⟨some result, by rw [hresult]; rfl⟩
  have hstep : Step kernels w id c _ := .join hstage houtputs
  have hor : outputs.or (w.entryFor c).outputs = outputs := by
    rw [h.outputs_before_join hc haccepted hnot]
    simp
  simp only [withContribution] at houtputs
  simp only [contribute, if_neg (not_not.mpr hsignature), if_neg (not_not.mpr hfree), houtputs, hor]
  exact hstep

theorem Inv.consume_step {op : OperationId} (hstage : c.stage = .leaving op) (hrun : w.sequencer.aborted = false) :
    Step kernels w id c (w.consume id op c) := by
  have hfits := h.slots.fits id c hc
  simp only [Call.Fits, hstage] at hfits
  obtain ⟨haccepted, hjoined, hnot⟩ := hfits
  obtain ⟨entry, hentry⟩ := h.entry_of_joined hc hjoined hnot
  have hok := h.meetings.entries c.key entry hentry
  obtain ⟨result, hresult⟩ : ∃ result, entry.outputs = some result := by
    rcases h.meetings.ready id c op hc hstage with hready | haborted
    · simpa [hasOutputs, hentry, isSome_iff_exists] using hready
    · cases hrun.symm.trans haborted
  unfold consume
  rw [hentry]
  simp only [hresult]
  cases result with
  | error error => exact .leave hstage hrun hentry hresult (.error error)
  | ok outputs =>
    obtain ⟨id', c', hc', -, hkey, -, hlength⟩ := hok.computed _ hresult
    obtain ⟨members, hmembers, hsize⟩ := hok.size
    have hhandle := h.slots.handles id c hc
    have hlt : c.comm.selfPosition < outputs.length := by
      rw [hlength outputs rfl, hsize, ← some.inj (hhandle.symm.trans hmembers)]
      exact c.comm.selfPosition_lt
    simp only [getElem?_eq_getElem hlt]
    exact .leave hstage hrun hentry hresult (.output (getElem?_eq_getElem hlt))

/-- The registry's entry of the operation a call holds. -/
theorem Inv.operation {op : OperationId} {state : OpState} (hop : c.stage.op? = some (op, state)) :
    ∃ entry, w.registry.operations.lookup op = some entry ∧ entry.state = state :=
  h.leases.held id op state (by rw [holds, hc]; exact hop)

omit h hc in
/-- A call that was never accepted returns an error. -/
theorem Step.plain (error : CommError) (hop : c.stage.op? = none)
    (hfits : c.accepted = false ∧ c.joined = false ∧ c.left = false) :
    Step kernels w id c (w.put id (c.goto (.returned (.error error)))) :=
  .turn w.lock hop.symm False.elim (.inl ⟨hfits.1, hfits.2.1, hfits.2.2, rfl⟩) rfl nofun

/-- **A call makes one of these steps.** -/
theorem Inv.advance_step : Step kernels w id c (w.advance kernels id c) := by
  have hfits := h.slots.fits id c hc
  have hpending := h.slots.pending id c hc
  unfold Call.Fits at hfits
  unfold advance
  cases hstage : c.stage with
  | start =>
    rw [hstage] at hfits
    cases w.aborted with
    | some cause => exact .plain _ (by rw [hstage]; rfl) hfits
    | none => exact .turn w.lock (by rw [hstage]; rfl) False.elim hfits rfl nofun
  | checked =>
    rw [hstage] at hfits
    rcases (RegistryState.submit_ensures w.registry (c.request.leases c.comm)).outcome with
      ⟨op, registry, hsubmit, rfl, rfl, hcompatible⟩ | ⟨error, registry, hsubmit, rfl⟩ <;> rw [hsubmit]
    · exact .lease hstage hcompatible
    · exact .plain _ (by rw [hstage]; rfl) hfits
  | leased op =>
    rcases (h.slots.sequencer.submit_accepted c.slot c.request.kind c.request.signature).outcome with
      ⟨_, sequencer, hsubmit, hspec⟩ | ⟨error, sequencer, hsubmit, hspec⟩ <;> erw [hsubmit]
    · exact .accept hstage hspec
    · exact .refuse error hstage hspec.1 hspec.2.1 hspec.2.2
  | submitted op =>
    dsimp only
    split
    · exact .idle
    · exact h.contribute_step hc hstage
  | checking op =>
    rw [hstage] at hfits
    dsimp only
    split
    · exact .turn none (by rw [hstage]; rfl) (fun _ => by rw [hstage]; trivial) hfits rfl nofun
    case isFalse hready =>
      refine .turn w.lock (by rw [hstage]; rfl) (fun _ => by rw [hstage]; trivial) hfits rfl fun _ _ => ?_
      cases houtputs : w.hasOutputs c with
      | true => exact .inl rfl
      | false =>
        cases haborted : w.sequencer.aborted with
        | true => exact .inr rfl
        | false => exact absurd ⟨houtputs, haborted⟩ hready
  | waiting op =>
    rw [hstage] at hfits
    dsimp only
    split
    · exact .idle
    · exact .turn (some id) (by rw [hstage]; rfl) (fun _ => by rw [hstage]; trivial) hfits rfl nofun
  | leaving op =>
    rw [hstage] at hfits
    dsimp only
    split
    case isTrue haborted =>
      exact .turn none (by rw [hstage]; rfl) False.elim ⟨hfits.1, hfits.2.1, hfits.2.2, haborted⟩ rfl nofun
    case isFalse hrun => exact h.consume_step hc hstage (by simpa using hrun)
  | done op buffers =>
    obtain ⟨entry, hentry, hstate⟩ := h.operation hc (by rw [hstage]; rfl)
    dsimp only
    rw [show OwnershipRegistry.completeSuccess op w.registry = .ok ⟨⟩ (w.registry.without op) from
      RegistryState.retire_eq hentry hstate]
    exact .release hstage
  | completing buffers =>
    rw [hstage] at hpending
    rcases (h.slots.sequencer.complete_completed c.slot true).outcome with
      ⟨_, sequencer, hcomplete, hspec⟩ | ⟨error, sequencer, hcomplete, -, -, hactive, hrun⟩ <;> erw [hcomplete]
    · exact .complete (.inl ⟨buffers, hstage, rfl⟩) hspec.1 hspec.2
    · rcases hpending trivial with hin | haborted
      · exact absurd hin hactive
      · cases hrun.symm.trans haborted
  | failing op exit =>
    obtain ⟨entry, hentry, hstate⟩ := h.operation hc (by rw [hstage]; rfl)
    dsimp only
    rw [RegistryState.beginAbort_eq hentry hstate]
    exact .beginAbort hstage hentry
  | quiescing op exit =>
    obtain ⟨entry, hentry, hstate⟩ := h.operation hc (by rw [hstage]; rfl)
    have hquiesce : final (OwnershipRegistry.quiesceAbort op) w.registry = w.registry.without op := by
      unfold final
      rw [show OwnershipRegistry.quiesceAbort op w.registry = .ok ⟨⟩ (w.registry.without op) from
        RegistryState.retire_eq hentry hstate]
    dsimp only
    rw [hquiesce]
    exact .quiesce hstage
  | exiting exit =>
    rw [hstage] at hfits
    cases exit with
    | plain error => exact .plain _ (by rw [hstage]; rfl) hfits
    | cause =>
      obtain ⟨haccepted, hjoined, hleft, haborted⟩ := hfits
      exact .turn w.lock (by rw [hstage]; rfl) False.elim
        (.inr (.inr ⟨haccepted, hjoined, hleft, haborted, rfl⟩)) rfl nofun
    | complete error =>
      have hspec := (h.slots.sequencer.complete_completed c.slot false).mono (fun _ _ h => h)
        fun _ _ h => (⟨h.1, h.2.1⟩ : _ ∧ _)
      exact .complete (.inr ⟨error, hstage, rfl⟩) hspec.final.1 hspec.final.2
  | returned | panicked => exact .idle

end

end World

end OnnxGenai.Comm
