import OnnxGenai.Comm.RendezvousLeases

/-!
# The rendezvous map

Every step of a call keeps `Meetings`. Two steps touch the map: a call that joins puts its
contribution into the entry of its instance (`meetings_join`), and a call that leaves counts itself
out (`meetings_leave`). For all other instances, and for all other steps, the same calls have joined
and left as before (`SameAt`).
-/

namespace OnnxGenai.Comm

open Lib SequencerState List Option FiniteMap AList

namespace World

variable {kernels : FloatKernels} {w w' : World} {id : CallId} {c c' : Call}

/-! ### Meetings -/

/-- A call that has joined at an instance is as `P` says. -/
abbrev Attended (calls : FiniteMap CallId Call) (key : CollectiveKey)
    (P : Communicator → Request → RankSegments → Prop) : Prop :=
  ∃ id c, calls.lookup id = some c ∧ c.joined = true ∧ c.key = key ∧ P c.comm c.request c.contribution

/-- The groups keep their members. -/
abbrev KeepsMembers (w w' : World) : Prop :=
  ∀ group members, (w.sequencer.groups.lookup group).map GroupState.members = some members →
    (w'.sequencer.groups.lookup group).map GroupState.members = some members

/-- At an instance the same calls have joined and left. -/
structure SameAt (calls calls' : FiniteMap CallId Call) (key : CollectiveKey) : Prop where
  joined : ∀ P : Communicator → Request → RankSegments → Prop,
    (∃ id c, calls'.lookup id = some c ∧ c.joined = true ∧ c.key = key ∧ P c.comm c.request c.contribution) ↔
      ∃ id c, calls.lookup id = some c ∧ c.joined = true ∧ c.key = key ∧ P c.comm c.request c.contribution
  left : ∀ k, Left calls' key k ↔ Left calls key k

theorem attended_insert {calls : FiniteMap CallId Call} (hc : calls.lookup id = some c) (hargs : SameArgs c c')
    (hjoined : c'.joined = c.joined) (key : CollectiveKey) (P : Communicator → Request → RankSegments → Prop) :
    Attended (calls.insert id c') key P ↔ Attended calls key P := by
  apply exists_insert_of_iff hc
  rw [hjoined, hargs.key, hargs.comm, hargs.request, hargs.contribution]

/-- An entry that agreed still agrees, with those that have left by now. -/
theorem EntryOk.recount {key : CollectiveKey} {entry : DataCollectiveState} (hok : EntryOk kernels w key entry)
    (hmembers : KeepsMembers w w') (hsame : ∀ P, Attended w'.calls key P ↔ Attended w.calls key P) {consumed : ℕ}
    (hconsumed : consumed = (leftPlaces w'.calls key entry.contributions.length).card)
    (hunfinished : consumed < entry.contributions.length) : EntryOk kernels w' key { entry with consumed } where
  size := by
    obtain ⟨members, hm, hlength⟩ := hok.size
    exact ⟨members, hmembers _ _ hm, hlength⟩
  contributions := fun k p => (hok.contributions k p).trans
    (hsame fun comm _ contribution => comm.selfPosition = k ∧ contribution = p).symm
  outputs := hok.outputs
  computed := fun result hresult => (hsame fun comm request _ =>
    request.compute kernels comm entry.contributions.reduceOption = some result ∧
      ∀ outputs, result = .ok outputs → outputs.length = entry.contributions.length).mpr (hok.computed result hresult)
  consumed := hconsumed
  unfinished := hunfinished

namespace SameAt

variable {calls calls' : FiniteMap CallId Call} {key : CollectiveKey}

theorem refl (calls : FiniteMap CallId Call) (key : CollectiveKey) : SameAt calls calls key :=
  ⟨fun _ => Iff.rfl, fun _ => Iff.rfl⟩

theorem insert (hc : calls.lookup id = some c) (hargs : SameArgs c c') (hjoined : c'.joined = c.joined)
    (hleft : c'.left = c.left) (key : CollectiveKey) : SameAt calls (calls.insert id c') key := by
  refine ⟨attended_insert hc hargs hjoined key, fun k => ?_⟩
  apply exists_insert_of_iff hc
  rw [hleft, hargs.key, hargs.comm]

theorem insert_other (hc : calls.lookup id = some c) (hargs : SameArgs c c') (hkey : c.key ≠ key) :
    SameAt calls (calls.insert id c') key := by
  have hkey' : c'.key ≠ key := by rw [hargs.key]; exact hkey
  constructor
  · intro P
    apply exists_insert_of_iff hc
    simp [hkey, hkey']
  · intro k
    apply exists_insert_of_iff hc
    simp [hkey, hkey']

theorem insert_new (hnone : calls.lookup id = none) (hjoined : c'.joined = false) (hleft : c'.left = false)
    (key : CollectiveKey) : SameAt calls (calls.insert id c') key := by
  constructor
  · intro P
    apply exists_insert_of_not hnone
    simp [hjoined]
  · intro k
    apply exists_insert_of_not hnone
    simp [hleft]

theorem leftPlaces_eq (h : SameAt calls calls' key) (n : ℕ) : leftPlaces calls' key n = leftPlaces calls key n := by
  ext k
  rw [mem_leftPlaces, mem_leftPlaces, h.left]

/-- An entry that agreed still agrees. -/
theorem entryOk (h : SameAt w.calls w'.calls key)
    (hmembers : KeepsMembers w w') {entry : DataCollectiveState} (hok : EntryOk kernels w key entry) :
    EntryOk kernels w' key entry :=
  hok.recount hmembers h.joined (by rw [h.leftPlaces_eq, hok.consumed]) hok.unfinished

/-- An instance whose entry is gone is still one whose ranks have all left. -/
theorem gone {d : Call} (h : SameAt w.calls w'.calls d.key) (hlookup : w'.rendezvous.lookup d.key = w.rendezvous.lookup d.key)
    (hmeetings : Meetings kernels w) (hd : w'.calls.lookup id = some d) (hjoined : d.joined = true)
    (hnone : w'.rendezvous.lookup d.key = none) (k : ℕ) (hk : k < d.comm.groupSize) : Left w'.calls d.key k := by
  obtain ⟨id', d', hd', hjoined', hkey, hsize⟩ :=
    (h.joined fun comm _ _ => comm.groupSize = d.comm.groupSize).mp ⟨id, d, hd, hjoined, rfl, rfl⟩
  rw [h.left, ← hkey]
  rw [hlookup, ← hkey] at hnone
  exact hmeetings.gone id' d' hd' hjoined' hnone k (hsize ▸ hk)

/-- How a call got its buffers stays as it was. -/
theorem outcome (hjoined : ∀ P, Attended calls c.key P → Attended calls' c.key P) {buffers : List Bytes} (ho : Outcome kernels calls c buffers) : Outcome kernels calls' c buffers := by
  obtain ⟨inputs, hlength, hinputs, hd⟩ := ho
  refine ⟨inputs, hlength, fun k p hk => ?_, ?_⟩
  · exact hjoined (fun comm _ contribution => comm.selfPosition = k ∧ contribution = p) (hinputs k p hk)
  · exact hjoined (fun comm request _ => ∃ outputs output, request.compute kernels comm inputs = some (.ok outputs) ∧
      outputs[c.comm.selfPosition]? = some output ∧ c.request.deliver c.comm output = some (.ok buffers)) hd

end SameAt

theorem Outcome.args (hargs : SameArgs c c') {calls : FiniteMap CallId Call} {buffers : List Bytes}
    (h : Outcome kernels calls c buffers) : Outcome kernels calls c' buffers := by
  unfold Outcome
  rw [hargs.key, hargs.comm, hargs.request]
  exact h

theorem hasOutputs_congr (hrendezvous : w'.rendezvous = w.rendezvous) (hkey : c'.key = c.key) :
    w'.hasOutputs c' = w.hasOutputs c := by
  unfold hasOutputs
  rw [hrendezvous, hkey]

namespace Meetings

/-- The map and the roster stay the same; what the stages promise is given. -/
theorem same (h : Meetings kernels w) (hrendezvous : w'.rendezvous = w.rendezvous)
    (hsame : ∀ key, SameAt w.calls w'.calls key) (hmembers : KeepsMembers w w')
    (hready : ∀ id c op, w'.calls.lookup id = some c → c.stage = .leaving op →
      w.hasOutputs c = true ∨ w'.sequencer.aborted = true)
    (houtcomes : ∀ id c buffers, w'.calls.lookup id = some c → c.stage.buffers? = some buffers →
      Outcome kernels w.calls c buffers) : Meetings kernels w' where
  entries := by
    rw [hrendezvous]
    intro key entry hentry
    exact (hsame key).entryOk hmembers (h.entries key entry hentry)
  signatures := by
    rw [hrendezvous]
    intro key entry hentry
    exact ((hsame key).joined fun _ request _ => request.signature = entry.signature).mpr
      (h.signatures key entry hentry)
  gone := by
    intro j d hd hjoined hnone k hk
    exact (hsame d.key).gone (by rw [hrendezvous]) h hd hjoined hnone k hk
  ready := by
    intro j d op hd hstage
    rw [hasOutputs_congr hrendezvous rfl]
    exact hready j d op hd hstage
  outcomes := by
    intro j d buffers hd hbuffers
    exact SameAt.outcome (fun P => ((hsame d.key).joined P).mpr) (houtcomes j d buffers hd hbuffers)

/-- A call that neither joins nor leaves. -/
theorem put (h : Meetings kernels w) (hc : w.calls.lookup id = some c) (hrendezvous : w'.rendezvous = w.rendezvous)
    (hcalls : w'.calls = w.calls.insert id c') (hargs : SameArgs c c') (hjoined : c'.joined = c.joined)
    (hleft : c'.left = c.left) (hmembers : KeepsMembers w w')
    (haborted : w.sequencer.aborted = true → w'.sequencer.aborted = true)
    (hready : ∀ op, c'.stage = .leaving op → w.hasOutputs c = true ∨ w'.sequencer.aborted = true)
    (houtcome : ∀ buffers, c'.stage.buffers? = some buffers → c.stage.buffers? = some buffers) :
    Meetings kernels w' := by
  apply h.same hrendezvous
  · rw [hcalls]
    exact SameAt.insert hc hargs hjoined hleft
  · exact hmembers
  · rw [hcalls]
    intro j d op hd
    revert hd
    revert j d
    apply forall_insert
    · intro hstage
      rw [hasOutputs_congr rfl hargs.key]
      exact hready op hstage
    · intro j d _ hd hstage
      rcases h.ready j d op hd hstage with hhas | habort
      · exact .inl hhas
      · exact .inr (haborted habort)
  · rw [hcalls]
    intro j d buffers hd
    revert hd
    revert j d
    apply forall_insert
    · intro hbuffers
      exact (h.outcomes id c buffers hc (houtcome buffers hbuffers)).args hargs
    · exact fun j d _ hd => h.outcomes j d buffers hd

/-- A call that joins or leaves changes the entry of its own instance only: the other instances keep
what they had, and what is to be shown is about the calls at this one. -/
theorem atInstance (h : Meetings kernels w) (hc : w.calls.lookup id = some c) (hargs : SameArgs c c')
    (hcalls : w'.calls = w.calls.insert id c') (hsequencer : w'.sequencer = w.sequencer)
    (hlookup : ∀ key, c.key ≠ key → w'.rendezvous.lookup key = w.rendezvous.lookup key)
    (hentries : ∀ entry, w'.rendezvous.lookup c.key = some entry → EntryOk kernels w' c.key entry ∧
      Attended w'.calls c.key fun _ request _ => request.signature = entry.signature)
    (hgone : ∀ j d, w'.calls.lookup j = some d → d.joined = true → c.key = d.key →
      w'.rendezvous.lookup c.key = none → ∀ k < d.comm.groupSize, Left w'.calls c.key k)
    (hstage : ∀ op, c'.stage ≠ .leaving op)
    (hready : ∀ j d op, j ≠ id → w.calls.lookup j = some d → d.stage = .leaving op → c.key = d.key →
      w.hasOutputs d = true → w'.hasOutputs d = true)
    (hmore : ∀ P, Attended w.calls c.key P → Attended w'.calls c.key P)
    (houtcome : ∀ buffers, c'.stage.buffers? = some buffers → Outcome kernels w.calls c buffers) :
    Meetings kernels w' := by
  have hother : ∀ key, c.key ≠ key → SameAt w.calls w'.calls key := by
    intro key hkey
    rw [hcalls]
    exact SameAt.insert_other hc hargs hkey
  constructor
  · intro key entry hentry
    by_cases hkey : c.key = key
    · subst hkey
      exact (hentries entry hentry).1
    · rw [hlookup key hkey] at hentry
      exact (hother key hkey).entryOk (fun _ _ hmembers => hsequencer ▸ hmembers) (h.entries key entry hentry)
  · intro key entry hentry
    by_cases hkey : c.key = key
    · subst hkey
      exact (hentries entry hentry).2
    · rw [hlookup key hkey] at hentry
      exact ((hother key hkey).joined fun _ request _ => request.signature = entry.signature).mpr
        (h.signatures key entry hentry)
  · intro j d hd hjoined hnone k hk
    by_cases hkey : c.key = d.key
    · rw [← hkey] at hnone ⊢
      exact hgone j d hd hjoined hkey hnone k hk
    · exact (hother d.key hkey).gone (hlookup d.key hkey) h hd hjoined hnone k hk
  · intro j d op hd hleaving
    rw [hsequencer]
    rw [hcalls, lookup_insert'] at hd
    split at hd
    · cases hd
      exact absurd hleaving (hstage op)
    case isFalse hne =>
      refine (h.ready j d op hd hleaving).imp_left fun hhas => ?_
      by_cases hkey : c.key = d.key
      · exact hready j d op hne hd hleaving hkey hhas
      · unfold hasOutputs at hhas ⊢
        rwa [hlookup d.key hkey]
  · intro j d buffers hd hbuffers
    have hmore : ∀ P, Attended w.calls d.key P → Attended w'.calls d.key P := fun P hP =>
      if hkey : c.key = d.key then hkey ▸ hmore P (hkey ▸ hP) else ((hother d.key hkey).joined P).mpr hP
    apply SameAt.outcome hmore
    rw [hcalls, lookup_insert'] at hd
    split at hd
    · cases hd
      exact (houtcome buffers hbuffers).args hargs
    · exact h.outcomes j d buffers hd hbuffers

end Meetings

/-! ### Joining -/

/-- Who has joined at an instance once a call has joined there. -/
theorem joined_insert (hc : w.calls.lookup id = some c) (hargs : SameArgs c c') (hnot : c.joined = false)
    (hjoined : c'.joined = true) (P : Communicator → Request → RankSegments → Prop) :
    Attended (w.calls.insert id c') c.key P ↔
      P c.comm c.request c.contribution ∨ Attended w.calls c.key P := by
  unfold Attended
  rw [exists_insert_of_imp hc fun h => absurd (hnot.symm.trans h.1) (by simp)]
  rw [hjoined, hargs.key, hargs.comm, hargs.request, hargs.contribution]
  simp

section

variable (h : Inv kernels w) (hc : w.calls.lookup id = some c)

include h hc

/-- The entry after a call has joined agrees with the calls. -/
theorem Inv.entryOk_join (haccepted : c.accepted = true) (hnot : c.joined = false)
    {outputs : Option (Except CommError (List RankSegments))}
    (houtputs : outputsOf kernels c (w.withContribution c) = some outputs) (hargs : SameArgs c c')
    (hjoined : c'.joined = true) (hleft : c'.left = c.left) (hcalls : w'.calls = w.calls.insert id c')
    (hsequencer : w'.sequencer = w.sequencer) :
    EntryOk kernels w' c.key { w.entryFor c with contributions := w.withContribution c, outputs } := by
  have hok := (h.entryFor_ok hc haccepted hnot).1
  have hlength : (w.withContribution c).length = (w.entryFor c).contributions.length := by
    unfold withContribution
    rw [length_set]
  have hleftIff : ∀ k, Left w'.calls c.key k ↔ Left w.calls c.key k := by
    intro k
    rw [hcalls]
    apply exists_insert_of_iff hc
    rw [hleft, hargs.key, hargs.comm]
  have hplaces : leftPlaces w'.calls c.key (w.withContribution c).length =
      leftPlaces w.calls c.key (w.entryFor c).contributions.length := by
    ext k
    rw [mem_leftPlaces, mem_leftPlaces, hleftIff, hlength]
  exact {
    size := by
      obtain ⟨members, hmembers, hsize⟩ := hok.size
      exact ⟨members, by rw [hsequencer]; exact hmembers, hlength.trans hsize⟩
    contributions := by
      intro k p
      rw [h.getElem?_withContribution hc haccepted hnot, hcalls]
      have hjoin := joined_insert hc hargs hnot hjoined fun comm _ contribution =>
        comm.selfPosition = k ∧ contribution = p
      exact (or_comm.trans hjoin.symm)
    outputs := by
      unfold outputsOf at houtputs
      split at houtputs
      case isTrue hnone =>
        cases houtputs
        exact iff_of_true rfl hnone
      case isFalse hall =>
        obtain ⟨result, -, rfl⟩ := map_eq_some_iff.mp houtputs
        exact iff_of_false (by simp) hall
    computed := by
      intro result hresult
      dsimp only at hresult
      unfold outputsOf at houtputs
      split at houtputs
      case isTrue =>
        cases houtputs
        cases hresult
      case isFalse hall =>
        obtain ⟨result', hresult', hlen⟩ := h.compute_ok hc haccepted hnot hall
        rw [hresult'] at houtputs
        obtain rfl : result' = result := by simpa [hresult] using houtputs
        refine ⟨id, c', by rw [hcalls, lookup_insert], hjoined, hargs.key, ?_, hlen⟩
        rw [hargs.request, hargs.comm]
        exact hresult'
    consumed := by
      rw [hplaces]
      exact hok.consumed
    unfinished := by
      rw [hlength]
      exact hok.unfinished }

/-- There are no outputs while a rank has not joined. -/
theorem Inv.hasOutputs_eq_false (haccepted : c.accepted = true)
    (hnot : c.joined = false) {d : Call} (hkey : d.key = c.key) : w.hasOutputs d = false := by
  have houtputs := h.outputs_before_join hc haccepted hnot
  unfold entryFor at houtputs
  unfold hasOutputs
  rw [hkey]
  cases hentry : w.rendezvous.lookup c.key with
  | none => rfl
  | some entry =>
    rw [hentry, getD_some] at houtputs
    rw [bind_some, houtputs]
    rfl

/-- A call joins. -/
theorem Inv.meetings_join (hstage : ∃ op, c.stage = .submitted op)
    {outputs : Option (Except CommError (List RankSegments))}
    (houtputs : outputsOf kernels c (w.withContribution c) = some outputs) (hargs : SameArgs c c')
    (hjoined : c'.joined = true) (hleft : c'.left = c.left) (hstage' : ∃ op, c'.stage = .checking op)
    (hcalls : w'.calls = w.calls.insert id c') (hsequencer : w'.sequencer = w.sequencer)
    (hrendezvous : w'.rendezvous = w.rendezvous.insert c.key
      { w.entryFor c with contributions := w.withContribution c, outputs }) : Meetings kernels w' := by
  obtain ⟨op, hstage⟩ := hstage
  obtain ⟨op', hstage'⟩ := hstage'
  have hfits := h.slots.fits id c hc
  simp only [Call.Fits, hstage] at hfits
  obtain ⟨haccepted, hnot, -⟩ := hfits
  have hown : w'.rendezvous.lookup c.key = some { w.entryFor c with contributions := w.withContribution c, outputs } := by
    rw [hrendezvous, lookup_insert]
  refine h.meetings.atInstance hc hargs hcalls hsequencer ?_ ?_ ?_ ?_ ?_ ?_ ?_
  · intro key hkey
    rw [hrendezvous, lookup_insert_ne (Ne.symm hkey)]
  · intro entry hentry
    cases hown.symm.trans hentry
    refine ⟨h.entryOk_join hc haccepted hnot houtputs hargs hjoined hleft hcalls hsequencer,
      id, c', by rw [hcalls, lookup_insert], hjoined, hargs.key, ?_⟩
    rw [hargs.request]
    exact (h.entryFor_ok hc haccepted hnot).2.symm
  · intro j d _ _ _ hnone
    cases hown.symm.trans hnone
  · intro op hleaving
    cases hstage'.symm.trans hleaving
  · intro j d op _ _ _ hkey hhas
    have hnone := h.hasOutputs_eq_false hc haccepted hnot hkey.symm
    cases hnone.symm.trans hhas
  · intro P hP
    rw [hcalls]
    exact (joined_insert hc hargs hnot hjoined P).mpr (.inr hP)
  · intro buffers hbuffers
    rw [hstage'] at hbuffers
    exact absurd hbuffers (by simp [Stage.buffers?])

end

/-! ### Leaving -/

section Leaving

variable {entry : DataCollectiveState}

theorem lookup_countOut : (w.countOut c entry).lookup c.key =
    if entry.consumed + 1 = c.comm.groupSize then none else some { entry with consumed := entry.consumed + 1 } := by
  unfold countOut
  split <;> simp

/-- Who has left at an instance once a call has left there. -/
theorem left_insert (hc : w.calls.lookup id = some c) (hargs : SameArgs c c') (hnot : c.left = false)
    (hleft : c'.left = true) (k : ℕ) :
    Left (w.calls.insert id c') c.key k ↔ c.comm.selfPosition = k ∨ Left w.calls c.key k := by
  unfold Left
  rw [exists_insert_of_imp hc fun h => absurd (hnot.symm.trans h.1) (by simp)]
  rw [hleft, hargs.key, hargs.comm]
  simp

section

variable (h : Inv kernels w) (hc : w.calls.lookup id = some c)

include h hc

/-- One place more has left. -/
theorem Inv.card_leftPlaces_insert (hjoined : c.joined = true)
    (hnot : c.left = false) (hargs : SameArgs c c') (hleft : c'.left = true) {n : ℕ} (hn : c.comm.groupSize = n) :
    (leftPlaces (w.calls.insert id c') c.key n).card = (leftPlaces w.calls c.key n).card + 1 := by
  have hnew : c.comm.selfPosition ∉ leftPlaces w.calls c.key n := by
    rw [mem_leftPlaces]
    exact fun hmem => h.slots.not_left hc (h.slots.accepted_of_joined hc hjoined) hnot hmem.2
  rw [← Finset.card_insert_of_notMem hnew]
  congr 1
  ext k
  rw [Finset.mem_insert, mem_leftPlaces, mem_leftPlaces, left_insert hc hargs hnot hleft]
  constructor
  · rintro ⟨hk, rfl | hl⟩
    · exact .inl rfl
    · exact .inr ⟨hk, hl⟩
  · rintro (rfl | ⟨hk, hl⟩)
    · exact ⟨hn ▸ c.comm.selfPosition_lt, .inl rfl⟩
    · exact ⟨hk, .inr hl⟩

/-- The length of the entry of a call. -/
theorem Inv.length_entry (hentry : w.rendezvous.lookup c.key = some entry) : c.comm.groupSize = entry.contributions.length := by
  obtain ⟨members, hmembers, hsize⟩ := (h.meetings.entries c.key entry hentry).size
  have hhandle := h.slots.handles id c hc
  rw [hsize, Communicator.groupSize, some.inj (hhandle.symm.trans hmembers)]

/-- A call that leaves with its buffers has the output of all contributions. -/
theorem Inv.outcome_leave (hentry : w.rendezvous.lookup c.key = some entry) {outputs : List RankSegments}
    (hresult : entry.outputs = some (.ok outputs)) {output : RankSegments}
    (houtput : outputs[c.comm.selfPosition]? = some output) {buffers : List Bytes}
    (hdeliver : c.request.deliver c.comm output = some (.ok buffers)) : Outcome kernels w.calls c buffers := by
  have hok := h.meetings.entries c.key entry hentry
  have hall : none ∉ entry.contributions := by
    intro hnone
    cases (hok.outputs.mpr hnone).symm.trans hresult
  have hmap := eq_map_some hall
  refine ⟨entry.contributions.reduceOption, ?_, ?_, ?_⟩
  · have hlength := congrArg length hmap
    rw [length_map] at hlength
    rw [h.length_entry hc hentry, ← hlength]
  · intro k p hk
    apply (hok.contributions k p).mp
    rw [hmap, getElem?_map, hk]
    rfl
  · obtain ⟨j, d, hd, hjoined, hkey, hcompute, -⟩ := hok.computed _ hresult
    exact ⟨j, d, hd, hjoined, hkey, outputs, output, hcompute, houtput, hdeliver⟩

/-- When the last one leaves, everybody has left. -/
theorem Inv.left_of_last (hjoined : c.joined = true)
    (hnot : c.left = false) (hargs : SameArgs c c') (hleft : c'.left = true)
    (hentry : w.rendezvous.lookup c.key = some entry) (hlast : entry.consumed + 1 = c.comm.groupSize) (k : ℕ)
    (hk : k < c.comm.groupSize) : Left (w.calls.insert id c') c.key k := by
  have hlength := h.length_entry hc hentry
  have hconsumed := (h.meetings.entries c.key entry hentry).consumed
  have hcard := h.card_leftPlaces_insert hc hjoined hnot hargs hleft hlength
  have hsub : leftPlaces (w.calls.insert id c') c.key entry.contributions.length ⊆
      Finset.range entry.contributions.length := by
    intro place hplace
    rw [Finset.mem_range]
    exact ((mem_leftPlaces ..).mp hplace).1
  have hfull := Finset.eq_of_subset_of_card_le hsub (by rw [Finset.card_range, hcard, ← hconsumed]; omega)
  have hmem : k ∈ leftPlaces (w.calls.insert id c') c.key entry.contributions.length := by
    rw [hfull, Finset.mem_range, ← hlength]
    exact hk
  exact ((mem_leftPlaces ..).mp hmem).2

/-- A call leaves. -/
theorem Inv.meetings_leave {op : OperationId}
    (hstage : c.stage = .leaving op) (hentry : w.rendezvous.lookup c.key = some entry)
    {result : Except CommError (List RankSegments)} (hresult : entry.outputs = some result)
    (hargs : SameArgs c c') (hjoined' : c'.joined = c.joined) (hleft : c'.left = true)
    (htakes : Takes op c result c'.stage) (hcalls : w'.calls = w.calls.insert id c')
    (hsequencer : w'.sequencer = w.sequencer) (hrendezvous : w'.rendezvous = w.countOut c entry) :
    Meetings kernels w' := by
  have hfits := h.slots.fits id c hc
  simp only [Call.Fits, hstage] at hfits
  obtain ⟨haccepted, hjoined, hnot⟩ := hfits
  have hok := h.meetings.entries c.key entry hentry
  have hlength := h.length_entry hc hentry
  have hunfinished := hok.unfinished
  have hsame : ∀ key P, Attended w'.calls key P ↔ Attended w.calls key P := by
    rw [hcalls]
    exact attended_insert hc hargs hjoined'
  have hown : ∀ found, w'.rendezvous.lookup c.key = some found →
      entry.consumed + 1 < entry.contributions.length ∧ found = { entry with consumed := entry.consumed + 1 } := by
    intro found hfound
    rw [hrendezvous, lookup_countOut] at hfound
    split at hfound
    · cases hfound
    case isFalse hne => exact ⟨by omega, (some.inj hfound).symm⟩
  have hgone : w'.rendezvous.lookup c.key = none → ∀ k < c.comm.groupSize, Left w'.calls c.key k := by
    intro hnone k hk
    rw [hrendezvous, lookup_countOut] at hnone
    split at hnone
    case isTrue hlast =>
      rw [hcalls]
      exact h.left_of_last hc hjoined hnot hargs hleft hentry hlast k hk
    case isFalse => cases hnone
  refine h.meetings.atInstance hc hargs hcalls hsequencer ?_ ?_ ?_ ?_ ?_ ?_ ?_
  · intro key hkey
    rw [hrendezvous]
    unfold countOut
    split
    · exact lookup_erase_ne (Ne.symm hkey)
    · exact lookup_insert_ne (Ne.symm hkey)
  · intro found hfound
    obtain ⟨hmore, rfl⟩ := hown found hfound
    refine ⟨hok.recount (fun _ _ hmembers => hsequencer ▸ hmembers) (hsame c.key) ?_ hmore,
      (hsame c.key fun _ request _ => request.signature = entry.signature).mpr
        (h.meetings.signatures c.key entry hentry)⟩
    rw [hcalls, h.card_leftPlaces_insert hc hjoined hnot hargs hleft hlength, ← hok.consumed]
  · intro j d hd hjoined'' hkey hnone k hk
    apply hgone hnone k
    obtain ⟨j', d', hd', -, hkey', hsize⟩ := (hsame d.key fun comm _ _ => comm.groupSize = d.comm.groupSize).mp
      ⟨j, d, hd, hjoined'', rfl, rfl⟩
    rw [Communicator.groupSize, h.slots.members_eq hc hd' (hkey.trans hkey'.symm), ← Communicator.groupSize, hsize]
    exact hk
  · intro op' hleaving
    rw [hleaving] at htakes
    rcases htakes.cases with heq | ⟨_, heq⟩ | ⟨_, _, _, -, -, -, heq⟩ <;> exact absurd heq (by simp)
  · intro j d op' hne hd hleaving hkey _
    unfold hasOutputs
    cases hfound : w'.rendezvous.lookup d.key with
    | some found =>
      rw [← hkey] at hfound
      obtain ⟨-, rfl⟩ := hown found hfound
      rw [bind_some, hresult]
      rfl
    | none =>
      -- a call that is still leaving keeps the entry
      have hfits' := h.slots.fits j d hd
      simp only [Call.Fits, hleaving] at hfits'
      have hplace : d.comm.selfPosition < c.comm.groupSize := by
        rw [Communicator.groupSize, h.slots.members_eq hc hd hkey]
        exact d.comm.selfPosition_lt
      rw [← hkey] at hfound
      have hl := hgone hfound _ hplace
      rw [hcalls, left_insert hc hargs hnot hleft] at hl
      rcases hl with hsamePlace | hl
      · exact absurd (h.slots.same hc hd haccepted hfits'.1 hkey hsamePlace).1 (Ne.symm hne)
      · rw [hkey] at hl
        exact absurd hl (h.slots.not_left hd hfits'.1 hfits'.2.2)
  · exact fun P => (hsame c.key P).mpr
  · intro buffers hbuffers
    rcases htakes.cases with heq | ⟨_, heq⟩ | ⟨outputs, output, buffers', rfl, houtput, hdeliver, heq⟩
    · rw [heq] at hbuffers
      exact absurd hbuffers (by simp [Stage.buffers?])
    · rw [heq] at hbuffers
      exact absurd hbuffers (by simp [Stage.buffers?])
    · rw [heq] at hbuffers
      cases hbuffers
      exact h.outcome_leave hc hentry hresult houtput hdeliver

end

end Leaving

end World

end OnnxGenai.Comm
