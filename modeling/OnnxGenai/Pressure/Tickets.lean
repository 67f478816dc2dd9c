import OnnxGenai.Pressure.Operations
import OnnxGenai.Lib.Runs

/-!
# Tickets, and every interleaving of the operations

The governor with the tickets that were handed out, as one system (`System`). Its actions
are the operations of the governor, each atomic under the ledger lock, and the two things a
ticket does under the mailbox lock alone: release its slot once it is resolved (`disarm`),
and post its cancellation when it is dropped unresolved (`drop`). These two may also happen
between the two parts of a request, since it reserves its slot while it holds the ledger
lock and the mailbox lock is free in between. A ticket that was polled to an answer other
than `Pending` can only be disarmed: `try_claim` does so before it returns. Polling a
resolved ticket and dropping one touch nothing, and are no actions.

In every state of every run the ledger is sound (`ledger_safe`) and no cancellation is
lost (`cancellation_lossless`).
-/

namespace OnnxGenai.Pressure

open Lib Option FiniteMap

/-- A ticket that is not resolved. -/
structure Ticket where
  generation : Generation
  /-- It was polled to an answer, and its slot is still to be released. -/
  polled : Bool
  deriving DecidableEq, Repr

/-- A governor with its tickets. -/
structure System where
  gov : Governor
  tickets : FiniteMap RequestId Ticket
  /-- The request that holds the ledger lock, with the tickets it will wake. -/
  submitting : Option (HostPageRequest × List RequestId)
  /-- The cancellations posted so far. -/
  dropped : List CancelCommand

/-- What can happen. -/
inductive Action where
  | beginRequest (request : HostPageRequest)
  | finishRequest
  | tryClaim (id : RequestId)
  | disarm (id : RequestId)
  | drop (id : RequestId)
  | release (allocation : HostAllocation)
  | reclaim (device : DeviceId) (bytes : ℕ)
  | reconfigure
  | timeOut (id : RequestId)
  | snapshot
  | processCancellations
  deriving DecidableEq, Repr

namespace System

/-- A new governor, accepted with its configuration. -/
def Initial (s : System) : Prop :=
  (∃ config, Governor.new config = .ok s.gov) ∧ s.tickets = ∅ ∧ s.submitting = none ∧ s.dropped = []

/-- A ticket is there, polled or not. -/
def hasTicket (s : System) (id : RequestId) (polled : Bool) : Bool := (s.tickets.lookup id).map Ticket.polled = some polled

/-- The actions that need the ledger lock have to wait for a request that holds it. -/
def allowed (s : System) : Action → Prop
  | .finishRequest => s.submitting.isSome
  | .tryClaim id => s.submitting = none ∧ s.hasTicket id false
  | .disarm id => s.hasTicket id true
  | .drop id => s.hasTicket id false
  | _ => s.submitting = none

instance (s : System) (a : Action) : Decidable (s.allowed a) := by
  cases a <;> unfold allowed <;> infer_instance

/-- One action. -/
def step (s : System) : Action → System
  | .beginRequest request =>
    match requestDrain request s.gov with
    | .ok wakeups g => { s with gov := g, submitting := some (request, wakeups) }
    | .error _ g => { s with gov := g }
  | .finishRequest =>
    match s.submitting with
    | none => s
    | some (request, wakeups) =>
      match requestSubmit request wakeups s.gov with
      | .ok (id, generation) g =>
        { s with gov := g, submitting := none, tickets := s.tickets.insert id ⟨generation, false⟩ }
      | .error _ g => { s with gov := g, submitting := none }
  | .tryClaim id =>
    match Pressure.tryClaim id s.gov with
    | .ok .pending g => { s with gov := g }
    | .ok _ g => { s with gov := g, tickets := FiniteMap.adjust s.tickets id fun t => { t with polled := true } }
    | .error _ g => { s with gov := g }
  | .disarm id =>
    { s with gov := { s.gov with mailbox := s.gov.mailbox.releaseSlot }, tickets := s.tickets.erase id }
  | .drop id =>
    match s.tickets.lookup id with
    | none => s
    | some t =>
      { s with
        gov := { s.gov with mailbox := (s.gov.mailbox.publishCancel ⟨id, t.generation⟩).2 }
        tickets := s.tickets.erase id
        dropped := s.dropped ++ [⟨id, t.generation⟩] }
  | .release allocation => { s with gov := final (releaseHostPages allocation) s.gov }
  | .reclaim device bytes => { s with gov := final (Pressure.reclaim device bytes) s.gov }
  | .reconfigure => { s with gov := final Pressure.reconfigure s.gov }
  | .timeOut id => { s with gov := final (Pressure.timeOut id) s.gov }
  | .snapshot => { s with gov := final Pressure.snapshot s.gov }
  | .processCancellations => { s with gov := final Pressure.processCancellations s.gov }

/-- The states of all runs. -/
abbrev Reaches (s : System) : Prop := Reachable Initial allowed step s

end System

/-! ### The start -/

theorem initReclaimable_total (entries : List (DeviceId × ℕ)) (m m' : FiniteMap DeviceId ℕ) (t t' : ℕ)
    (h : initReclaimable entries (m, t) = .ok (m', t')) (hm : FiniteMap.total m id = t) :
    FiniteMap.total m' id = t' := by
  induction entries generalizing m t with
  | nil =>
    obtain ⟨rfl, rfl⟩ := h
    exact hm
  | cons entry rest ih =>
    obtain ⟨device, bytes⟩ := entry
    obtain ⟨slot, hslot, h⟩ := bind_eq_ok.mp h
    obtain ⟨total, htotal, h⟩ := bind_eq_ok.mp h
    refine ih _ _ h ?_
    have hins := total_insert m id device slot
    unfold checkedAdd at hslot htotal
    split at hslot <;> split at htotal <;> simp_all
    omega

variable {g : Governor}

/-- A new governor is sound, and its mailbox is empty. -/
theorem new_spec {config : HostGovernorConfig} (h : Governor.new config = .ok g) :
    Sound g.history ∧ g.mailbox.queue = [] ∧ g.mailbox.reserved = 0 ∧ g.trace = [] ∧ WorkConserving g.ledger := by
  obtain ⟨⟨reclaimable, total⟩, hinit, h⟩ := bind_eq_ok.mp h
  obtain ⟨charged, hcharged, h⟩ := bind_eq_ok.mp h
  obtain ⟨free, hfree, h⟩ := bind_eq_ok.mp h
  obtain ⟨mailbox, hmailbox, h⟩ := bind_eq_ok.mp h
  cases h
  have htotal := initReclaimable_total _ ∅ reclaimable 0 total hinit rfl
  have hcharge : charged = config.fixedChargeBytes + total := by
    unfold checkedAdd at hcharged
    split at hcharged <;> simp_all
  have hfree' : charged ≤ config.capacityBytes ∧ free = config.capacityBytes - charged := by
    unfold checkedSub at hfree
    split at hfree <;> simp_all
  have hmail : mailbox.queue = [] ∧ mailbox.reserved = 0 := by
    unfold CancelMailbox.new at hmailbox
    split at hmailbox
    · cases hmailbox
    · cases hmailbox
      exact ⟨rfl, rfl⟩
  refine ⟨⟨⟨config.bounded, ?_⟩, ⟨rfl, fun _ _ he => (nomatch he), fun _ _ _ _ _ _ he => (nomatch he)⟩,
    ⟨fun _ => Nat.zero_le 1, fun _ _ => rfl, fun _ _ he => (nomatch he), fun _ _ _ he => (nomatch he)⟩,
    ⟨fun _ => Nat.zero_le 1, fun _ _ => rfl, fun _ _ _ _ => rfl, fun _ _ _ _ _ hm => (nomatch hm)⟩⟩,
    hmail.1, hmail.2, rfl, fun _ _ he => (nomatch he)⟩
  show config.fixedChargeBytes + free + FiniteMap.total reclaimable id + 0 + 0 = config.capacityBytes
  omega

/-! ### The invariant -/

namespace System

/-- What holds in every state of a run. -/
structure Inv (s : System) : Prop where
  sound : Sound s.gov.history
  slots : s.gov.mailbox.reserved = s.gov.mailbox.queue.length + s.tickets.entries.length
  room : s.gov.mailbox.reserved ≤ s.gov.mailbox.capacity
  issued : ∀ id t, s.tickets.lookup id = some t → id < s.gov.ledger.nextRequest
  ticket : ∀ id t, s.tickets.lookup id = some t → t.polled = false → Cancellable s.gov ⟨id, t.generation⟩
  queued : ∀ c ∈ s.gov.mailbox.queue, Cancellable s.gov c ∧ s.tickets.lookup c.requestId = none
  dropped : ∀ c ∈ s.dropped, c.requestId < s.gov.ledger.nextRequest ∧
    (c ∈ s.gov.mailbox.queue ∨ s.gov.ledger.entries.lookup c.requestId = none)

variable {s : System} {id : RequestId} {t : Ticket}

theorem Inv.initial (h : s.Initial) : Inv s := by
  obtain ⟨⟨config, hnew⟩, htickets, -, hdropped⟩ := h
  obtain ⟨hs, hqueue, hreserved, -, -⟩ := new_spec hnew
  refine ⟨hs, ?_, ?_, fun id t h => ?_, fun id t h => ?_, fun c hc => ?_, fun c hc => ?_⟩
  · rw [hreserved, hqueue, htickets]
    rfl
  · rw [hreserved]
    exact Nat.zero_le _
  · rw [htickets] at h
    cases h
  · rw [htickets] at h
    cases h
  · rw [hqueue] at hc
    cases hc
  · rw [hdropped] at hc
    cases hc

section

variable (hi : Inv s)

include hi

/-- What the operations do under the ledger lock keeps the invariant. -/
theorem Inv.advance (h : Advances s.gov g) : Inv { s with gov := g } := by
  refine ⟨hi.sound.moves h.moves, ?_, ?_, fun id t ht => (hi.issued id t ht).trans_le (Moves.nextRequest_le h.moves),
    fun id t ht hp => (hi.ticket id t ht hp).advances h, fun c hc => ?_, fun c hc => ?_⟩
  · rw [h.mailbox]
    exact hi.slots
  · rw [h.mailbox]
    exact hi.room
  · rw [h.mailbox] at hc
    exact ⟨(hi.queued c hc).1.advances h, (hi.queued c hc).2⟩
  · obtain ⟨hid, hc⟩ := hi.dropped c hc
    rw [h.mailbox]
    exact ⟨hid.trans_le (Moves.nextRequest_le h.moves), hc.imp_right (Moves.gone h.moves hid)⟩

/-- A drain keeps the invariant, and empties the queue. -/
theorem Inv.drain : Inv { s with gov := s.gov.drained } ∧ s.gov.drained.mailbox.queue = [] := by
  have hd := drains_drained hi.sound
  have hqueue : s.gov.drained.mailbox.queue = [] := by
    rw [hd.mailbox]
    rfl
  refine ⟨⟨hi.sound.moves hd.moves, ?_, ?_, fun id t ht => (hi.issued id t ht).trans_le (Moves.nextRequest_le hd.moves),
    fun id t ht hp => (hi.ticket id t ht hp).moves hd.moves (hd.claims id), fun c hc => ?_, fun c hc => ?_⟩, hqueue⟩
  · have hslots := hi.slots
    rw [hd.mailbox]
    simp only [CancelMailbox.drain, List.length_nil]
    omega
  · rw [hd.mailbox]
    exact (Nat.sub_le _ _).trans hi.room
  · rw [hqueue] at hc
    cases hc
  · obtain ⟨hid, hc⟩ := hi.dropped c hc
    refine ⟨hid.trans_le (Moves.nextRequest_le hd.moves), .inr ?_⟩
    rcases hc with hc | hc
    · exact hd.gone c hc (hi.queued c hc).1
    · exact Moves.gone hd.moves hid hc

/-- A drain followed by what an operation does. -/
theorem Inv.drainAdvance (h : Advances s.gov.drained g) : Inv { s with gov := g } :=
  Inv.advance (s := { s with gov := s.gov.drained }) hi.drain.1 h

/-- A poll keeps the invariant; an answer other than `Pending` is noted on the ticket. -/
theorem Inv.poll (hq : s.gov.mailbox.queue = []) {poll : TicketPoll} (h : Polls s.gov id poll g)
    {tickets : FiniteMap RequestId Ticket} (hlen : tickets.entries.length = s.tickets.entries.length)
    (hissued : ∀ j t, tickets.lookup j = some t → ∃ t₀, s.tickets.lookup j = some t₀)
    (ht : ∀ j t, tickets.lookup j = some t → t.polled = false →
      s.tickets.lookup j = some t ∧ (j = id → poll = .pending)) : Inv { s with gov := g, tickets := tickets } := by
  refine ⟨hi.sound.moves h.moves, ?_, ?_, fun j t hj => ?_, fun j t hj hp => ?_, fun c hc => ?_, fun c hc => ?_⟩
  · rw [h.mailbox, hlen]
    exact hi.slots
  · rw [h.mailbox]
    exact hi.room
  · obtain ⟨t₀, ht₀⟩ := hissued j t hj
    exact (hi.issued j t₀ ht₀).trans_le (Moves.nextRequest_le h.moves)
  · obtain ⟨hj, hpending⟩ := ht j t hj hp
    refine (hi.ticket j t hj hp).moves h.moves ?_
    by_cases hid : j = id
    · exact h.pending (hpending hid) j
    · exact h.others j hid
  · rw [h.mailbox, hq] at hc
    cases hc
  · obtain ⟨hid, hc⟩ := hi.dropped c hc
    rw [h.mailbox]
    exact ⟨hid.trans_le (Moves.nextRequest_le h.moves), hc.imp_right (Moves.gone h.moves hid)⟩

/-- A new ticket takes the slot its request reserved. -/
theorem Inv.submit {gen : Generation} (h : Submits s.gov id gen g) :
    Inv { s with gov := g, submitting := none, tickets := s.tickets.insert id ⟨gen, false⟩ } := by
  have hnew : s.tickets.lookup id = none := by
    cases ht : s.tickets.lookup id with
    | none => rfl
    | some t => exact absurd h.new (hi.issued id t ht).ne
  have hle := Moves.nextRequest_le h.moves
  have hlen := length_insert_new s.tickets ⟨gen, false⟩ hnew
  have hslots := hi.slots
  have hroom := hi.room
  have hfull := h.reserved
  refine ⟨hi.sound.moves h.moves, ?_, ?_, fun j t hj => ?_, fun j t hj hp => ?_, fun c hc => ?_, fun c hc => ?_⟩
  · rw [h.mailbox]
    simp only
    omega
  · rw [h.mailbox]
    simp only
    omega
  · rw [lookup_insert'] at hj
    by_cases hid : j = id
    · exact hid ▸ h.issued
    · rw [if_neg hid] at hj
      exact (hi.issued j t hj).trans_le hle
  · rw [lookup_insert'] at hj
    by_cases hid : j = id
    · rw [if_pos hid, some_inj] at hj
      subst hj hid
      refine ⟨h.issued, h.generation, (h.claims j).trans ?_⟩
      exact hi.sound.claimed.issued j h.new.ge
    · rw [if_neg hid] at hj
      exact (hi.ticket j t hj hp).moves h.moves (h.claims j)
  · rw [h.mailbox] at hc
    obtain ⟨hcan, hnone⟩ := hi.queued c hc
    refine ⟨hcan.moves h.moves (h.claims _), ?_⟩
    rw [lookup_insert', if_neg (fun heq => absurd (heq.trans h.new) hcan.issued.ne), hnone]
  · obtain ⟨hid, hc⟩ := hi.dropped c hc
    rw [h.mailbox]
    exact ⟨hid.trans_le hle, hc.imp_right (Moves.gone h.moves hid)⟩

/-- A ticket whose slot was reserved can post its cancellation. -/
theorem Inv.publish (ht : s.tickets.lookup id = some t) : s.gov.mailbox.publishCancel ⟨id, t.generation⟩ =
      (true, { s.gov.mailbox with queue := s.gov.mailbox.queue ++ [⟨id, t.generation⟩] }) := by
  have hlen := length_erase_some s.tickets ht
  have hslots := hi.slots
  rw [CancelMailbox.publishCancel, if_neg (by omega)]

theorem Inv.drop (ht : s.tickets.lookup id = some t) (hp : t.polled = false) : Inv (s.step (.drop id)) := by
  have hcan := hi.ticket id t ht hp
  have hlen := length_erase_some s.tickets ht
  have hslots := hi.slots
  simp only [step, ht, hi.publish ht]
  refine ⟨hi.sound, ?_, hi.room, fun j t' hj => ?_, fun j t' hj hp' => ?_, fun c hc => ?_, fun c hc => ?_⟩
  · simp only [List.length_append, List.length_singleton]
    omega
  · rw [lookup_erase'] at hj
    exact hi.issued j t' (ite_none_left_eq_some.mp hj).2
  · rw [lookup_erase'] at hj
    obtain ⟨h1, h2, h3⟩ := hi.ticket j t' (ite_none_left_eq_some.mp hj).2 hp'
    exact ⟨h1, h2, h3⟩
  · rw [lookup_erase']
    rcases List.mem_append.mp hc with hc | hc
    · obtain ⟨⟨h1, h2, h3⟩, hnone⟩ := hi.queued c hc
      exact ⟨⟨h1, h2, h3⟩, by rw [hnone]; exact ite_self none⟩
    · obtain rfl := List.mem_singleton.mp hc
      exact ⟨⟨hcan.issued, hcan.generation, hcan.unclaimed⟩, if_pos rfl⟩
  · rcases List.mem_append.mp hc with hc | hc
    · obtain ⟨hid, hc⟩ := hi.dropped c hc
      exact ⟨hid, hc.imp_left fun h => List.mem_append_left _ h⟩
    · obtain rfl := List.mem_singleton.mp hc
      exact ⟨hcan.issued, .inl (List.mem_append_right _ (List.mem_singleton.mpr rfl))⟩

theorem Inv.disarm (ht : s.tickets.lookup id = some t) : Inv (s.step (.disarm id)) := by
  have hlen := length_erase_some s.tickets ht
  have hslots := hi.slots
  refine ⟨hi.sound, ?_, (Nat.sub_le _ _).trans hi.room, fun j t' hj => ?_, fun j t' hj hp' => ?_, fun c hc => ?_,
    hi.dropped⟩
  · simp only [step, CancelMailbox.releaseSlot]
    omega
  · rw [step, lookup_erase'] at hj
    exact hi.issued j t' (ite_none_left_eq_some.mp hj).2
  · rw [step, lookup_erase'] at hj
    obtain ⟨h1, h2, h3⟩ := hi.ticket j t' (ite_none_left_eq_some.mp hj).2 hp'
    exact ⟨h1, h2, h3⟩
  · obtain ⟨⟨h1, h2, h3⟩, hnone⟩ := hi.queued c hc
    refine ⟨⟨h1, h2, h3⟩, ?_⟩
    rw [step, lookup_erase', hnone]
    exact ite_self none

theorem Inv.setSubmitting (submitting : Option (HostPageRequest × List RequestId)) :
    Inv { s with submitting := submitting } :=
  ⟨hi.sound, hi.slots, hi.room, hi.issued, hi.ticket, hi.queued, hi.dropped⟩

end

end System

/-! ### One action -/

/-- Whether an action applies the queued cancellations. -/
def Action.drains : Action → Bool
  | .beginRequest request => request.bytes ≠ 0
  | .reclaim _ bytes => bytes ≠ 0
  | .finishRequest | .disarm _ | .drop _ => false
  | _ => true

namespace System

/-- An action cancels or times out no request that others wait for: each request it drops is
judged by the ledger that `apply_cancel_locked` or `time_out` finds it in. -/
def HarmlessStep (s : System) (a : Action) : Prop :=
  (a.drains = true → HarmlessCancels s.gov.mailbox.queue s.gov.emptied) ∧
    ∀ id, a = .timeOut id → Harmless s.gov.drained.ledger id

/-- What one action does. -/
structure Follows (s : System) (a : Action) (s' : System) : Prop where
  inv : Inv s'
  moves : Moves s.gov.history s'.gov.history
  workConserving : WorkConserving s.gov.ledger → s.HarmlessStep a → WorkConserving s'.gov.ledger
  queue : a.drains = true → s'.gov.mailbox.queue = []
  dropped : ∀ c ∈ s.dropped, c ∈ s'.dropped

variable {s : System} {a : Action}

/-- An action that drains, and then continues. -/
theorem Inv.follows (hi : Inv s) (hd : a.drains = true) (h : Advances s.gov.drained g)
    (hwc : WorkConserving s.gov.drained.ledger → s.HarmlessStep a → WorkConserving g.ledger) :
    Follows s a { s with gov := g } := by
  have hdrain := drains_drained hi.sound
  refine ⟨hi.drainAdvance h, hdrain.moves.trans h.moves, fun hw hh => ?_, fun _ => ?_, fun c hc => hc⟩
  · exact hwc (hdrain.workConserving hw (hh.1 hd)) hh
  · rw [h.mailbox]
    exact hi.drain.2

theorem Inv.followsContinues (hi : Inv s) (hd : a.drains = true) (h : Continues s.gov.drained g) :
    Follows s a { s with gov := g } :=
  hi.follows hd h.advances fun hwc _ => h.workConserving hwc

/-- An action that does nothing. -/
theorem Inv.followsRefl (hi : Inv s) (hd : a.drains = false) : Follows s a s :=
  ⟨hi, .refl, fun h _ => h, fun h => absurd (hd.symm.trans h) Bool.false_ne_true, fun _ hc => hc⟩

theorem Follows.setSubmitting {s' : System} (h : Follows s a s')
    (submitting : Option (HostPageRequest × List RequestId)) : Follows s a { s' with submitting := submitting } :=
  ⟨h.inv.setSubmitting submitting, h.moves, h.workConserving, h.queue, h.dropped⟩

theorem Inv.beginRequest (hi : Inv s) (request : HostPageRequest) :
    Follows s (.beginRequest request) (s.step (.beginRequest request)) := by
  have hspec := requestDrain_spec hi.sound request
  have hdrains : request.bytes ≠ 0 → (Action.beginRequest request).drains = true := by simp [Action.drains]
  simp only [step]
  cases hx : requestDrain request s.gov with
  | ok wakeups g =>
    obtain ⟨hne, rfl⟩ := hspec.ok hx
    exact (hi.followsContinues (hdrains hne) (.refl _)).setSubmitting _
  | error err g =>
    rcases hspec.error hx with ⟨hz, rfl, -⟩ | ⟨hne, hg, -⟩
    · exact hi.followsRefl (a := .beginRequest request) (by simp [Action.drains, hz])
    · exact hi.followsContinues (hdrains hne) hg

theorem Inv.finishRequest (hi : Inv s) : Follows s .finishRequest (s.step .finishRequest) := by
  simp only [step]
  cases hsub : s.submitting with
  | none => exact hi.followsRefl rfl
  | some pair =>
    obtain ⟨request, wakeups⟩ := pair
    have hspec := requestSubmit_spec s.gov request wakeups
    dsimp only
    cases hx : requestSubmit request wakeups s.gov with
    | ok ticket g =>
      have hg := hspec.ok hx
      exact ⟨hi.submit hg, hg.moves, fun _ _ => hg.workConserving, fun h => (nomatch h), fun _ hc => hc⟩
    | error err g =>
      obtain ⟨hg, -⟩ := hspec.error hx
      exact ⟨(hi.advance hg.advances).setSubmitting none, hg.advances.moves, fun h _ => hg.workConserving h,
        fun h => (nomatch h), fun _ hc => hc⟩

theorem Inv.tryClaim (hi : Inv s) (id : RequestId) : Follows s (.tryClaim id) (s.step (.tryClaim id)) := by
  have hspec := tryClaim_spec hi.sound id
  have hdrain := drains_drained hi.sound
  obtain ⟨hi', hqueue⟩ := hi.drain
  simp only [step]
  cases hx : Pressure.tryClaim id s.gov with
  | error err g => exact (hspec.error hx).elim
  | ok poll g =>
    have hg := hspec.ok hx
    -- The tickets are as they were, or the one that was polled is marked.
    have hkeep : ∀ tickets : FiniteMap RequestId Ticket,
        Inv { s with gov := g, tickets := tickets } → Follows s (.tryClaim id) { s with gov := g, tickets := tickets } :=
      fun tickets hinv => ⟨hinv, hdrain.moves.trans hg.moves,
        fun hwc hh => hg.workConserving (hdrain.workConserving hwc (hh.1 rfl)),
        fun _ => by rw [hg.mailbox]; exact hqueue, fun _ hc => hc⟩
    have hmarked : Follows s (.tryClaim id) { s with
        gov := g, tickets := adjust s.tickets id fun t => { t with polled := true } } := by
      refine hkeep _ (Inv.poll hi' hqueue hg (length_adjust _ _ _) (fun j t hj => ?_) fun j t hj hp => ?_)
      · rw [lookup_adjust] at hj
        by_cases hid : j = id
        · rw [if_pos hid] at hj
          obtain ⟨t₀, ht₀, -⟩ := map_eq_some_iff.mp hj
          exact ⟨t₀, hid ▸ ht₀⟩
        · rw [if_neg hid] at hj
          exact ⟨t, hj⟩
      · rw [lookup_adjust] at hj
        by_cases hid : j = id
        · rw [if_pos hid] at hj
          obtain ⟨t₀, -, rfl⟩ := map_eq_some_iff.mp hj
          cases hp
        · rw [if_neg hid] at hj
          exact ⟨hj, fun h => absurd h hid⟩
    cases poll with
    | pending =>
      exact hkeep s.tickets (Inv.poll hi' hqueue hg rfl (fun j t hj => ⟨t, hj⟩) fun j t hj _ => ⟨hj, fun _ => rfl⟩)
    | granted | cancelled | failed => exact hmarked

/-- **One action keeps the invariant.** -/
theorem Inv.step (hi : Inv s) (ha : s.allowed a) : Follows s a (s.step a) := by
  cases a with
  | beginRequest request => exact hi.beginRequest request
  | finishRequest => exact hi.finishRequest
  | tryClaim id => exact hi.tryClaim id
  | disarm id =>
    obtain ⟨t, ht, -⟩ := map_eq_some_iff.mp (of_decide_eq_true ha)
    exact ⟨hi.disarm ht, .refl, fun h _ => h, fun h => (nomatch h), fun _ hc => hc⟩
  | drop id =>
    obtain ⟨t, ht, hp⟩ := map_eq_some_iff.mp (of_decide_eq_true ha)
    refine ⟨hi.drop ht hp, ?_, ?_, fun h => (nomatch h), ?_⟩
    · simp only [System.step, ht]
      exact .refl
    · simp only [System.step, ht]
      exact fun h _ => h
    · simp only [System.step, ht]
      exact fun c hc => List.mem_append_left _ hc
  | release allocation =>
    refine hi.followsContinues rfl (Ensures.final ?_)
    exact Ensures.mono (releaseHostPages_spec hi.sound allocation) (fun _ _ h => h) fun _ _ h => h.1
  | reclaim device bytes =>
    have hspec := reclaim_spec hi.sound device bytes
    have hfinal : (bytes = 0 ∧ final (Pressure.reclaim device bytes) s.gov = s.gov) ∨
        (bytes ≠ 0 ∧ Continues s.gov.drained (final (Pressure.reclaim device bytes) s.gov)) :=
      Ensures.final (P := fun g => (bytes = 0 ∧ g = s.gov) ∨ (bytes ≠ 0 ∧ Continues s.gov.drained g))
        (.mono hspec (fun _ _ h => h) fun _ _ h => .inr ⟨h.1, h.2.1⟩)
    rcases hfinal with ⟨hz, hsame⟩ | ⟨hne, hg⟩
    · simp only [System.step, hsame]
      exact hi.followsRefl (by simp [Action.drains, hz])
    · exact hi.followsContinues (by simp [Action.drains, hne]) hg
  | reconfigure =>
    refine hi.followsContinues rfl (Ensures.final ?_)
    exact Ensures.mono (reconfigure_spec hi.sound) (fun _ _ h => h) fun _ _ h => h.elim
  | timeOut id =>
    have htimes : TimesOut s.gov.drained id (final (Pressure.timeOut id) s.gov) :=
      Ensures.final (Ensures.mono (timeOut_spec hi.sound id) (fun _ _ h => h) fun _ _ h => h.elim)
    exact hi.follows rfl htimes.advances fun hwc hh => htimes.workConserving hwc (hh.2 id rfl)
  | snapshot =>
    refine hi.followsContinues rfl (Ensures.final ?_)
    exact Ensures.mono (snapshot_spec hi.sound) (fun _ _ h => h) fun _ _ h => h.elim
  | processCancellations =>
    refine hi.followsContinues rfl (Ensures.final ?_)
    exact Ensures.mono (processCancellations_spec hi.sound) (fun _ _ h => h) fun _ _ h => h.elim

/-- The invariant holds in every state of every run. -/
theorem Reaches.inv (h : s.Reaches) : Inv s :=
  Reachable.invariant (I := Inv) (fun _ => Inv.initial) (fun _ _ hi ha => (hi.step ha).inv) h

/-! ### Safety of the ledger -/

/-- The error a computation ends with. -/
def errorOf {α : Type} : EStateM.Result ResourceError Governor α → Option ResourceError
  | .ok _ _ => none
  | .error err _ => some err

/-- The error an action ends with. -/
def error (s : System) : Action → Option ResourceError
  | .beginRequest request => errorOf (requestDrain request s.gov)
  | .finishRequest => s.submitting.bind fun r => errorOf (requestSubmit r.1 r.2 s.gov)
  | .tryClaim id => errorOf (Pressure.tryClaim id s.gov)
  | .disarm _ | .drop _ => none
  | .release allocation => errorOf (releaseHostPages allocation s.gov)
  | .reclaim device bytes => errorOf (Pressure.reclaim device bytes s.gov)
  | .reconfigure => errorOf (Pressure.reconfigure s.gov)
  | .timeOut id => errorOf (Pressure.timeOut id s.gov)
  | .snapshot => errorOf (Pressure.snapshot s.gov)
  | .processCancellations => errorOf (Pressure.processCancellations s.gov)

/-- The errors that refuse the argument of an action: a request for nothing, or for more
than there can be, or without a slot for its cancellation; a release of what is not on
record; and a reclaim of more than the device holds. -/
def Refused (s : System) : Action → ResourceError → Prop
  | .beginRequest request, err =>
    (request.bytes = 0 ∧ err = .invalidHostRequest "requested zero bytes") ∨
      (s.gov.drained.ledger.maxSatisfiable < request.bytes ∧
        err = .hostQuotaDenied request.bytes s.gov.drained.ledger.maxSatisfiable)
  | .finishRequest, err =>
    s.gov.mailbox.reserved = s.gov.mailbox.capacity ∧ err = .hostMailboxBackpressure s.gov.mailbox.capacity
  | .release allocation, err => checkRecorded s.gov.drained.ledger allocation = .error err
  | .reclaim device bytes, err =>
    (s.gov.drained.ledger.reclaimable.lookup device).getD 0 < bytes ∧
      checkedSub ((s.gov.drained.ledger.reclaimable.lookup device).getD 0) bytes "reclaim debit" = .error err
  | _, _ => False

theorem errorOf_spec {α : Type} {x : GovM α} {Q : α → Governor → Prop} {E : ResourceError → Governor → Prop}
    (h : Ensures x g Q E) {err : ResourceError} (herr : errorOf (x g) = some err) : ∃ g', E err g' := by
  cases hx : x g with
  | ok a g' =>
    rw [hx] at herr
    cases herr
  | error err' g' =>
    rw [hx] at herr
    cases herr
    exact ⟨g', h.error hx⟩

/-- On a sound ledger an action fails only by refusing its argument. -/
theorem Inv.refused (hi : Inv s) {err : ResourceError} (h : s.error a = some err) : s.Refused a err := by
  cases a with
  | beginRequest request =>
    obtain ⟨-, ⟨hz, -, he⟩ | ⟨-, -, hq, he⟩⟩ := errorOf_spec (requestDrain_spec hi.sound request) h
    · exact .inl ⟨hz, he⟩
    · exact .inr ⟨hq, he⟩
  | finishRequest =>
    obtain ⟨r, -, hr⟩ := bind_eq_some_iff.mp h
    obtain ⟨-, -, hfull, he⟩ := errorOf_spec (requestSubmit_spec s.gov r.1 r.2) hr
    exact ⟨hfull, he⟩
  | tryClaim id => exact (errorOf_spec (tryClaim_spec hi.sound id) h).elim fun _ hf => hf
  | disarm | drop => cases h
  | release allocation =>
    obtain ⟨-, -, he⟩ := errorOf_spec (releaseHostPages_spec hi.sound allocation) h
    exact he
  | reclaim device bytes =>
    obtain ⟨-, -, -, hlt, he⟩ := errorOf_spec (reclaim_spec hi.sound device bytes) h
    exact ⟨hlt, he⟩
  | reconfigure => exact (errorOf_spec (reconfigure_spec hi.sound) h).elim fun _ hf => hf
  | timeOut id => exact (errorOf_spec (timeOut_spec hi.sound id) h).elim fun _ hf => hf
  | snapshot => exact (errorOf_spec (snapshot_spec hi.sound) h).elim fun _ hf => hf
  | processCancellations => exact (errorOf_spec (processCancellations_spec hi.sound) h).elim fun _ hf => hf

/-- **The ledger is safe** in every state of every run: its bytes add up to the capacity,
pending requests carry the current generation, no request is claimed twice and no
allocation is credited twice. So a snapshot succeeds, as does a drain, and an action fails
only by refusing its argument; of the checked sums and differences only the debit of a
reclaim that asks for more than the device holds can fail. -/
theorem ledger_safe {s : System} (h : s.Reaches) :
    s.gov.ledger.fixedCharge + s.gov.ledger.free + FiniteMap.total s.gov.ledger.reclaimable id +
        FiniteMap.total s.gov.ledger.entries LedgerEntry.reservedBytes +
        FiniteMap.total s.gov.ledger.entries LedgerEntry.claimedBytes = s.gov.ledger.capacity ∧
      (∀ id e, s.gov.ledger.entries.lookup id = some e → e.isPending = true → e.generation = s.gov.ledger.generation) ∧
      (∀ id, s.gov.trace.claims id ≤ 1) ∧ (∀ a, (s.gov.trace.credits a).length ≤ 1) ∧
      (∃ snap g, Pressure.snapshot s.gov = .ok snap g) ∧ (∃ wakeups g, drainCancellations s.gov = .ok wakeups g) ∧
      ∀ a err, s.error a = some err → s.Refused a err := by
  have hi := h.inv
  have hsnap : ∃ snap g, Pressure.snapshot s.gov = .ok snap g := by
    cases hx : Pressure.snapshot s.gov with
    | ok snap g => exact ⟨snap, g, rfl⟩
    | error err g => exact ((snapshot_spec hi.sound).error hx).elim
  obtain ⟨w, hw⟩ := drainCancellations_ok hi.sound
  exact ⟨hi.sound.balanced.conserved, fun id e he => (hi.sound.numbered.entry id e he).current, hi.sound.claimed.once,
    hi.sound.credited.once, hsnap, ⟨w, _, hw⟩, fun a err => hi.refused⟩

/-- A governor of 20 bytes, 2 of them charged and 3 reclaimable from device 0. -/
def small : System :=
  ⟨⟨⟨20, 2, 15, (∅ : FiniteMap DeviceId ℕ).insert 0 3, 0, ∅, 1, 1, 0, false⟩, ⟨[], 0, 4⟩, [], []⟩, ∅, none, []⟩

theorem small_initial : small.Initial :=
  ⟨⟨⟨20, 2, [(0, 3)], 4, by decide⟩, rfl⟩, rfl, rfl, rfl⟩

/-- Two requests, the second of which does not fit; the first is claimed, the second dropped. -/
def claimAndDrop : List Action :=
  [.beginRequest ⟨0, 10, 0, false⟩, .finishRequest, .beginRequest ⟨1, 8, 0, false⟩, .finishRequest, .tryClaim 1,
    .disarm 1, .drop 2]

theorem claimAndDrop_reaches : (claimAndDrop.foldl step small).Reaches :=
  Reachable.foldl claimAndDrop (.start small_initial) (by decide)

theorem ledger_safe_claimed : (claimAndDrop.foldl step small).gov.trace.claims 1 = 1 ∧
    (claimAndDrop.foldl step small).gov.trace.claims 1 ≤ 1 ∧
    ∃ snap g, Pressure.snapshot (claimAndDrop.foldl step small).gov = .ok snap g :=
  have h := ledger_safe claimAndDrop_reaches
  ⟨by decide, h.2.2.1 1, h.2.2.2.2.1⟩

/-! ### Cancellations are not lost -/

/-- A request left the ledger, and what it was granted was returned once. -/
def Left (g : Governor) (id : RequestId) : Prop :=
  g.ledger.entries.lookup id = none ∧
    ∀ a owner bytes l, (PressureEvent.grant id a owner bytes, l) ∈ g.trace → g.trace.credits a = [bytes]

theorem Inv.left (hi : Inv s) {id : RequestId} (h : s.gov.ledger.entries.lookup id = none) : Left s.gov id := by
  refine ⟨h, fun a owner bytes l hg => ?_⟩
  rcases hi.sound.credited.returned id a owner bytes l hg with hh | hret
  · exact absurd hh (not_holds_of_none h a bytes)
  · exact hret

/-- **No cancellation is lost.** In every state of every run the reserved slots are those of
the queued cancellations and of the unresolved tickets, within the capacity. So a dropped
ticket can post its cancellation; and the request of a ticket that was dropped has left the
ledger, with its bytes returned once, unless its cancellation is queued: the next action
that drains applies it. -/
theorem cancellation_lossless {s : System} (h : s.Reaches) :
    s.gov.mailbox.reserved = s.gov.mailbox.queue.length + s.tickets.entries.length ∧
      s.gov.mailbox.reserved ≤ s.gov.mailbox.capacity ∧
      (∀ id t, s.tickets.lookup id = some t → (s.gov.mailbox.publishCancel ⟨id, t.generation⟩).1 = true) ∧
      (∀ c ∈ s.dropped, c ∈ s.gov.mailbox.queue ∨ Left s.gov c.requestId) ∧
      ∀ a, s.allowed a → a.drains = true → ∀ c ∈ s.dropped, Left (s.step a).gov c.requestId := by
  have hi := h.inv
  refine ⟨hi.slots, hi.room, fun id t ht => by rw [hi.publish ht], fun c hc => ?_, fun a ha hd c hc => ?_⟩
  · exact (hi.dropped c hc).2.imp_right hi.left
  · have hf := hi.step ha
    rcases (hf.inv.dropped c (hf.dropped c hc)).2 with hqueued | hgone
    · rw [hf.queue hd] at hqueued
      cases hqueued
    · exact hf.inv.left hgone

theorem cancellation_lossless_dropped : (⟨2, 0⟩ : CancelCommand) ∈ (claimAndDrop.foldl step small).dropped ∧
    Left ((claimAndDrop.foldl step small).step .processCancellations).gov 2 :=
  have hmem : (⟨2, 0⟩ : CancelCommand) ∈ (claimAndDrop.foldl step small).dropped := by decide
  ⟨hmem, (cancellation_lossless claimAndDrop_reaches).2.2.2.2 .processCancellations (by decide) rfl ⟨2, 0⟩ hmem⟩

end System

end OnnxGenai.Pressure
