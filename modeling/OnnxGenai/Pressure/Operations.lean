import OnnxGenai.Pressure.Arbitration

/-!
# What the operations do to the ledger

Every operation first applies the cancellations that are queued (`Governor.drained`), then
moves the ledger on from there. On a sound ledger the checked arithmetic never fails, so
an operation stops only where it refuses its argument.

Dropping a request that waits can leave a ledger that is not work-conserving: a mature
request that does not fit holds back those behind it, and no arbitration follows when it
is cancelled or timed out. `Harmless` says when that does not matter.
-/

namespace OnnxGenai.Pressure

open Lib Ledger LedgerEntry FiniteMap Nat

/-! ### Arithmetic on a sound ledger -/

variable {l : Ledger} {id : RequestId} {e : LedgerEntry} {g g' : Governor}

theorem Balanced.credit (hb : Balanced l) {a : HostAllocation} (h : l.entries.lookup id = some e)
    (ha : e.allocation = some a) : l.free + e.bytes < u64Size := by
  have hsum := hb.conserved
  have hle := le_total charge h
  have hbound := hb.bounded
  rw [accounted_eq] at hsum
  rw [charge_of_allocation ha] at hle
  omega

theorem Balanced.reclaim (hb : Balanced l) {device : DeviceId} {bytes : ℕ}
    (h : bytes ≤ (l.reclaimable.lookup device).getD 0) : l.free + bytes < u64Size := by
  have hsum := hb.conserved
  have hle := total_reclaimed l device h
  have hbound := hb.bounded
  rw [accounted_eq] at hsum
  omega

/-! ### Dropping a request that waits -/

/-- No request that fits waits only because of `r`. -/
def Harmless (l : Ledger) (r : RequestId) : Prop :=
  ∀ f, Blocks l r f → ∀ q e, l.entries.lookup q = some e → l.waits e = true → l.fits e →
    (candidate r f).before (candidate q e) →
    ∃ p f', p ≠ r ∧ Blocks l p f' ∧ (candidate p f').before (candidate q e)

/-- The request `r` stops waiting and nothing else changes. -/
structure StopsWaiting (l l' : Ledger) (r : RequestId) : Prop where
  free : l'.free = l.free
  generation : l'.generation = l.generation
  other : ∀ k, k ≠ r → l'.entries.lookup k = l.entries.lookup k
  stopped : ∀ e, l'.entries.lookup r = some e → l'.waits e = false

namespace StopsWaiting

variable {l l' : Ledger} {r : RequestId}

section

variable (h : StopsWaiting l l' r)

include h

theorem waits (e : LedgerEntry) : l'.waits e = l.waits e := by
  simp [Ledger.waits, h.generation]

theorem fits (e : LedgerEntry) : l'.fits e ↔ l.fits e := by
  simp [Ledger.fits, h.free]

theorem ne {q : RequestId} (hq : l'.entries.lookup q = some e) (hw : l'.waits e = true) : q ≠ r := by
  rintro rfl
  rw [h.stopped e hq] at hw
  cases hw

theorem blocks {p : RequestId} {f : LedgerEntry} : Blocks l' p f ↔ p ≠ r ∧ Blocks l p f := by
  constructor
  · intro hb
    have hp := h.ne hb.lookup hb.waits
    exact ⟨hp, h.other p hp ▸ hb.lookup, h.waits f ▸ hb.waits, hb.matured, (h.fits f).not.mp hb.large⟩
  · rintro ⟨hp, hb⟩
    exact ⟨(h.other p hp).trans hb.lookup, (h.waits f).trans hb.waits, hb.matured, (h.fits f).not.mpr hb.large⟩

/-- **Dropping a request keeps the ledger work-conserving exactly when it is harmless.** -/
theorem workConserving_iff (hwc : WorkConserving l) : WorkConserving l' ↔ Harmless l r := by
  constructor
  · intro hwc' f hr q e hq hw hfit hbefore
    have hne : q ≠ r := by
      rintro rfl
      cases hq.symm.trans hr.lookup
      exact hr.large hfit
    obtain ⟨p, f', hb, hb'⟩ := hwc' q e ((h.other q hne).trans hq) ((h.waits e).trans hw) ((h.fits e).mpr hfit)
    obtain ⟨hp, hb⟩ := h.blocks.mp hb
    exact ⟨p, f', hp, hb, hb'⟩
  · intro hh q e hq hw hfit
    have hne := h.ne hq hw
    rw [h.other q hne] at hq
    rw [h.waits] at hw
    rw [h.fits] at hfit
    obtain ⟨p, f, hb, hbefore⟩ := hwc q e hq hw hfit
    by_cases hp : p = r
    · subst hp
      obtain ⟨p', f', hp', hb', hbefore'⟩ := hh f hb q e hq hw hfit hbefore
      exact ⟨p', f', h.blocks.mpr ⟨hp', hb'⟩, hbefore'⟩
    · exact ⟨p, f, h.blocks.mpr ⟨hp, hb⟩, hbefore⟩

end

end StopsWaiting

/-- A request that does not wait blocks nothing. -/
theorem Harmless.of_not_waits {r : RequestId} (h : ∀ e, l.entries.lookup r = some e → l.waits e = false) :
    Harmless l r := by
  intro f hb
  have := h f hb.lookup
  rw [hb.waits] at this
  cases this

theorem stopsWaiting_cancelled (l : Ledger) (r : RequestId) :
    StopsWaiting l ((l.setState r .cancelled).remove r) r := by
  refine ⟨rfl, rfl, fun k hk => by rw [lookup_remove_setState, if_neg hk], fun e he => ?_⟩
  rw [lookup_remove_setState, if_pos rfl] at he
  cases he

theorem stopsWaiting_removed (l : Ledger) (r : RequestId) : StopsWaiting l (l.remove r) r := by
  refine ⟨rfl, rfl, fun k hk => by rw [lookup_remove, if_neg hk], fun e he => ?_⟩
  rw [lookup_remove, if_pos rfl] at he
  cases he

theorem stopsWaiting_setState (l : Ledger) (r : RequestId) {state : PressureState}
    (hst : ∀ request, state ≠ .pending request) : StopsWaiting l (l.setState r state) r := by
  refine ⟨rfl, rfl, fun k hk => by rw [lookup_setState, if_neg hk], fun e he => ?_⟩
  rw [lookup_setState, if_pos rfl] at he
  obtain ⟨e₀, -, rfl⟩ := Option.map_eq_some_iff.mp he
  cases state <;> simp_all [waits, isPending]

/-! ### Cancellations -/

/-- A cancellation whose ticket did not claim its request. -/
structure Cancellable (g : Governor) (c : CancelCommand) : Prop where
  issued : c.requestId < g.ledger.nextRequest
  generation : ∀ e, g.ledger.entries.lookup c.requestId = some e → e.generation = c.generation
  unclaimed : g.trace.claims c.requestId = 0

theorem Cancellable.moves {c : CancelCommand} (hc : Cancellable g c) (hm : Moves g.history g'.history)
    (hclaims : g'.trace.claims c.requestId = g.trace.claims c.requestId) : Cancellable g' c :=
  ⟨hc.issued.trans_le (Moves.nextRequest_le hm), Moves.generation hm hc.issued hc.generation,
    hclaims.trans hc.unclaimed⟩

theorem Cancellable.advances {c : CancelCommand} (hc : Cancellable g c) (h : Advances g g') : Cancellable g' c :=
  hc.moves h.moves (h.claims _)

/-- What applying one cancellation does. -/
structure AppliesCancel (g : Governor) (c : CancelCommand) (g' : Governor) : Prop where
  advances : Advances g g'
  workConserving : WorkConserving g.ledger → Harmless g.ledger c.requestId → WorkConserving g'.ledger
  stops : ∀ e, g.ledger.entries.lookup c.requestId = some e → e.isPending = true → e.generation = c.generation →
    StopsWaiting g.ledger g'.ledger c.requestId
  gone : Cancellable g c → g'.ledger.entries.lookup c.requestId = none

/-- **A cancellation never fails.** -/
theorem applyCancel_spec (hs : Sound g.history) (c : CancelCommand) :
    Ensures (applyCancel c) g (fun _ g' => AppliesCancel g c g') fun _ _ => False := by
  refine Ensures.bind (Ensures.getLedger ?_)
  cases h : g.ledger.entries.lookup c.requestId with
  | none => exact .pure ⟨.refl g, fun hwc _ => hwc, fun _ hf => (nomatch h.symm.trans hf), fun _ => h⟩
  | some e =>
    have hsome : ∀ f, g.ledger.entries.lookup c.requestId = some f → f = e := fun f hf =>
      Option.some_inj.mp (hf.symm.trans h)
    have hnot : e.isPending = false → ∀ f, g.ledger.entries.lookup c.requestId = some f → f.isPending ≠ true := by
      intro hp f hf
      rw [hsome f hf, hp]
      exact Bool.false_ne_true
    by_cases hgen : e.generation ≠ c.generation
    · simp only [if_pos hgen]
      exact .pure ⟨.refl g, fun hwc _ => hwc, fun f hf _ hg => absurd (hsome f hf ▸ hg) hgen,
        fun hc => absurd (hc.generation e h) hgen⟩
    · simp only [if_neg hgen]
      -- Reaping a terminal entry, for both kinds of terminal state.
      have hreap : e.isPending = false → e.allocation = none →
          AppliesCancel g c { g with ledger := g.ledger.remove c.requestId } := fun hp ha =>
        have hstop := stopsWaiting_removed g.ledger c.requestId
        ⟨.quiet (.reap g.trace h hp ha) rfl rfl, fun hwc hh => (hstop.workConserving_iff hwc).mpr hh,
          fun _ _ _ _ => hstop, fun _ => by rw [lookup_remove, if_pos rfl]⟩
      cases hst : e.state with
      | pending request =>
        have hp : e.isPending = true := by simp [isPending, hst]
        have hstop := stopsWaiting_cancelled g.ledger c.requestId
        refine ⟨.event (.cancelPending g.trace h hp) rfl rfl fun _ => rfl,
          fun hwc hh => (hstop.workConserving_iff hwc).mpr hh, fun _ _ _ _ => hstop, fun _ => ?_⟩
        exact (lookup_remove_setState g.ledger c.requestId c.requestId .cancelled).trans (if_pos rfl)
      | granted a =>
        have ha := allocation_granted hst
        have hlt : g.ledger.free + e.bytes < u64Size := hs.balanced.credit h ha
        have hgone : (((g.ledger.credited e.bytes).setState c.requestId .cancelled).remove
            c.requestId).entries.lookup c.requestId = none := by
          rw [lookup_remove_setState, if_pos rfl]
        have hcredit : Advances g { g with
            ledger := ((g.ledger.credited e.bytes).setState c.requestId .cancelled).remove c.requestId
            trace := g.trace ++ [(.cancelGranted c.requestId a.id e.bytes,
              (g.ledger.credited e.bytes).setState c.requestId .cancelled)] } :=
          .event (.cancelGranted g.trace h hst) rfl rfl fun _ => rfl
        refine Ensures.bind (Ensures.liftResult_ok (checkedAdd_of_lt hlt) (Ensures.bind (Ensures.setLedger
          (Ensures.bind (Ensures.emit (Ensures.bind (Ensures.setLedger ?_)))))))
        refine Ensures.mono (arbitrate_spec _) (fun _ g' hg' => ?_) fun _ _ hf => hf
        refine ⟨hcredit.trans hg'.1, fun _ _ => hg'.2,
          fun f hf hp => absurd hp (hnot (by simp [isPending, hst]) f hf), fun hc => ?_⟩
        exact Moves.gone hg'.1.moves hc.issued hgone
      | claimed a =>
        refine .pure ⟨.refl g, fun hwc _ => hwc,
          fun f hf hp => absurd hp (hnot (by simp [isPending, hst]) f hf), fun hc => ?_⟩
        have hpos := hs.claimed.recorded c.requestId e a h hst
        exact absurd hc.unclaimed hpos.ne'
      | cancelled | failed => exact hreap (by simp [isPending, hst]) (by simp [allocation, hst])

/-- No cancellation of a list drops a request that others wait for, each judged by the
ledger it finds. -/
def HarmlessCancels : List CancelCommand → Governor → Prop
  | [], _ => True
  | c :: cs, g => Harmless g.ledger c.requestId ∧ HarmlessCancels cs (final (applyCancel c) g)

/-- What applying a list of cancellations does. -/
structure AppliesCancels (g : Governor) (cs : List CancelCommand) (g' : Governor) : Prop where
  advances : Advances g g'
  workConserving : WorkConserving g.ledger → HarmlessCancels cs g → WorkConserving g'.ledger
  gone : ∀ c ∈ cs, Cancellable g c → g'.ledger.entries.lookup c.requestId = none

theorem applyCancels_spec (cs : List CancelCommand) (hs : Sound g.history) :
    Ensures (applyCancels cs) g (fun _ g' => AppliesCancels g cs g') fun _ _ => False := by
  induction cs generalizing g with
  | nil => exact .pure ⟨.refl g, fun hwc _ => hwc, fun c hc => nomatch hc⟩
  | cons c cs ih =>
    refine .bind (.mono (.withFinal (applyCancel_spec hs c)) (fun _ g₁ h₁ => ?_) fun _ _ h => h.1)
    obtain ⟨h₁, hfinal⟩ := h₁
    refine .bind (.mono (ih (hs.moves h₁.advances.moves)) (fun _ g₂ h₂ => ?_) fun _ _ h => h)
    refine .pure ⟨h₁.advances.trans h₂.advances, fun hwc hh => ?_, fun d hd hc => ?_⟩
    · exact h₂.workConserving (h₁.workConserving hwc hh.1) (hfinal ▸ hh.2)
    · rcases List.mem_cons.mp hd with rfl | hd
      · exact Moves.gone h₂.advances.moves (hc.advances h₁.advances).issued (h₁.gone hc)
      · exact h₂.gone d hd (hc.advances h₁.advances)

namespace Governor

/-- The governor when the queue was taken, and none of it applied. -/
def emptied (g : Governor) : Governor := { g with mailbox := g.mailbox.drain.2 }

/-- The governor when the queued cancellations were applied. -/
def drained (g : Governor) : Governor := final drainCancellations g

end Governor

/-- What a drain does. -/
structure Drains (g g' : Governor) : Prop where
  moves : Moves g.history g'.history
  mailbox : g'.mailbox = g.mailbox.drain.2
  claims : ∀ id, g'.trace.claims id = g.trace.claims id
  workConserving : WorkConserving g.ledger → HarmlessCancels g.mailbox.queue g.emptied → WorkConserving g'.ledger
  gone : ∀ c ∈ g.mailbox.queue, Cancellable g c → g'.ledger.entries.lookup c.requestId = none

section

variable (hs : Sound g.history)

include hs

theorem drainCancellations_spec : Ensures drainCancellations g (fun _ g' => Drains g g') fun _ _ => False := by
  refine .bind (.get (.bind (.set ?_)))
  refine .mono (applyCancels_spec g.mailbox.queue (g := g.emptied) hs) (fun _ g' hg' => ?_) fun _ _ h => h
  exact ⟨hg'.advances.moves, hg'.advances.mailbox, hg'.advances.claims, hg'.workConserving,
    fun c hc hcan => hg'.gone c hc ⟨hcan.issued, hcan.generation, hcan.unclaimed⟩⟩

/-- **A drain never fails.** -/
theorem drainCancellations_ok : ∃ w, drainCancellations g = .ok w g.drained := by
  have h := drainCancellations_spec hs
  unfold Governor.drained final
  cases hx : drainCancellations g with
  | ok w g' => exact ⟨w, rfl⟩
  | error err g' => exact (h.error hx).elim

theorem drains_drained : Drains g g.drained := by
  obtain ⟨w, hw⟩ := drainCancellations_ok hs
  exact (drainCancellations_spec hs).ok hw

theorem sound_drained : Sound g.drained.history :=
  hs.moves (drains_drained hs).moves

/-- The rule for a drain. -/
theorem Ensures.drain {Q : List RequestId → Governor → Prop}
    {E : ResourceError → Governor → Prop} (h : ∀ w, Q w g.drained) : Ensures drainCancellations g Q E := by
  obtain ⟨w, hw⟩ := drainCancellations_ok hs
  exact .of_ok hw (h w)

end

/-! ### After the drain -/

/-- The ledger advances, and work conservation is kept. -/
structure Continues (g g' : Governor) : Prop where
  advances : Advances g g'
  workConserving : WorkConserving g.ledger → WorkConserving g'.ledger

namespace Continues

theorem refl (g : Governor) : Continues g g := ⟨.refl g, fun h => h⟩

/-- Waking tickets. -/
theorem woken (g : Governor) (w : List RequestId) : Continues g { g with woken := w } :=
  ⟨⟨.refl, rfl, fun _ => rfl⟩, fun h => h⟩

end Continues

/-- Work conservation is about what is free, the generation, and the entries. -/
theorem WorkConserving.congr {l' : Ledger} (hfree : l'.free = l.free) (hgen : l'.generation = l.generation)
    (hentries : l'.entries = l.entries) (h : WorkConserving l) : WorkConserving l' := by
  intro q e hq hw hfit
  rw [hentries] at hq
  have hwaits : ∀ f, l'.waits f = l.waits f := fun f => by simp [waits, hgen]
  have hfits : ∀ f, l'.fits f ↔ l.fits f := fun f => by simp [fits, hfree]
  obtain ⟨p, f, hb, hbefore⟩ := h q e hq (hwaits e ▸ hw) ((hfits e).mp hfit)
  exact ⟨p, f, ⟨hentries ▸ hb.lookup, (hwaits f).trans hb.waits, hb.matured, (hfits f).not.mpr hb.large⟩, hbefore⟩

/-- The end of the operations that free bytes or submit: arbitrate, note what is missing,
and wake. -/
theorem arbitrateAndWake_spec (wakeups : List RequestId) {g₀ : Governor} (h : Advances g₀ g) :
    Ensures (do
      let arbitrated ← arbitrateOrWake wakeups
      setLedger (← getLedger).withReclaimNotices
      wakeAll (wakeups ++ arbitrated)) g
      (fun _ g' => Advances g₀ g' ∧ WorkConserving g'.ledger) fun _ _ => False := by
  refine .bind (.mono (arbitrateOrWake_spec wakeups g) (fun arbitrated g₁ h₁ => ?_) fun _ _ hf => hf)
  have hnotices : Advances g₁ { g₁ with
      ledger := g₁.ledger.withReclaimNotices, woken := g₁.woken ++ (wakeups ++ arbitrated) } :=
    .quiet (.notices g₁.ledger g₁.trace) rfl rfl
  refine Ensures.bind (Ensures.getLedger (Ensures.bind (Ensures.setLedger (Ensures.wakeAll ?_))))
  exact ⟨(h.trans h₁.1).trans hnotices, WorkConserving.congr (l := g₁.ledger) rfl rfl rfl h₁.2⟩

variable {α : Type} {wakeups : List RequestId} {r : Except ResourceError α} {Q : α → Governor → Prop}
  {E : ResourceError → Governor → Prop}

/-- A check that wakes tickets when it fails. -/
theorem Ensures.orWake (hok : ∀ a, r = .ok a → Q a g)
    (herr : ∀ err, r = .error err → E err { g with woken := g.woken ++ wakeups }) :
    Ensures (orWake wakeups r) g Q E := by
  cases r with
  | ok a => exact hok a rfl
  | error err => exact herr err rfl

theorem Ensures.orWake_ok {a : α} (h : r = .ok a) (hQ : Q a g) : Ensures (Pressure.orWake wakeups r) g Q E := by
  subst h
  exact hQ

/-! ### The operations -/

/-- A request is refused if it asks for nothing, or for more than there can be. -/
theorem requestDrain_spec (hs : Sound g.history) (request : HostPageRequest) :
    Ensures (requestDrain request) g (fun _ g' => request.bytes ≠ 0 ∧ g' = g.drained)
      fun err g' => (request.bytes = 0 ∧ g' = g ∧ err = .invalidHostRequest "requested zero bytes") ∨
        (request.bytes ≠ 0 ∧ Continues g.drained g' ∧ g.drained.ledger.maxSatisfiable < request.bytes ∧
          err = .hostQuotaDenied request.bytes g.drained.ledger.maxSatisfiable) := by
  refine .bind (.require (fun hne => ?_) fun hz => .inl ⟨not_not.mp hz, rfl, rfl⟩)
  refine Ensures.bind (Ensures.drain hs fun w => Ensures.bind (Ensures.getLedger ?_))
  by_cases hq : g.drained.ledger.maxSatisfiable < request.bytes
  · rw [if_pos hq]
    exact Ensures.bind (Ensures.wakeAll (Ensures.throw (.inr ⟨hne, .woken _ _, hq, rfl⟩)))
  · rw [if_neg hq]
    exact .pure ⟨hne, rfl⟩

/-- What the submission of a request does, when it has a slot. -/
structure Submits (g : Governor) (id : RequestId) (generation : Generation) (g' : Governor) : Prop where
  moves : Moves g.history g'.history
  claims : ∀ j, g'.trace.claims j = g.trace.claims j
  reserved : g.mailbox.reserved ≠ g.mailbox.capacity
  mailbox : g'.mailbox = { g.mailbox with reserved := g.mailbox.reserved + 1 }
  new : id = g.ledger.nextRequest
  issued : id < g'.ledger.nextRequest
  generation : ∀ e, g'.ledger.entries.lookup id = some e → e.generation = generation
  workConserving : WorkConserving g'.ledger

/-- A request is refused if the mailbox has no slot for it. -/
theorem requestSubmit_spec (g : Governor) (request : HostPageRequest) (wakeups : List RequestId) :
    Ensures (requestSubmit request wakeups) g (fun ticket g' => Submits g ticket.1 ticket.2 g')
      fun err g' => Continues g g' ∧ g.mailbox.reserved = g.mailbox.capacity ∧
        err = .hostMailboxBackpressure g.mailbox.capacity := by
  refine Ensures.bind (Ensures.get (Ensures.bind (Ensures.setLedger ?_)))
  by_cases hfull : g.mailbox.reserved = g.mailbox.capacity
  · simp only [CancelMailbox.reserveSlot, if_pos hfull]
    refine Ensures.bind (Ensures.wakeAll (Ensures.throw ⟨⟨.quiet (.skipped g.ledger g.trace) rfl rfl, ?_⟩, hfull, rfl⟩))
    exact WorkConserving.congr (l := g.ledger) rfl rfl rfl
  · simp only [CancelMailbox.reserveSlot, if_neg hfull]
    refine Ensures.bind (Ensures.modify (Ensures.bind (Ensures.setLedger (Ensures.bind (Ensures.emit ?_)))))
    have hsubmit := Move.submit g.ledger g.trace request
    have hgen : ∀ e, (g.ledger.submitted request).entries.lookup g.ledger.nextRequest = some e →
        e.generation = g.ledger.generation := by
      intro e he
      rw [lookup_submitted, if_pos rfl, Option.some_inj] at he
      subst he
      rfl
    refine .bind (.mono (arbitrateOrWake_spec wakeups _) (fun arbitrated g₁ h₁ => ?_) fun _ _ hf => hf.elim)
    refine Ensures.bind (Ensures.getLedger (Ensures.bind (Ensures.setLedger
      (Ensures.bind (Ensures.wakeAll (Ensures.pure ?_))))))
    have hmoves : Moves (g.ledger.submitted request, _) (g₁.ledger.withReclaimNotices, g₁.trace) :=
      h₁.1.moves.tail (.notices g₁.ledger g₁.trace)
    refine ⟨.head hsubmit hmoves, fun j => (h₁.1.claims j).trans (by simp [PressureEvent.claims]), hfull,
      h₁.1.mailbox, rfl, ?_, ?_, WorkConserving.congr (l := g₁.ledger) rfl rfl rfl h₁.2⟩
    · exact (lt_succ_self g.ledger.nextRequest).trans_le (Moves.nextRequest_le hmoves)
    · exact Moves.generation hmoves (lt_succ_self _) hgen

/-- An allocation on record. -/
theorem checkRecorded_eq_ok {allocation recorded : HostAllocation} (h : checkRecorded l allocation = .ok recorded) :
    recorded = allocation ∧ ∃ e, l.entries.lookup allocation.requestId = some e ∧ e.state = .claimed allocation := by
  obtain ⟨r, hr, h⟩ := bind_eq_ok.mp h
  by_cases hne : allocation ≠ r
  · rw [if_pos hne] at h
    cases h
  · rw [if_neg hne, Except.ok.injEq] at h
    obtain rfl := not_not.mp hne
    refine ⟨h.symm, ?_⟩
    unfold claimedAllocation at hr
    split at hr
    case h_1 e he =>
      refine ⟨e, he, ?_⟩
      split at hr
      case h_1 recorded' hst =>
        rw [hst, Except.ok.inj hr]
      case h_2 => cases hr
    case h_2 => cases hr

/-- A release is refused only if the allocation is not on record. -/
theorem releaseHostPages_spec (hs : Sound g.history) (allocation : HostAllocation) :
    Ensures (releaseHostPages allocation) g (fun _ g' => Continues g.drained g')
      fun err g' => Continues g.drained g' ∧ checkRecorded g.drained.ledger allocation = .error err := by
  have hs' := sound_drained hs
  refine Ensures.bind (Ensures.drain hs fun w => Ensures.bind (Ensures.getLedger (Ensures.bind
    (Ensures.orWake (fun recorded hrec => ?_) fun err herr => ⟨.woken _ _, herr⟩))))
  obtain ⟨rfl, e, he, hst⟩ := checkRecorded_eq_ok hrec
  have ha := allocation_claimed hst
  have hbytes : recorded.bytes = e.bytes := ((hs'.numbered.entry _ e he).charged _ ha).2.1
  have hlt : g.drained.ledger.free + recorded.bytes < u64Size := by
    rw [hbytes]
    exact hs'.balanced.credit he ha
  have hmove : Advances g.drained { g.drained with
      ledger := (g.drained.ledger.credited recorded.bytes).remove recorded.requestId
      trace := g.drained.trace ++ [(.release recorded.requestId recorded.id recorded.bytes,
        g.drained.ledger.credited recorded.bytes)] } := by
    rw [hbytes]
    exact .event (.release g.drained.trace he hst) rfl rfl fun _ => rfl
  refine Ensures.bind (Ensures.orWake_ok (checkedAdd_of_lt hlt) ?_)
  refine Ensures.bind (Ensures.setLedger (Ensures.bind (Ensures.emit (Ensures.bind (Ensures.setLedger ?_)))))
  exact .mono (arbitrateAndWake_spec w hmove) (fun _ g' h => ⟨h.1, fun _ => h.2⟩) fun _ _ hf => hf.elim

/-- A reclaim is refused only if it asks for more than the device holds. -/
theorem reclaim_spec (hs : Sound g.history) (device : DeviceId) (bytes : ℕ) :
    Ensures (reclaim device bytes) g (fun _ g' => (bytes = 0 ∧ g' = g) ∨ (bytes ≠ 0 ∧ Continues g.drained g'))
      fun err g' => bytes ≠ 0 ∧ Continues g.drained g' ∧
        (g.drained.ledger.reclaimable.lookup device).getD 0 < bytes ∧
        checkedSub ((g.drained.ledger.reclaimable.lookup device).getD 0) bytes "reclaim debit" = .error err := by
  have hs' := sound_drained hs
  unfold reclaim
  by_cases hz : bytes = 0
  · rw [if_pos hz]
    exact .pure (.inl ⟨hz, rfl⟩)
  · rw [if_neg hz]
    refine Ensures.bind (Ensures.drain hs fun w => Ensures.bind (Ensures.getLedger (Ensures.bind ?_)))
    by_cases hheld : bytes ≤ (g.drained.ledger.reclaimable.lookup device).getD 0
    · have hlt : g.drained.ledger.free + bytes < u64Size := hs'.balanced.reclaim hheld
      have hmove : Advances g.drained { g.drained with
          ledger := g.drained.ledger.reclaimed device bytes
          trace := g.drained.trace ++ [(.reclaim device bytes, g.drained.ledger.reclaimed device bytes)] } :=
        .event (.reclaim g.drained.trace hheld) rfl rfl fun _ => rfl
      rw [checkedSub_of_le hheld]
      refine Ensures.pure (Ensures.bind (Ensures.setLedger (Ensures.bind
        (Ensures.orWake_ok (checkedAdd_of_lt hlt) ?_))))
      refine Ensures.bind (Ensures.setLedger (Ensures.bind (Ensures.emit ?_)))
      exact .mono (arbitrateAndWake_spec w hmove) (fun _ g' h => .inr ⟨hz, h.1, fun _ => h.2⟩)
        fun _ _ hf => hf.elim
    · refine Ensures.orWake (fun remaining hrem => ?_) fun err herr => ⟨hz, .woken _ _, not_le.mp hheld, herr⟩
      rw [checkedSub, if_neg hheld] at hrem
      cases hrem

/-- No request of the last generation waits under a new one. -/
theorem workConserving_reconfigured (hn : Numbered l) : WorkConserving l.reconfigured := by
  intro q e' hq hw
  rw [lookup_reconfigured] at hq
  obtain ⟨e, he, rfl⟩ := Option.map_eq_some_iff.mp hq
  have hcur := (hn.entry q e he).current
  unfold invalidated at hw
  split at hw
  · simp [waits, isPending] at hw
  · simp only [waits, Bool.and_eq_true, decide_eq_true_eq] at hw
    have hnew : e.generation = l.generation + 1 := hw.2
    rw [hcur hw.1] at hnew
    exact absurd hnew (succ_ne_self _).symm

theorem reconfigure_spec (hs : Sound g.history) :
    Ensures reconfigure g (fun _ g' => Continues g.drained g') fun _ _ => False := by
  refine Ensures.bind (Ensures.drain hs fun w => Ensures.bind (Ensures.getLedger (Ensures.bind (Ensures.setLedger
    (Ensures.bind (Ensures.emit (Ensures.wakeAll ?_)))))))
  exact ⟨.event (.reconfigure g.drained.ledger g.drained.trace) rfl rfl fun _ => rfl,
    fun _ => workConserving_reconfigured (sound_drained hs).numbered⟩

/-- What a deadline does: it leaves the ledger work-conserving if it drops no request that
others wait for. -/
structure TimesOut (g : Governor) (id : RequestId) (g' : Governor) : Prop where
  advances : Advances g g'
  workConserving : WorkConserving g.ledger → Harmless g.ledger id → WorkConserving g'.ledger
  stops : ∀ e, g.ledger.entries.lookup id = some e → e.isPending = true → StopsWaiting g.ledger g'.ledger id

/-- A deadline never fails. -/
theorem timeOut_spec (hs : Sound g.history) (id : RequestId) :
    Ensures (timeOut id) g (fun _ g' => TimesOut g.drained id g') fun _ _ => False := by
  have hs' := sound_drained hs
  have hnoop : (∀ e, g.drained.ledger.entries.lookup id = some e → e.isPending ≠ true) →
      ∀ w, TimesOut g.drained id { g.drained with woken := w } := fun hnot w =>
    ⟨(Continues.woken _ w).advances, fun hwc _ => hwc, fun e he hp => absurd hp (hnot e he)⟩
  refine Ensures.bind (Ensures.drain hs fun w => Ensures.bind (Ensures.getLedger ?_))
  cases h : g.drained.ledger.entries.lookup id with
  | none =>
    exact Ensures.bind (Ensures.wakeAll (Ensures.pure (hnoop (fun _ he => nomatch h.symm.trans he) _)))
  | some e =>
    have hnot : e.isPending = false → ∀ f, g.drained.ledger.entries.lookup id = some f → f.isPending ≠ true := by
      intro hp f hf
      cases h.symm.trans hf
      rw [hp]
      exact Bool.false_ne_true
    dsimp only
    cases hst : e.state with
    | pending request =>
      have hp : e.isPending = true := by simp [isPending, hst]
      have hstop : StopsWaiting g.drained.ledger
          (g.drained.ledger.setState id (.failed (.hostPressureTimeout id))) id :=
        stopsWaiting_setState _ id fun _ => by simp
      refine Ensures.bind (Ensures.setLedger (Ensures.bind (Ensures.emit (Ensures.bind (Ensures.wakeAll
        (.pure ?_))))))
      exact ⟨.event (.timeoutPending g.drained.trace h hp) rfl rfl fun _ => rfl,
        fun hwc hh => (hstop.workConserving_iff hwc).mpr hh, fun _ _ _ => hstop⟩
    | granted a =>
      have ha := allocation_granted hst
      have hlt : g.drained.ledger.free + e.bytes < u64Size := hs'.balanced.credit h ha
      have hmove : Advances g.drained { g.drained with
          ledger := (g.drained.ledger.credited e.bytes).setState id (.failed (.hostPressureTimeout id))
          trace := g.drained.trace ++ [(.timeoutGranted id a.id e.bytes,
            (g.drained.ledger.credited e.bytes).setState id (.failed (.hostPressureTimeout id)))] } :=
        .event (.timeoutGranted g.drained.trace h hst) rfl rfl fun _ => rfl
      refine Ensures.bind (Ensures.orWake_ok (checkedAdd_of_lt hlt) ?_)
      refine Ensures.bind (Ensures.setLedger (Ensures.bind (Ensures.emit (Ensures.bind
        (.mono (arbitrateOrWake_spec w _) (fun arbitrated g₁ h₁ => ?_) fun _ _ hf => hf)))))
      refine Ensures.bind (Ensures.wakeAll (Ensures.pure ?_))
      exact ⟨(hmove.trans h₁.1).trans (Continues.woken _ _).advances, fun _ _ => h₁.2,
        fun f hf hp => absurd hp (hnot (by simp [isPending, hst]) f hf)⟩
    | claimed | cancelled | failed =>
      exact Ensures.bind (Ensures.wakeAll (Ensures.pure (hnoop (hnot (by simp [isPending, hst])) _)))

theorem processCancellations_spec (hs : Sound g.history) :
    Ensures processCancellations g (fun _ g' => Continues g.drained g') fun _ _ => False := by
  exact Ensures.bind (Ensures.drain hs fun w => Ensures.wakeAll (.woken _ _))

/-! ### Snapshots -/

theorem foldlM_checkedAdd (operation : String) (values : List ℕ) (acc : ℕ) (h : acc + values.sum < u64Size) :
    values.foldlM (fun total bytes => checkedAdd total bytes operation) acc = .ok (acc + values.sum) := by
  induction values generalizing acc with
  | nil => rfl
  | cons v vs ih =>
    simp only [List.sum_cons] at h ⊢
    rw [List.foldlM_cons, checkedAdd_of_lt (by omega)]
    have := ih (acc + v) (by omega)
    rw [add_assoc] at this
    exact this

theorem checkedSum_of_lt {operation : String} {values : List ℕ} (h : values.sum < u64Size) :
    checkedSum operation values = .ok values.sum := by
  have := foldlM_checkedAdd operation values 0 (by rwa [zero_add])
  rwa [zero_add] at this

/-- **A snapshot of a balanced ledger agrees with it.** -/
theorem snapshot_balanced (hb : Balanced l) : ∃ snap, l.snapshot = .ok snap := by
  have hsum := hb.conserved
  have hbound := hb.bounded
  unfold accounted at hsum
  have hr : l.reclaimableTotal = .ok (total l.reclaimable id) := by
    have : (l.reclaimable.entries.map Sigma.snd).sum = total l.reclaimable id := rfl
    rw [reclaimableTotal, checkedSum_of_lt (by omega), this]
  have hres : l.reservedTotal = .ok (total l.entries reservedBytes) := by
    have : (l.entries.entries.map fun e => e.2.reservedBytes).sum = total l.entries reservedBytes := rfl
    rw [reservedTotal, checkedSum_of_lt (by omega), this]
  have hcl : l.claimedTotal = .ok (total l.entries claimedBytes) := by
    have : (l.entries.entries.map fun e => e.2.claimedBytes).sum = total l.entries claimedBytes := rfl
    rw [claimedTotal, checkedSum_of_lt (by omega), this]
  unfold Ledger.snapshot
  rw [hr, hres, hcl]
  simp only [Bind.bind, Except.bind]
  rw [checkedAdd_of_lt (by omega)]
  simp only
  rw [checkedAdd_of_lt (by omega)]
  simp only
  rw [checkedAdd_of_lt (by omega)]
  simp only
  rw [checkedSub_of_le (by omega)]
  simp only
  rw [if_neg (by omega), if_neg (by omega)]
  exact ⟨_, rfl⟩

/-- A snapshot never fails. -/
theorem snapshot_spec (hs : Sound g.history) :
    Ensures snapshot g (fun _ g' => Continues g.drained g') fun _ _ => False := by
  obtain ⟨snap, hsnap⟩ := snapshot_balanced (sound_drained hs).balanced
  exact Ensures.bind (Ensures.drain hs fun w => Ensures.bind (Ensures.getLedger (Ensures.bind (Ensures.wakeAll
    (.liftResult_ok hsnap (.woken _ _))))))

/-! ### Claims -/

theorem Ledger.remove_of_none (h : l.entries.lookup id = none) : l.remove id = l := by
  have hmem : id ∉ l.entries.entries.keys := fun hk => by
    have : (l.entries.lookup id).isSome := AList.lookup_isSome.mpr hk
    rw [h] at this
    cases this
  have herase : l.entries.erase id = l.entries := AList.ext (List.kerase_of_notMem_keys hmem)
  rw [remove, herase]

/-- What a poll does. -/
structure Polls (g : Governor) (id : RequestId) (poll : TicketPoll) (g' : Governor) : Prop where
  moves : Moves g.history g'.history
  mailbox : g'.mailbox = g.mailbox
  others : ∀ j, j ≠ id → g'.trace.claims j = g.trace.claims j
  pending : poll = .pending → ∀ j, g'.trace.claims j = g.trace.claims j
  failed : ∀ err, poll = .failed err → ∃ e, g.ledger.entries.lookup id = some e ∧ e.state = .failed err
  workConserving : WorkConserving g.ledger → WorkConserving g'.ledger

theorem Continues.polls (h : Continues g g') (id : RequestId) {poll : TicketPoll}
    (hf : ∀ err, poll = .failed err → ∃ e, g.ledger.entries.lookup id = some e ∧ e.state = .failed err) :
    Polls g id poll g' :=
  ⟨h.advances.moves, h.advances.mailbox, fun j _ => h.advances.claims j, fun _ => h.advances.claims, hf,
    h.workConserving⟩

/-- Dropping an entry that does not wait and holds nothing. -/
theorem continues_reap (h : g.ledger.entries.lookup id = some e) (hp : e.isPending = false)
    (ha : e.allocation = none) : Continues g { g with ledger := g.ledger.remove id } := by
  have hnot : Harmless g.ledger id := .of_not_waits fun f hf => by
    cases h.symm.trans hf
    simp [waits, hp]
  exact ⟨.quiet (.reap g.trace h hp ha) rfl rfl,
    fun hwc => ((stopsWaiting_removed g.ledger id).workConserving_iff hwc).mpr hnot⟩

theorem claimEntry_spec (g : Governor) (id : RequestId) :
    Ensures (claimEntry id) g (fun poll g' => Polls g id poll g') fun _ _ => False := by
  refine Ensures.bind (Ensures.getLedger ?_)
  cases h : g.ledger.entries.lookup id with
  | none =>
    refine Ensures.bind (Ensures.setLedger (Ensures.pure ?_))
    rw [remove_of_none h]
    exact (Continues.refl g).polls id fun err herr => by cases herr
  | some e =>
    dsimp only
    cases hst : e.state with
    | pending | claimed => exact .pure ((Continues.refl g).polls id fun err herr => by cases herr)
    | granted a =>
      refine Ensures.bind (Ensures.setLedger (Ensures.bind (Ensures.emit (Ensures.pure ?_))))
      have hstop : StopsWaiting g.ledger (g.ledger.setState id (.claimed a)) id :=
        stopsWaiting_setState _ id fun _ => by simp
      have hnot : Harmless g.ledger id := .of_not_waits fun f hf => by
        cases h.symm.trans hf
        simp [waits, isPending, hst]
      refine ⟨.single (.claim g.trace h hst), rfl, fun j hj => ?_, fun hp => (by cases hp), fun err herr => (by cases herr),
        fun hwc => (hstop.workConserving_iff hwc).mpr hnot⟩
      simp [PressureEvent.claims, Ne.symm hj]
    | cancelled =>
      refine Ensures.bind (Ensures.setLedger (Ensures.pure ?_))
      exact (continues_reap h (by simp [isPending, hst]) (by simp [allocation, hst])).polls id fun err herr => by cases herr
    | failed err =>
      refine Ensures.bind (Ensures.setLedger (Ensures.pure ?_))
      refine (continues_reap h (by simp [isPending, hst]) (by simp [allocation, hst])).polls id fun err' herr => ?_
      cases herr
      exact ⟨e, h, hst⟩

/-- A poll always answers, from the ledger after the drain. -/
theorem tryClaim_spec (hs : Sound g.history) (id : RequestId) :
    Ensures (tryClaim id) g (fun poll g' => Polls g.drained id poll g') fun _ _ => False := by
  refine Ensures.bind (Ensures.attempt (Ensures.drain hs fun w => ?_))
  refine Ensures.bind (Ensures.mono (claimEntry_spec g.drained id) (fun poll g' hg' => ?_) fun _ _ hf => hf)
  refine Ensures.bind (Ensures.wakeAll (Ensures.pure ?_))
  exact ⟨hg'.moves, hg'.mailbox, hg'.others, hg'.pending, hg'.failed, hg'.workConserving⟩

end OnnxGenai.Pressure
