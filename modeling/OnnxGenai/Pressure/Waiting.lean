import OnnxGenai.Pressure.Tickets

/-!
# Those who wait

Two properties of the order in which requests are granted, over all interleavings.

A mature request is not overtaken (`no_overtaking`): while it waits, nothing that was
submitted after it is granted.

A request that fits is kept waiting only by a mature one ahead of it that does not fit
(`work_conserving`). This needs a condition: when the request that holds the others back is
itself cancelled or timed out, nothing arbitrates, and those behind it keep waiting though
they fit (`timed_out_blocker`).
-/

namespace OnnxGenai.Pressure

open Lib

/-! ### A mature request is not overtaken -/

/-- What a move adds to the trace: a grant is made while no mature request waits that was
submitted earlier. -/
theorem Move.added {l l' : Ledger} {tr tr' : Trace} (hm : Move (l, tr) (l', tr')) :
    ∃ added, tr' = tr ++ added ∧ ∀ q a owner bytes m, (PressureEvent.grant q a owner bytes, m) ∈ added →
      ∃ e, l.entries.lookup q = some e ∧ l.NoneMaturedBefore e.submitSeq ∧ m = l.granted q e := by
  cases hm with
  | aged | notices | skipped | reap => exact ⟨[], by simp⟩
  | @grant _ id e _ h hw hfit hfirst =>
    refine ⟨_, rfl, fun q a owner bytes m hmem => ?_⟩
    simp only [List.mem_singleton, Prod.mk.injEq, PressureEvent.grant.injEq] at hmem
    obtain ⟨⟨rfl, -⟩, rfl⟩ := hmem
    exact ⟨e, h, hfirst, rfl⟩
  | _ => exact ⟨_, rfl, by simp⟩

/-- While it waits, a mature request stays mature. -/
theorem Moves.matured {x y : Ledger × Trace} (hm : Moves x y) {r : RequestId} {f : LedgerEntry}
    (hid : r < x.1.nextRequest) (hr : x.1.entries.lookup r = some f) (hage : agingCap ≤ f.age) :
    ∀ f', y.1.entries.lookup r = some f' → f'.isPending = true → agingCap ≤ f'.age ∧ f'.submitSeq = f.submitSeq := by
  induction hm with
  | refl =>
    intro f' hf' _
    cases hr.symm.trans hf'
    exact ⟨hage, rfl⟩
  | @tail y z hxy hyz ih =>
    obtain ⟨l, tr⟩ := y
    obtain ⟨l', tr'⟩ := z
    intro f' hz hp
    cases hyz.origin hz with
    | heir he heir =>
      obtain ⟨hold, hseq⟩ := ih _ he (heir.pending hp).1
      exact ⟨heir.matured hold, heir.submitSeq.trans hseq⟩
    | submitted request hnew => exact absurd hnew (hid.trans_le (Moves.nextRequest_le hxy)).ne
    | granted he hw hl heq =>
      subst heq
      cases hp

/-- Along moves, nothing submitted later is granted while a mature request waits. -/
theorem Moves.noOvertaking {x y : Ledger × Trace} (hm : Moves x y) (hs : Sound x) {r : RequestId} {f : LedgerEntry}
    (hr : x.1.entries.lookup r = some f) (hage : agingCap ≤ f.age) :
    ∃ later, y.2 = x.2 ++ later ∧ ∀ q a owner bytes m, (PressureEvent.grant q a owner bytes, m) ∈ later →
      ∀ f', m.entries.lookup r = some f' → f'.isPending = true →
        ∃ e, m.entries.lookup q = some e ∧ e.submitSeq ≤ f.submitSeq := by
  have hid := (hs.numbered.entry r f hr).issued
  induction hm with
  | refl => exact ⟨[], by simp⟩
  | @tail y z hxy hyz ih =>
    obtain ⟨later, hlater, hgrants⟩ := ih
    obtain ⟨l, tr⟩ := y
    obtain ⟨l', tr'⟩ := z
    obtain ⟨added, hadded, hgrant⟩ := hyz.added
    refine ⟨later ++ added, ?_, fun q a owner bytes m hmem f' hf' hp => ?_⟩
    · simp only at hlater ⊢
      rw [hadded, hlater, List.append_assoc]
    · rcases List.mem_append.mp hmem with hmem | hmem
      · exact hgrants q a owner bytes m hmem f' hf' hp
      · obtain ⟨e, he, hfirst, rfl⟩ := hgrant q a owner bytes m hmem
        rw [Ledger.lookup_granted he] at hf'
        by_cases hrq : r = q
        · rw [if_pos hrq, Option.some_inj] at hf'
          subst hf'
          cases hp
        · rw [if_neg hrq] at hf'
          obtain ⟨hold, hseq⟩ := Moves.matured hxy hid hr hage f' hf' hp
          have hcur := ((hs.moves hxy).numbered.entry r f' hf').current hp
          refine ⟨_, by rw [Ledger.lookup_granted he, if_pos rfl], ?_⟩
          rw [← hseq]
          exact hfirst r f' hf' (by simp [Ledger.waits, hp, hcur]) hold

namespace System

/-- The states of the runs that start in `s`. -/
abbrev ReachesFrom (s s' : System) : Prop := Reachable (· = s) allowed step s'

theorem ReachesFrom.moves {s s' : System} (hi : Inv s) (h : s.ReachesFrom s') :
    Inv s' ∧ Moves s.gov.history s'.gov.history := by
  refine Reachable.invariant (I := fun s' => Inv s' ∧ Moves s.gov.history s'.gov.history) ?_ ?_ h
  · rintro _ rfl
    exact ⟨hi, .refl⟩
  · rintro s₁ a ⟨hi₁, hm⟩ ha
    exact ⟨(hi₁.step ha).inv, hm.trans (hi₁.step ha).moves⟩

/-- **No overtaking after maturity.** From any state of any run in which a request is mature,
and along any continuation, whatever is granted while it waits was submitted no later. A
request that no longer waits never waits again, so it does not matter whether it still does
in the first state. -/
theorem no_overtaking {s s' : System} (h : s.Reaches) (hrun : s.ReachesFrom s') {r : RequestId} {f : LedgerEntry}
    (hr : s.gov.ledger.entries.lookup r = some f) (hage : agingCap ≤ f.age) :
    ∃ later, s'.gov.trace = s.gov.trace ++ later ∧
      ∀ q a owner bytes l, (PressureEvent.grant q a owner bytes, l) ∈ later →
        ∀ f', l.entries.lookup r = some f' → f'.isPending = true →
          ∃ e, l.entries.lookup q = some e ∧ e.submitSeq ≤ f.submitSeq :=
  Moves.noOvertaking (hrun.moves h.inv).2 h.inv.sound hr hage

/-- A governor of 20 bytes, all of them free. -/
def roomy : System :=
  ⟨⟨⟨20, 0, 20, ∅, 0, ∅, 1, 1, 0, false⟩, ⟨[], 0, 16⟩, [], []⟩, ∅, none, []⟩

theorem roomy_initial : roomy.Initial := ⟨⟨⟨20, 0, [], 16, by decide⟩, rfl⟩, rfl, rfl, rfl⟩

/-- A whole request. -/
def requesting (bytes : ℕ) : List Action := [.beginRequest ⟨0, bytes, 0, false⟩, .finishRequest]

/-- Request 2 asks for 15 bytes while 10 are taken. It is passed over for six requests of one
byte, and is mature when the seventh, request 9, comes: that one has to wait behind it,
though 4 bytes are free. -/
def crowded : System := (([10, 15, 1, 1, 1, 1, 1, 1, 1].flatMap requesting).foldl step roomy)

theorem crowded_reaches : crowded.Reaches :=
  Reachable.foldl ([10, 15, 1, 1, 1, 1, 1, 1, 1].flatMap requesting) (.start roomy_initial) (by decide)

/-- The entry of request 2 in `crowded`. -/
def large : LedgerEntry := ⟨0, 15, 0, false, 0, 1, 8, .pending ⟨0, 15, 0, false⟩⟩

/-- Request 1 is claimed, and returns its bytes. -/
def returning : List Action := [.tryClaim 1, .disarm 1, .release ⟨1, 1, 0, 10, 0, false⟩]

theorem no_overtaking_crowded : crowded.gov.ledger.entries.lookup 2 = some large ∧
    ∃ later, (returning.foldl step crowded).gov.trace = crowded.gov.trace ++ later ∧
      ∀ q a owner bytes l, (PressureEvent.grant q a owner bytes, l) ∈ later →
        ∀ f', l.entries.lookup 2 = some f' → f'.isPending = true →
          ∃ e, l.entries.lookup q = some e ∧ e.submitSeq ≤ large.submitSeq :=
  have hr : crowded.gov.ledger.entries.lookup 2 = some large := by decide
  ⟨hr, no_overtaking crowded_reaches (Reachable.foldl returning (.start rfl) (by decide)) hr (by decide)⟩

/-! ### Work conservation -/

/-- The states of the runs whose actions cancel and time out no request that others wait for. -/
abbrev ReachesHarmlessly (s : System) : Prop :=
  Reachable Initial (fun s a => s.allowed a ∧ s.HarmlessStep a) step s

theorem ReachesHarmlessly.workConserving {s : System} (h : s.ReachesHarmlessly) :
    Inv s ∧ WorkConserving s.gov.ledger := by
  refine Reachable.invariant (I := fun s => Inv s ∧ WorkConserving s.gov.ledger) ?_ ?_ h
  · intro s hinit
    obtain ⟨config, hnew⟩ := hinit.1
    exact ⟨.initial hinit, (new_spec hnew).2.2.2.2⟩
  · rintro s a ⟨hi, hwc⟩ ⟨ha, hh⟩
    exact ⟨(hi.step ha).inv, (hi.step ha).workConserving hwc hh⟩

/-- **Work conservation.** In every state of every run whose actions are harmless, a request
that waits though it fits has a mature one ahead of it that does not fit. The condition is
exact for each of the two calls that drop a request that waits: a deadline, and the
application of a cancellation, leave the ledger work-conserving if and only if no request
that fits waits because of the one they drop. -/
theorem work_conserving {s : System} (h : s.ReachesHarmlessly) :
    WorkConserving s.gov.ledger ∧
      (∀ id e, s.gov.drained.ledger.entries.lookup id = some e → e.isPending = true →
        WorkConserving s.gov.drained.ledger →
        (WorkConserving (s.step (.timeOut id)).gov.ledger ↔ Harmless s.gov.drained.ledger id)) ∧
      ∀ c e, s.gov.ledger.entries.lookup c.requestId = some e → e.isPending = true → e.generation = c.generation →
        (WorkConserving (final (applyCancel c) s.gov).ledger ↔ Harmless s.gov.ledger c.requestId) := by
  obtain ⟨hi, hwc⟩ := h.workConserving
  refine ⟨hwc, fun id e he hp hwc' => ?_, fun c e he hp hg => ?_⟩
  · have htimes : TimesOut s.gov.drained id (final (Pressure.timeOut id) s.gov) :=
      Ensures.final (Ensures.mono (timeOut_spec hi.sound id) (fun _ _ h => h) fun _ _ h => h.elim)
    exact (htimes.stops e he hp).workConserving_iff hwc'
  · have hcancel : AppliesCancel s.gov c (final (applyCancel c) s.gov) :=
      Ensures.final (Ensures.mono (applyCancel_spec hi.sound c) (fun _ _ h => h) fun _ _ h => h.elim)
    exact (hcancel.stops e he hp hg).workConserving_iff hwc

/-- A request that is not mature times out, and nothing waited for it. -/
theorem work_conserving_young :
    WorkConserving ((([10, 15].flatMap requesting).foldl step roomy).step (.timeOut 2)).gov.ledger := by
  have hquiet : ∀ (s : System) (a : Action), s.gov.mailbox.queue = [] → (∀ id, a ≠ .timeOut id) → s.HarmlessStep a := by
    intro s a hq ha
    refine ⟨fun _ => ?_, fun id h => absurd h (ha id)⟩
    rw [hq]
    trivial
  have hrequest : ∀ (s : System) (bytes : ℕ), s.gov.mailbox.queue = [] →
      (s.step (.beginRequest ⟨0, bytes, 0, false⟩)).gov.mailbox.queue = [] →
      AllAllowed allowed step s (requesting bytes) → s.ReachesHarmlessly →
      ((requesting bytes).foldl step s).ReachesHarmlessly := fun s bytes hq hq' ha h =>
    (h.next ⟨ha.1, hquiet _ _ hq fun _ => by simp⟩).next ⟨ha.2.1, hquiet _ _ hq' fun _ => by simp⟩
  have h₁ := hrequest roomy 10 rfl (by decide) (by decide) (.start roomy_initial)
  have h₂ := hrequest _ 15 (by decide) (by decide) (by decide) h₁
  refine (work_conserving (h₂.next ⟨by decide, ⟨fun _ => ?_, ?_⟩⟩)).1
  · exact trivial
  · rintro id hid
    cases hid
    refine fun f hb => absurd hb.matured ?_
    have hf : f = { large with age := 1 } := Option.some_inj.mp (hb.lookup.symm.trans (by decide))
    rw [hf]
    decide

/-- The entry of request 9 in `crowded`. -/
def kept : LedgerEntry := ⟨0, 1, 0, false, 0, 8, 1, .pending ⟨0, 1, 0, false⟩⟩

/-- Without the condition it fails: request 2 times out in `crowded`, and request 9 keeps
waiting for its one byte, with 4 free and nothing ahead of it. -/
theorem timed_out_blocker : (crowded.step (.timeOut 2)).Reaches ∧
    (crowded.step (.timeOut 2)).gov.mailbox.queue = [] ∧ ¬ WorkConserving (crowded.step (.timeOut 2)).gov.ledger := by
  refine ⟨crowded_reaches.next (by decide), by decide, fun hwc => ?_⟩
  obtain ⟨p, f, hb, -⟩ := hwc 9 kept (by decide) (by decide) (by decide)
  have hnone : (crowded.step (.timeOut 2)).gov.ledger.entries.entries.all fun x =>
      !((crowded.step (.timeOut 2)).gov.ledger.waits x.2 && decide (agingCap ≤ x.2.age)) := by decide
  have := List.all_eq_true.mp hnone ⟨p, f⟩ (AList.mem_lookup_iff.mp hb.lookup)
  simp [hb.waits, hb.matured] at this

end System

end OnnxGenai.Pressure
