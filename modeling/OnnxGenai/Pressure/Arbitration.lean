import OnnxGenai.Pressure.Soundness

/-!
# Arbitration

Arbitration sorts the requests that wait and grants them in that order, passing over what
does not fit until it meets a mature request that does not fit. So it never grants a
request while a mature one that was submitted earlier waits, and when it is done no
request that fits is left waiting, unless a mature one ahead of it does not fit
(`WorkConserving`).
-/

namespace OnnxGenai.Pressure

open Lib Ledger LedgerEntry List

/-! ### The order of arbitration -/

namespace Candidate

/-- The order, by maturity. -/
theorem before_iff (a b : Candidate) : a.before b ↔
    (a.matured = true ∧ b.matured = false) ∨
    (a.matured = true ∧ b.matured = true ∧ a.submitSeq ≤ b.submitSeq) ∨
    (a.matured = false ∧ b.matured = false ∧
      (b.priority < a.priority ∨ a.priority = b.priority ∧ a.submitSeq ≤ b.submitSeq)) := by
  unfold before
  cases ha : a.matured <;> cases hb : b.matured <;> simp
  by_cases hp : a.priority = b.priority <;> simp [hp]

theorem before_total (a b : Candidate) : a.before b ∨ b.before a := by
  rw [before_iff, before_iff]
  cases a.matured <;> cases b.matured <;> simp <;> omega

theorem before_trans {a b c : Candidate} (hab : a.before b) (hbc : b.before c) : a.before c := by
  rw [before_iff] at *
  cases ha : a.matured <;> cases hb : b.matured <;> cases hc : c.matured <;> simp_all <;> omega

instance : Std.Total Candidate.before := ⟨before_total⟩

instance : IsTrans Candidate Candidate.before := ⟨fun _ _ _ => before_trans⟩

/-- What is ahead of a mature request is mature, and was submitted no later. -/
theorem before_matured {a b : Candidate} (h : a.before b) (hb : b.matured = true) :
    a.matured = true ∧ a.submitSeq ≤ b.submitSeq := by
  rw [before_iff] at h
  simp_all

end Candidate

/-! ### Work conservation -/

/-- Whether a request fits into what is free. -/
def Ledger.fits (l : Ledger) (e : LedgerEntry) : Prop := e.bytes ≤ l.free

instance (l : Ledger) (e : LedgerEntry) : Decidable (l.fits e) := inferInstanceAs (Decidable (_ ≤ _))

/-- A request waits, is mature, and does not fit. -/
structure Blocks (l : Ledger) (p : RequestId) (f : LedgerEntry) : Prop where
  lookup : l.entries.lookup p = some f
  waits : l.waits f = true
  matured : agingCap ≤ f.age
  large : ¬ l.fits f

/-- A request that waits though it fits has a mature one ahead of it that does not fit. -/
def WorkConserving (l : Ledger) : Prop :=
  ∀ q e, l.entries.lookup q = some e → l.waits e = true → l.fits e →
    ∃ p f, Blocks l p f ∧ (candidate p f).before (candidate q e)

/-! ### The primitives -/

section

variable {g : Governor} {E : ResourceError → Governor → Prop}

theorem Ensures.getLedger {Q : Ledger → Governor → Prop} (h : Q g.ledger g) : Ensures getLedger g Q E := h

theorem Ensures.setLedger {l : Ledger} {Q : Unit → Governor → Prop} (h : Q () { g with ledger := l }) :
    Ensures (setLedger l) g Q E := h

theorem Ensures.emit {event : PressureEvent} {Q : Unit → Governor → Prop}
    (h : Q () { g with trace := g.trace ++ [(event, g.ledger)] }) : Ensures (emit event) g Q E := h

theorem Ensures.wakeAll {wakeups : List RequestId} {Q : Unit → Governor → Prop}
    (h : Q () { g with woken := g.woken ++ wakeups }) : Ensures (wakeAll wakeups) g Q E := h

end

/-- The ledger and the trace of a governor. -/
def Governor.history (g : Governor) : Ledger × Trace := (g.ledger, g.trace)

/-- The ledger moves and nothing is claimed; the mailbox stays as it is. -/
structure Advances (g g' : Governor) : Prop where
  moves : Moves g.history g'.history
  mailbox : g'.mailbox = g.mailbox
  claims : ∀ id, g'.trace.claims id = g.trace.claims id

namespace Advances

theorem refl (g : Governor) : Advances g g := ⟨.refl, rfl, fun _ => rfl⟩

theorem trans {g₁ g₂ g₃ : Governor} (h : Advances g₁ g₂) (h' : Advances g₂ g₃) : Advances g₁ g₃ :=
  ⟨h.moves.trans h'.moves, h'.mailbox.trans h.mailbox, fun id => (h'.claims id).trans (h.claims id)⟩

/-- A move that records no event. -/
theorem quiet {g g' : Governor} (h : Move g.history g'.history) (hm : g'.mailbox = g.mailbox)
    (ht : g'.trace = g.trace) : Advances g g' :=
  ⟨.single h, hm, fun id => by rw [ht]⟩

/-- A move that records an event other than a claim. -/
theorem event {g g' : Governor} {ev : PressureEvent} {l : Ledger} (h : Move g.history g'.history)
    (hm : g'.mailbox = g.mailbox) (ht : g'.trace = g.trace ++ [(ev, l)]) (hev : ∀ id, ev.claims id = false) :
    Advances g g' :=
  ⟨.single h, hm, fun id => by rw [ht, Trace.claims_append, hev]; rfl⟩

end Advances

/-! ### The queue -/

/-- The candidates that arbitration still has to consider: a request that waits and is not
among them was passed over. -/
structure Queue (l : Ledger) (cs : List Candidate) : Prop where
  sorted : cs.Pairwise Candidate.before
  nodup : (cs.map Candidate.id).Nodup
  entry : ∀ c ∈ cs, ∃ e, l.entries.lookup c.id = some e ∧ l.waits e = true ∧ c = candidate c.id e
  rest : ∀ r f, l.entries.lookup r = some f → l.waits f = true →
    candidate r f ∈ cs ∨ (f.age < agingCap ∧ ¬ l.fits f)

namespace Queue

variable {l : Ledger} {c : Candidate} {cs : List Candidate} {e : LedgerEntry}

/-- Every request that waits is a candidate at first. -/
theorem candidates (l : Ledger) : Queue l l.candidates := by
  have hperm : l.candidates.Perm ((l.entries.entries.filter fun e => l.waits e.2).map fun e => candidate e.1 e.2) :=
    perm_insertionSort Candidate.before _
  refine ⟨pairwise_insertionSort _ _, ?_, fun c hc => ?_, fun r f h hw => .inl ?_⟩
  · rw [(hperm.map Candidate.id).nodup_iff, map_map]
    have hkeys : (l.entries.entries.map Sigma.fst).Nodup := l.entries.nodupKeys
    exact hkeys.sublist (filter_sublist.map _)
  · obtain ⟨x, hx, rfl⟩ := mem_map.mp (hperm.mem_iff.mp hc)
    obtain ⟨hx, hw⟩ := mem_filter.mp hx
    exact ⟨x.2, FiniteMap.lookup_of_mem_entries hx, hw, rfl⟩
  · refine hperm.mem_iff.mpr (mem_map.mpr ⟨⟨r, f⟩, mem_filter.mpr ⟨?_, hw⟩, rfl⟩)
    exact AList.mem_lookup_iff.mp h

section

variable (h : Queue l (c :: cs)) (he : l.entries.lookup c.id = some e)

include h he

/-- A candidate is the one its entry says. -/
theorem head : l.waits e = true ∧ c = candidate c.id e := by
  obtain ⟨f, hf, hw, hc⟩ := h.entry c mem_cons_self
  cases he.symm.trans hf
  exact ⟨hw, hc⟩

/-- No mature request that waits was submitted before the first candidate. -/
theorem noneMaturedBefore : l.NoneMaturedBefore e.submitSeq := by
  obtain ⟨-, hc⟩ := h.head he
  intro r f hr hw hage
  rcases h.rest r f hr hw with hmem | ⟨hyoung, -⟩
  · rcases mem_cons.mp hmem with heq | hmem
    · rw [hc] at heq
      exact (congrArg Candidate.submitSeq heq).ge
    · have hbefore := (pairwise_cons.mp h.sorted).1 _ hmem
      rw [hc] at hbefore
      exact (Candidate.before_matured hbefore (by simpa [candidate] using hage)).2
  · omega

/-- A young candidate that does not fit is passed over. -/
theorem skip (hfit : ¬ l.fits e) (hm : c.matured = false) : Queue l cs := by
  obtain ⟨-, hc⟩ := h.head he
  refine ⟨(pairwise_cons.mp h.sorted).2, (nodup_cons.mp h.nodup).2,
    fun d hd => h.entry d (mem_cons_of_mem c hd), fun r f hr hw => ?_⟩
  rcases h.rest r f hr hw with hmem | hpassed
  · rcases mem_cons.mp hmem with heq | hmem
    · obtain rfl : r = c.id := congrArg Candidate.id heq
      cases he.symm.trans hr
      rw [hc] at hm
      exact .inr ⟨by simpa [candidate] using hm, hfit⟩
    · exact .inl hmem
  · exact .inr hpassed

/-- A candidate that was granted no longer waits. -/
theorem grant : Queue (l.granted c.id e) cs := by
  have hnotin : c.id ∉ cs.map Candidate.id := (nodup_cons.mp h.nodup).1
  refine ⟨(pairwise_cons.mp h.sorted).2, (nodup_cons.mp h.nodup).2, fun d hd => ?_, fun r f hr hw => ?_⟩
  · obtain ⟨f, hf, hw, hd'⟩ := h.entry d (mem_cons_of_mem c hd)
    have hne : d.id ≠ c.id := fun heq => hnotin (heq ▸ mem_map_of_mem hd)
    exact ⟨f, by rw [lookup_granted he, if_neg hne, hf], hw, hd'⟩
  · rw [lookup_granted he] at hr
    by_cases hrc : r = c.id
    · rw [if_pos hrc, Option.some_inj] at hr
      subst hr
      simp [waits, isPending] at hw
    · rw [if_neg hrc] at hr
      rcases h.rest r f hr hw with hmem | ⟨hage, hfit⟩
      · rcases mem_cons.mp hmem with heq | hmem
        · exact absurd (congrArg Candidate.id heq) hrc
        · exact .inl hmem
      · -- What is free only shrinks.
        refine .inr ⟨hage, fun hfit' => hfit (le_trans hfit' (Nat.sub_le l.free e.bytes))⟩

end

/-- When every candidate was considered, those that wait do not fit. -/
theorem workConserving_nil (h : Queue l []) : WorkConserving l := by
  intro q f hq hw hfit
  rcases h.rest q f hq hw with hmem | ⟨-, hlarge⟩
  · cases hmem
  · exact absurd hfit hlarge

/-- When a mature candidate does not fit, it is ahead of those that are left. -/
theorem workConserving_stop (h : Queue l (c :: cs)) (he : l.entries.lookup c.id = some e) (hfit : ¬ l.fits e)
    (hm : c.matured = true) : WorkConserving l := by
  obtain ⟨hw, hc⟩ := h.head he
  have hage : agingCap ≤ e.age := by
    rw [hc] at hm
    simpa [candidate] using hm
  intro q f hq hwq hfitq
  rcases h.rest q f hq hwq with hmem | ⟨-, hlarge⟩
  · rcases mem_cons.mp hmem with heq | hmem
    · obtain rfl : q = c.id := congrArg Candidate.id heq
      cases he.symm.trans hq
      exact absurd hfitq hfit
    · refine ⟨c.id, e, ⟨he, hw, hage, hfit⟩, ?_⟩
      rw [← hc]
      exact (pairwise_cons.mp h.sorted).1 _ hmem
  · exact absurd hfitq hlarge

end Queue

/-! ### What arbitration does -/

theorem checkedSub_of_le {a b : ℕ} {operation : String} (h : b ≤ a) : checkedSub a b operation = .ok (a - b) :=
  if_pos h

theorem checkedAdd_of_lt {a b : ℕ} {operation : String} (h : a + b < u64Size) :
    checkedAdd a b operation = .ok (a + b) :=
  if_pos h

theorem grant_spec {g : Governor} {id : RequestId} {e : LedgerEntry} (hfit : g.ledger.fits e) :
    Ensures (grant id e) g (fun _ g' => g' = { g with
      ledger := g.ledger.granted id e
      trace := g.trace ++ [(.grant id g.ledger.nextAlloc e.owner e.bytes, g.ledger.granted id e)] })
      fun _ _ => False := by
  refine Ensures.bind (Ensures.getLedger (Ensures.bind (Ensures.liftResult (fun free hfree => ?_) fun err herr => ?_)))
  · rw [checkedSub_of_le hfit, Except.ok.injEq] at hfree
    subst hfree
    rfl
  · rw [checkedSub_of_le hfit] at herr
    cases herr

/-- **Granting never fails, and is work-conserving.** -/
theorem grantAll_spec (cs : List Candidate) (g : Governor) (hq : Queue g.ledger cs) :
    Ensures (grantAll cs) g (fun _ g' => Advances g g' ∧ WorkConserving g'.ledger) fun _ _ => False := by
  induction cs generalizing g with
  | nil => exact .pure ⟨.refl g, hq.workConserving_nil⟩
  | cons c cs ih =>
    refine Ensures.bind (Ensures.getLedger (Ensures.bind (Ensures.getOr (fun e he => ?_) fun hnone => ?_)))
    · by_cases hfree : g.ledger.free < e.bytes
      · have hfit : ¬ g.ledger.fits e := Nat.not_le.mpr hfree
        rw [if_pos hfree]
        cases hm : c.matured with
        | true => exact .pure ⟨.refl g, hq.workConserving_stop he hfit hm⟩
        | false => exact ih g (hq.skip he hfit hm)
      · have hfit : g.ledger.fits e := Nat.not_lt.mp hfree
        rw [if_neg hfree]
        refine .bind (.mono (grant_spec hfit) (fun _ g' hg' => ?_) fun _ _ h => h)
        have hstep : Advances g g' := by
          subst hg'
          exact .event (.grant g.trace he (hq.head he).1 hfit (hq.noneMaturedBefore he)) rfl rfl fun _ => rfl
        have hq' : Queue g'.ledger cs := by
          subst hg'
          exact hq.grant he
        refine .bind (.mono (ih g' hq') (fun _ g'' hg'' => ?_) fun _ _ h => h)
        exact .pure ⟨hstep.trans hg''.1, hg''.2⟩
    · obtain ⟨e, he, -⟩ := hq.entry c mem_cons_self
      rw [hnone] at he
      cases he

/-- **Arbitration never fails, and leaves the ledger work-conserving.** -/
theorem arbitrate_spec (g : Governor) :
    Ensures arbitrate g (fun _ g' => Advances g g' ∧ WorkConserving g'.ledger) fun _ _ => False := by
  refine Ensures.bind (Ensures.getLedger (Ensures.bind (Ensures.setLedger ?_)))
  refine Ensures.mono (grantAll_spec _ _ (Queue.candidates _)) (fun _ g' hg' => ?_) fun _ _ h => h
  have haged : Advances g { g with ledger := g.ledger.aged } := .quiet (.aged g.ledger g.trace) rfl rfl
  exact ⟨haged.trans hg'.1, hg'.2⟩

/-- Arbitration does not fail, so nothing is woken early. -/
theorem arbitrateOrWake_spec (wakeups : List RequestId) (g : Governor) :
    Ensures (arbitrateOrWake wakeups) g (fun _ g' => Advances g g' ∧ WorkConserving g'.ledger) fun _ _ => False := by
  refine .bind (.attempt (.mono (arbitrate_spec g) (fun _ g' hg' => ?_) fun _ _ h => h.elim))
  exact .pure hg'

end OnnxGenai.Pressure
