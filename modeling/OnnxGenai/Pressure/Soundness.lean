import OnnxGenai.Pressure.Moves

/-!
# Sound ledgers

`Sound` is what a ledger and its trace keep through every move (`Sound.moves`): the bytes
add up to the capacity, pending requests carry the current generation, no request is
claimed twice, and an allocation that was granted is either held by its request or was
credited back once, with the bytes it was granted.
-/

namespace OnnxGenai.Pressure

open Lib Ledger Option FiniteMap

/-! ### The parts of soundness -/

/-- The bytes of a ledger, wherever they are. -/
def Ledger.accounted (l : Ledger) : ℕ :=
  l.fixedCharge + l.free + FiniteMap.total l.reclaimable id + FiniteMap.total l.entries LedgerEntry.reservedBytes +
    FiniteMap.total l.entries LedgerEntry.claimedBytes

/-- The bytes add up to the capacity, which is a `u64`. -/
structure Balanced (l : Ledger) : Prop where
  bounded : l.capacity < u64Size
  conserved : l.accounted = l.capacity

/-- What an entry says about itself. -/
structure EntryOk (l : Ledger) (id : RequestId) (e : LedgerEntry) : Prop where
  issued : id < l.nextRequest
  ordered : e.submitSeq + 1 = id
  current : e.isPending = true → e.generation = l.generation
  charged : ∀ a, e.allocation = some a → a.requestId = id ∧ a.bytes = e.bytes ∧ a.id < l.nextAlloc

/-- The entries of a ledger, and the counters they were numbered by. -/
structure Numbered (l : Ledger) : Prop where
  counters : l.nextSubmitSeq + 1 = l.nextRequest
  entry : ∀ id e, l.entries.lookup id = some e → EntryOk l id e
  distinct : ∀ i j e f a b, l.entries.lookup i = some e → l.entries.lookup j = some f →
    e.allocation = some a → f.allocation = some b → a.id = b.id → i = j

/-- Whether a request waits, or was granted and not claimed. -/
def LedgerEntry.isOpen (e : LedgerEntry) : Bool :=
  match e.state with
  | .pending _ => true
  | .granted _ => true
  | _ => false

/-- A request is claimed at most once, and not before it is granted. -/
structure ClaimedOnce (l : Ledger) (tr : Trace) : Prop where
  once : ∀ id, tr.claims id ≤ 1
  issued : ∀ id, l.nextRequest ≤ id → tr.claims id = 0
  unclaimed : ∀ id e, l.entries.lookup id = some e → e.isOpen = true → tr.claims id = 0
  recorded : ∀ id e a, l.entries.lookup id = some e → e.state = .claimed a → 0 < tr.claims id

/-- The entry of a request holds an allocation of so many bytes. -/
def Holds (l : Ledger) (id : RequestId) (a : AllocationId) (bytes : ℕ) : Prop :=
  ∃ e alloc, l.entries.lookup id = some e ∧ e.allocation = some alloc ∧ alloc.id = a ∧ e.bytes = bytes

/-- An allocation is credited at most once, and what was granted is held or was credited. -/
structure CreditedOnce (l : Ledger) (tr : Trace) : Prop where
  once : ∀ a, (tr.credits a).length ≤ 1
  issued : ∀ a, l.nextAlloc ≤ a → tr.credits a = []
  held : ∀ id a bytes, Holds l id a bytes → tr.credits a = []
  returned : ∀ id a owner bytes m, (PressureEvent.grant id a owner bytes, m) ∈ tr →
    Holds l id a bytes ∨ tr.credits a = [bytes]

/-- A ledger and the trace it comes from. -/
structure Sound (x : Ledger × Trace) : Prop where
  balanced : Balanced x.1
  numbered : Numbered x.1
  claimed : ClaimedOnce x.1 x.2
  credited : CreditedOnce x.1 x.2

/-! ### Bytes -/

variable {e e' : LedgerEntry} {a : HostAllocation} {l l' : Ledger} {bytes : ℕ} {x y : Ledger × Trace}
  {j : RequestId} {tr tr' : Trace}

namespace LedgerEntry

/-- The bytes an entry is charged. -/
def charge (e : LedgerEntry) : ℕ := e.reservedBytes + e.claimedBytes

theorem charge_of_allocation (h : e.allocation = some a) : e.charge = e.bytes := by
  cases hs : e.state <;> simp_all [charge, reservedBytes, claimedBytes, allocation]

theorem charge_of_none (h : e.allocation = none) : e.charge = 0 := by
  cases hs : e.state <;> simp_all [charge, reservedBytes, claimedBytes, allocation]

theorem allocation_of_isPending (h : e.isPending = true) : e.allocation = none := by
  cases hs : e.state <;> simp_all [isPending, allocation]

theorem allocation_granted (h : e.state = .granted a) : e.allocation = some a := by
  simp [allocation, h]

theorem allocation_claimed (h : e.state = .claimed a) : e.allocation = some a := by
  simp [allocation, h]

theorem charge_invalidated (generation : Generation) (id : RequestId) (e : LedgerEntry) :
    (invalidated generation id e).charge = e.charge := by
  unfold invalidated
  split
  case isTrue h =>
    have hp : e.isPending = true := by simp_all
    rw [charge_of_none (allocation_of_isPending hp), charge_of_none rfl]
  case isFalse => rfl

end LedgerEntry

open LedgerEntry

theorem Numbered.fresh (h : Numbered l) : l.entries.lookup l.nextRequest = none := by
  cases he : l.entries.lookup l.nextRequest with
  | none => rfl
  | some e => exact absurd (h.entry _ e he).issued (lt_irrefl _)

/-- The bytes of a ledger, with those of the entries in one sum. -/
theorem Ledger.accounted_eq (l : Ledger) :
    l.accounted = l.fixedCharge + l.free + FiniteMap.total l.reclaimable id + FiniteMap.total l.entries charge := by
  have h : total l.entries charge = _ := total_add l.entries reservedBytes claimedBytes
  rw [accounted, h]
  omega

/-- Changing the state of an entry keeps the balance if what is free changes with its charge. -/
theorem Balanced.setState {id : RequestId} (hb : Balanced l) (state : PressureState) (free : ℕ)
    (h : l.entries.lookup id = some e) (hfree : free + charge { e with state := state } = l.free + e.charge) :
    Balanced ({ l with free := free }.setState id state) := by
  have hset : total ({ l with free := free }.setState id state).entries charge + e.charge =
      total l.entries charge + charge { e with state := state } :=
    total_adjust l.entries charge _ h
  have hsum := hb.conserved
  refine ⟨hb.bounded, ?_⟩
  rw [accounted_eq] at hsum ⊢
  simp only [Ledger.setState] at hset hsum ⊢
  omega

/-- Dropping an entry keeps the balance if its charge becomes free. -/
theorem Balanced.remove {id : RequestId} {free : ℕ} (hb : Balanced l) (h : l.entries.lookup id = some e)
    (hfree : free = l.free + e.charge) : Balanced ({ l with free := free }.remove id) := by
  have herase := total_erase l.entries charge id
  have hsum := hb.conserved
  refine ⟨hb.bounded, ?_⟩
  rw [h] at herase
  rw [accounted_eq] at hsum ⊢
  simp only [Ledger.remove, map_some, getD_some] at herase hsum ⊢
  omega

theorem total_reclaimed (l : Ledger) (device : DeviceId) (h : bytes ≤ (l.reclaimable.lookup device).getD 0) :
    FiniteMap.total (l.reclaimed device bytes).reclaimable id + bytes = FiniteMap.total l.reclaimable id := by
  have := total_insert l.reclaimable id device ((l.reclaimable.lookup device).getD 0 - bytes)
  have hid : ((l.reclaimable.lookup device).map id).getD 0 = (l.reclaimable.lookup device).getD 0 := by simp
  simp only [reclaimed, id_eq] at this ⊢
  omega

/-- A move keeps the balance. -/
theorem Balanced.move (hn : Numbered x.1) (hb : Balanced x.1) (hm : Move x y) : Balanced y.1 := by
  have hsum := hb.conserved
  rw [accounted_eq] at hsum
  cases hm with
  | aged l tr =>
    have h : total l.aged.entries charge = total l.entries charge := by
      refine total_mapEntries l.entries charge _ fun _ e => ?_
      split <;> rfl
    exact ⟨hb.bounded, by rw [accounted_eq, h]; exact hsum⟩
  | notices | skipped => exact ⟨hb.bounded, hb.conserved⟩
  | submit l tr request =>
    have h : total (l.submitted request).entries charge = total l.entries charge := by
      have := total_insert l.entries charge l.nextRequest (l.newEntry request)
      rw [hn.fresh] at this
      exact this
    exact ⟨hb.bounded, by rw [accounted_eq, h]; exact hsum⟩
  | @grant l id e tr h hw hfit hfirst =>
    have hp : e.isPending = true := by simp_all [waits]
    have hfree : l.free - e.bytes + charge { e with state := .granted (l.nextAllocation id e) } =
        l.free + e.charge := by
      rw [charge_of_none (allocation_of_isPending hp), charge_of_allocation (allocation_granted rfl)]
      exact Nat.sub_add_cancel hfit
    have := hb.setState _ _ h hfree
    exact ⟨this.bounded, this.conserved⟩
  | @claim l id e a tr h hs =>
    exact hb.setState _ _ h (by rw [charge_of_allocation (allocation_granted hs), charge_of_allocation rfl])
  | @cancelPending l id e tr h hp =>
    have hb' := hb.setState .cancelled l.free h (by rw [charge_of_none (allocation_of_isPending hp),
      charge_of_none rfl])
    exact hb'.remove (e := { e with state := .cancelled }) (by simp [lookup_setState, h])
      (by rw [charge_of_none rfl]; rfl)
  | @cancelGranted l id e a tr h hs =>
    have hb' := hb.setState .cancelled (l.free + e.bytes) h
      (by rw [charge_of_allocation (allocation_granted hs), charge_of_none rfl]; rfl)
    exact hb'.remove (e := { e with state := .cancelled })
      (by rw [lookup_setState, if_pos rfl]; exact congrArg (Option.map _) h) (by rw [charge_of_none rfl]; rfl)
  | @reap l id e tr h hp ha => exact hb.remove h (by rw [charge_of_none ha]; rfl)
  | @timeoutPending l id e tr h hp =>
    exact hb.setState _ _ h (by rw [charge_of_none (allocation_of_isPending hp), charge_of_none rfl])
  | @timeoutGranted l id e a tr h hs =>
    exact hb.setState _ _ h (by rw [charge_of_allocation (allocation_granted hs), charge_of_none rfl]; rfl)
  | @release l id e a tr h hs => exact hb.remove h (by rw [charge_of_allocation (allocation_claimed hs)])
  | reconfigure l tr =>
    have h : total l.reconfigured.entries charge = total l.entries charge :=
      total_mapEntries l.entries charge _ (charge_invalidated (l.generation + 1))
    exact ⟨hb.bounded, by rw [accounted_eq, h]; exact hsum⟩
  | @reclaim l device bytes tr h =>
    have hr := total_reclaimed l device h
    refine ⟨hb.bounded, ?_⟩
    rw [accounted_eq]
    simp only [reclaimed] at hr hsum ⊢
    omega

/-! ### Where an entry comes from -/

/-- An entry that was there before a move: it is the same request, it is mature if
it was, and it holds no allocation that it did not hold. -/
structure Heir (l l' : Ledger) (e e' : LedgerEntry) : Prop where
  bytes : e'.bytes = e.bytes
  submitSeq : e'.submitSeq = e.submitSeq
  generation : e'.generation = e.generation
  matured : agingCap ≤ e.age → agingCap ≤ e'.age
  pending : e'.isPending = true → e.isPending = true ∧ (e.generation = l.generation → e.generation = l'.generation)
  opened : e'.isOpen = true → e.isOpen = true
  allocation : ∀ a, e'.allocation = some a → e.allocation = some a

theorem Heir.refl (e : LedgerEntry) (h : l'.generation = l.generation) : Heir l l' e e :=
  ⟨rfl, rfl, rfl, fun hm => hm, fun hp => ⟨hp, fun hg => hg.trans h.symm⟩, fun ho => ho, fun _ ha => ha⟩

theorem Heir.setState (e : LedgerEntry) {state : PressureState}
    (hp : ({ e with state := state } : LedgerEntry).isOpen = false)
    (ha : ∀ a, ({ e with state := state } : LedgerEntry).allocation = some a → e.allocation = some a) :
    Heir l l' e { e with state := state } := by
  refine ⟨rfl, rfl, rfl, fun hm => hm, fun h => ?_, fun h => ?_, ha⟩
  · cases state <;> simp_all [isPending, isOpen]
  · exact absurd h (by simp [hp])

/-- Where the entry of a request comes from: it was there, it was submitted, or it was granted. -/
inductive Origin (l l' : Ledger) (id : RequestId) (e' : LedgerEntry) : Prop where
  | heir {e : LedgerEntry} (h : l.entries.lookup id = some e) (he : Heir l l' e e')
  | submitted (request : HostPageRequest) (hid : id = l.nextRequest) (hl : l' = l.submitted request)
      (he : e' = l.newEntry request)
  | granted {e : LedgerEntry} (h : l.entries.lookup id = some e) (hw : l.waits e = true) (hl : l' = l.granted id e)
      (he : e' = { e with state := .granted (l.nextAllocation id e) })

/-- The entry of a request after a move: where it comes from, and that it was claimed before or in
the move if it is claimed now. -/
structure Traced (l l' : Ledger) (tr' : Trace) (id : RequestId) (e' : LedgerEntry) : Prop where
  origin : Origin l l' id e'
  claimed : ∀ a, e'.state = .claimed a →
    (∃ e, l.entries.lookup id = some e ∧ e.state = .claimed a) ∨ 0 < tr'.claims id

theorem Traced.same (hg : l'.generation = l.generation) (hj : l.entries.lookup j = some e') : Traced l l' tr' j e' :=
  ⟨.heir hj (Heir.refl e' hg), fun _ ha => .inl ⟨e', hj, ha⟩⟩

/-- An entry that a change of state of `id` leaves. -/
theorem Traced.setState {id : RequestId} {state : PressureState} (hg : l'.generation = l.generation)
    (h : l.entries.lookup id = some e) (hp : ({ e with state := state } : LedgerEntry).isOpen = false)
    (ha : ∀ a, ({ e with state := state } : LedgerEntry).allocation = some a → e.allocation = some a)
    (hclaimed : ∀ a, state = .claimed a → 0 < tr'.claims id)
    (hj : (if j = id then some { e with state := state } else l.entries.lookup j) = some e') :
    Traced l l' tr' j e' := by
  split at hj
  case isTrue hid =>
    subst hid
    cases hj
    exact ⟨.heir h (Heir.setState e hp ha), fun a hs => .inr (hclaimed a hs)⟩
  case isFalse => exact .same hg hj

/-- An entry that a removal leaves. -/
theorem Traced.remove {id : RequestId} (hg : l'.generation = l.generation)
    (hj : (if j = id then none else l.entries.lookup j) = some e') : Traced l l' tr' j e' :=
  .same hg (ite_none_left_eq_some.mp hj).2

theorem Ledger.lookup_remove_setState (l : Ledger) (id j : RequestId) (state : PressureState) :
    ((l.setState id state).remove id).entries.lookup j = if j = id then none else l.entries.lookup j := by
  rw [lookup_remove, lookup_setState]
  by_cases h : j = id <;> simp [h]

theorem Ledger.lookup_setState_of_some {id : RequestId} (h : l.entries.lookup id = some e) (j : RequestId)
    (state : PressureState) :
    (l.setState id state).entries.lookup j =
      if j = id then some { e with state := state } else l.entries.lookup j := by
  rw [lookup_setState, h]
  rfl

theorem Ledger.lookup_granted {id : RequestId} (h : l.entries.lookup id = some e) (j : RequestId) :
    (l.granted id e).entries.lookup j =
      if j = id then some { e with state := .granted (l.nextAllocation id e) } else l.entries.lookup j :=
  lookup_setState_of_some (l := { l with free := l.free - e.bytes, nextAlloc := l.nextAlloc + 1 }) h j _

/-- **Inversion of moves.** -/
theorem Move.traced (hm : Move (l, tr) (l', tr')) (hj : l'.entries.lookup j = some e') : Traced l l' tr' j e' := by
  cases hm with
  | aged =>
    rw [lookup_aged] at hj
    obtain ⟨e, he, rfl⟩ := map_eq_some_iff.mp hj
    split
    case isTrue =>
      refine ⟨.heir he ⟨rfl, rfl, rfl, fun hm => ?_, fun hp => ⟨hp, fun hg => hg⟩, fun ho => ho, fun _ ha => ha⟩,
        fun _ ha => .inl ⟨e, he, ha⟩⟩
      exact le_min (Nat.le_succ_of_le hm) le_rfl
    case isFalse => exact .same rfl he
  | notices | skipped | reclaim => exact .same rfl hj
  | submit _ _ request =>
    rw [lookup_submitted] at hj
    split at hj
    case isTrue hid =>
      cases hj
      exact ⟨.submitted request hid rfl rfl, nofun⟩
    case isFalse => exact .same rfl hj
  | @grant _ id e _ h hw hfit hfirst =>
    rw [lookup_granted h] at hj
    split at hj
    case isTrue hid =>
      subst hid
      cases hj
      exact ⟨.granted h hw rfl rfl, nofun⟩
    case isFalse => exact .same rfl hj
  | @claim _ id e a _ h hs =>
    rw [lookup_setState_of_some h] at hj
    refine .setState rfl h rfl (fun b hb => ?_) (fun _ _ => by simp [PressureEvent.claims]) hj
    rw [allocation_granted hs]
    exact hb
  | @cancelPending | @cancelGranted =>
    rw [lookup_remove_setState] at hj
    exact .remove rfl hj
  | @reap | @release =>
    rw [lookup_remove] at hj
    exact .remove rfl hj
  | @timeoutPending _ id e _ h hp =>
    rw [lookup_setState_of_some h] at hj
    refine .setState rfl h rfl ?_ ?_ hj <;> nofun
  | @timeoutGranted _ id e a _ h hs =>
    rw [lookup_setState_of_some (l := l.credited e.bytes) h] at hj
    refine .setState rfl h rfl ?_ ?_ hj <;> nofun
  | reconfigure =>
    rw [lookup_reconfigured] at hj
    obtain ⟨e, he, rfl⟩ := map_eq_some_iff.mp hj
    unfold invalidated
    split
    case isTrue => exact ⟨.heir he (Heir.setState e rfl nofun), nofun⟩
    case isFalse hstale =>
      refine ⟨.heir he ⟨rfl, rfl, rfl, fun hm => hm, fun hp => ⟨hp, fun _ => ?_⟩, fun ho => ho, fun _ ha => ha⟩,
        fun _ ha => .inl ⟨e, he, ha⟩⟩
      simp only [hp, Bool.true_and, decide_eq_true_eq, not_not] at hstale
      exact hstale

theorem Move.origin (hm : Move (l, tr) (l', tr')) (hj : l'.entries.lookup j = some e') : Origin l l' j e' :=
  (hm.traced hj).origin

/-! ### Numbers -/

theorem Move.counters (hm : Move x y) (h : x.1.nextSubmitSeq + 1 = x.1.nextRequest) :
    y.1.nextSubmitSeq + 1 = y.1.nextRequest := by
  cases hm <;> simp_all [Ledger.aged, withReclaimNotices, Ledger.submitted, Ledger.granted, Ledger.setState, Ledger.remove,
    Ledger.credited, reconfigured, reclaimed]

theorem Move.nextRequest_le (hm : Move x y) : x.1.nextRequest ≤ y.1.nextRequest := by
  cases hm <;> simp [Ledger.aged, withReclaimNotices, Ledger.submitted, Ledger.granted, Ledger.setState, Ledger.remove,
    Ledger.credited, reconfigured, reclaimed]

theorem Move.nextAlloc_le (hm : Move x y) : x.1.nextAlloc ≤ y.1.nextAlloc := by
  cases hm <;> simp [Ledger.aged, withReclaimNotices, Ledger.submitted, Ledger.granted, Ledger.setState, Ledger.remove,
    Ledger.credited, reconfigured, reclaimed]

theorem EntryOk.origin (hn : Numbered l) (hreq : l.nextRequest ≤ l'.nextRequest)
    (halloc : l.nextAlloc ≤ l'.nextAlloc) {id : RequestId} (ho : Origin l l' id e') : EntryOk l' id e' := by
  cases ho with
  | @heir e h he =>
    have hok := hn.entry id e h
    refine ⟨hok.issued.trans_le hreq, by rw [he.submitSeq, hok.ordered], fun hp => ?_, fun a ha => ?_⟩
    · rw [he.generation]
      exact (he.pending hp).2 (hok.current (he.pending hp).1)
    · obtain ⟨h1, h2, h3⟩ := hok.charged a (he.allocation a ha)
      exact ⟨h1, by rw [h2, he.bytes], h3.trans_le halloc⟩
  | submitted request hid hl he =>
    subst hid hl he
    exact ⟨Nat.lt_succ_self _, hn.counters, fun _ => rfl, fun a ha => by simp [LedgerEntry.allocation, newEntry] at ha⟩
  | @granted e h hw hl he =>
    subst hl he
    have hok := hn.entry id e h
    refine ⟨hok.issued, hok.ordered, fun hp => by simp [isPending] at hp, fun a ha => ?_⟩
    obtain rfl : l.nextAllocation id e = a := by simpa [LedgerEntry.allocation] using ha
    exact ⟨rfl, rfl, Nat.lt_succ_self _⟩

/-- What an entry holds after a move, it held before or was just granted. -/
theorem Origin.holds {id : RequestId} (ho : Origin l l' id e') (ha : e'.allocation = some a) :
    (∃ e, l.entries.lookup id = some e ∧ e.allocation = some a ∧ e'.bytes = e.bytes) ∨
      (a.id = l.nextAlloc ∧ ∀ j, j ≠ id → l'.entries.lookup j = l.entries.lookup j) := by
  cases ho with
  | @heir e h he => exact .inl ⟨e, h, he.allocation a ha, he.bytes⟩
  | submitted request hid hl he =>
    subst he
    simp [LedgerEntry.allocation, newEntry] at ha
  | @granted e h hw hl he =>
    subst he
    obtain rfl : l.nextAllocation id e = a := by simpa [LedgerEntry.allocation] using ha
    refine .inr ⟨rfl, fun j hj => ?_⟩
    rw [hl, lookup_granted h, if_neg hj]

/-- A move keeps entries numbered. -/
theorem Numbered.move (hn : Numbered l) (hm : Move (l, tr) (l', tr')) : Numbered l' := by
  have hlt : ∀ {j : RequestId} {f : LedgerEntry} {b : HostAllocation}, l.entries.lookup j = some f →
      f.allocation = some b → b.id < l.nextAlloc := fun hf hb => ((hn.entry _ _ hf).charged _ hb).2.2
  refine ⟨hm.counters hn.counters, fun id e' h => .origin hn hm.nextRequest_le hm.nextAlloc_le (hm.origin h), ?_⟩
  intro i j e f a b hi hj ha hb hab
  rcases (hm.origin hi).holds ha with ⟨e₀, hi₀, ha₀, -⟩ | ⟨hnew, hother⟩
  · rcases (hm.origin hj).holds hb with ⟨f₀, hj₀, hb₀, -⟩ | ⟨hnew, -⟩
    · exact hn.distinct i j e₀ f₀ a b hi₀ hj₀ ha₀ hb₀ hab
    · exact absurd (hab.trans hnew) (hlt hi₀ ha₀).ne
  · by_contra hne
    rw [hother j fun h => hne h.symm] at hj
    exact absurd (hab.symm.trans hnew) (hlt hj hb).ne

/-! ### Claims -/

/-- A move claims nothing, or the request it leaves claimed. -/
theorem Move.claims (hm : Move (l, tr) (l', tr')) :
    (∀ id, tr'.claims id = tr.claims id) ∨
      ∃ j e, l.entries.lookup j = some e ∧ e.isOpen = true ∧
        (∀ e', l'.entries.lookup j = some e' → e'.isOpen = false) ∧
        ∀ id, tr'.claims id = tr.claims id + if j = id then 1 else 0 := by
  cases hm with
  | @claim _ j e a _ h hs =>
    refine .inr ⟨j, e, h, by simp [isOpen, hs], fun e' he' => ?_, fun id => by simp [PressureEvent.claims]⟩
    rw [lookup_setState_of_some h, if_pos rfl, some_inj] at he'
    subst he'
    rfl
  | aged | notices | skipped | reap => exact .inl fun _ => rfl
  | _ => exact .inl fun id => by simp [PressureEvent.claims]

theorem Move.claims_le (hm : Move (l, tr) (l', tr')) (id : RequestId) : tr.claims id ≤ tr'.claims id := by
  rcases hm.claims with hsame | ⟨j, e, -, -, -, hcount⟩
  · exact (hsame id).ge
  · rw [hcount]
    exact Nat.le_add_right _ _

theorem ClaimedOnce.move (hn : Numbered l) (hc : ClaimedOnce l tr) (hm : Move (l, tr) (l', tr')) :
    ClaimedOnce l' tr' := by
  -- An open entry after the move was open before it, or is a new request.
  have hopen : ∀ id e', l'.entries.lookup id = some e' → e'.isOpen = true → tr.claims id = 0 := by
    intro id e' h' ho
    cases hm.origin h' with
    | heir h he => exact hc.unclaimed id _ h (he.opened ho)
    | submitted request hid hl he => exact hc.issued id hid.ge
    | granted h hw hl he =>
      refine hc.unclaimed id _ h ?_
      simp only [waits, Bool.and_eq_true] at hw
      revert hw
      unfold isPending isOpen
      split <;> simp_all
  have hrecorded : ∀ id e' a, l'.entries.lookup id = some e' → e'.state = .claimed a → 0 < tr'.claims id := by
    intro id e' a h' ha
    rcases (hm.traced h').claimed a ha with ⟨e, h, hs⟩ | hpos
    · exact (hc.recorded id e a h hs).trans_le (hm.claims_le id)
    · exact hpos
  rcases hm.claims with hsame | ⟨j, e, h, ho, hclosed, hcount⟩
  · exact ⟨fun id => hsame id ▸ hc.once id, fun id hid => hsame id ▸ hc.issued id (hm.nextRequest_le.trans hid),
      fun id e' h' ho => hsame id ▸ hopen id e' h' ho, hrecorded⟩
  · have hzero := hc.unclaimed j e h ho
    have hj := (hn.entry j e h).issued
    have hnext : l.nextRequest ≤ l'.nextRequest := hm.nextRequest_le
    refine ⟨fun id => ?_, fun id hid => ?_, fun id e' h' ho' => ?_, hrecorded⟩
    · rw [hcount]
      by_cases hid : j = id
      · subst hid
        simp [hzero]
      · simpa [hid] using hc.once id
    · rw [hcount, if_neg (hj.trans_le (hnext.trans hid)).ne, hc.issued id (hnext.trans hid)]
    · have hid : j ≠ id := by
        rintro rfl
        rw [hclosed e' h'] at ho'
        cases ho'
      rw [hcount, if_neg hid, hopen id e' h' ho']

/-! ### Credits -/

/-- A change to one request that holds nothing leaves every allocation held. -/
theorem Holds.frame (hj : ∀ a bytes, ¬ Holds l j a bytes)
    (hother : ∀ k, k ≠ j → l'.entries.lookup k = l.entries.lookup k) {id : RequestId} {a : AllocationId}
    (h : Holds l id a bytes) : Holds l' id a bytes := by
  have hid : id ≠ j := fun hid => hj a bytes (hid ▸ h)
  obtain ⟨e, alloc, he, hrest⟩ := h
  exact ⟨e, alloc, (hother id hid).trans he, hrest⟩

/-- A change of every entry that keeps its allocation leaves every allocation held. -/
theorem Holds.map {f : RequestId → LedgerEntry → LedgerEntry}
    (hl : ∀ k, l'.entries.lookup k = (l.entries.lookup k).map (f k)) (hbytes : ∀ k e, (f k e).bytes = e.bytes)
    (hf : ∀ k e a, e.allocation = some a → (f k e).allocation = some a) {id : RequestId} {a : AllocationId}
    (h : Holds l id a bytes) : Holds l' id a bytes := by
  obtain ⟨e, alloc, he, ha, hid, rfl⟩ := h
  exact ⟨f id e, alloc, by rw [hl, he]; rfl, hf id e alloc ha, hid, hbytes id e⟩

theorem not_holds {id : RequestId} (h : l.entries.lookup id = some e) (he : e.allocation = none) (a : AllocationId)
    (bytes : ℕ) : ¬ Holds l id a bytes := by
  rintro ⟨f, alloc, hf, ha, -⟩
  cases h.symm.trans hf
  rw [he] at ha
  cases ha

theorem not_holds_of_none {id : RequestId} (h : l.entries.lookup id = none) (a : AllocationId) (bytes : ℕ) :
    ¬ Holds l id a bytes := by
  rintro ⟨f, alloc, hf, -⟩
  rw [h] at hf
  cases hf

theorem allocation_invalidated {generation : Generation} {id : RequestId} (h : e.allocation = some a) :
    (invalidated generation id e).allocation = some a := by
  unfold invalidated
  split
  case isTrue hp =>
    rw [allocation_of_isPending (by simp_all)] at h
    cases h
  case isFalse => exact h

/-- A move credits nothing and every allocation stays held, or it credits the allocation
of one request, which then holds nothing. -/
theorem Move.credits (hn : Numbered l) (hm : Move (l, tr) (l', tr')) :
    ((∀ a, tr'.credits a = tr.credits a) ∧ ∀ id a bytes, Holds l id a bytes → Holds l' id a bytes) ∨
      ∃ j e alloc, l.entries.lookup j = some e ∧ e.allocation = some alloc ∧
        (∀ a bytes, ¬ Holds l' j a bytes) ∧ (∀ k, k ≠ j → l'.entries.lookup k = l.entries.lookup k) ∧
        ∀ a, tr'.credits a = tr.credits a ++ if alloc.id = a then [e.bytes] else [] := by
  cases hm with
  | aged =>
    refine .inl ⟨fun _ => rfl, fun id a bytes h => Holds.map (lookup_aged l) (fun k e => ?_) (fun k e a ha => ?_) h⟩
    · split <;> rfl
    · split <;> exact ha
  | notices | skipped => exact .inl ⟨fun _ => rfl, fun _ _ _ h => h⟩
  | submit _ _ request =>
    refine .inl ⟨fun a => by simp [PressureEvent.credited], fun _ _ _ => ?_⟩
    refine Holds.frame (not_holds_of_none hn.fresh) fun k hk => ?_
    rw [lookup_submitted, if_neg hk]
  | @grant _ j e _ hj hw hfit hfirst =>
    have hp : e.isPending = true := by simp_all [waits]
    refine .inl ⟨fun a => by simp [PressureEvent.credited], fun _ _ _ => ?_⟩
    refine Holds.frame (not_holds hj (allocation_of_isPending hp)) fun k hk => ?_
    rw [lookup_granted hj, if_neg hk]
  | @claim _ j e b _ hj hs =>
    refine .inl ⟨fun a => by simp [PressureEvent.credited], fun id a bytes h => ?_⟩
    obtain ⟨f, alloc, hf, ha, hid, hbytes⟩ := h
    by_cases hk : id = j
    · subst hk
      cases hj.symm.trans hf
      rw [allocation_granted hs, some_inj] at ha
      subst ha
      exact ⟨{ e with state := .claimed b }, b, by rw [lookup_setState_of_some hj, if_pos rfl], rfl, hid, hbytes⟩
    · exact ⟨f, alloc, by rw [lookup_setState_of_some hj, if_neg hk, hf], ha, hid, hbytes⟩
  | @cancelPending _ j e _ hj hp =>
    refine .inl ⟨fun a => by simp [PressureEvent.credited], fun _ _ _ => ?_⟩
    refine Holds.frame (not_holds hj (allocation_of_isPending hp)) fun k hk => ?_
    rw [lookup_remove_setState, if_neg hk]
  | @reap _ j e _ hj hp ha =>
    refine .inl ⟨fun _ => rfl, fun _ _ _ => Holds.frame (not_holds hj ha) fun k hk => ?_⟩
    rw [lookup_remove, if_neg hk]
  | @timeoutPending _ j e _ hj hp =>
    refine .inl ⟨fun a => by simp [PressureEvent.credited], fun _ _ _ => ?_⟩
    refine Holds.frame (not_holds hj (allocation_of_isPending hp)) fun k hk => ?_
    rw [lookup_setState_of_some hj, if_neg hk]
  | @cancelGranted _ j e b _ hj hs =>
    have hl := fun k => (l.credited e.bytes).lookup_remove_setState j k .cancelled
    refine .inr ⟨j, e, b, hj, allocation_granted hs, not_holds_of_none ((hl j).trans (if_pos rfl)),
      fun k hk => (hl k).trans (if_neg hk), fun a => ?_⟩
    by_cases hab : b.id = a <;> simp [PressureEvent.credited, hab]
  | @timeoutGranted _ j e b _ hj hs =>
    have hl := lookup_setState_of_some (l := l.credited e.bytes) hj
    refine .inr ⟨j, e, b, hj, allocation_granted hs, not_holds ((hl j _).trans (if_pos rfl)) rfl,
      fun k hk => (hl k _).trans (if_neg hk), fun a => ?_⟩
    by_cases hab : b.id = a <;> simp [PressureEvent.credited, hab]
  | @release _ j e b _ hj hs =>
    have hl := (l.credited e.bytes).lookup_remove j
    refine .inr ⟨j, e, b, hj, allocation_claimed hs, not_holds_of_none ((hl j).trans (if_pos rfl)),
      fun k hk => (hl k).trans (if_neg hk), fun a => ?_⟩
    by_cases hab : b.id = a <;> simp [PressureEvent.credited, hab]
  | reconfigure =>
    refine .inl ⟨fun a => by simp [PressureEvent.credited], fun id a bytes h => ?_⟩
    refine Holds.map (lookup_reconfigured l) (fun k e => ?_) (fun _ _ _ => allocation_invalidated) h
    unfold invalidated
    split <;> rfl
  | reclaim => exact .inl ⟨fun a => by simp [PressureEvent.credited], fun _ _ _ h => h⟩

/-- A grant in the trace after a move was there before, or its allocation is held. -/
theorem Move.grants (hm : Move (l, tr) (l', tr')) {id : RequestId} {a : AllocationId} {owner : DeviceId}
    {m : Ledger} (h : (PressureEvent.grant id a owner bytes, m) ∈ tr') :
    (PressureEvent.grant id a owner bytes, m) ∈ tr ∨ Holds l' id a bytes := by
  cases hm with
  | @grant _ j e _ hj hw hfit hfirst =>
    rcases List.mem_append.mp h with h | h
    · exact .inl h
    · simp only [List.mem_singleton, Prod.mk.injEq, PressureEvent.grant.injEq] at h
      obtain ⟨⟨rfl, rfl, rfl, rfl⟩, -⟩ := h
      exact .inr ⟨{ e with state := .granted (l.nextAllocation id e) }, l.nextAllocation id e,
        by rw [lookup_granted hj, if_pos rfl], rfl, rfl, rfl⟩
  | _ => exact .inl (by simpa using h)

theorem CreditedOnce.move (hn : Numbered l) (hc : CreditedOnce l tr) (hm : Move (l, tr) (l', tr')) :
    CreditedOnce l' tr' := by
  have hnext : l.nextAlloc ≤ l'.nextAlloc := hm.nextAlloc_le
  -- What is held after the move was held before it, or has a new id.
  have hheld : ∀ id a bytes, Holds l' id a bytes → tr.credits a = [] := by
    rintro id a bytes ⟨e', alloc, h', ha, rfl, -⟩
    rcases (hm.origin h').holds ha with ⟨e, h, hae, -⟩ | ⟨hnew, -⟩
    · exact hc.held id _ _ ⟨e, alloc, h, hae, rfl, rfl⟩
    · exact hc.issued _ hnew.ge
  rcases hm.credits hn with ⟨hsame, hkeep⟩ | ⟨j, e, alloc, h, ha, hnone, hother, hcredit⟩
  · refine ⟨fun a => hsame a ▸ hc.once a, fun a hal => hsame a ▸ hc.issued a (hnext.trans hal),
      fun id a bytes h => hsame a ▸ hheld id a bytes h, fun id a owner bytes m h => ?_⟩
    rcases hm.grants h with h | h
    · rw [hsame]
      exact (hc.returned id a owner bytes m h).imp_left (hkeep id a bytes)
    · exact .inl h
  · have hj : Holds l j alloc.id e.bytes := ⟨e, alloc, h, ha, rfl, rfl⟩
    have hempty := hc.held j _ _ hj
    have hlt : alloc.id < l.nextAlloc := ((hn.entry j e h).charged alloc ha).2.2
    refine ⟨fun a => ?_, fun a hal => ?_, fun id a bytes hh => ?_, fun id a owner bytes m hg => ?_⟩
    · rw [hcredit]
      by_cases heq : alloc.id = a
      · subst heq
        simp [hempty]
      · simpa [heq] using hc.once a
    · rw [hcredit, if_neg (hlt.trans_le (hnext.trans hal)).ne, hc.issued a (hnext.trans hal)]
      rfl
    · have hne : alloc.id ≠ a := by
        rintro rfl
        have hid : id ≠ j := fun hid => hnone _ _ (hid ▸ hh)
        obtain ⟨f, b, hf, hb, hab, -⟩ := hh
        rw [hother id hid] at hf
        exact hid (hn.distinct id j f e b alloc hf h hb ha hab)
      rw [hcredit, if_neg hne, hheld id a bytes hh]
      rfl
    · rcases hm.grants hg with hg | hh
      · rcases hc.returned id a owner bytes m hg with ⟨f, b, hf, hb, rfl, rfl⟩ | hret
        · by_cases hid : id = j
          · subst hid
            cases h.symm.trans hf
            cases ha.symm.trans hb
            exact .inr (by rw [hcredit, hempty]; simp)
          · exact .inl ⟨f, b, (hother id hid).trans hf, hb, rfl, rfl⟩
        · have hne : alloc.id ≠ a := by
            rintro rfl
            rw [hempty] at hret
            cases hret
          exact .inr (by rw [hcredit, if_neg hne, hret]; rfl)
      · exact .inl hh

/-! ### Soundness -/

/-- A move keeps a ledger sound. -/
theorem Sound.move (hs : Sound x) (hm : Move x y) : Sound y :=
  ⟨hs.balanced.move hs.numbered hm, hs.numbered.move hm, hs.claimed.move hs.numbered hm,
    hs.credited.move hs.numbered hm⟩

/-- **Moves keep a ledger sound.** -/
theorem Sound.moves (hs : Sound x) (hm : Moves x y) : Sound y := by
  induction hm with
  | refl => exact hs
  | tail _ h ih => exact ih.move h

/-! ### Requests over moves -/

theorem Moves.nextRequest_le (hm : Moves x y) : x.1.nextRequest ≤ y.1.nextRequest := by
  induction hm with
  | refl => exact le_rfl
  | tail _ h ih => exact ih.trans h.nextRequest_le

/-- A request that left the ledger stays away. -/
theorem Moves.gone (hm : Moves x y) {id : RequestId} (hid : id < x.1.nextRequest) (h : x.1.entries.lookup id = none) :
    y.1.entries.lookup id = none := by
  induction hm with
  | refl => exact h
  | @tail y z hxy hyz ih =>
    obtain ⟨l, tr⟩ := y
    obtain ⟨l', tr'⟩ := z
    cases hz : l'.entries.lookup id with
    | none => rfl
    | some e' =>
      cases hyz.origin hz with
      | heir he | granted he => rw [ih] at he; cases he
      | submitted request hnew => exact absurd hnew (hid.trans_le (Moves.nextRequest_le hxy)).ne

/-- The generation of a request does not change. -/
theorem Moves.generation (hm : Moves x y) {id : RequestId} (hid : id < x.1.nextRequest) {generation : Generation}
    (h : ∀ e, x.1.entries.lookup id = some e → e.generation = generation) :
    ∀ e, y.1.entries.lookup id = some e → e.generation = generation := by
  induction hm with
  | refl => exact h
  | @tail y z hxy hyz ih =>
    obtain ⟨l, tr⟩ := y
    obtain ⟨l', tr'⟩ := z
    intro e' hz
    cases hyz.origin hz with
    | heir he heir => exact heir.generation.trans (ih _ he)
    | submitted request hnew => exact absurd hnew (hid.trans_le (Moves.nextRequest_le hxy)).ne
    | @granted e he hw hl heq =>
      subst heq
      exact ih e he

end OnnxGenai.Pressure
