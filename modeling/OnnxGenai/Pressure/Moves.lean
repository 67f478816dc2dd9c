import OnnxGenai.Pressure.Governor

/-!
# What can happen to a ledger

Every operation of the governor takes the ledger and its trace through a sequence of
elementary moves (`Move`): a request is submitted, granted, claimed, cancelled, timed out or
released, terminal entries are dropped, requests age, bytes are reclaimed, and a new
generation starts. Each move keeps the ledger sound (`Sound`): its bytes add up to the
capacity, pending requests carry the current generation, a request is claimed at most
once, and an allocation is credited at most once.
-/

namespace OnnxGenai.Pressure

open Lib FiniteMap

/-! ### Counting events -/

/-- An event that claims a request. -/
def PressureEvent.claims (id : RequestId) : PressureEvent → Bool
  | .claim request _ _ => request = id
  | _ => false

/-- The bytes an event credits back to the free bytes for an allocation. -/
def PressureEvent.credited (a : AllocationId) : PressureEvent → Option ℕ
  | .cancelGranted _ allocation extent => if allocation = a then some extent else none
  | .timeoutGranted _ allocation extent => if allocation = a then some extent else none
  | .release _ allocation extent => if allocation = a then some extent else none
  | _ => none

namespace Trace

/-- How often a request was claimed. -/
def claims (tr : Trace) (id : RequestId) : ℕ := tr.countP fun r => r.1.claims id

/-- The credits an allocation got, in order. -/
def credits (tr : Trace) (a : AllocationId) : List ℕ := tr.filterMap fun r => r.1.credited a

@[simp] theorem claims_append (tr : Trace) (ev : PressureEvent) (l : Ledger) (id : RequestId) :
    claims (tr ++ [(ev, l)]) id = claims tr id + if ev.claims id then 1 else 0 := by
  simp [claims, List.countP_append, List.countP_cons]

@[simp] theorem credits_append (tr : Trace) (ev : PressureEvent) (l : Ledger) (a : AllocationId) :
    credits (tr ++ [(ev, l)]) a = credits tr a ++ (ev.credited a).toList := by
  cases h : ev.credited a with
  | none | some => simp [credits, h]

end Trace

/-- The allocation an entry holds. -/
def LedgerEntry.allocation (e : LedgerEntry) : Option HostAllocation :=
  match e.state with
  | .granted a => some a
  | .claimed a => some a
  | _ => none

/-! ### Moves -/

namespace Ledger

/-- A request submitted. -/
def submitted (l : Ledger) (request : HostPageRequest) : Ledger :=
  { l with
    nextRequest := l.nextRequest + 1
    nextSubmitSeq := l.nextSubmitSeq + 1
    entries := l.entries.insert l.nextRequest (l.newEntry request) }

/-- A request charged. -/
def granted (l : Ledger) (id : RequestId) (e : LedgerEntry) : Ledger :=
  { l with free := l.free - e.bytes, nextAlloc := l.nextAlloc + 1 }.setState id (.granted (l.nextAllocation id e))

/-- Bytes returned. -/
def credited (l : Ledger) (bytes : ℕ) : Ledger := { l with free := l.free + bytes }

/-- A new generation. -/
def reconfigured (l : Ledger) : Ledger :=
  { l with
    generation := l.generation + 1
    entries := FiniteMap.mapEntries l.entries (LedgerEntry.invalidated (l.generation + 1)) }

/-- Bytes of a device reclaimed. -/
def reclaimed (l : Ledger) (device : DeviceId) (bytes : ℕ) : Ledger :=
  { l with
    reclaimable := l.reclaimable.insert device ((l.reclaimable.lookup device).getD 0 - bytes)
    free := l.free + bytes }

/-- No request that waits and has matured was submitted before sequence number `seq`. -/
def NoneMaturedBefore (l : Ledger) (seq : ℕ) : Prop :=
  ∀ r f, l.entries.lookup r = some f → l.waits f = true → agingCap ≤ f.age → seq ≤ f.submitSeq

end Ledger

open Ledger in
/-- The elementary moves of a ledger and its trace. -/
inductive Move : Ledger × Trace → Ledger × Trace → Prop where
  | aged (l : Ledger) (tr : Trace) : Move (l, tr) (l.aged, tr)
  | notices (l : Ledger) (tr : Trace) : Move (l, tr) (l.withReclaimNotices, tr)
  | skipped (l : Ledger) (tr : Trace) :
      Move (l, tr) ({ l with nextRequest := l.nextRequest + 1, nextSubmitSeq := l.nextSubmitSeq + 1 }, tr)
  | submit (l : Ledger) (tr : Trace) (request : HostPageRequest) :
      Move (l, tr) (l.submitted request,
        tr ++ [(.submit l.nextRequest l.generation request.owner request.bytes, l.submitted request)])
  | grant {l : Ledger} {id : RequestId} {e : LedgerEntry} (tr : Trace) (h : l.entries.lookup id = some e)
      (hw : l.waits e = true) (hfit : e.bytes ≤ l.free) (hfirst : l.NoneMaturedBefore e.submitSeq) :
      Move (l, tr) (l.granted id e, tr ++ [(.grant id l.nextAlloc e.owner e.bytes, l.granted id e)])
  | claim {l : Ledger} {id : RequestId} {e : LedgerEntry} {a : HostAllocation} (tr : Trace)
      (h : l.entries.lookup id = some e) (hs : e.state = .granted a) :
      Move (l, tr) (l.setState id (.claimed a), tr ++ [(.claim id a.id a.bytes, l.setState id (.claimed a))])
  | cancelPending {l : Ledger} {id : RequestId} {e : LedgerEntry} (tr : Trace) (h : l.entries.lookup id = some e)
      (hp : e.isPending = true) :
      Move (l, tr) ((l.setState id .cancelled).remove id, tr ++ [(.cancelPending id, l.setState id .cancelled)])
  | cancelGranted {l : Ledger} {id : RequestId} {e : LedgerEntry} {a : HostAllocation} (tr : Trace)
      (h : l.entries.lookup id = some e) (hs : e.state = .granted a) :
      Move (l, tr) (((l.credited e.bytes).setState id .cancelled).remove id,
        tr ++ [(.cancelGranted id a.id e.bytes, (l.credited e.bytes).setState id .cancelled)])
  | reap {l : Ledger} {id : RequestId} {e : LedgerEntry} (tr : Trace) (h : l.entries.lookup id = some e)
      (hp : e.isPending = false) (ha : e.allocation = none) : Move (l, tr) (l.remove id, tr)
  | timeoutPending {l : Ledger} {id : RequestId} {e : LedgerEntry} (tr : Trace) (h : l.entries.lookup id = some e)
      (hp : e.isPending = true) :
      Move (l, tr) (l.setState id (.failed (.hostPressureTimeout id)),
        tr ++ [(.timeoutPending id, l.setState id (.failed (.hostPressureTimeout id)))])
  | timeoutGranted {l : Ledger} {id : RequestId} {e : LedgerEntry} {a : HostAllocation} (tr : Trace)
      (h : l.entries.lookup id = some e) (hs : e.state = .granted a) :
      Move (l, tr) ((l.credited e.bytes).setState id (.failed (.hostPressureTimeout id)),
        tr ++ [(.timeoutGranted id a.id e.bytes, (l.credited e.bytes).setState id (.failed (.hostPressureTimeout id)))])
  | release {l : Ledger} {id : RequestId} {e : LedgerEntry} {a : HostAllocation} (tr : Trace)
      (h : l.entries.lookup id = some e) (hs : e.state = .claimed a) :
      Move (l, tr) ((l.credited e.bytes).remove id, tr ++ [(.release id a.id e.bytes, l.credited e.bytes)])
  | reconfigure (l : Ledger) (tr : Trace) :
      Move (l, tr) (l.reconfigured, tr ++ [(.reconfigure (l.generation + 1), l.reconfigured)])
  | reclaim {l : Ledger} {device : DeviceId} {bytes : ℕ} (tr : Trace)
      (h : bytes ≤ (l.reclaimable.lookup device).getD 0) :
      Move (l, tr) (l.reclaimed device bytes, tr ++ [(.reclaim device bytes, l.reclaimed device bytes)])

/-- Moves one after the other. -/
abbrev Moves := Relation.ReflTransGen Move

/-! ### Lookups -/

namespace Ledger

theorem lookup_setState (l : Ledger) (id j : RequestId) (state : PressureState) :
    (l.setState id state).entries.lookup j =
      if j = id then (l.entries.lookup id).map fun e => { e with state := state } else l.entries.lookup j :=
  lookup_adjust l.entries id j _

theorem lookup_remove (l : Ledger) (id j : RequestId) :
    (l.remove id).entries.lookup j = if j = id then none else l.entries.lookup j :=
  lookup_erase' l.entries id j

theorem lookup_submitted (l : Ledger) (request : HostPageRequest) (j : RequestId) :
    (l.submitted request).entries.lookup j =
      if j = l.nextRequest then some (l.newEntry request) else l.entries.lookup j :=
  lookup_insert' l.entries l.nextRequest j _

theorem lookup_aged (l : Ledger) (j : RequestId) :
    l.aged.entries.lookup j = (l.entries.lookup j).map fun e =>
      if l.waits e then { e with age := min (e.age + 1) agingCap } else e :=
  lookup_mapValues l.entries _ j

theorem lookup_reconfigured (l : Ledger) (j : RequestId) :
    l.reconfigured.entries.lookup j = (l.entries.lookup j).map (LedgerEntry.invalidated (l.generation + 1) j) :=
  lookup_mapEntries l.entries _ j

end Ledger

end OnnxGenai.Pressure
