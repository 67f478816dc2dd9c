import OnnxGenai.Pressure.Governor
import OnnxGenai.Lib.Runs

/-!
# Leases charged to the host governor

`HostGovernorAccounting` charges the leases of an engine to the host governor. The governor
hands out whole allocations and a lease gives back any number of bytes: what comes back is
kept as `credit`, which is lent again before the governor is asked, and which pays for the
largest allocations it covers. The lock of the adapter is not held while the governor is
asked, so a claim is two actions. Of the governor only this is used: it charges what is
outstanding, and all that it charges fits a `u64` (`Balanced`).
-/

namespace OnnxGenai.Pressure

open Lib List

inductive Tier where
  | device
  | host
  | disk
  deriving DecidableEq, Repr

def Tier.name : Tier → String
  | .device => "device"
  | .host => "host"
  | .disk => "disk"

/-- What a reservation is for. -/
inductive MemoryRole where
  | kvCache
  | workspace (stepScoped : Bool)
  | weights
  | activation
  deriving DecidableEq, Repr

/-- The error of a claim, `MemoryError::TierExhausted`. -/
structure TierExhausted where
  tier : String
  requested : ℕ
  used : ℕ
  limit : ℕ
  available : ℕ
  role : MemoryRole
  deriving DecidableEq, Repr

def refuse (tier : Tier) (requested available : ℕ) (role : MemoryRole) : TierExhausted :=
  ⟨tier.name, requested, 0, available, available, role⟩

/-- `Vec::swap_remove`: the last element takes the place of the removed one. -/
def swapRemove {α : Type} (l : List α) (index : ℕ) : List α :=
  match l.getLast? with
  | none => l
  | some last => (l.set index last).dropLast

def bytesOf (allocations : List HostAllocation) : ℕ := (allocations.map HostAllocation.bytes).sum

/-- The allocations charged and not given back, and the bytes released that pay for none of them. -/
structure Outstanding where
  allocations : List HostAllocation
  credit : ℕ
  deriving DecidableEq, Repr

namespace Outstanding

/-- `try_claim` until it asks the governor, for the bytes it returns. -/
def startClaim (o : Outstanding) (tier : Tier) (bytes : ℕ) (role : MemoryRole) :
    Except TierExhausted (Outstanding × Option ℕ) :=
  if tier ≠ .host then .error (refuse tier bytes 0 role)
  else if bytes = 0 then .ok (o, none)
  else if bytes ≤ o.credit then .ok ({ o with credit := o.credit - bytes }, none)
  else .ok (o, some bytes)

/-- `try_claim` after the poll of its ticket; there is none if the request failed. -/
def finishClaim (o : Outstanding) (bytes : ℕ) (role : MemoryRole) : Option TicketPoll → Except TierExhausted Outstanding
  | some (.granted allocation) => .ok { o with allocations := o.allocations ++ [allocation] }
  | _ => .error (refuse .host bytes 0 role)

/-- The largest allocation the credit covers, the last of equals, with its index. -/
def best (o : Outstanding) : Option (HostAllocation × ℕ) :=
  (o.allocations.zipIdx.filter fun entry => entry.1.bytes ≤ o.credit).reverse.argmax fun entry => entry.1.bytes

/-- The loop of `release`; every round takes out an allocation. -/
def returnLoop : ℕ → Outstanding → List HostAllocation → Outstanding × List HostAllocation
  | 0, o, returnable => (o, returnable)
  | fuel + 1, o, returnable =>
    match o.best with
    | none => (o, returnable)
    | some (allocation, index) =>
      returnLoop fuel ⟨swapRemove o.allocations index, o.credit - allocation.bytes⟩ (returnable ++ [allocation])

/-- `release`, with the allocations it gives to the governor afterwards. -/
def release (o : Outstanding) (tier : Tier) (bytes : ℕ) : Outstanding × List HostAllocation :=
  if tier ≠ .host ∨ bytes = 0 then (o, [])
  else returnLoop o.allocations.length { o with credit := min (o.credit + bytes) (u64Size - 1) } []

end Outstanding

/-- The books of the adapter, and the bytes claimed and not released. -/
structure Leases where
  outstanding : Outstanding
  held : ℕ
  deriving DecidableEq, Repr

/-- What the calls do under the lock. -/
inductive LeaseAction where
  | startClaim (tier : Tier) (bytes : ℕ) (role : MemoryRole)
  | finishClaim (bytes : ℕ) (role : MemoryRole) (poll : Option TicketPoll)
  | release (tier : Tier) (bytes : ℕ)

namespace Leases

def new : Leases := ⟨⟨[], 0⟩, 0⟩

/-- The governor grants what was asked, within a `u64`; callers release no more than they hold. -/
def allowed (s : Leases) : LeaseAction → Prop
  | .finishClaim bytes _ (some (.granted allocation)) =>
    0 < bytes ∧ allocation.bytes = bytes ∧ bytesOf s.outstanding.allocations + bytes < u64Size
  | .release tier bytes => tier = .host → bytes ≤ s.held
  | _ => True

def step (s : Leases) : LeaseAction → Leases
  | .startClaim tier bytes role =>
    match s.outstanding.startClaim tier bytes role with
    | .ok (o, none) => ⟨o, s.held + bytes⟩
    | _ => s
  | .finishClaim bytes role poll =>
    match s.outstanding.finishClaim bytes role poll with
    | .ok o => ⟨o, s.held + bytes⟩
    | .error _ => s
  | .release tier bytes => ⟨(s.outstanding.release tier bytes).1, if tier = .host then s.held - bytes else s.held⟩

abbrev Reaches (s : Leases) : Prop := Reachable (· = new) allowed step s

end Leases

/-! ### One release -/

theorem bytesOf_perm {l m : List HostAllocation} (h : l.Perm m) : bytesOf l = bytesOf m := (h.map _).sum_eq

@[simp] theorem bytesOf_cons (a : HostAllocation) (l : List HostAllocation) : bytesOf (a :: l) = a.bytes + bytesOf l := by
  simp [bytesOf]

theorem swapRemove_perm {α : Type} {l : List α} {index : ℕ} {a : α} (h : l[index]? = some a) :
    l.Perm (a :: swapRemove l index) := by
  obtain ⟨hi, rfl⟩ := List.getElem?_eq_some_iff.mp h
  rcases eq_nil_or_concat' l with rfl | ⟨init, last, rfl⟩
  · cases hi
  have hset : ((init ++ [last]).set index last).Perm (last :: swapRemove (init ++ [last]) index) := by
    have hne : (init ++ [last]).set index last ≠ [] := by simp
    have hlast : ((init ++ [last]).set index last).getLast hne = last := by
      simp [getLast_eq_getElem, getElem_set]
    conv_lhs => rw [← dropLast_append_getLast hne, hlast]
    simp [swapRemove, perm_append_singleton]
  -- the last element stands twice in the list that was written, the removed one not at all
  have hswap := (set_perm_cons_eraseIdx hi last).symm.trans hset
  exact (getElem_cons_eraseIdx_perm hi).symm.trans (hswap.cons_inv.cons _)

namespace Outstanding

variable {o : Outstanding}

theorem best_spec {a : HostAllocation} {index : ℕ} (h : o.best = some (a, index)) :
    a.bytes ≤ o.credit ∧ o.allocations.Perm (a :: swapRemove o.allocations index) := by
  have hm := argmax_mem (Option.mem_def.mpr h)
  simp only [mem_reverse, mem_filter, decide_eq_true_eq, mk_mem_zipIdx_iff_getElem?] at hm
  exact ⟨hm.2, swapRemove_perm hm.1⟩

theorem best_eq_none (h : o.best = none) {a : HostAllocation} (ha : a ∈ o.allocations) : o.credit < a.bytes := by
  obtain ⟨index, hi⟩ := mem_iff_getElem?.mp ha
  have hnil := reverse_eq_nil_iff.mp (argmax_eq_none.mp h)
  have := filter_eq_nil_iff.mp hnil (a, index) (mk_mem_zipIdx_iff_getElem?.mpr hi)
  simpa using this

/-- What leaves is paid for, and the loop runs until nothing left is covered. -/
theorem returnLoop_spec (fuel : ℕ) (o : Outstanding) (r : List HostAllocation) (hf : o.allocations.length ≤ fuel) :
    let o' := (returnLoop fuel o r).1
    o.credit + bytesOf o'.allocations = o'.credit + bytesOf o.allocations ∧ o'.credit ≤ o.credit ∧
      ∀ a ∈ o'.allocations, o'.credit < a.bytes := by
  induction fuel generalizing o r with
  | zero =>
    have hnil : o.allocations = [] := eq_nil_of_length_eq_zero (Nat.le_zero.mp hf)
    simp [returnLoop, hnil]
  | succ fuel ih =>
    simp only [returnLoop]
    cases hb : o.best with
    | none => exact ⟨rfl, le_rfl, fun a => best_eq_none hb⟩
    | some entry =>
      obtain ⟨hle, hperm⟩ := best_spec hb
      have hbytes := bytesOf_perm hperm
      rw [bytesOf_cons] at hbytes
      obtain ⟨hpaid, hfewer, hrest⟩ := ih ⟨swapRemove o.allocations entry.2, o.credit - entry.1.bytes⟩ (r ++ [entry.1])
        (by rw [hperm.length_eq] at hf; exact Nat.le_of_succ_le_succ hf)
      exact ⟨by simp only at hpaid ⊢; omega, hfewer.trans (Nat.sub_le _ _), hrest⟩

end Outstanding

/-! ### Every interleaving -/

namespace Leases

variable {s : Leases}

/-- What holds at every step. -/
structure Conserved (s : Leases) : Prop where
  worth : bytesOf s.outstanding.allocations = s.outstanding.credit + s.held
  bounded : bytesOf s.outstanding.allocations < u64Size
  emptied : s.held = 0 → s.outstanding.allocations = []

theorem Conserved.release (h : Conserved s) {tier : Tier} {bytes : ℕ} (hle : tier = .host → bytes ≤ s.held) :
    Conserved (s.step (.release tier bytes)) := by
  obtain ⟨hworth, hbound, hempty⟩ := h
  simp only [step, Outstanding.release]
  by_cases hnone : tier ≠ .host ∨ bytes = 0
  · have hheld : (if tier = .host then s.held - bytes else s.held) = s.held := by
      rcases hnone with htier | rfl
      · exact if_neg htier
      · simp
    rw [if_pos hnone, hheld]
    exact ⟨hworth, hbound, hempty⟩
  · rw [if_neg hnone]
    obtain ⟨rfl, -⟩ : tier = .host ∧ bytes ≠ 0 := by simpa using hnone
    have hle := hle rfl
    -- the sum does not saturate, since what is held is charged
    have hsum : min (s.outstanding.credit + bytes) (u64Size - 1) = s.outstanding.credit + bytes := by omega
    rw [hsum, if_pos rfl]
    obtain ⟨hpaid, hfewer, hrest⟩ := Outstanding.returnLoop_spec s.outstanding.allocations.length
      ⟨s.outstanding.allocations, s.outstanding.credit + bytes⟩ [] le_rfl
    generalize (Outstanding.returnLoop _ _ _).1 = o' at hpaid hfewer hrest ⊢
    simp only at hpaid hfewer
    refine ⟨by simp only; omega, by simp only; omega, fun h0 => eq_nil_iff_forall_not_mem.mpr fun a ha => ?_⟩
    -- with nothing held the credit would cover whatever is left
    have hone := bytesOf_perm (perm_cons_erase ha)
    have := hrest a ha
    simp only [bytesOf_cons] at h0 hone
    omega

theorem Conserved.step {a : LeaseAction} (h : Conserved s) (ha : s.allowed a) : Conserved (s.step a) := by
  cases a with
  | release tier bytes => exact h.release ha
  | startClaim tier bytes role =>
    obtain ⟨hworth, hbound, hempty⟩ := h
    simp only [Leases.step, Outstanding.startClaim]
    split_ifs with htier hzero hcredit
    · exact ⟨hworth, hbound, hempty⟩
    · subst hzero
      exact ⟨hworth, hbound, hempty⟩
    · exact ⟨by simp only; omega, hbound, fun h0 => by simp only at h0; omega⟩
    · exact ⟨hworth, hbound, hempty⟩
  | finishClaim bytes role poll =>
    rcases poll with _ | (_ | a | _ | _)
    case some.granted =>
      obtain ⟨hpos, rfl, hfits⟩ := ha
      have hworth := h.worth
      have hpush : bytesOf (s.outstanding.allocations ++ [a]) = a.bytes + bytesOf s.outstanding.allocations :=
        (bytesOf_perm perm_append_comm).trans (bytesOf_cons a _)
      simp only [Leases.step, Outstanding.finishClaim]
      exact ⟨by simp only; omega, by simp only; omega, fun h0 => by simp only at h0; omega⟩
    all_goals exact h

/-- **Credit is conserved**: whatever the interleaving, the outstanding allocations less the
credit are the bytes held, so that the governor is charged no less; and when nothing is held
there are neither allocations nor credit. -/
theorem credit_conserved (h : s.Reaches) :
    bytesOf s.outstanding.allocations - s.outstanding.credit = s.held ∧ s.held ≤ bytesOf s.outstanding.allocations ∧
      s.outstanding.credit ≤ bytesOf s.outstanding.allocations ∧
      (s.held = 0 → s.outstanding.allocations = [] ∧ s.outstanding.credit = 0) := by
  have hc : Conserved s := h.invariant (I := Conserved)
    (by rintro _ rfl; exact ⟨rfl, by decide, fun _ => rfl⟩) fun _ _ => Conserved.step
  have hworth := hc.worth
  refine ⟨by omega, by omega, by omega, fun h0 => ?_⟩
  have hnil := hc.emptied h0
  rw [hnil, h0] at hworth
  exact ⟨hnil, hworth.symm⟩

/-- Ten bytes claimed, four of them released. -/
theorem credit_conserved_shrunk : ∃ s : Leases, s.outstanding.credit = 4 ∧ s.held = 6 ∧
    bytesOf s.outstanding.allocations - s.outstanding.credit = s.held := by
  have hreach : (([.finishClaim 10 .kvCache (some (.granted ⟨0, 0, 0, 10, 0, false⟩)), .release .host 4] :
      List LeaseAction).foldl step new).Reaches :=
    Reachable.foldl _ (.start rfl) ⟨⟨by decide, rfl, by decide⟩, fun _ => by decide, trivial⟩
  exact ⟨_, by decide, by decide, (credit_conserved hreach).1⟩

end Leases

end OnnxGenai.Pressure
