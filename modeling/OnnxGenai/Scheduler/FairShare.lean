import OnnxGenai.Lib.MinBy

/-!
# Fair share across priority classes

`FairSharePolicy` (`policy.rs`): deficit-weighted round-robin over the priority classes that
have work. The three-element arrays of the source, indexed by `class_index`, are functions of
the class.
-/

namespace OnnxGenai.Batching

open List

/-- Request priority level. -/
inductive Priority where
  | low
  | normal
  | high
  deriving DecidableEq, Repr

namespace Priority

/-- `priority as usize`, also the order of the levels. -/
def classIndex : Priority → ℕ
  | low => 0
  | normal => 1
  | high => 2

/-- `priority_from_index`; an index beyond the classes, which the source never uses, is the
highest class. -/
def ofIndex : ℕ → Priority
  | 0 => low
  | 1 => normal
  | _ => high

@[simp] theorem ofIndex_classIndex (p : Priority) : ofIndex p.classIndex = p := by cases p <;> rfl

/-- `Ord::cmp`, by the discriminants. -/
def cmp (p q : Priority) : Ordering := compare p.classIndex q.classIndex

end Priority

/-- `CLASS_COUNT`. -/
def classCount : ℕ := 3

/-- `i128` values, for `saturating_add` and `saturating_sub`. -/
def saturateI128 (x : ℤ) : ℤ := max (-2 ^ 127) (min x (2 ^ 127 - 1))

/-- Deficit-weighted round-robin across priority classes. -/
structure FairSharePolicy where
  weights : Priority → ℕ
  deficits : Priority → ℤ
  tieCursor : ℕ

namespace FairSharePolicy

/-- A policy with weights for `(Low, Normal, High)`; `none` where the source's assertion fails. -/
def withWeights (low normal high : ℕ) : Option FairSharePolicy :=
  if 0 < low ∧ 0 < normal ∧ 0 < high then
    some
      { weights := fun
          | .low => low
          | .normal => normal
          | .high => high
        deficits := fun _ => 0
        tieCursor := 0 }
  else none

/-- An equal-share policy. -/
def new : FairSharePolicy where
  weights _ := 1
  deficits _ := 0
  tieCursor := 0

/-- The classes in the order in which ties are broken. -/
def order (policy : FairSharePolicy) : List Priority :=
  (List.range classCount).map fun offset => .ofIndex ((policy.tieCursor + offset) % classCount)

/-- The deficits once every class with work got its credit, and the idle ones lost theirs. -/
def credited (policy : FairSharePolicy) (active : List Priority) (p : Priority) : ℤ :=
  if p ∈ active then saturateI128 (policy.deficits p + policy.weights p) else 0

/-- The sum of the weights of the classes with work; sums of three `u32` do not saturate. -/
def totalWeight (policy : FairSharePolicy) (active : List Priority) : ℤ :=
  (([.low, .normal, .high] : List Priority).map fun p => if p ∈ active then (policy.weights p : ℤ) else 0).sum

/-- One turn of the loop that looks for the class with the largest deficit. -/
def better (deficits : Priority → ℤ) (active : List Priority) (selected : Option Priority) (p : Priority) :
    Option Priority :=
  if p ∈ active then
    match selected with
    | some current => if deficits current ≥ deficits p then some current else some p
    | none => some p
  else selected

/-- Select the next class from the currently backlogged classes. -/
def select (policy : FairSharePolicy) (active : List Priority) : Option Priority × FairSharePolicy :=
  let deficits := policy.credited active
  match policy.order.foldl (better deficits active) none with
  | none => (none, { policy with deficits := fun _ => 0 })
  | some selected =>
    (some selected,
      { policy with
        deficits := Function.update deficits selected (saturateI128 (deficits selected - policy.totalWeight active))
        tieCursor := (selected.classIndex + 1) % classCount })

theorem mem_order (policy : FairSharePolicy) (p : Priority) : p ∈ policy.order := by
  simp only [order, classCount, mem_map, mem_range]
  -- the offset from the cursor to the class
  refine ⟨(p.classIndex + 3 - policy.tieCursor % 3) % 3, Nat.mod_lt _ (by decide), ?_⟩
  have hindex : (policy.tieCursor + (p.classIndex + 3 - policy.tieCursor % 3) % 3) % 3 = p.classIndex := by
    cases p <;> simp only [Priority.classIndex] <;> omega
  rw [hindex, Priority.ofIndex_classIndex]

/-! ### One call -/

section

variable {deficits : Priority → ℤ} {active seen : List Priority} {selected : Option Priority}

/-- `selected` has the largest deficit among the classes of `seen` that have work. -/
def Leads (deficits : Priority → ℤ) (active seen : List Priority) : Option Priority → Prop
  | none => ∀ q ∈ seen, q ∉ active
  | some p => p ∈ active ∧ ∀ q ∈ seen, q ∈ active → deficits q ≤ deficits p

theorem Leads.better (h : Leads deficits active seen selected) (p : Priority) :
    Leads deficits active (p :: seen) (better deficits active selected p) := by
  unfold FairSharePolicy.better
  split_ifs with hp
  · cases selected with
    | none => exact ⟨hp, by simpa using fun q hq hmem => absurd hmem (h q hq)⟩
    | some current =>
      obtain ⟨hmem, hle⟩ := h
      dsimp only
      split_ifs with hge
      · exact ⟨hmem, forall_mem_cons.mpr ⟨fun _ => hge, hle⟩⟩
      · exact ⟨hp, forall_mem_cons.mpr
          ⟨fun _ => le_rfl, fun q hq hqa => (hle q hq hqa).trans (le_of_not_ge hge)⟩⟩
  · cases selected with
    | none => exact forall_mem_cons.mpr ⟨hp, h⟩
    | some current => exact ⟨h.1, forall_mem_cons.mpr ⟨fun hpa => absurd hpa hp, h.2⟩⟩

theorem Leads.foldl {classes : List Priority} (h : Leads deficits active seen selected) :
    Leads deficits active (classes.reverse ++ seen) (classes.foldl (FairSharePolicy.better deficits active) selected) := by
  induction classes generalizing seen selected with
  | nil => exact h
  | cons p classes ih => simpa using ih (h.better p)

variable {policy : FairSharePolicy}

/-- A call selects a class with work and the largest credit, unless there is no work. -/
theorem select_spec (policy : FairSharePolicy) (active : List Priority) :
    (active = [] ∧ policy.select active = (none, { policy with deficits := fun _ => 0 })) ∨
      ∃ p ∈ active, (∀ q ∈ active, policy.credited active q ≤ policy.credited active p) ∧
        policy.select active = (some p,
          { policy with
            deficits := Function.update (policy.credited active) p
              (saturateI128 (policy.credited active p - policy.totalWeight active))
            tieCursor := (p.classIndex + 1) % classCount }) := by
  have hleads : Leads (policy.credited active) active (policy.order.reverse ++ [])
      (policy.order.foldl (better (policy.credited active) active) none) := Leads.foldl (by simp [Leads])
  cases hsel : policy.order.foldl (better (policy.credited active) active) none with
  | none =>
    rw [hsel] at hleads
    exact .inl ⟨eq_nil_iff_forall_not_mem.mpr fun p => hleads p (by simp [mem_order]), by simp [select, hsel]⟩
  | some p =>
    rw [hsel] at hleads
    exact .inr ⟨p, hleads.1, fun q hq => hleads.2 q (by simp [mem_order]) hq, by simp [select, hsel]⟩

/-- The class that is selected has work. -/
theorem select_mem {p : Priority} (h : (policy.select active).1 = some p) : p ∈ active := by
  rcases select_spec policy active with ⟨-, heq⟩ | ⟨q, hq, -, heq⟩ <;> rw [heq] at h <;> cases h
  exact hq

/-- A class is selected whenever there is work. -/
theorem select_eq_none : (policy.select active).1 = none ↔ active = [] := by
  rcases select_spec policy active with ⟨hnil, heq⟩ | ⟨q, hq, -, heq⟩
  · exact iff_of_true (by rw [heq]) hnil
  · simp [heq, ne_nil_of_mem hq]

@[simp] theorem select_weights : (policy.select active).2.weights = policy.weights := by
  simp only [select]
  split <;> rfl

theorem saturateI128_of_lt {x : ℤ} (hlow : -2 ^ 127 ≤ x) (hhigh : x < 2 ^ 127) : saturateI128 x = x := by
  rw [saturateI128, min_eq_left (by omega), max_eq_right hlow]

theorem totalWeight_eq (policy : FairSharePolicy) (active : List Priority) :
    policy.totalWeight active = (if .low ∈ active then (policy.weights .low : ℤ) else 0) +
      (if .normal ∈ active then (policy.weights .normal : ℤ) else 0) +
      if .high ∈ active then (policy.weights .high : ℤ) else 0 := by
  simp [totalWeight, add_assoc]

/-- The weights are non-zero `u32` values. -/
def Weighted (policy : FairSharePolicy) : Prop := ∀ p, 0 < policy.weights p ∧ policy.weights p < 2 ^ 32

theorem Weighted.select (h : policy.Weighted) : (policy.select active).2.Weighted := by
  simpa only [Weighted, select_weights] using h

theorem Weighted.totalWeight (h : policy.Weighted) (hactive : active ≠ []) :
    0 < policy.totalWeight active ∧ policy.totalWeight active < 2 ^ 34 := by
  obtain ⟨p, hp⟩ := exists_mem_of_ne_nil active hactive
  have hlow := h .low
  have hnormal := h .normal
  have hhigh := h .high
  rw [totalWeight_eq]
  cases p <;> rw [if_pos hp] <;> split_ifs <;> omega

/-- The call without its saturations, which deficits of this size do not reach. -/
theorem select_exact (hweighted : policy.Weighted)
    (hdeficits : ∀ p, -2 ^ 64 ≤ policy.deficits p ∧ policy.deficits p ≤ 2 ^ 64) (hactive : active ≠ []) :
    ∃ p ∈ active,
      (∀ q ∈ active, policy.deficits q + policy.weights q ≤ policy.deficits p + policy.weights p) ∧
      (policy.select active).1 = some p ∧
      ∀ q, (policy.select active).2.deficits q =
        (if q ∈ active then policy.deficits q + policy.weights q else 0) -
          if q = p then policy.totalWeight active else 0 := by
  have hcredited : ∀ q ∈ active, policy.credited active q = policy.deficits q + policy.weights q := by
    intro q hq
    have hw := hweighted q
    have hd := hdeficits q
    rw [credited, if_pos hq, saturateI128_of_lt (by omega) (by omega)]
  have htotal := hweighted.totalWeight hactive
  rcases select_spec policy active with ⟨hnil, -⟩ | ⟨p, hp, hmax, heq⟩
  · exact absurd hnil hactive
  · refine ⟨p, hp, fun q hq => ?_, by rw [heq], fun q => ?_⟩
    · rw [← hcredited q hq, ← hcredited p hp]
      exact hmax q hq
    · have hw := hweighted p
      have hd := hdeficits p
      rw [heq]
      by_cases hqp : q = p
      · subst hqp
        simp only [Function.update_self, if_pos hp, if_true, hcredited q hp]
        exact saturateI128_of_lt (by omega) (by omega)
      · by_cases hq : q ∈ active
        · simp [hqp, hq, hcredited]
        · simp [hqp, hq, credited]

end

/-! ### Runs of calls -/

/-- The classes that consecutive calls select, and the policy they leave. -/
def run (policy : FairSharePolicy) : List (List Priority) → List (Option Priority) × FairSharePolicy
  | [] => ([], policy)
  | active :: rest =>
    let (selected, policy) := policy.select active
    let (picks, policy) := run policy rest
    (selected :: picks, policy)

section

variable {policy : FairSharePolicy} {active : List Priority}

variable {actives : List (List Priority)}

@[simp] theorem run_weights : (policy.run actives).2.weights = policy.weights := by
  induction actives generalizing policy with
  | nil => rfl
  | cons active actives ih => exact ih.trans select_weights

@[simp] theorem totalWeight_run : (policy.run actives).2.totalWeight active = policy.totalWeight active := by
  simp only [totalWeight, run_weights]

theorem Weighted.run (h : policy.Weighted) : (policy.run actives).2.Weighted := by
  simpa only [Weighted, run_weights] using h

/-- After `n` calls with the classes `active`, `count p` of which selected `p`: the deficits of the
classes with work say how far each is from its share, and none is a whole round behind. -/
structure Proportional (active : List Priority) (n : ℕ) (count : Priority → ℕ) (policy : FairSharePolicy) :
    Prop where
  idle : ∀ p ∉ active, policy.deficits p = 0
  share : ∀ p ∈ active, policy.deficits p + policy.totalWeight active * count p = n * policy.weights p
  balanced : policy.deficits .low + policy.deficits .normal + policy.deficits .high = 0
  above : ∀ p, -policy.totalWeight active < policy.deficits p

theorem Proportional.select {n : ℕ} {count : Priority → ℕ} (h : Proportional active n count policy)
    (hweighted : policy.Weighted) (hactive : active ≠ []) :
    ∃ p, (policy.select active).1 = some p ∧
      Proportional active (n + 1) (fun q => count q + if q = p then 1 else 0) (policy.select active).2 := by
  have htotal := hweighted.totalWeight hactive
  have hlow := h.above .low
  have hnormal := h.above .normal
  have hhigh := h.above .high
  have hbalanced := h.balanced
  obtain ⟨p, hp, hmax, hselect, hstep⟩ := select_exact hweighted (fun p => by cases p <;> omega) hactive
  have hsame : (policy.select active).2.totalWeight active = policy.totalWeight active := by
    simp only [totalWeight, select_weights]
  -- the credits sum to the total weight
  have hsum : ∀ q, policy.deficits q + (if q ∈ active then (policy.weights q : ℤ) else 0) =
      if q ∈ active then policy.deficits q + policy.weights q else 0 := by
    intro q
    split_ifs with hq
    · rfl
    · rw [h.idle q hq, add_zero]
  have hsuml := hsum .low
  have hsumn := hsum .normal
  have hsumh := hsum .high
  have htotaleq := totalWeight_eq policy active
  refine ⟨p, hselect, fun q hq => ?_, fun q hq => ?_, ?_, fun q => ?_⟩
  · rw [hstep, if_neg hq, if_neg (ne_of_mem_of_not_mem hp hq).symm, sub_zero]
  · have hshare := h.share q hq
    rw [hstep, hsame, select_weights, if_pos hq]
    push_cast
    split_ifs <;> linarith
  · simp only [hstep]
    cases p <;> simp only [reduceCtorEq, if_true, if_false] <;> omega
  · have habove := h.above q
    have hcredit : ∀ q, (if q ∈ active then policy.deficits q + policy.weights q else 0) ≤
        max 0 (policy.deficits p + policy.weights p) := by
      intro q
      split_ifs with hq
      · exact (hmax q hq).trans (le_max_right _ _)
      · exact le_max_left _ _
    have hcreditl := hcredit .low
    have hcreditn := hcredit .normal
    have hcredith := hcredit .high
    rw [hstep, hsame]
    by_cases hqp : q = p
    · rw [if_pos hqp, hqp, if_pos hp]
      omega
    · split_ifs <;> omega

theorem Proportional.run {n : ℕ} {count : Priority → ℕ} (h : Proportional active n count policy)
    (hweighted : policy.Weighted) (hactive : active ≠ []) (m : ℕ) :
    Proportional active (n + m) (fun p => count p + (policy.run (List.replicate m active)).1.count (some p))
      (policy.run (List.replicate m active)).2 := by
  induction m generalizing n count policy with
  | zero => simpa [FairSharePolicy.run] using h
  | succ m ih =>
    obtain ⟨p, hselect, hnext⟩ := h.select hweighted hactive
    have hcount : ∀ picks : List (Option Priority), (fun q => count q + (some p :: picks).count (some q)) =
        fun q => (count q + if q = p then 1 else 0) + picks.count (some q) := by
      intro picks
      funext q
      simp only [count_cons, beq_iff_eq, Option.some.injEq, eq_comm (a := p)]
      omega
    simp only [replicate_succ, FairSharePolicy.run, hselect]
    rw [hcount, add_comm m, ← add_assoc]
    exact ih hnext hweighted.select

/-- After whole rounds no deficit is left: each is a multiple of the total weight, none is a round
behind, and they sum to zero. -/
theorem Proportional.deficits_eq_zero {k n : ℕ} {count : Priority → ℕ} (h : Proportional active n count policy)
    (hweighted : policy.Weighted) (hactive : active ≠ []) (hn : (n : ℤ) = k * policy.totalWeight active)
    (p : Priority) : policy.deficits p = 0 := by
  have htotal := (hweighted.totalWeight hactive).1
  have hnonneg : ∀ q, 0 ≤ policy.deficits q := by
    intro q
    by_cases hq : q ∈ active
    · have habove := h.above q
      have hmul : policy.deficits q = policy.totalWeight active * (k * policy.weights q - count q) := by
        have hshare := h.share q hq
        rw [hn] at hshare
        linarith
      have hle : -1 < (k * policy.weights q - count q : ℤ) := by
        by_contra hneg
        nlinarith
      rw [hmul]
      exact mul_nonneg htotal.le (by omega)
    · exact (h.idle q hq).ge
  have hlow := hnonneg .low
  have hnormal := hnonneg .normal
  have hhigh := hnonneg .high
  have hbalanced := h.balanced
  cases p <;> omega

theorem run_rounds (hweighted : policy.Weighted) (hactive : active ≠ []) (hzero : ∀ p, policy.deficits p = 0)
    {k n : ℕ} (hn : (n : ℤ) = k * policy.totalWeight active) :
    (∀ p ∈ active, (policy.run (List.replicate n active)).1.count (some p) = k * policy.weights p) ∧
      ∀ p, (policy.run (List.replicate n active)).2.deficits p = 0 := by
  have htotal := (hweighted.totalWeight hactive).1
  have hstart : Proportional active 0 (fun _ => 0) policy :=
    ⟨fun p _ => hzero p, fun p _ => by simp [hzero], by simp [hzero], fun p => by simpa [hzero] using htotal⟩
  have hrun := hstart.run hweighted hactive n
  have hend := hrun.deficits_eq_zero hweighted.run hactive (k := k) (by simpa using hn)
  refine ⟨fun p hp => ?_, hend⟩
  have hshare := hrun.share p hp
  simp only [hend, zero_add, totalWeight_run, run_weights, hn] at hshare
  have hcancel : policy.totalWeight active * ((policy.run (replicate n active)).1.count (some p) : ℤ) =
      policy.totalWeight active * (k * policy.weights p) := by linarith
  exact_mod_cast mul_left_cancel₀ htotal.ne' hcancel

/-- Shares are exact: with the same classes backlogged, every block of as many calls as the weights of
those classes sum to selects each class as often as its weight, and leaves every deficit at zero. -/
theorem run_proportional (hweighted : policy.Weighted) (hactive : active ≠ []) (hzero : ∀ p, policy.deficits p = 0)
    (k : ℕ) :
    let total := (policy.totalWeight active).toNat
    let before := (policy.run (replicate (k * total) active)).2
    let block := before.run (replicate total active)
    (∀ p ∈ active, block.1.count (some p) = policy.weights p) ∧ ∀ p, block.2.deficits p = 0 := by
  intro total before
  have htotal := (hweighted.totalWeight hactive).1
  have hbefore := (run_rounds hweighted hactive hzero (k := k) (n := k * total) (by simp [total, htotal.le])).2
  have hblock := run_rounds hweighted.run hactive hbefore (k := 1) (n := total) (by simp [total, htotal.le])
  simpa only [one_mul, run_weights] using hblock

theorem run_proportional_new :
    let block := (new.run (replicate 4 [.low, .high])).2.run (replicate 2 [.low, .high])
    (∀ p ∈ [Priority.low, .high], block.1.count (some p) = 1) ∧ ∀ p, block.2.deficits p = 0 :=
  @run_proportional new _ (fun _ => by simp [new]) (by simp) (fun _ => rfl) 2

end

/-! ### No class starves -/

section

variable {policy : FairSharePolicy} {active : List Priority}

/-- Bounds on the deficits of the three classes, alone and together. -/
def Near (total low normal high : ℤ) : Prop :=
  (-2 * total ≤ low ∧ low ≤ 2 * total) ∧ (-2 * total ≤ normal ∧ normal ≤ 2 * total) ∧
    (-2 * total ≤ high ∧ high ≤ 2 * total) ∧ (-3 * total ≤ low + normal ∧ low + normal ≤ 2 * total) ∧
    (-3 * total ≤ low + high ∧ low + high ≤ 2 * total) ∧
    (-3 * total ≤ normal + high ∧ normal + high ≤ 2 * total) ∧
    -3 * total ≤ low + normal + high ∧ low + normal + high ≤ 2 * total

/-- The weights of all classes together. -/
def fullWeight (policy : FairSharePolicy) : ℕ := policy.weights .low + policy.weights .normal + policy.weights .high

/-- Whatever classes had work, the deficits stay within two rounds of zero. -/
def Bounded (policy : FairSharePolicy) : Prop :=
  Near policy.fullWeight (policy.deficits .low) (policy.deficits .normal) (policy.deficits .high)

theorem Bounded.select (h : policy.Bounded) (hweighted : policy.Weighted) (active : List Priority) :
    (policy.select active).2.Bounded ∧
      ∀ p ∈ active, (policy.select active).1 ≠ some p →
        (policy.select active).2.deficits p = policy.deficits p + policy.weights p := by
  simp only [Bounded, Near, fullWeight, select_weights] at h ⊢
  have hlow := hweighted .low
  have hnormal := hweighted .normal
  have hhigh := hweighted .high
  rcases select_spec policy active with ⟨rfl, heq⟩ | ⟨p, hp, -⟩
  · simp only [heq, not_mem_nil, false_imp_iff, implies_true, and_true]
    omega
  · obtain ⟨p, hp, hmax, hselect, hstep⟩ :=
      select_exact hweighted (fun p => by cases p <;> omega) (ne_nil_of_mem hp)
    have hmaxl := hmax .low
    have hmaxn := hmax .normal
    have hmaxh := hmax .high
    constructor
    · simp only [hstep, totalWeight_eq]
      cases p <;> by_cases hl : .low ∈ active <;> by_cases hn : .normal ∈ active <;>
        by_cases hh : .high ∈ active <;>
        simp only [hl, hn, hh, reduceCtorEq, if_true, if_false, true_imp_iff, false_imp_iff] at hp hmaxl hmaxn hmaxh ⊢ <;>
        omega
    · intro q hq hne
      rw [hstep, if_pos hq, if_neg, sub_zero]
      rintro rfl
      exact hne hselect

/-- A class that has work in every call and is not selected gains at least one credit a call. -/
theorem Bounded.run (h : policy.Bounded) (hweighted : policy.Weighted) (actives : List (List Priority)) :
    (policy.run actives).2.Bounded ∧
      ∀ p, (∀ active ∈ actives, p ∈ active) → some p ∉ (policy.run actives).1 →
        policy.deficits p + actives.length ≤ (policy.run actives).2.deficits p := by
  induction actives generalizing policy with
  | nil => simpa [FairSharePolicy.run] using h
  | cons active actives ih =>
    obtain ⟨hbounded, hgain⟩ := h.select hweighted active
    obtain ⟨hrun, hwait⟩ := ih hbounded hweighted.select
    refine ⟨hrun, fun p hmem hpick => ?_⟩
    obtain ⟨hactive, hrest⟩ := forall_mem_cons.mp hmem
    obtain ⟨hne, hpick⟩ := not_or.mp (mt mem_cons.mpr hpick)
    have hfirst := hgain p hactive fun heq => hne heq.symm
    have hwait := hwait p hrest hpick
    have hpos := (hweighted p).1
    simp only [FairSharePolicy.run, length_cons]
    omega

end

/-- No class starves: for given weights there is a number of calls within which a class that has work
in every one of them is selected, whatever the other classes did before and do meanwhile. -/
theorem run_bounded_wait (weights : Priority → ℕ) (hweights : ∀ p, 0 < weights p ∧ weights p < 2 ^ 32) :
    ∃ bound : ℕ, ∀ policy : FairSharePolicy, policy.weights = weights → (∀ p, policy.deficits p = 0) →
      ∀ (before window : List (List Priority)) (p : Priority), window.length = bound →
        (∀ active ∈ window, p ∈ active) → some p ∈ ((policy.run before).2.run window).1 := by
  refine ⟨4 * (weights .low + weights .normal + weights .high) + 1, ?_⟩
  rintro policy rfl hzero before window p hlength hmem
  by_contra hpick
  have hstart : policy.Bounded := by simp [Bounded, Near, hzero]
  have hbefore := (hstart.run hweights before).1
  obtain ⟨hafter, hwait⟩ := hbefore.run (Weighted.run hweights) window
  have hwait := hwait p hmem hpick
  simp only [Bounded, Near, fullWeight, run_weights] at hbefore hafter
  cases p <;> omega

theorem run_bounded_wait_new : ∃ bound : ℕ, ∀ before window : List (List Priority), window.length = bound →
    (∀ active ∈ window, Priority.low ∈ active) → some .low ∈ ((new.run before).2.run window).1 := by
  obtain ⟨bound, h⟩ := run_bounded_wait (fun _ => 1) fun _ => by decide
  exact ⟨bound, fun before window hlength hmem => h new rfl (fun _ => rfl) before window .low hlength hmem⟩

end FairSharePolicy

end OnnxGenai.Batching
