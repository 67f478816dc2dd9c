import OnnxGenai.Lib.Fallible
import OnnxGenai.Lib.FiniteMap
import OnnxGenai.Scheduler.Batching

/-!
# Grouping contributions into batches

`group_batch_contributions` (`batch_admission.rs`) walks over the contributions in their order
and keeps one open group with the dimensions it would materialize: packed and request counts add,
padded extents take the maximum. The next contribution joins the open group if the uniform symbols
agree, the row limit leaves a place and no budget is exceeded; otherwise the group is closed.

Agreement is tested against the dimensions of the open group, not against the extents of its
members. For a symbol that is uniform and summed these differ from the second member on: three
contributions of extents `2`, `2`, `4` share a group, and of `2`, `2`, `2` the third is turned away.
The groups are as they should be exactly if the walk meets no such step (`grouped_iff`).
-/

namespace OnnxGenai.Batching

open Lib List Option FiniteMap

/-- How one request's extent contributes to a materialized group dimension. -/
inductive BatchDimensionAggregation where
  | sum
  | maximum
  deriving DecidableEq, Repr

/-- One upper bound over a product of materialized shape-symbol extents. -/
structure MaterializedBudget where
  dimensions : List String
  maxTotal : ℕ

/-- Component-level grouping and footprint policy; the uniform symbols are in ascending order. -/
structure BatchPolicy where
  maxContributions : Option ℕ
  aggregations : FiniteMap String BatchDimensionAggregation
  uniformDimensions : List String
  budgets : List MaterializedBudget

/-- Extents of shape symbols. -/
abbrev Extents := FiniteMap String ℕ

/-- One request's component-local symbolic extents. -/
structure BatchContribution where
  sequenceId : SequenceId
  dimensions : Extents

/-- An admissible group in original request order. -/
structure AdmittedBatch where
  sequenceIds : List SequenceId
  materializedDimensions : Extents
  deriving DecidableEq

/-- A malformed profile or a contribution that cannot fit even by itself. -/
inductive BatchAdmissionError where
  | missingAggregation (symbol : String)
  | missingDimension (sequenceId : SequenceId) (symbol : String)
  | missingMaterializedDimension (symbol : String)
  | dimensionOverflow (symbol : String)
  | footprintOverflow (dimensions : List String)
  | budgetExceeded (sequenceId : SequenceId) (dimensions : List String) (materialized maxTotal : ℕ)
  | zeroContributionLimit
  deriving DecidableEq

namespace BatchPolicy

/-- The symbols used by grouping or a budget, in ascending order. -/
def requiredSymbols (policy : BatchPolicy) : List String :=
  (policy.uniformDimensions ++ policy.budgets.flatMap MaterializedBudget.dimensions).dedup.insertionSort (· ≤ ·)

def validatePolicy (policy : BatchPolicy) : Except BatchAdmissionError Unit := do
  ensure (policy.maxContributions ≠ some 0) .zeroContributionLimit
  policy.requiredSymbols.forM fun symbol =>
    ensure (policy.aggregations.lookup symbol).isSome (.missingAggregation symbol)

def validateContributions (policy : BatchPolicy) (contributions : List BatchContribution) :
    Except BatchAdmissionError Unit :=
  contributions.forM fun c => policy.requiredSymbols.forM fun symbol =>
    ensure (c.dimensions.lookup symbol).isSome (.missingDimension c.sequenceId symbol)

/-- A result that fits into a `usize`. -/
def checked (n : ℕ) (error : BatchAdmissionError) : Except BatchAdmissionError ℕ :=
  if n ≤ u64Max then .ok n else .error error

/-- The extent of a symbol after a contribution has joined. -/
def mergeExtent (symbol : String) (next : ℕ) :
    Option ℕ → BatchDimensionAggregation → Except BatchAdmissionError ℕ
  | none, _ => .ok next
  | some current, .maximum => .ok (max current next)
  | some current, .sum => checked (current + next) (.dimensionOverflow symbol)

/-- One turn of the loop in `merge_dimensions`. -/
def mergeSymbol (policy : BatchPolicy) (next merged : Extents) (symbol : String) : Except BatchAdmissionError Extents :=
  match policy.aggregations.lookup symbol, next.lookup symbol with
  | some aggregation, some n => return merged.insert symbol (← mergeExtent symbol n (merged.lookup symbol) aggregation)
  | _, _ => return merged

def mergeDimensions (policy : BatchPolicy) (current next : Extents) : Except BatchAdmissionError Extents :=
  (policy.aggregations.keys.insertionSort (· ≤ ·)).foldlM (policy.mergeSymbol next) current

/-- One turn of the product in `budget_footprint`. -/
def multiply (dimensions : Extents) (budget : MaterializedBudget) (total : ℕ) (symbol : String) :
    Except BatchAdmissionError ℕ :=
  match dimensions.lookup symbol with
  | none => .error (.missingMaterializedDimension symbol)
  | some extent => checked (total * extent) (.footprintOverflow budget.dimensions)

def budgetFootprint (dimensions : Extents) (budget : MaterializedBudget) : Except BatchAdmissionError ℕ :=
  budget.dimensions.foldlM (multiply dimensions budget) 1

def footprintWithinBudgets (dimensions : Extents) : List MaterializedBudget → Except BatchAdmissionError Bool
  | [] => return true
  | budget :: budgets => do
    let materialized ← budgetFootprint dimensions budget
    if budget.maxTotal < materialized then return false else footprintWithinBudgets dimensions budgets

def validateSingleContribution (policy : BatchPolicy) (c : BatchContribution) : Except BatchAdmissionError Unit :=
  policy.budgets.forM fun budget => do
    let materialized ← budgetFootprint c.dimensions budget
    ensure (materialized ≤ budget.maxTotal)
      (.budgetExceeded c.sequenceId budget.dimensions materialized budget.maxTotal)

/-- The uniform symbols of a contribution agree with the dimensions of the open group. -/
def Uniform (policy : BatchPolicy) (dimensions : Extents) (c : BatchContribution) : Prop :=
  ∀ symbol ∈ policy.uniformDimensions, dimensions.lookup symbol = c.dimensions.lookup symbol

instance (policy : BatchPolicy) (dimensions : Extents) (c : BatchContribution) :
    Decidable (policy.Uniform dimensions c) :=
  inferInstanceAs (Decidable (∀ symbol ∈ policy.uniformDimensions, _))

/-- The row limit leaves a place in a group of `n` contributions. -/
def withinRows (policy : BatchPolicy) (n : ℕ) : Bool := policy.maxContributions.all fun limit => n < limit

/-- What the open group would materialize with one more contribution. -/
def candidate (policy : BatchPolicy) (ids : List SequenceId) (dimensions : Extents) (c : BatchContribution) :
    Except BatchAdmissionError Extents :=
  if ids = [] then .ok c.dimensions else policy.mergeDimensions dimensions c.dimensions

/-- The walk, with the open group; it has no contributions only before the first one. -/
def groupLoop (policy : BatchPolicy) (ids : List SequenceId) (dimensions : Extents) :
    List BatchContribution → Except BatchAdmissionError (List AdmittedBatch)
  | [] => return [⟨ids, dimensions⟩]
  | c :: rest => do
    let candidate ← policy.candidate ids dimensions c
    let withinBudgets ← footprintWithinBudgets candidate policy.budgets
    if ids ≠ [] ∧ ¬ (policy.Uniform dimensions c ∧ policy.withinRows ids.length ∧ withinBudgets) then do
      policy.validateSingleContribution c
      let admitted ← policy.groupLoop [c.sequenceId] c.dimensions rest
      return ⟨ids, dimensions⟩ :: admitted
    else do
      policy.validateSingleContribution c
      policy.groupLoop (ids ++ [c.sequenceId]) candidate rest

/-- Form maximal consecutive groups without reordering requests. -/
def groupBatchContributions (policy : BatchPolicy) (contributions : List BatchContribution) :
    Except BatchAdmissionError (List AdmittedBatch) := do
  policy.validatePolicy
  policy.validateContributions contributions
  if contributions = [] then return [] else policy.groupLoop [] ∅ contributions

end BatchPolicy

/-! ### What the groups should be -/

/-- The extents of a symbol in a group. -/
def extentsOf (part : List BatchContribution) (symbol : String) : List ℕ :=
  part.filterMap fun c => c.dimensions.lookup symbol

/-- The extent that a group of extents materializes. -/
def BatchDimensionAggregation.total : BatchDimensionAggregation → List ℕ → ℕ
  | .sum, extents => extents.sum
  | .maximum, extents => extents.foldl max 0

namespace BatchPolicy

/-- The extent that a group materializes for a symbol. -/
def materialized (policy : BatchPolicy) (part : List BatchContribution) (symbol : String) : ℕ :=
  (policy.aggregations.lookup symbol).elim 0 fun aggregation => aggregation.total (extentsOf part symbol)

/-- A group that may be formed. -/
structure Admissible (policy : BatchPolicy) (part : List BatchContribution) : Prop where
  uniform : ∀ symbol ∈ policy.uniformDimensions, ∀ a ∈ part, ∀ b ∈ part,
    a.dimensions.lookup symbol = b.dimensions.lookup symbol
  rows : ∀ limit ∈ policy.maxContributions, part.length ≤ limit
  budgets : ∀ budget ∈ policy.budgets, (budget.dimensions.map (policy.materialized part)).prod ≤ budget.maxTotal

/-- The dimensions of a group are made of its own extents. -/
def Materializes (policy : BatchPolicy) (part : List BatchContribution) (dimensions : Extents) : Prop :=
  ∀ symbol aggregation, policy.aggregations.lookup symbol = some aggregation → dimensions.lookup symbol =
    if extentsOf part symbol = [] then none else some (aggregation.total (extentsOf part symbol))

/-- The contributions cut into groups, in their order: the next one could not have joined. -/
inductive Grouped (policy : BatchPolicy) : List BatchContribution → List AdmittedBatch → Prop where
  | nil : Grouped policy [] []
  | cons {contributions part rest : List BatchContribution} {group : AdmittedBatch} {groups : List AdmittedBatch}
      (hsplit : contributions = part ++ rest) (hpart : part ≠ [])
      (hids : group.sequenceIds = part.map BatchContribution.sequenceId) (hadmissible : policy.Admissible part)
      (hdimensions : policy.Materializes part group.materializedDimensions)
      (hlast : ∀ c ∈ rest.head?, ¬ policy.Admissible (part ++ [c])) (hrest : Grouped policy rest groups) :
      Grouped policy contributions (group :: groups)

/-- The row limit and the budgets leave room for a contribution in a group. -/
def HasRoom (policy : BatchPolicy) (part : List BatchContribution) (c : BatchContribution) : Prop :=
  (∀ limit ∈ policy.maxContributions, part.length < limit) ∧
    ∀ budget ∈ policy.budgets, (budget.dimensions.map (policy.materialized (part ++ [c]))).prod ≤ budget.maxTotal

/-- The uniform symbols of a contribution have the extents that a group materializes. -/
def Agrees (policy : BatchPolicy) (part : List BatchContribution) (c : BatchContribution) : Prop :=
  ∀ symbol ∈ policy.uniformDimensions, some (policy.materialized part symbol) = c.dimensions.lookup symbol

/-- From an open group `part` on: whenever there is room for the next contribution, comparing it
with the sums and maxima of the group is as good as comparing it with the members. -/
def Judges (policy : BatchPolicy) (part : List BatchContribution) : List BatchContribution → Prop
  | [] => True
  | c :: rest =>
    (policy.HasRoom part c → (policy.Agrees part c ↔ ∀ a ∈ part, policy.Uniform a.dimensions c)) ∧
      (policy.Agrees part c ∧ policy.HasRoom part c → policy.Judges (part ++ [c]) rest) ∧
      (¬ (policy.Agrees part c ∧ policy.HasRoom part c) → policy.Judges [c] rest)

/-- The same for the whole walk. -/
def WellJudged (policy : BatchPolicy) : List BatchContribution → Prop
  | [] => True
  | c :: rest => policy.Judges [c] rest

/-! ### Dimensions -/

variable {policy : BatchPolicy} {part rest : List BatchContribution} {c : BatchContribution}
  {dimensions merged : Extents} {budgets : List MaterializedBudget}

theorem checked_eq_ok {n m : ℕ} {error : BatchAdmissionError} (h : checked n error = .ok m) : m = n := by
  unfold checked at h
  split at h <;> cases h
  rfl

/-- The extent of a symbol after a contribution has joined. -/
def joined (aggregation : BatchDimensionAggregation) (current next : Option ℕ) : Option ℕ :=
  next.elim current fun n => some (current.elim n fun m => aggregation.total [m, n])

theorem mergeExtent_ok {symbol : String} {n extent : ℕ} {current : Option ℕ} {aggregation : BatchDimensionAggregation}
    (h : mergeExtent symbol n current aggregation = .ok extent) : some extent = joined aggregation current (some n) := by
  cases current with
  | none =>
    cases h
    rfl
  | some m =>
    cases aggregation with
    | maximum =>
      cases h
      simp [joined, BatchDimensionAggregation.total]
    | sum =>
      cases checked_eq_ok h
      simp [joined, BatchDimensionAggregation.total]

/-- One turn of the loop changes its own symbol only. -/
theorem mergeSymbol_ok {next : Extents} {symbol : String} (h : policy.mergeSymbol next dimensions symbol = .ok merged) :
    (∀ other ≠ symbol, merged.lookup other = dimensions.lookup other) ∧
      ∀ aggregation, policy.aggregations.lookup symbol = some aggregation →
        merged.lookup symbol = joined aggregation (dimensions.lookup symbol) (next.lookup symbol) := by
  unfold mergeSymbol at h
  split at h
  case h_1 aggregation n hagg hnext =>
    obtain ⟨extent, hextent, h⟩ := bind_eq_ok.mp h
    cases h
    refine ⟨fun other hne => by rw [lookup_insert', if_neg hne], fun _ heq => ?_⟩
    cases hagg.symm.trans heq
    rw [AList.lookup_insert, mergeExtent_ok hextent, hnext]
  case h_2 hnone =>
    cases h
    refine ⟨fun _ _ => rfl, fun aggregation hagg => ?_⟩
    cases hnext : next.lookup symbol with
    | none => rfl
    | some n => exact (hnone aggregation n hagg hnext).elim

theorem foldlM_mergeSymbol {next : Extents} {symbols : List String} (hnodup : symbols.Nodup)
    (h : symbols.foldlM (policy.mergeSymbol next) dimensions = .ok merged) :
    (∀ symbol ∉ symbols, merged.lookup symbol = dimensions.lookup symbol) ∧
      ∀ symbol ∈ symbols, ∀ aggregation, policy.aggregations.lookup symbol = some aggregation →
        merged.lookup symbol = joined aggregation (dimensions.lookup symbol) (next.lookup symbol) := by
  induction symbols generalizing dimensions with
  | nil =>
    cases h
    simp
  | cons first symbols ih =>
    obtain ⟨hfirst, hnodup⟩ := nodup_cons.mp hnodup
    obtain ⟨middle, hmiddle, h⟩ := bind_eq_ok.mp h
    obtain ⟨hother, hself⟩ := mergeSymbol_ok hmiddle
    obtain ⟨hout, hin⟩ := ih hnodup h
    constructor
    · intro symbol hsymbol
      rw [mem_cons, not_or] at hsymbol
      rw [hout symbol hsymbol.2, hother symbol hsymbol.1]
    · intro symbol hsymbol aggregation hagg
      rcases mem_cons.mp hsymbol with rfl | hsymbol
      · rw [hout symbol hfirst, hself aggregation hagg]
      · rw [hin symbol hsymbol aggregation hagg, hother symbol fun heq => hfirst (heq ▸ hsymbol)]

theorem materializes_singleton (c : BatchContribution) : policy.Materializes [c] c.dimensions := by
  intro symbol aggregation _
  cases hc : c.dimensions.lookup symbol with
  | none => simp [extentsOf, hc]
  | some n => cases aggregation <;> simp [extentsOf, hc, BatchDimensionAggregation.total]

/-- **Merging keeps the dimensions made of the group's own extents.** -/
theorem Materializes.join (h : policy.Materializes part dimensions)
    (hmerge : policy.mergeDimensions dimensions c.dimensions = .ok merged) : policy.Materializes (part ++ [c]) merged := by
  intro symbol aggregation hagg
  have hmem : symbol ∈ policy.aggregations.keys.insertionSort (· ≤ ·) := by
    rw [mem_insertionSort, ← AList.mem_keys, ← AList.lookup_isSome, hagg]
    rfl
  have hnodup := (perm_insertionSort (· ≤ ·) policy.aggregations.keys).nodup_iff.mpr policy.aggregations.keys_nodup
  rw [(foldlM_mergeSymbol hnodup hmerge).2 symbol hmem aggregation hagg, h symbol aggregation hagg]
  have hsnoc : extentsOf (part ++ [c]) symbol = extentsOf part symbol ++ (c.dimensions.lookup symbol).toList := by
    cases hc : c.dimensions.lookup symbol <;> simp [extentsOf, hc]
  rw [hsnoc]
  cases c.dimensions.lookup symbol with
  | none => simp [joined]
  | some n =>
    split
    case isTrue hnil => cases aggregation <;> simp [hnil, joined, BatchDimensionAggregation.total]
    case isFalse => cases aggregation <;> simp [joined, BatchDimensionAggregation.total]

/-- Every contribution binds the symbols of the policy, and these are aggregated. -/
structure Binds (policy : BatchPolicy) (contributions : List BatchContribution) : Prop where
  aggregated : ∀ symbol ∈ policy.requiredSymbols, (policy.aggregations.lookup symbol).isSome
  bound : ∀ c ∈ contributions, ∀ symbol ∈ policy.requiredSymbols, (c.dimensions.lookup symbol).isSome

theorem Binds.mono {contributions : List BatchContribution} (h : policy.Binds contributions)
    (hsub : part ⊆ contributions) : policy.Binds part :=
  ⟨h.aggregated, fun c hc => h.bound c (hsub hc)⟩

theorem mem_requiredSymbols {symbol : String} : symbol ∈ policy.requiredSymbols ↔
    symbol ∈ policy.uniformDimensions ∨ ∃ budget ∈ policy.budgets, symbol ∈ budget.dimensions := by
  simp [requiredSymbols]

theorem Materializes.lookup (h : policy.Materializes part dimensions) (hpart : part ≠ []) (hbinds : policy.Binds part)
    {symbol : String} (hrequired : symbol ∈ policy.requiredSymbols) :
    dimensions.lookup symbol = some (policy.materialized part symbol) := by
  obtain ⟨aggregation, hagg⟩ := isSome_iff_exists.mp (hbinds.aggregated symbol hrequired)
  obtain ⟨first, hfirst⟩ := exists_mem_of_ne_nil part hpart
  obtain ⟨extent, hextent⟩ := isSome_iff_exists.mp (hbinds.bound first hfirst symbol hrequired)
  have hne : extentsOf part symbol ≠ [] := ne_nil_of_mem (mem_filterMap.mpr ⟨first, hfirst, hextent⟩)
  rw [h symbol aggregation hagg, if_neg hne, materialized, hagg]
  rfl

theorem Materializes.uniform_iff (h : policy.Materializes part dimensions) (hpart : part ≠ [])
    (hbinds : policy.Binds part) : policy.Uniform dimensions c ↔ policy.Agrees part c :=
  forall₂_congr fun symbol hsymbol => by rw [h.lookup hpart hbinds (mem_requiredSymbols.mpr (.inl hsymbol))]

/-! ### Budgets -/

theorem foldlM_multiply {budget : MaterializedBudget} {f : String → ℕ} {symbols : List String} {total n : ℕ}
    (hf : ∀ symbol ∈ symbols, dimensions.lookup symbol = some (f symbol))
    (h : symbols.foldlM (multiply dimensions budget) total = .ok n) : n = total * (symbols.map f).prod := by
  induction symbols generalizing total with
  | nil =>
    cases h
    simp
  | cons symbol symbols ih =>
    obtain ⟨hfirst, hf⟩ := forall_mem_cons.mp hf
    obtain ⟨extent, hextent, h⟩ := bind_eq_ok.mp h
    rw [multiply, hfirst] at hextent
    cases checked_eq_ok hextent
    rw [ih hf h, map_cons, prod_cons, Nat.mul_assoc]

theorem budgetFootprint_ok {budget : MaterializedBudget} {f : String → ℕ} {n : ℕ}
    (hf : ∀ symbol ∈ budget.dimensions, dimensions.lookup symbol = some (f symbol))
    (h : budgetFootprint dimensions budget = .ok n) : n = (budget.dimensions.map f).prod := by
  simpa using foldlM_multiply hf h

theorem footprintWithinBudgets_ok {f : String → ℕ} {within : Bool}
    (hf : ∀ budget ∈ budgets, ∀ symbol ∈ budget.dimensions, dimensions.lookup symbol = some (f symbol))
    (h : footprintWithinBudgets dimensions budgets = .ok within) :
    within = true ↔ ∀ budget ∈ budgets, (budget.dimensions.map f).prod ≤ budget.maxTotal := by
  induction budgets with
  | nil =>
    cases h
    simp
  | cons budget budgets ih =>
    obtain ⟨n, hn, h⟩ := bind_eq_ok.mp h
    cases budgetFootprint_ok (hf budget (by simp)) hn
    split at h
    case isTrue hlt =>
      cases h
      simp [Nat.not_le.mpr hlt]
    case isFalse hle => simpa [Nat.not_lt.mp hle] using ih (fun b hb => hf b (by simp [hb])) h

/-- A contribution that passes alone may form a group. -/
theorem admissible_singleton (hbinds : policy.Binds [c]) (hlimit : policy.maxContributions ≠ some 0)
    (h : policy.validateSingleContribution c = .ok ()) : policy.Admissible [c] where
  uniform := by simp
  rows := by
    intro limit hmem
    refine Nat.pos_of_ne_zero fun hzero => hlimit ?_
    rw [← hzero]
    exact hmem
  budgets := by
    intro budget hbudget
    obtain ⟨n, hn, hle⟩ := bind_eq_ok.mp (forM_eq_ok.mp h budget hbudget)
    have hlookup : ∀ symbol ∈ budget.dimensions, c.dimensions.lookup symbol = some (policy.materialized [c] symbol) :=
      fun _ hs => (materializes_singleton c).lookup (by simp) hbinds (mem_requiredSymbols.mpr (.inr ⟨budget, hbudget, hs⟩))
    rw [budgetFootprint_ok hlookup hn] at hle
    simpa using hle

/-! ### The walk -/

variable {ids : List SequenceId} {groups : List AdmittedBatch}

/-- What one step of the walk does: the contribution is turned away and opens a group, or it joins. -/
theorem groupLoop_cons (h : policy.groupLoop ids dimensions (c :: rest) = .ok groups) :
    ∃ candidate within, policy.candidate ids dimensions c = .ok candidate ∧
      footprintWithinBudgets candidate policy.budgets = .ok within ∧ policy.validateSingleContribution c = .ok () ∧
      ((ids ≠ [] ∧ ¬ (policy.Uniform dimensions c ∧ policy.withinRows ids.length ∧ within)) ∧
          (∃ admitted, policy.groupLoop [c.sequenceId] c.dimensions rest = .ok admitted ∧
            groups = ⟨ids, dimensions⟩ :: admitted) ∨
        ¬ (ids ≠ [] ∧ ¬ (policy.Uniform dimensions c ∧ policy.withinRows ids.length ∧ within)) ∧
          policy.groupLoop (ids ++ [c.sequenceId]) candidate rest = .ok groups) := by
  obtain ⟨candidate, hcandidate, h⟩ := bind_eq_ok.mp h
  obtain ⟨within, hwithin, h⟩ := bind_eq_ok.mp h
  refine ⟨candidate, within, hcandidate, hwithin, ?_⟩
  split at h
  case isTrue haway =>
    obtain ⟨⟨⟩, hsingle, h⟩ := bind_eq_ok.mp h
    obtain ⟨admitted, hadmitted, h⟩ := bind_eq_ok.mp h
    cases h
    exact ⟨hsingle, .inl ⟨haway, admitted, hadmitted, rfl⟩⟩
  case isFalse hjoins =>
    obtain ⟨⟨⟩, hsingle, h⟩ := bind_eq_ok.mp h
    exact ⟨hsingle, .inr ⟨hjoins, h⟩⟩

/-- The first group begins with the open one. -/
theorem groupLoop_head (h : policy.groupLoop ids dimensions rest = .ok groups) :
    ∃ more dimensions' groups', groups = ⟨ids ++ more, dimensions'⟩ :: groups' := by
  induction rest generalizing ids dimensions with
  | nil =>
    cases h
    exact ⟨[], dimensions, [], by simp⟩
  | cons c rest ih =>
    obtain ⟨candidate, within, -, -, -, ⟨-, admitted, -, rfl⟩ | ⟨-, h⟩⟩ := groupLoop_cons h
    · exact ⟨[], dimensions, admitted, by simp⟩
    · obtain ⟨more, dimensions', groups', rfl⟩ := ih h
      exact ⟨c.sequenceId :: more, dimensions', groups', by simp⟩

/-- When a contribution may join a group. -/
theorem admissible_concat_iff :
    policy.Admissible (part ++ [c]) ↔ (∀ a ∈ part, policy.Uniform a.dimensions c) ∧ policy.HasRoom part c := by
  constructor
  · intro hjoin
    refine ⟨fun a ha symbol hsymbol => hjoin.uniform symbol hsymbol a (by simp [ha]) c (by simp), ?_, hjoin.budgets⟩
    intro limit hlimit
    simpa using hjoin.rows limit hlimit
  · rintro ⟨hagree, hrows, hbudgets⟩
    refine ⟨fun symbol hsymbol => ?_, fun limit hlimit => by simpa using hrows limit hlimit, hbudgets⟩
    have hall : ∀ a ∈ part ++ [c], a.dimensions.lookup symbol = c.dimensions.lookup symbol := by
      simpa [or_imp, forall_and] using fun a ha => hagree a ha symbol hsymbol
    exact fun a ha b hb => (hall a ha).trans (hall b hb).symm

/-- **From an open group on, the groups are right exactly if the walk judges rightly.** -/
theorem groupLoop_grouped_iff (hpart : part ≠ []) (hbinds : policy.Binds (part ++ rest))
    (hlimit : policy.maxContributions ≠ some 0) (hadmissible : policy.Admissible part)
    (hdims : policy.Materializes part dimensions)
    (h : policy.groupLoop (part.map BatchContribution.sequenceId) dimensions rest = .ok groups) :
    policy.Grouped (part ++ rest) groups ↔ policy.Judges part rest := by
  induction rest generalizing part dimensions groups with
  | nil =>
    cases h
    exact ⟨fun _ => trivial, fun _ => .cons rfl hpart rfl hadmissible hdims (by simp) .nil⟩
  | cons c rest ih =>
    have hids : part.map BatchContribution.sequenceId ≠ [] := by simpa using hpart
    obtain ⟨candidate, within, hcandidate, hwithin, hsingle, hcases⟩ := groupLoop_cons h
    rw [BatchPolicy.candidate, if_neg hids] at hcandidate
    have hjoin := hdims.join hcandidate
    have hroom : policy.withinRows (part.map BatchContribution.sequenceId).length ∧ within ↔ policy.HasRoom part c := by
      have hbinds' : policy.Binds (part ++ [c]) := hbinds.mono (by simp)
      rw [footprintWithinBudgets_ok (fun b hb symbol hs =>
        hjoin.lookup (by simp) hbinds' (mem_requiredSymbols.mpr (.inr ⟨b, hb, hs⟩))) hwithin]
      simp [HasRoom, withinRows, Option.all_eq_true]
    simp only [hroom, hdims.uniform_iff hpart (hbinds.mono (by simp)), hids, ne_eq, not_false_eq_true, true_and, not_not] at hcases
    simp only [Judges]
    rcases hcases with ⟨haway, admitted, hadmitted, rfl⟩ | ⟨hjoins, hloop⟩
    · -- turned away
      have hrest := @ih [c] c.dimensions admitted (by simp) (hbinds.mono (by simp))
        (admissible_singleton (hbinds.mono (by simp)) hlimit hsingle) (materializes_singleton c) hadmitted
      simp only [haway, false_implies, not_false_eq_true, true_implies, true_and, ← hrest]
      constructor
      · intro hgrouped
        generalize hall : part ++ c :: rest = contributions at hgrouped
        cases hgrouped with
        | cons hsplit _ hsame _ _ hlast hgroups =>
          obtain ⟨rfl, rfl⟩ := append_inj (hall.trans hsplit) (by simpa using congrArg List.length hsame)
          refine ⟨fun hfits => ⟨fun huniform => (haway ⟨huniform, hfits⟩).elim, fun hagree => ?_⟩, hgroups⟩
          exact (hlast c rfl (admissible_concat_iff.mpr ⟨hagree, hfits⟩)).elim
      · rintro ⟨hjudge, hgroups⟩
        refine .cons rfl hpart rfl hadmissible hdims ?_ hgroups
        rintro _ ⟨⟩ hadm
        obtain ⟨hagree, hfits⟩ := admissible_concat_iff.mp hadm
        exact haway ⟨(hjudge hfits).mpr hagree, hfits⟩
    · -- it joins
      simp only [hjoins, not_true, false_implies, true_implies, and_true, true_iff]
      have hrest := @ih (part ++ [c]) candidate groups (by simp) (hbinds.mono (by simp))
      simp only [append_assoc, singleton_append] at hrest
      constructor
      · intro hgrouped
        obtain ⟨more, dimensions', groups', rfl⟩ := groupLoop_head hloop
        have hagree : ∀ a ∈ part, policy.Uniform a.dimensions c := by
          generalize hall : part ++ c :: rest = contributions at hgrouped
          cases hgrouped with
          | @cons _ part' _ _ _ hsplit _ hsame hadm _ _ _ =>
            have hlength := congrArg List.length hsame
            have hbegins : part ++ [c] <+: part' := by
              refine prefix_of_prefix_length_le ⟨rest, append_assoc _ _ _⟩ ⟨_, (hall.trans hsplit).symm⟩ ?_
              simp at hlength ⊢
              omega
            intro a ha symbol hsymbol
            exact hadm.uniform symbol hsymbol a (hbegins.subset (by simp [ha])) c (hbegins.subset (by simp))
        exact ⟨hagree, (hrest (admissible_concat_iff.mpr ⟨hagree, hjoins.2⟩) hjoin (by simpa using hloop)).mp hgrouped⟩
      · rintro ⟨hagree, hjudges⟩
        exact (hrest (admissible_concat_iff.mpr ⟨hagree, hjoins.2⟩) hjoin (by simpa using hloop)).mpr hjudges

/-- **When grouping is right.** The groups are those of the greedy partition exactly if, at every
step with room for the next contribution, the open group's dimensions tell whether it agrees. -/
theorem grouped_iff {contributions : List BatchContribution}
    (h : policy.groupBatchContributions contributions = .ok groups) :
    policy.Grouped contributions groups ↔ policy.WellJudged contributions := by
  obtain ⟨⟨⟩, hpolicy, h⟩ := bind_eq_ok.mp h
  obtain ⟨⟨⟩, hcontributions, h⟩ := bind_eq_ok.mp h
  obtain ⟨⟨⟩, hlimit, haggregated⟩ := bind_eq_ok.mp hpolicy
  cases contributions with
  | nil =>
    cases h
    exact ⟨fun _ => trivial, fun _ => .nil⟩
  | cons c rest =>
    obtain ⟨candidate, within, hcandidate, -, hsingle, ⟨⟨hids, -⟩, -⟩ | ⟨-, hloop⟩⟩ := groupLoop_cons h
    · exact (hids rfl).elim
    · cases hcandidate
      have hbinds : policy.Binds (c :: rest) := by
        refine ⟨fun symbol hsymbol => ?_, fun a ha symbol hsymbol => ?_⟩
        · simpa using forM_eq_ok.mp haggregated symbol hsymbol
        · simpa using forM_eq_ok.mp (forM_eq_ok.mp hcontributions a ha) symbol hsymbol
      have hlimit' : policy.maxContributions ≠ some 0 := by simpa using hlimit
      exact @groupLoop_grouped_iff policy [c] rest c.dimensions groups (by simp) hbinds hlimit'
        (admissible_singleton (hbinds.mono (by simp)) hlimit' hsingle) (materializes_singleton c) hloop

/-- Extents from a list. -/
def extents (l : List (String × ℕ)) : Extents := l.foldl (fun m p => m.insert p.1 p.2) ∅

/-- Widths are padded and must agree, rows are packed. -/
def padded : BatchPolicy :=
  ⟨some 2, ((∅ : FiniteMap _ _).insert "rows" .sum).insert "width" .maximum, ["width"], [⟨["rows", "width"], 16⟩]⟩

theorem grouped_iff_padded :
    padded.groupBatchContributions [⟨1, extents [("rows", 1), ("width", 4)]⟩, ⟨2, extents [("rows", 2), ("width", 4)]⟩] =
        .ok [⟨[1, 2], extents [("rows", 3), ("width", 4)]⟩] ∧
      (padded.Grouped [⟨1, extents [("rows", 1), ("width", 4)]⟩, ⟨2, extents [("rows", 2), ("width", 4)]⟩]
          [⟨[1, 2], extents [("rows", 3), ("width", 4)]⟩] ↔
        padded.WellJudged [⟨1, extents [("rows", 1), ("width", 4)]⟩, ⟨2, extents [("rows", 2), ("width", 4)]⟩]) :=
  ⟨rfl, grouped_iff rfl⟩

/-- Rows are packed and must agree. -/
def packed : BatchPolicy := ⟨none, (∅ : FiniteMap _ _).insert "rows" .sum, ["rows"], []⟩

/-- Of three contributions with two, two and four rows, the third joins: four rows are what the
first two materialize together. -/
theorem disagreeing_rows_share_a_group :
    packed.groupBatchContributions
        [⟨1, extents [("rows", 2)]⟩, ⟨2, extents [("rows", 2)]⟩, ⟨3, extents [("rows", 4)]⟩] =
      .ok [⟨[1, 2, 3], extents [("rows", 8)]⟩] ∧
    ¬ packed.Grouped [⟨1, extents [("rows", 2)]⟩, ⟨2, extents [("rows", 2)]⟩, ⟨3, extents [("rows", 4)]⟩]
      [⟨[1, 2, 3], extents [("rows", 8)]⟩] := by
  refine ⟨rfl, fun h => ?_⟩
  cases h with
  | @cons _ part rest _ _ hsplit _ hsame hadmissible _ _ hrest =>
    cases hrest
    rw [append_nil] at hsplit
    subst hsplit
    have huniform := hadmissible.uniform "rows" (by simp [packed]) _ (.head _) _ (.tail _ (.tail _ (.head _)))
    revert huniform
    decide

end BatchPolicy

end OnnxGenai.Batching
