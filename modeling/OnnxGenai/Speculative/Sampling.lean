import OnnxGenai.Speculative.Verify

/-!
# Sampling verification of a draft tree

Standard speculative rejection sampling along one path of the tree that the proposer has drawn. Each
node of the path is accepted with probability `min (p / q) 1`; the first one that is not is replaced
by a token of the normalized positive part of `p - q`, and after the last one a token of the target's
row is added. The random variates are arguments.

Arithmetic is exact, over any ordered field. The loop of the source indexes the variates by the
position in the path; here it takes them off the front of the list.
-/

namespace OnnxGenai.Speculative

open Lib List

variable {K : Type} [Field K] [LinearOrder K] [IsStrictOrderedRing K]

structure SamplingRandomness (K : Type) where
  /-- For the acceptance test, or the draw after the last node. -/
  acceptance : K
  /-- For the draw after a rejection. -/
  correction : K
  deriving DecidableEq

/-- Row 0 is for the roots; row `node + 1` for the children of `node`. -/
structure TreeSamplingInputs (K : Type) where
  proposalProbabilities : List (List K)
  targetProbabilities : List (List K)
  proposedPath : List ℕ
  randomness : List (SamplingRandomness K)

inductive Authority where
  | proposal
  | target
  deriving DecidableEq

inductive SamplingError (K : Type) where
  | proposalRows (rows nodes : ℕ)
  | targetRows (rows nodes : ℕ)
  | randomnessCount (pairs path : ℕ)
  | absentNode (position node : ℕ)
  | notRoot (node : ℕ)
  | notChild (node previous : ℕ)
  | emptyRow (authority : Authority) (position : ℕ)
  | invalidProbability (authority : Authority) (position : ℕ) (value : K)
  | notNormalized (authority : Authority) (position : ℕ) (sum : K)
  | vocabularies (position proposal target : ℕ)
  | outsideVocabulary (node : ℕ) (token : TokenId) (vocabulary : ℕ)
  | randomAcceptance (position : ℕ) (value : K)
  | randomCorrection (position : ℕ) (value : K)
  | zeroProposal (node : ℕ) (token : TokenId)
  | residualMass (total : K)
  | emptyDistribution
  | tokenRange (token : ℕ)
  deriving DecidableEq

def SamplingRandomness.validate (r : SamplingRandomness K) (position : ℕ) : Except (SamplingError K) Unit := do
  ensure (0 ≤ r.acceptance ∧ r.acceptance < 1) (.randomAcceptance position r.acceptance)
  ensure (0 ≤ r.correction ∧ r.correction < 1) (.randomCorrection position r.correction)

/-- A row, if it is a probability distribution up to rounding. -/
def probabilityRow (row : List K) (position : ℕ) (authority : Authority) : Except (SamplingError K) (List K) := do
  ensure (row ≠ []) (.emptyRow authority position)
  row.forM fun value => ensure (0 ≤ value) (.invalidProbability authority position value)
  ensure (|row.sum - 1| ≤ 1 / 10000) (.notNormalized authority position row.sum)
  return row

/-- The first token whose cumulative probability exceeds the variate. -/
def drawFrom (uniform : K) : List K → K → ℕ → Option ℕ
  | [], _, _ => none
  | probability :: rest, cumulative, token =>
    if uniform < cumulative + probability then some token else drawFrom uniform rest (cumulative + probability) (token + 1)

def tokenId (index : ℕ) : Except (SamplingError K) TokenId := if index < 2 ^ 32 then .ok index else .error (.tokenRange index)

/-- Draw from a distribution; the last token if the variate is beyond the sum. -/
def sampleDistribution (probabilities : List K) (uniform : K) : Except (SamplingError K) TokenId :=
  match drawFrom uniform probabilities 0 0 with
  | some token => tokenId token
  | none => if probabilities = [] then .error .emptyDistribution else tokenId (probabilities.length - 1)

/-- The positive part of `target - proposal`. -/
def residual (target proposal : List K) : List K := List.zipWith (fun p q => max (p - q) 0) target proposal

/-- Draw from the normalized residual. -/
def sampleResidual (target proposal : List K) (uniform : K) : Except (SamplingError K) TokenId := do
  let total := (residual target proposal).sum
  ensure (0 < total) (.residualMass total)
  sampleDistribution ((residual target proposal).map (· / total)) uniform

/-- The row for the children of a node, or for the roots. -/
def rowIndex (previous : Option ℕ) : ℕ := previous.elim 0 (· + 1)

/-- A path starts at a root and goes from node to child. -/
def checkParent (position : ℕ) (previous : Option ℕ) (node : ℕ) (candidate : TreeNode) : Except (SamplingError K) Unit :=
  if position = 0 then ensure (candidate.parent = none) (.notRoot node)
  else ensure (candidate.parent = previous) (.notChild node (previous.getD 0))

/-- Commit an accepted path and one more token. -/
def commit (t : SpecTree) (baseLen : ℕ) (accepted : List ℕ) (token : TokenId) : TreeVerification :=
  ⟨⟨accepted, t.spell accepted ++ [token]⟩, kvRetentionPlan baseLen accepted⟩

section Verifier

variable (t : SpecTree) (baseLen : ℕ) (proposals targets : List (List K))

/-- The walk along the proposed path, from `previous` on. -/
def verifyPath : ℕ → Option ℕ → List ℕ → List ℕ → List (SamplingRandomness K) →
    Except (SamplingError K) TreeVerification
  | position, _, _, _, [] => .error (.randomnessCount position position)
  | position, previous, accepted, [], random :: _ => do
    let target ← probabilityRow (targets.getD (rowIndex previous) []) position .target
    random.validate position
    let bonus ← sampleDistribution target random.acceptance
    return commit t baseLen accepted bonus
  | position, previous, accepted, node :: path, random :: randomness =>
    match t.nodes[node]? with
    | none => .error (.absentNode position node)
    | some candidate => do
      checkParent position previous node candidate
      let proposal ← probabilityRow (proposals.getD (rowIndex previous) []) position .proposal
      let target ← probabilityRow (targets.getD (rowIndex previous) []) position .target
      ensure (proposal.length = target.length) (.vocabularies position proposal.length target.length)
      ensure (candidate.token < proposal.length) (.outsideVocabulary node candidate.token proposal.length)
      random.validate position
      ensure (0 < proposal.getD candidate.token 0) (.zeroProposal node candidate.token)
      if random.acceptance < min (target.getD candidate.token 0 / proposal.getD candidate.token 0) 1 then
        verifyPath (position + 1) (some node) (accepted ++ [node]) path randomness
      else
        let correction ← sampleResidual target proposal random.correction
        return commit t baseLen accepted correction

end Verifier

/-- Verify a candidate-tree path with speculative rejection sampling. -/
def verifyTreeSampling (t : SpecTree) (baseLen : ℕ) (inputs : TreeSamplingInputs K) :
    Except (SamplingError K) TreeVerification := do
  ensure (inputs.proposalProbabilities.length = t.len + 1) (.proposalRows inputs.proposalProbabilities.length t.len)
  ensure (inputs.targetProbabilities.length = t.len + 1) (.targetRows inputs.targetProbabilities.length t.len)
  ensure (inputs.proposedPath.length < inputs.randomness.length)
    (.randomnessCount inputs.randomness.length inputs.proposedPath.length)
  verifyPath t baseLen inputs.proposalProbabilities inputs.targetProbabilities 0 none [] inputs.proposedPath
    inputs.randomness

/-! ### Distributions -/

/-- A row that sums to one exactly, over a vocabulary of `u32` tokens. -/
structure IsDistribution (row : List K) : Prop where
  nonneg : ∀ v ∈ row, 0 ≤ v
  sum : row.sum = 1
  vocabulary : row.length ≤ 2 ^ 32

variable {row target proposal : List K} {u : K}

theorem IsDistribution.ne_nil (h : IsDistribution row) : row ≠ [] := by
  rintro rfl
  exact zero_ne_one h.sum

theorem IsDistribution.probabilityRow_eq (h : IsDistribution row) (position : ℕ) (authority : Authority) :
    probabilityRow row position authority = .ok row := by
  refine bind_eq_ok.mpr ⟨(), ensure_eq_ok.mpr h.ne_nil, bind_eq_ok.mpr ⟨(), forM_eq_ok.mpr fun v hv => ?_,
    bind_eq_ok.mpr ⟨(), ensure_eq_ok.mpr ?_, rfl⟩⟩⟩
  · exact ensure_eq_ok.mpr (h.nonneg v hv)
  · rw [h.sum, sub_self, abs_zero]
    positivity

/-- The sum of the first entries of a row. -/
def cumulative (row : List K) (i : ℕ) : K := (row.take i).sum

theorem cumulative_succ {i : ℕ} (h : i < row.length) : cumulative row (i + 1) = cumulative row i + row.getD i 0 := by
  rw [cumulative, cumulative, take_succ_eq_append_getElem h, sum_append, sum_singleton,
    getD_eq_getElem _ _ h]

section

variable (h : ∀ v ∈ row, 0 ≤ v)

include h

theorem cumulative_nonneg (i : ℕ) : 0 ≤ cumulative row i :=
  sum_nonneg fun v hv => h v (mem_of_mem_take hv)

theorem cumulative_le_sum (i : ℕ) : cumulative row i ≤ row.sum := by
  have hsplit : cumulative row i + (row.drop i).sum = row.sum := by
    rw [cumulative, ← sum_append, take_append_drop]
  have hdrop : 0 ≤ (row.drop i).sum := sum_nonneg fun v hv => h v (mem_of_mem_drop hv)
  linarith

/-- Which variates draw which token. -/
theorem drawFrom_eq_some {c : K} (hu : c ≤ u) (token i : ℕ) : drawFrom u row c token = some (token + i) ↔
      i < row.length ∧ c + cumulative row i ≤ u ∧ u < c + cumulative row (i + 1) := by
  induction row generalizing c token i with
  | nil => simp [drawFrom]
  | cons p row ih =>
    have hrow : ∀ v ∈ row, 0 ≤ v := fun v hv => h v (mem_cons_of_mem _ hv)
    have hsum : ∀ j, cumulative (p :: row) (j + 1) = p + cumulative row j := by
      intro j
      simp [cumulative]
    simp only [drawFrom]
    split
    case isTrue hlt =>
      cases i with
      | zero => simp [cumulative, hu, hlt]
      | succ i =>
        simp only [Option.some.injEq, Nat.left_eq_add, Nat.add_eq_zero_iff, one_ne_zero, and_false, false_iff, not_and]
        intro _ hle
        have hpos := cumulative_nonneg hrow i
        rw [hsum] at hle
        linarith
    case isFalse hge =>
      cases i with
      | zero =>
        constructor
        · intro hdraw
          have hle : ∀ (row : List K) (c : K) (n m : ℕ), drawFrom u row c n = some m → n ≤ m := by
            intro row
            induction row with
            | nil => simp [drawFrom]
            | cons p row ih =>
              intro c n m hm
              simp only [drawFrom] at hm
              split at hm
              · exact (Option.some.inj hm).le
              · exact (Nat.le_succ n).trans (ih _ _ _ hm)
          have := hle _ _ _ _ hdraw
          omega
        · rintro ⟨-, -, hlt⟩
          simp [cumulative] at hlt
          exact absurd hlt hge
      | succ i =>
        have hnext := ih hrow (not_lt.mp hge) (token + 1) i
        rw [show token + (i + 1) = token + 1 + i by omega, hnext]
        simp [hsum, add_assoc]

theorem drawFrom_isSome {c : K} (hlt : u < c + row.sum) (hu : c ≤ u) (token : ℕ) :
    ∃ i < row.length, drawFrom u row c token = some (token + i) := by
  induction row generalizing c token with
  | nil =>
    simp at hlt
    exact absurd hlt (not_lt.mpr hu)
  | cons p row ih =>
    simp only [drawFrom]
    split
    · exact ⟨0, by simp, rfl⟩
    case isFalse hge =>
      rw [sum_cons, ← add_assoc] at hlt
      obtain ⟨i, hi, hdraw⟩ := ih (fun v hv => h v (mem_cons_of_mem _ hv)) hlt (not_lt.mp hge) (token + 1)
      exact ⟨i + 1, by simpa using hi, by rw [hdraw]; congr 1; omega⟩

end

/-- The token a variate of `[0, 1)` draws from a distribution. -/
def draw (row : List K) (u : K) : TokenId := (drawFrom u row 0 0).getD 0

theorem IsDistribution.sample_eq (h : IsDistribution row) (h0 : 0 ≤ u) (h1 : u < 1) :
    sampleDistribution row u = .ok (draw row u) := by
  obtain ⟨i, hi, hdraw⟩ := drawFrom_isSome h.nonneg (c := 0) (by rw [h.sum]; linarith) h0 0
  rw [Nat.zero_add] at hdraw
  rw [sampleDistribution, draw, hdraw]
  exact if_pos (hi.trans_le h.vocabulary)

/-- A token is drawn by the variates between two cumulative sums. -/
theorem IsDistribution.draw_eq_iff (h : IsDistribution row) (h0 : 0 ≤ u) (h1 : u < 1) {x : ℕ} :
    draw row u = x ↔ x < row.length ∧ cumulative row x ≤ u ∧ u < cumulative row (x + 1) := by
  obtain ⟨i, hi, hdraw⟩ := drawFrom_isSome h.nonneg (c := 0) (by rw [h.sum]; linarith) h0 0
  have hiff := drawFrom_eq_some h.nonneg h0 0 x
  rw [Nat.zero_add] at hdraw hiff
  rw [zero_add, zero_add] at hiff
  rw [← hiff, draw, hdraw, Option.getD_some, Option.some.injEq]

/-! ### The residual -/

theorem residual_nonneg : ∀ v ∈ residual target proposal, 0 ≤ v := by
  intro v hv
  obtain ⟨i, hi, rfl⟩ := mem_iff_getElem.mp hv
  simp [residual]

theorem getD_residual (h : target.length = proposal.length) (x : ℕ) :
    (residual target proposal).getD x 0 = max (target.getD x 0 - proposal.getD x 0) 0 := by
  rcases lt_or_ge x target.length with hlt | hge
  · have hp := h ▸ hlt
    have hr : x < (residual target proposal).length := by simp [residual, hlt, hp]
    rw [getD_eq_getElem _ _ hr, getD_eq_getElem _ _ hlt, getD_eq_getElem _ _ hp]
    simp [residual]
  · have hr : (residual target proposal).length ≤ x := by
      rw [residual, length_zipWith]
      omega
    rw [getD_eq_default _ _ hr, getD_eq_default target _ hge, getD_eq_default proposal _ (h ▸ hge),
      sub_self, max_self]

/-- The normalized residual, where there is one, is a distribution. -/
theorem residual_isDistribution (hlen : target.length ≤ 2 ^ 32) (h : 0 < (residual target proposal).sum) :
    IsDistribution ((residual target proposal).map (· / (residual target proposal).sum)) where
  nonneg := by
    intro v hv
    obtain ⟨w, hw, rfl⟩ := mem_map.mp hv
    exact div_nonneg (residual_nonneg w hw) h.le
  sum := by
    have : ((residual target proposal).map (· / (residual target proposal).sum)).sum =
        (residual target proposal).sum / (residual target proposal).sum := by
      simp only [div_eq_mul_inv]
      rw [sum_map_mul_right, map_id']
    rw [this, div_self h.ne']
  vocabulary := by
    rw [length_map, residual, length_zipWith]
    omega

omit [LinearOrder K] [IsStrictOrderedRing K] in
/-- The sum of the entries, by position. -/
theorem sum_eq_sum_range (row : List K) {n : ℕ} (h : row.length ≤ n) : row.sum = ∑ i ∈ Finset.range n, row.getD i 0 := by
  induction row generalizing n with
  | nil => simp
  | cons v row ih =>
    cases n with
    | zero => simp at h
    | succ n =>
      rw [Finset.sum_range_succ', sum_cons, ih (by simpa using h), add_comm]
      simp

/-- A token the target finds less likely than the proposal leaves something for others. -/
theorem residual_pos (hp : target.sum = 1) (hq : proposal.sum = 1) (hlen : target.length = proposal.length) {x : ℕ}
    (hx : target.getD x 0 < proposal.getD x 0) : 0 < (residual target proposal).sum := by
  have hsum : ∑ i ∈ Finset.range target.length, target.getD i 0 = ∑ i ∈ Finset.range target.length, proposal.getD i 0 := by
    rw [← sum_eq_sum_range target le_rfl, ← sum_eq_sum_range proposal hlen.ge, hp, hq]
  have hmem : x ∈ Finset.range target.length := by
    rw [Finset.mem_range]
    by_contra hge
    rw [getD_eq_default _ _ (not_lt.mp hge), getD_eq_default _ _ (hlen ▸ not_lt.mp hge)] at hx
    exact lt_irrefl _ hx
  have hother : ∃ y ∈ Finset.range target.length, proposal.getD y 0 < target.getD y 0 := by
    by_contra hnone
    push Not at hnone
    exact absurd hsum (Finset.sum_lt_sum hnone ⟨x, hmem, hx⟩).ne
  obtain ⟨y, hy, hlt⟩ := hother
  have hylt := Finset.mem_range.mp hy
  have hr : y < (residual target proposal).length := by simp [residual, hylt, ← hlen]
  have hentry : 0 < (residual target proposal).getD y 0 := by
    rw [getD_residual hlen]
    exact lt_max_of_lt_left (sub_pos.mpr hlt)
  rw [sum_eq_sum_range _ le_rfl]
  apply Finset.sum_pos' _ ⟨y, Finset.mem_range.mpr hr, hentry⟩
  intro i _
  rw [getD_residual hlen]
  exact le_max_right _ _

end OnnxGenai.Speculative
