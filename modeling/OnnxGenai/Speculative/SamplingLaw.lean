import OnnxGenai.Lib.Variates
import OnnxGenai.Speculative.Sampling

/-!
# The law of sampling verification

A proposer draws a path of the tree from the root down, each node among the children that exist,
with probabilities in proportion to its own row; the verifier gets independent uniform variates. What
is the law of the tokens it returns?

It is the target's, as long as restricting the proposer's rows to the children that exist changes
nothing: the children of a node propose different tokens, and every token with a positive proposal
probability (`Draft.Covers`). Then the first token is distributed as the target's row at the anchor,
and after any accepted prefix the next token is distributed as the target's row there
(`law_of_covers`). The verifier divides by the declared probability `q`, not by that of the restricted
draw, so where the children cover only a part of the row the result is another law
(`law_of_restricted`).

The proof computes one step of the walk with `variates_cons`, and goes on along the prefix.
-/

namespace OnnxGenai.Speculative

open Lib MeasureTheory List Option Finset ENNReal Nat

/-- The token of a node. -/
def SpecTree.tokenOf (t : SpecTree) (n : ℕ) : TokenId := (t.tokenAt n).getD 0

/-- A node of the tree, or the anchor. -/
abbrev SpecTree.Has (t : SpecTree) (c : Option ℕ) : Prop := ∀ n ∈ c, n < t.len

/-- The rows of a proposer and a target for a tree. Every candidate has a positive proposal
probability. -/
structure Draft (t : SpecTree) where
  proposals : List (List ℝ)
  targets : List (List ℝ)
  proposals_length : proposals.length = t.len + 1
  targets_length : targets.length = t.len + 1
  proposal : ∀ row ∈ proposals, IsDistribution row
  target : ∀ row ∈ targets, IsDistribution row
  vocabulary : ∀ i, (proposals.getD i []).length = (targets.getD i []).length
  candidate : ∀ n < t.len, 0 < (proposals.getD (rowIndex (t.parentOf n)) []).getD (t.tokenOf n) 0

namespace Draft

variable {t : SpecTree} (D : Draft t)

/-- The proposer's row at a node, or at the anchor. -/
def proposalRow (c : Option ℕ) : List ℝ := D.proposals.getD (rowIndex c) []

def targetRow (c : Option ℕ) : List ℝ := D.targets.getD (rowIndex c) []

/-- The proposer's probability of a token. -/
def q (c : Option ℕ) (x : ℕ) : ℝ := (D.proposalRow c).getD x 0

/-- The target's probability of a token. -/
def p (c : Option ℕ) (x : ℕ) : ℝ := (D.targetRow c).getD x 0

/-- The children of a node propose different tokens, and all that the proposer may draw. -/
def Covers : Prop :=
  ∀ c, t.under c ≠ [] → (∀ m ∈ t.under c, ∀ n ∈ t.under c, t.tokenOf m = t.tokenOf n → m = n) ∧
    ∀ x, 0 < D.q c x → ∃ n ∈ t.under c, t.tokenOf n = x

/-! ### Drawing a path -/

/-- The weight of a child: its token's probability. -/
noncomputable def weight (c : Option ℕ) (n : ℕ) : ENNReal := if n ∈ t.under c then ENNReal.ofReal (D.q c (t.tokenOf n)) else 0

theorem q_pos {c : Option ℕ} {n : ℕ} (h : n ∈ t.under c) : 0 < D.q c (t.tokenOf n) := by
  obtain ⟨hn, rfl⟩ := SpecTree.mem_under.mp h
  exact D.candidate n hn

theorem tokenOf_lt {c : Option ℕ} {n : ℕ} (h : n ∈ t.under c) : t.tokenOf n < (D.proposalRow c).length := by
  by_contra hge
  have hpos := D.q_pos h
  rw [q, getD_eq_default _ _ (not_lt.mp hge)] at hpos
  exact lt_irrefl _ hpos

theorem tsum_weight_mul (c : Option ℕ) (f : ℕ → ENNReal) :
    (tsum fun n => D.weight c n * f n) = ∑ n ∈ (t.under c).toFinset, ENNReal.ofReal (D.q c (t.tokenOf n)) * f n := by
  rw [tsum_eq_sum (s := (t.under c).toFinset)]
  · apply sum_congr rfl
    intro n hn
    rw [weight, if_pos (mem_toFinset.mp hn)]
  · intro n hn
    rw [weight, if_neg fun h => hn (mem_toFinset.mpr h), zero_mul]

theorem tsum_weight (c : Option ℕ) :
    tsum (D.weight c) = ∑ n ∈ (t.under c).toFinset, ENNReal.ofReal (D.q c (t.tokenOf n)) := by
  have := D.tsum_weight_mul c fun _ => 1
  simpa using this

theorem tsum_weight_ne_zero {c : Option ℕ} (h : t.under c ≠ []) : tsum (D.weight c) ≠ 0 := by
  obtain ⟨n, hn⟩ := exists_mem_of_ne_nil _ h
  rw [tsum_weight]
  intro hzero
  have := sum_eq_zero_iff.mp hzero n (mem_toFinset.mpr hn)
  rw [ofReal_eq_zero] at this
  exact absurd (D.q_pos hn) (not_lt.mpr this)

theorem tsum_weight_ne_top (c : Option ℕ) : tsum (D.weight c) ≠ ⊤ := by
  rw [tsum_weight]
  exact sum_ne_top.mpr fun n _ => ofReal_ne_top

/-- The proposer's draw of a child: its row restricted to the children. -/
noncomputable def drawChild (c : Option ℕ) (h : t.under c ≠ []) : PMF ℕ :=
  PMF.normalize (D.weight c) (D.tsum_weight_ne_zero h) (D.tsum_weight_ne_top c)

/-- The proposer's draw of a path, down to a node without children. -/
noncomputable def pathLaw : ℕ → Option ℕ → PMF (List ℕ)
  | 0, _ => PMF.pure []
  | fuel + 1, c =>
    if h : t.under c ≠ [] then (D.drawChild c h).bind fun n => (pathLaw fuel (some n)).map (n :: ·) else PMF.pure []

/-! ### The experiment -/

/-- The verifier's input from independent variates. -/
def randomness {N : ℕ} (ω : Fin N → Variate × Variate) : List (SamplingRandomness ℝ) :=
  List.ofFn fun i => ⟨(ω i).1.1, (ω i).2.1⟩

/-- **The probability of an outcome**: the path is drawn by the proposer, and `N` pairs of variates are
independent and uniform. -/
noncomputable def chance (baseLen N : ℕ) (E : TreeVerification → Prop) : ENNReal :=
  mean (D.pathLaw (t.len + 1) none) fun path => variates N
    {ω | ∃ v, verifyTreeSampling t baseLen ⟨D.proposals, D.targets, path, randomness ω⟩ = .ok v ∧ E v}

/-! ### The walk without its checks -/

/-- The probability that a candidate is accepted. -/
noncomputable def rate (c : Option ℕ) (n : ℕ) : ℝ := min (D.p c (t.tokenOf n) / D.q c (t.tokenOf n)) 1

/-- The row a rejected candidate is replaced from. -/
noncomputable def correctionRow (c : Option ℕ) : List ℝ :=
  (residual (D.targetRow c) (D.proposalRow c)).map (· / (residual (D.targetRow c) (D.proposalRow c)).sum)

/-- What the verifier accepts of a path, and the token it adds. -/
noncomputable def walk : Option ℕ → List ℕ → List (SamplingRandomness ℝ) → List ℕ × TokenId
  | _, _, [] => ([], 0)
  | c, [], r :: _ => ([], draw (D.targetRow c) r.acceptance)
  | c, n :: path, r :: rs =>
    if r.acceptance < D.rate c n then (n :: (walk (some n) path rs).1, (walk (some n) path rs).2)
    else ([], draw (D.correctionRow c) r.correction)

/-- The path goes down from a node, one child at a time. -/
def Follows (t : SpecTree) : Option ℕ → List ℕ → Prop
  | _, [] => True
  | c, n :: path => n ∈ t.under c ∧ Follows t (some n) path

theorem rowIndex_le {c : Option ℕ} (hc : t.Has c) : rowIndex c ≤ t.len := by
  cases c with
  | none => exact zero_le _
  | some n => exact hc n rfl

theorem has_of_under {c : Option ℕ} {n : ℕ} (h : n ∈ t.under c) : t.Has (some n) := by
  rintro _ ⟨⟩
  exact (SpecTree.mem_under.mp h).1

/-- Children come after their parent. -/
theorem rowIndex_le_of_under {c : Option ℕ} {n : ℕ} (h : n ∈ t.under c) : rowIndex c ≤ n := by
  cases c with
  | none => exact zero_le _
  | some m => exact SpecTree.parentOf_lt (SpecTree.mem_under.mp h).2

theorem mem_row {rows : List (List ℝ)} (hlen : rows.length = t.len + 1) {c : Option ℕ} (hc : t.Has c) :
    rows.getD (rowIndex c) [] ∈ rows := by
  have hlt : rowIndex c < rows.length := by
    rw [hlen]
    exact lt_succ_of_le (rowIndex_le hc)
  rw [getD_eq_getElem _ _ hlt]
  exact getElem_mem hlt

theorem proposalRow_isDistribution {c : Option ℕ} (hc : t.Has c) : IsDistribution (D.proposalRow c) :=
  D.proposal _ (mem_row D.proposals_length hc)

theorem targetRow_isDistribution {c : Option ℕ} (hc : t.Has c) : IsDistribution (D.targetRow c) :=
  D.target _ (mem_row D.targets_length hc)

theorem length_rows (c : Option ℕ) : (D.targetRow c).length = (D.proposalRow c).length := (D.vocabulary _).symm

/-- A candidate is rejected only if the target finds it less likely. -/
theorem residual_pos_of_rejected {c : Option ℕ} (hc : t.Has c) {n : ℕ} (hn : n ∈ t.under c) {u : ℝ} (hu : u < 1)
    (h : ¬ u < D.rate c n) : 0 < (residual (D.targetRow c) (D.proposalRow c)).sum := by
  apply residual_pos (D.targetRow_isDistribution hc).sum (D.proposalRow_isDistribution hc).sum (D.length_rows c)
    (x := t.tokenOf n)
  have hrate : D.rate c n < 1 := (not_lt.mp h).trans_lt hu
  have hratio : D.p c (t.tokenOf n) / D.q c (t.tokenOf n) < 1 := by
    rcases min_lt_iff.mp hrate with hlt | hlt
    · exact hlt
    · exact absurd hlt (lt_irrefl 1)
  exact (div_lt_one (D.q_pos hn)).mp hratio

/-- Both variates are in the unit interval. -/
abbrev Valid (r : SamplingRandomness ℝ) : Prop :=
  (0 ≤ r.acceptance ∧ r.acceptance < 1) ∧ 0 ≤ r.correction ∧ r.correction < 1

theorem validate_eq {r : SamplingRandomness ℝ} (position : ℕ) (hr : Valid r) : r.validate position = .ok () :=
  bind_eq_ok.mpr ⟨(), ensure_eq_ok.mpr hr.1, ensure_eq_ok.mpr hr.2⟩

/-- The verifier does what the walk says, and does not fail. -/
theorem verifyPath_eq (baseLen position : ℕ) {c : Option ℕ} (accepted : List ℕ) {path : List ℕ}
    {rs : List (SamplingRandomness ℝ)} (hc : t.Has c) (hpos : position = 0 → c = none) (hpath : Follows t c path)
    (hlen : path.length < rs.length) (hrs : ∀ r ∈ rs, Valid r) :
    verifyPath t baseLen D.proposals D.targets position c accepted path rs =
      .ok (commit t baseLen (accepted ++ (D.walk c path rs).1) (D.walk c path rs).2) := by
  have hq := D.proposalRow_isDistribution hc
  have hp := D.targetRow_isDistribution hc
  induction path generalizing position c accepted rs with
  | nil =>
    cases rs with
    | nil => simp at hlen
    | cons r rs =>
      have hr := hrs r mem_cons_self
      refine bind_eq_ok.mpr ⟨_, hp.probabilityRow_eq _ _, bind_eq_ok.mpr ⟨(), validate_eq position hr,
        bind_eq_ok.mpr ⟨_, hp.sample_eq hr.1.1 hr.1.2, ?_⟩⟩⟩
      simp only [walk, append_nil]
      rfl
  | cons n path ih =>
    cases rs with
    | nil => simp at hlen
    | cons r rs =>
      obtain ⟨hn, hrest⟩ := hpath
      obtain ⟨hnlen, hparent⟩ := SpecTree.mem_under.mp hn
      have hr := hrs r mem_cons_self
      have hnode : t.nodes[n]? = some t.nodes[n] := getElem?_eq_getElem hnlen
      have htoken : t.nodes[n].token = t.tokenOf n := by
        rw [SpecTree.tokenOf, SpecTree.tokenAt, hnode]
        rfl
      have hparent' : t.nodes[n].parent = c := by
        rw [← hparent, SpecTree.parentOf, hnode]
        rfl
      have hroot : checkParent position c n t.nodes[n] = (.ok () : Except (SamplingError ℝ) Unit) := by
        unfold checkParent
        split
        case isTrue h0 => exact ensure_eq_ok.mpr (hparent'.trans (hpos h0))
        case isFalse => exact ensure_eq_ok.mpr hparent'
      simp only [verifyPath, hnode, htoken]
      refine bind_eq_ok.mpr ⟨(), hroot, bind_eq_ok.mpr ⟨_, hq.probabilityRow_eq _ _, bind_eq_ok.mpr
        ⟨_, hp.probabilityRow_eq _ _, bind_eq_ok.mpr ⟨(), ensure_eq_ok.mpr (D.vocabulary _), bind_eq_ok.mpr
          ⟨(), ensure_eq_ok.mpr (D.tokenOf_lt hn), bind_eq_ok.mpr ⟨(), validate_eq position hr, bind_eq_ok.mpr
            ⟨(), ensure_eq_ok.mpr (D.q_pos hn), ?_⟩⟩⟩⟩⟩⟩⟩
      show (if r.acceptance < D.rate c n then _ else _) = _
      by_cases hacc : r.acceptance < D.rate c n
      · have hsome := has_of_under hn
        rw [if_pos hacc, ih (position + 1) (accepted ++ [n]) hsome (fun h => absurd h (succ_ne_zero _)) hrest (by simpa using hlen)
          (fun r' hr' => hrs r' (mem_cons_of_mem _ hr')) (D.proposalRow_isDistribution hsome)
          (D.targetRow_isDistribution hsome)]
        simp [walk, hacc]
      · have htotal := D.residual_pos_of_rejected hc hn hr.1.2 hacc
        have hdist := residual_isDistribution hp.vocabulary htotal
        rw [if_neg hacc]
        refine bind_eq_ok.mpr ⟨draw (D.correctionRow c) r.correction, bind_eq_ok.mpr ⟨(), ensure_eq_ok.mpr htotal,
          hdist.sample_eq hr.2.1 hr.2.2⟩, ?_⟩
        simp only [walk, if_neg hacc, append_nil]
        rfl

theorem randomness_valid {N : ℕ} (ω : Fin N → Variate × Variate) : ∀ r ∈ randomness ω, Valid r := by
  intro r hr
  obtain ⟨i, rfl⟩ := (mem_ofFn' _ _).mp hr
  exact ⟨(ω i).1.2, (ω i).2.2⟩

theorem randomness_cons {N : ℕ} (ω : Fin (N + 1) → Variate × Variate) :
    randomness ω = ⟨(ω 0).1.1, (ω 0).2.1⟩ :: randomness fun i => ω i.succ := ofFn_succ

/-- A path goes down, so it is not longer than the tree. -/
theorem Follows.length_le {c : Option ℕ} {path : List ℕ} (h : Follows t c path) (hc : t.Has c) :
    path.length + rowIndex c ≤ t.len := by
  induction path generalizing c with
  | nil => simpa using rowIndex_le hc
  | cons n path ih =>
    have hrest : _ + (n + 1) ≤ _ := ih h.2 (has_of_under h.1)
    have hlt := rowIndex_le_of_under h.1
    rw [length_cons]
    omega

theorem drawChild_apply_eq_zero {c : Option ℕ} (h : t.under c ≠ []) {n : ℕ} (hn : n ∉ t.under c) :
    D.drawChild c h n = 0 := by
  rw [drawChild, PMF.normalize_apply, weight, if_neg hn, zero_mul]

theorem mem_under_of_support {c : Option ℕ} {h : t.under c ≠ []} {n : ℕ} (hn : n ∈ (D.drawChild c h).support) :
    n ∈ t.under c := by
  by_contra hnot
  exact (PMF.mem_support_iff _ _).mp hn (D.drawChild_apply_eq_zero h hnot)

theorem follows_of_support {fuel : ℕ} {c : Option ℕ} {path : List ℕ} (h : path ∈ (D.pathLaw fuel c).support) :
    Follows t c path := by
  induction fuel generalizing c path with
  | zero =>
    rw [pathLaw, PMF.support_pure, Set.mem_singleton_iff] at h
    subst h
    trivial
  | succ fuel ih =>
    rw [pathLaw] at h
    split at h
    case isTrue hne =>
      obtain ⟨n, hn, hpath⟩ := (PMF.mem_support_bind_iff _ _ _).mp h
      obtain ⟨rest, hrest, rfl⟩ := (PMF.mem_support_map_iff _ _ _).mp hpath
      exact ⟨D.mem_under_of_support hn, ih hrest⟩
    case isFalse =>
      rw [PMF.support_pure, Set.mem_singleton_iff] at h
      subst h
      trivial

/-- The experiment in terms of the walk. -/
theorem chance_eq (baseLen : ℕ) {N : ℕ} (hN : t.len < N) (E : TreeVerification → Prop) :
    D.chance baseLen N E = mean (D.pathLaw (t.len + 1) none) fun path => variates N
      {ω | E (commit t baseLen (D.walk none path (randomness ω)).1 (D.walk none path (randomness ω)).2)} := by
  apply mean_congr
  intro path hpath
  have hfollows := D.follows_of_support hpath
  have hanchor : t.Has none := nofun
  have hlen := hfollows.length_le hanchor
  congr 1
  ext ω
  have hcount : path.length < (randomness ω).length := by
    rw [randomness, length_ofFn]
    omega
  have hverify := D.verifyPath_eq baseLen 0 [] hanchor (fun _ => rfl) hfollows hcount (randomness_valid ω)
  have hok : verifyTreeSampling t baseLen ⟨D.proposals, D.targets, path, randomness ω⟩ =
      .ok (commit t baseLen (D.walk none path (randomness ω)).1 (D.walk none path (randomness ω)).2) :=
    bind_eq_ok.mpr ⟨(), ensure_eq_ok.mpr D.proposals_length, bind_eq_ok.mpr ⟨(), ensure_eq_ok.mpr D.targets_length,
      bind_eq_ok.mpr ⟨(), ensure_eq_ok.mpr hcount, hverify⟩⟩⟩
  simp only [Set.mem_ofPred_eq, hok, Except.ok.injEq, exists_eq_left']

/-! ### One step -/

/-- The tokens a walk returns. -/
noncomputable def returned (c : Option ℕ) (path : List ℕ) (rs : List (SamplingRandomness ℝ)) : List TokenId :=
  t.spell (D.walk c path rs).1 ++ [(D.walk c path rs).2]

/-- The nodes `a` are accepted, and the next token is `x`. -/
def Hits (c : Option ℕ) (a : List ℕ) (x : TokenId) (path : List ℕ) (rs : List (SamplingRandomness ℝ)) : Prop :=
  a <+: (D.walk c path rs).1 ∧ (D.returned c path rs)[a.length]? = some x

/-- The nodes `a` are accepted. -/
def Accepts (c : Option ℕ) (a : List ℕ) (path : List ℕ) (rs : List (SamplingRandomness ℝ)) : Prop :=
  a <+: (D.walk c path rs).1

theorem tokenAt_of_under {c : Option ℕ} {n : ℕ} (h : n ∈ t.under c) : t.tokenAt n = some (t.tokenOf n) := by
  obtain ⟨token, htoken⟩ := SpecTree.tokenAt_isSome (SpecTree.mem_under.mp h).1
  rw [SpecTree.tokenOf, htoken, getD_some]

variable {D} {c : Option ℕ} {m n : ℕ} {a path : List ℕ} {x : TokenId} {r : SamplingRandomness ℝ}
  {rs : List (SamplingRandomness ℝ)}

theorem accepts_cons : D.Accepts c (n :: a) (m :: path) (r :: rs) ↔
    m = n ∧ r.acceptance < D.rate c m ∧ D.Accepts (some m) a path rs := by
  simp only [Accepts, walk]
  split
  case isTrue hacc => simp [hacc, cons_prefix_cons, eq_comm]
  case isFalse hacc => simp [hacc]

theorem hits_cons (hm : m ∈ t.under c) : D.Hits c (n :: a) x (m :: path) (r :: rs) ↔
    m = n ∧ r.acceptance < D.rate c m ∧ D.Hits (some m) a x path rs := by
  simp only [Hits, returned, walk]
  split
  case isTrue hacc =>
    simp [hacc, cons_prefix_cons, SpecTree.spell, tokenAt_of_under hm, eq_comm, and_assoc]
  case isFalse hacc => simp [hacc]

theorem hits_nil_cons (hm : m ∈ t.under c) : D.Hits c [] x (m :: path) (r :: rs) ↔
    (r.acceptance < D.rate c m ∧ t.tokenOf m = x) ∨
      (¬ r.acceptance < D.rate c m ∧ draw (D.correctionRow c) r.correction = x) := by
  simp only [Hits, returned, walk]
  split
  case isTrue hacc => simp [hacc, SpecTree.spell, tokenAt_of_under hm]
  case isFalse hacc => simp [hacc, SpecTree.spell]

theorem hits_nil_nil : D.Hits c [] x [] (r :: rs) ↔ draw (D.targetRow c) r.acceptance = x := by
  simp [Hits, returned, walk, SpecTree.spell]

theorem not_accepts_nil : ¬ D.Accepts c (n :: a) [] rs := by
  cases rs <;> simp [Accepts, walk]

/-- The probability of drawing a token. -/
theorem uniform_draw {row : List ℝ} (h : IsDistribution row) (x : TokenId) :
    uniform {u | draw row u.1 = x} = ENNReal.ofReal (row.getD x 0) := by
  rcases lt_or_ge x row.length with hlt | hge
  · have hset : {u : Variate | draw row u.1 = x} = {u | cumulative row x ≤ u.1 ∧ u.1 < cumulative row (x + 1)} := by
      ext u
      simp only [Set.mem_ofPred_eq, h.draw_eq_iff u.2.1 u.2.2, hlt, true_and]
    rw [hset, uniform_between (cumulative_nonneg h.nonneg x) ((cumulative_le_sum h.nonneg _).trans h.sum.le),
      cumulative_succ hlt, add_sub_cancel_left]
  · have hset : {u : Variate | draw row u.1 = x} = ∅ := by
      ext u
      simp only [Set.mem_ofPred_eq, h.draw_eq_iff u.2.1 u.2.2, not_lt.mpr hge, false_and, Set.mem_empty_iff_false]
    rw [hset, measure_empty, getD_eq_default _ _ hge, ofReal_zero]

theorem getD_nonneg {row : List ℝ} (h : IsDistribution row) (x : ℕ) : 0 ≤ row.getD x 0 := by
  rcases lt_or_ge x row.length with hlt | hge
  · rw [getD_eq_getElem _ _ hlt]
    exact h.nonneg _ (getElem_mem hlt)
  · rw [getD_eq_default _ _ hge]

theorem p_nonneg (hc : t.Has c) (x : ℕ) : 0 ≤ D.p c x := getD_nonneg (D.targetRow_isDistribution hc) x

theorem q_nonneg (hc : t.Has c) (x : ℕ) : 0 ≤ D.q c x := getD_nonneg (D.proposalRow_isDistribution hc) x

theorem rate_nonneg (hc : t.Has c) (hm : m ∈ t.under c) : 0 ≤ D.rate c m :=
  le_min (div_nonneg (p_nonneg hc _) (D.q_pos hm).le) zero_le_one

theorem rate_le_one : D.rate c m ≤ 1 := min_le_right _ _

/-- The probability that a candidate leads to `x` at once. -/
theorem pair_hits (hc : t.Has c) (hm : m ∈ t.under c) (x : TokenId) :
    pair {r | (r.1.1 < D.rate c m ∧ t.tokenOf m = x) ∨ (¬ r.1.1 < D.rate c m ∧ draw (D.correctionRow c) r.2.1 = x)} =
      (if t.tokenOf m = x then ENNReal.ofReal (D.rate c m) else 0) +
        ENNReal.ofReal (1 - D.rate c m) * uniform {u | draw (D.correctionRow c) u.1 = x} := by
  have hmeas : MeasurableSet {r : Variate × Variate | r.1.1 < D.rate c m ∧ t.tokenOf m = x} := by
    apply MeasurableSet.inter
    · exact measurableSet_lt (measurable_subtype_coe.comp measurable_fst) measurable_const
    · exact MeasurableSet.const _
  have hdisj : Disjoint {r : Variate × Variate | r.1.1 < D.rate c m ∧ t.tokenOf m = x}
      {r | ¬ r.1.1 < D.rate c m ∧ draw (D.correctionRow c) r.2.1 = x} := by
    rw [Set.disjoint_left]
    exact fun r hr hr' => hr'.1 hr.1
  have hunion := measure_union' hdisj hmeas (μ := pair)
  have hreject := pair_prod {u | ¬ u.1 < D.rate c m} {u | draw (D.correctionRow c) u.1 = x}
  rw [uniform_ge (rate_nonneg hc hm)] at hreject
  have haccept : pair {r : Variate × Variate | r.1.1 < D.rate c m ∧ t.tokenOf m = x} =
      if t.tokenOf m = x then ENNReal.ofReal (D.rate c m) else 0 := by
    split
    case isTrue hx =>
      rw [← uniform_lt rate_le_one, ← pair_fst]
      simp [hx]
    case isFalse hx => simp [hx]
  rw [← haccept, ← hreject]
  exact hunion

/-! ### The law of the next token -/

/-- Where the children cover the row, a sum over the children is a sum over the vocabulary. -/
theorem Covers.sum_children (hcover : D.Covers) (hc : t.Has c) (hne : t.under c ≠ []) (F : ℕ → ENNReal)
    (hF : ∀ x, D.q c x = 0 → F x = 0) :
    ∑ n ∈ (t.under c).toFinset, F (t.tokenOf n) = ∑ x ∈ Finset.range (D.proposalRow c).length, F x := by
  obtain ⟨hinj, hsurj⟩ := hcover c hne
  have himage : ∑ n ∈ (t.under c).toFinset, F (t.tokenOf n) = ∑ x ∈ (t.under c).toFinset.image t.tokenOf, F x := by
    rw [sum_image]
    intro m hm n hn hmn
    exact hinj m (mem_toFinset.mp hm) n (mem_toFinset.mp hn) hmn
  rw [himage]
  apply sum_subset
  · intro x hx
    obtain ⟨n, hn, rfl⟩ := mem_image.mp hx
    exact Finset.mem_range.mpr (D.tokenOf_lt (mem_toFinset.mp hn))
  · intro x _ hx
    apply hF
    by_contra hq
    obtain ⟨n, hn, rfl⟩ := hsurj x (lt_of_le_of_ne (q_nonneg hc x) (Ne.symm hq))
    exact hx (mem_image_of_mem _ (mem_toFinset.mpr hn))

theorem sum_q (hc : t.Has c) : ∑ x ∈ Finset.range (D.proposalRow c).length, D.q c x = 1 := by
  rw [← (D.proposalRow_isDistribution hc).sum, sum_eq_sum_range _ le_rfl]
  rfl

theorem sum_p (hc : t.Has c) : ∑ x ∈ Finset.range (D.proposalRow c).length, D.p c x = 1 := by
  rw [← (D.targetRow_isDistribution hc).sum, sum_eq_sum_range _ (D.length_rows c).le]
  rfl

/-- Restricting a row to children that cover it changes nothing. -/
theorem Covers.mean_drawChild (hcover : D.Covers) (hc : t.Has c) (hne : t.under c ≠ []) (f : ℕ → ENNReal) :
    mean (D.drawChild c hne) f = ∑ n ∈ (t.under c).toFinset, ENNReal.ofReal (D.q c (t.tokenOf n)) * f n := by
  have htotal : tsum (D.weight c) = 1 := by
    rw [D.tsum_weight, hcover.sum_children hc hne (fun x => ENNReal.ofReal (D.q c x)) fun x hx => by rw [hx, ENNReal.ofReal_zero],
      ← ofReal_sum_of_nonneg fun x _ => q_nonneg hc x, sum_q hc, ofReal_one]
  rw [← D.tsum_weight_mul]
  apply tsum_congr
  intro n
  rw [drawChild, PMF.normalize_apply, htotal, inv_one, mul_one]

theorem q_mul_rate (hm : 0 < D.q c x) : D.q c x * min (D.p c x / D.q c x) 1 = min (D.p c x) (D.q c x) := by
  rw [mul_min_of_nonneg _ _ hm.le, mul_div_cancel₀ _ hm.ne', mul_one]

theorem getD_correctionRow (x : ℕ) :
    (D.correctionRow c).getD x 0 = max (D.p c x - D.q c x) 0 / (residual (D.targetRow c) (D.proposalRow c)).sum := by
  have hmap := getD_map (d := (0 : ℝ)) (n := x) (l := residual (D.targetRow c) (D.proposalRow c))
    (· / (residual (D.targetRow c) (D.proposalRow c)).sum)
  rw [zero_div, getD_residual (D.length_rows c)] at hmap
  exact hmap

theorem sum_residual_rows :
    (residual (D.targetRow c) (D.proposalRow c)).sum =
      ∑ y ∈ Finset.range (D.proposalRow c).length, max (D.p c y - D.q c y) 0 := by
  rw [sum_eq_sum_range (residual _ _) (n := (D.proposalRow c).length)
    (by rw [residual, length_zipWith]; exact min_le_right _ _)]
  exact sum_congr rfl fun y _ => getD_residual (D.length_rows c) y

/-- What the rejected candidates contribute to `x`. -/
theorem rejected_mul_draw (hc : t.Has c) (x : TokenId) :
    ENNReal.ofReal (∑ y ∈ Finset.range (D.proposalRow c).length, (D.q c y - min (D.p c y) (D.q c y))) *
      uniform {u | draw (D.correctionRow c) u.1 = x} = ENNReal.ofReal (max (D.p c x - D.q c x) 0) := by
  rw [sum_residual ((sum_p hc).trans (sum_q hc).symm), ← sum_residual_rows]
  by_cases hzero : (residual (D.targetRow c) (D.proposalRow c)).sum = 0
  · have hx : max (D.p c x - D.q c x) 0 = 0 := by
      rcases lt_or_ge x (D.proposalRow c).length with hlt | hge
      · rw [sum_residual_rows] at hzero
        exact (Finset.sum_eq_zero_iff_of_nonneg fun y _ => le_max_right _ _).mp hzero x (Finset.mem_range.mpr hlt)
      · have hqx : D.q c x = 0 := getD_eq_default _ _ hge
        have hpx : D.p c x = 0 := getD_eq_default _ _ ((D.length_rows c).le.trans hge)
        rw [hqx, hpx, sub_zero, max_self]
    rw [hzero, hx, ofReal_zero, zero_mul]
  · have hpos : 0 < (residual (D.targetRow c) (D.proposalRow c)).sum :=
      lt_of_le_of_ne (sum_nonneg residual_nonneg) (Ne.symm hzero)
    have hdist : IsDistribution (D.correctionRow c) :=
      residual_isDistribution (D.targetRow_isDistribution hc).vocabulary hpos
    rw [uniform_draw hdist, getD_correctionRow, ← ofReal_mul hpos.le, mul_div_cancel₀ _ hzero]

/-- **One candidate, drawn and verified, has the target's law.** -/
theorem Covers.mean_hits (hcover : D.Covers) (hc : t.Has c) (hne : t.under c ≠ []) (x : TokenId) :
    mean (D.drawChild c hne) (fun m => (if t.tokenOf m = x then ENNReal.ofReal (D.rate c m) else 0) +
      ENNReal.ofReal (1 - D.rate c m) * uniform {u | draw (D.correctionRow c) u.1 = x}) = ENNReal.ofReal (D.p c x) := by
  set κ := uniform {u : Variate | draw (D.correctionRow c) u.1 = x} with hκ
  -- Each child's share, in terms of its token.
  have hshare : ∀ m ∈ (t.under c).toFinset, ENNReal.ofReal (D.q c (t.tokenOf m)) *
      ((if t.tokenOf m = x then ENNReal.ofReal (D.rate c m) else 0) + ENNReal.ofReal (1 - D.rate c m) * κ) =
      (if t.tokenOf m = x then ENNReal.ofReal (min (D.p c (t.tokenOf m)) (D.q c (t.tokenOf m))) else 0) +
        ENNReal.ofReal (D.q c (t.tokenOf m) - min (D.p c (t.tokenOf m)) (D.q c (t.tokenOf m))) * κ := by
    intro m hm
    have hpos := D.q_pos (mem_toFinset.mp hm)
    have hmin := q_mul_rate hpos
    have hreject : D.q c (t.tokenOf m) * (1 - D.rate c m) =
        D.q c (t.tokenOf m) - min (D.p c (t.tokenOf m)) (D.q c (t.tokenOf m)) := by
      rw [mul_sub, mul_one, ← hmin]
      rfl
    rw [mul_add, ← mul_assoc, ← ofReal_mul hpos.le, hreject]
    split
    · rw [← ofReal_mul hpos.le, ← hmin]
      rfl
    · rw [mul_zero]
  have hoff : ∀ y, D.q c y = 0 → (if y = x then ENNReal.ofReal (min (D.p c y) (D.q c y)) else 0) +
      ENNReal.ofReal (D.q c y - min (D.p c y) (D.q c y)) * κ = 0 := by
    intro y hy
    rw [hy, min_eq_right (p_nonneg hc y), sub_zero, ofReal_zero, zero_mul, add_zero, ite_self]
  have haccepted : (if x ∈ Finset.range (D.proposalRow c).length then ENNReal.ofReal (min (D.p c x) (D.q c x)) else 0) =
      ENNReal.ofReal (min (D.p c x) (D.q c x)) := by
    split
    case isTrue => rfl
    case isFalse hx =>
      have hout : (D.proposalRow c).length ≤ x := not_lt.mp fun h => hx (Finset.mem_range.mpr h)
      have hqx : D.q c x = 0 := getD_eq_default _ _ hout
      rw [hqx, min_eq_right (p_nonneg hc x), ofReal_zero]
  rw [hcover.mean_drawChild hc hne, sum_congr rfl hshare, hcover.sum_children hc hne
    (fun y => (if y = x then ENNReal.ofReal (min (D.p c y) (D.q c y)) else 0) +
      ENNReal.ofReal (D.q c y - min (D.p c y) (D.q c y)) * κ) hoff, sum_add_distrib, sum_ite_eq',
    ← sum_mul, ← ofReal_sum_of_nonneg fun y _ => sub_nonneg.mpr (min_le_right _ _), haccepted,
    rejected_mul_draw hc, ← ofReal_add (le_min (p_nonneg hc x) (q_nonneg hc x)) (le_max_right _ _),
    min_add_max_sub]

/-! ### Along a prefix -/

theorem fuel_pos {f : ℕ} (hc : t.Has c) (hf : t.len < f + rowIndex c) : f ≠ 0 := by
  have := rowIndex_le hc
  omega

theorem fuel_child {f : ℕ} (hm : m ∈ t.under c) (hf : t.len < f + 1 + rowIndex c) : t.len < f + rowIndex (some m) := by
  have hle := rowIndex_le_of_under hm
  show t.len < f + (m + 1)
  omega

/-- The path is drawn by its first node. -/
theorem mean_pathLaw_cons {f : ℕ} (hne : t.under c ≠ []) (g : List ℕ → ENNReal) :
    mean (D.pathLaw (f + 1) c) g = mean (D.drawChild c hne) fun m => mean (D.pathLaw f (some m)) fun path => g (m :: path) := by
  rw [pathLaw, dif_pos hne, mean_bind]
  congr 1
  funext m
  exact mean_map _ _ _

theorem mean_pathLaw_nil {f : ℕ} (hnil : t.under c = []) (g : List ℕ → ENNReal) : mean (D.pathLaw (f + 1) c) g = g [] := by
  rw [pathLaw, dif_neg (not_not.mpr hnil), mean_pure]

/-- The next token from a node on has the law of the target's row. -/
theorem Covers.mean_hits_nil (hcover : D.Covers) (hc : t.Has c) (f N : ℕ) (x : TokenId) :
    mean (D.pathLaw (f + 1) c) (fun path => variates (N + 1) {ω | D.Hits c [] x path (randomness ω)}) =
      ENNReal.ofReal (D.p c x) := by
  by_cases hne : t.under c ≠ []
  · rw [mean_pathLaw_cons hne, ← hcover.mean_hits hc hne x]
    apply mean_congr
    intro m hm
    have hm := D.mem_under_of_support hm
    rw [← pair_hits hc hm x]
    apply (mean_congr fun path _ => _).trans (mean_const (D.pathLaw f (some m)) _)
    intro path _
    rw [← variates_head (n := N)]
    congr 1
    ext ω
    simp only [Set.mem_ofPred_eq, randomness_cons, hits_nil_cons hm]
  · rw [mean_pathLaw_nil (not_not.mp hne), p, ← uniform_draw (D.targetRow_isDistribution hc) x, ← pair_fst,
      ← variates_head (n := N)]
    congr 1
    ext ω
    simp only [Set.mem_ofPred_eq, randomness_cons, hits_nil_nil]

/-- Accepting one more node is independent of what comes after it. -/
theorem mean_cons {f N : ℕ} {E : List ℕ → List (SamplingRandomness ℝ) → Prop}
    (E' : ℕ → List ℕ → List (SamplingRandomness ℝ) → Prop) (hne : t.under c ≠ []) (hn : n ∈ t.under c)
    (hE : ∀ m ∈ t.under c, ∀ path r rs, E (m :: path) (r :: rs) ↔ m = n ∧ r.acceptance < D.rate c m ∧ E' m path rs) :
    mean (D.pathLaw (f + 1) c) (fun path => variates (N + 1) {ω | E path (randomness ω)}) =
      D.drawChild c hne n * ENNReal.ofReal (D.rate c n) *
        mean (D.pathLaw f (some n)) fun path => variates N {ω | E' n path (randomness ω)} := by
  rw [mean_pathLaw_cons hne, mean, tsum_eq_single n]
  · rw [mul_assoc]
    congr 1
    rw [← mean_const_mul]
    congr 1
    funext path
    rw [← uniform_lt rate_le_one, ← pair_fst, ← variates_cons]
    congr 1
    ext ω
    simp only [Set.mem_ofPred_eq, randomness_cons, hE n hn, true_and]
  · intro m hm
    by_cases hmem : m ∈ t.under c
    · have hzero : ∀ path, variates (N + 1) {ω | E (m :: path) (randomness ω)} = 0 := by
        intro path
        have hempty : {ω : Fin (N + 1) → Variate × Variate | E (m :: path) (randomness ω)} = ∅ := by
          ext ω
          simp only [Set.mem_ofPred_eq, randomness_cons, hE m hmem, hm, false_and, Set.mem_empty_iff_false]
        rw [hempty, measure_empty]
      simp only [hzero, mean_const, mul_zero]
    · rw [D.drawChild_apply_eq_zero hne hmem, zero_mul]

/-- Where a prefix leads. -/
def after (c : Option ℕ) (a : List ℕ) : Option ℕ := a.getLast?.or c

theorem after_cons (c : Option ℕ) (n : ℕ) (a : List ℕ) : after c (n :: a) = after (some n) a := by
  cases a with
  | nil => rfl
  | cons m a => simp [after, getLast?_cons]

/-- A prefix that is not a path of the tree is never accepted. -/
theorem not_accepts_of_not_mem {f N : ℕ} (hn : n ∉ t.under c) :
    mean (D.pathLaw (f + 1) c) (fun path => variates N {ω | D.Accepts c (n :: a) path (randomness ω)}) = 0 := by
  refine (mean_congr fun path hpath => ?_).trans (mean_const _ 0)
  have hempty : {ω : Fin N → Variate × Variate | D.Accepts c (n :: a) path (randomness ω)} = ∅ := by
    ext ω
    simp only [Set.mem_ofPred_eq, Set.mem_empty_iff_false, iff_false]
    intro hacc
    cases path with
    | nil => exact not_accepts_nil hacc
    | cons m path =>
      cases hrs : randomness ω with
      | nil =>
        rw [hrs] at hacc
        simp [Accepts, walk] at hacc
      | cons r rs =>
        rw [hrs] at hacc
        obtain ⟨rfl, -, -⟩ := accepts_cons.mp hacc
        exact hn (D.follows_of_support hpath).1
  rw [hempty, measure_empty]

/-- **After every accepted prefix the next token has the law of the target's row there.** -/
theorem Covers.mean_hits_prefix (hcover : D.Covers) {f N : ℕ} (hc : t.Has c) (hf : t.len < f + rowIndex c)
    (hN : t.len < N + rowIndex c) (a : List ℕ) (x : TokenId) :
    mean (D.pathLaw f c) (fun path => variates N {ω | D.Hits c a x path (randomness ω)}) =
      mean (D.pathLaw f c) (fun path => variates N {ω | D.Accepts c a path (randomness ω)}) *
        ENNReal.ofReal (D.p (after c a) x) := by
  induction a generalizing c f N with
  | nil =>
    obtain ⟨f, rfl⟩ := exists_eq_succ_of_ne_zero (fuel_pos hc hf)
    obtain ⟨N, rfl⟩ := exists_eq_succ_of_ne_zero (fuel_pos hc hN)
    have hall : ∀ path, variates (N + 1) {ω | D.Accepts c [] path (randomness ω)} = 1 := by
      intro path
      have huniv : {ω : Fin (N + 1) → Variate × Variate | D.Accepts c [] path (randomness ω)} = Set.univ := by
        ext ω
        simp [Accepts]
      rw [huniv, measure_univ]
    simp only [hall, mean_const, one_mul]
    exact hcover.mean_hits_nil hc f N x
  | cons n a ih =>
    obtain ⟨f, rfl⟩ := exists_eq_succ_of_ne_zero (fuel_pos hc hf)
    obtain ⟨N, rfl⟩ := exists_eq_succ_of_ne_zero (fuel_pos hc hN)
    by_cases hn : n ∈ t.under c
    · have hne := ne_nil_of_mem hn
      have hsome := has_of_under hn
      rw [mean_cons (fun m path rs => D.Hits (some m) a x path rs) hne hn fun m hm path r rs => hits_cons hm,
        mean_cons (fun m path rs => D.Accepts (some m) a path rs) hne hn fun m hm path r rs => accepts_cons,
        ih hsome (fuel_child hn hf) (fuel_child hn hN), after_cons, ← mul_assoc]
    · rw [not_accepts_of_not_mem hn, zero_mul]
      refine le_antisymm ?_ zero_le
      rw [← not_accepts_of_not_mem (D := D) (a := a) (f := f) (N := N + 1) hn]
      apply ENNReal.tsum_le_tsum
      intro path
      exact mul_le_mul' le_rfl (measure_mono fun ω hω => hω.1)

/-- **Sampling verification preserves the target distribution**, if the children cover the rows they
are drawn from. The first token has the law of the target's row at the anchor; after every accepted
prefix the next token has the law of the target's row after that prefix. -/
theorem law_of_covers (hcover : D.Covers) (baseLen : ℕ) {N : ℕ} (hN : t.len < N) :
    (∀ x, D.chance baseLen N (fun v => v.outcome.tokens[0]? = some x) = ENNReal.ofReal (D.p none x)) ∧
    ∀ a x, D.chance baseLen N (fun v => a <+: v.outcome.nodes ∧ v.outcome.tokens[a.length]? = some x) =
      D.chance baseLen N (fun v => a <+: v.outcome.nodes) * ENNReal.ofReal (D.p a.getLast? x) := by
  have hanchor : t.Has none := nofun
  have hfront : ∀ a x, D.chance baseLen N (fun v => a <+: v.outcome.nodes ∧ v.outcome.tokens[a.length]? = some x) =
      D.chance baseLen N (fun v => a <+: v.outcome.nodes) * ENNReal.ofReal (D.p a.getLast? x) := by
    intro a x
    rw [D.chance_eq baseLen hN, D.chance_eq baseLen hN]
    have := hcover.mean_hits_prefix (f := t.len + 1) (N := N) hanchor (by simp [rowIndex]) (by simpa [rowIndex] using hN) a x
    rw [after, or_none] at this
    exact this
  refine ⟨fun x => ?_, hfront⟩
  have hnil := hfront [] x
  have hcertain : D.chance baseLen N (fun v => [] <+: v.outcome.nodes) = 1 := by
    rw [D.chance_eq baseLen hN]
    simp [mean_const]
  rw [hcertain, one_mul] at hnil
  simpa using hnil

/-- Two roots, with tokens 0 and 1. -/
def twoRoots : SpecTree where
  nodes := [⟨0, none, 0⟩, ⟨1, none, 0⟩]
  topological := by
    intro i node h
    rcases i with _ | _ | i
    · cases h
      rfl
    · cases h
      rfl
    · cases h

theorem isDistribution_half : IsDistribution [(1 / 2 : ℝ), 1 / 2] := ⟨by norm_num, by norm_num, by norm_num⟩

/-- A row, and rows of a single token. -/
theorem isDistribution_rows {row : List ℝ} {rows : List (List ℝ)} (h : IsDistribution row) (hrows : ∀ r ∈ rows, r = [1]) :
    ∀ r ∈ row :: rows, IsDistribution r := by
  intro r hr
  rcases List.mem_cons.mp hr with rfl | hr
  · exact h
  · rw [hrows r hr]
    exact ⟨by simp, by simp, by simp⟩

/-- A proposer that is undecided between two tokens, and a target that prefers the second. -/
noncomputable def twoTokens : Draft twoRoots where
  proposals := [[1 / 2, 1 / 2], [1], [1]]
  targets := [[1 / 4, 3 / 4], [1], [1]]
  proposals_length := rfl
  targets_length := rfl
  proposal := isDistribution_rows isDistribution_half (by simp)
  target := isDistribution_rows ⟨by norm_num, by norm_num, by norm_num⟩ (by simp)
  vocabulary := by
    intro i
    rcases i with _ | _ | _ | i <;> rfl
  candidate := by
    intro n hn
    have hn : n < 2 := hn
    interval_cases n <;> simp [SpecTree.parentOf, SpecTree.tokenOf, SpecTree.tokenAt, twoRoots, rowIndex]

theorem twoTokens_covers : twoTokens.Covers := by
  intro c hne
  have hnone : ∀ n ∈ twoRoots.under c, c = none := by
    intro n hn
    obtain ⟨hlt, hparent⟩ := SpecTree.mem_under.mp hn
    have hlt : n < 2 := hlt
    interval_cases n <;> exact hparent.symm
  obtain ⟨n, hn⟩ := exists_mem_of_ne_nil _ hne
  obtain rfl := hnone n hn
  refine ⟨by decide, fun x hx => ?_⟩
  rcases x with _ | _ | x
  · exact ⟨0, by decide, rfl⟩
  · exact ⟨1, by decide, rfl⟩
  · simp [q, proposalRow, twoTokens, rowIndex] at hx

theorem law_of_covers_two :
    twoTokens.Covers ∧ twoTokens.chance 0 3 (fun v => v.outcome.tokens[0]? = some 1) = ENNReal.ofReal (3 / 4) := by
  refine ⟨twoTokens_covers, ?_⟩
  have hlaw := (law_of_covers twoTokens_covers 0 (N := 3) (by decide)).1 1
  simpa [p, targetRow, twoTokens, rowIndex] using hlaw

/-- One root, with token 0. -/
def oneRoot : SpecTree where
  nodes := [⟨0, none, 0⟩]
  topological := by
    intro i node h
    rcases i with _ | i
    · cases h
      rfl
    · cases h

/-- A proposer and a target that are both undecided between two tokens; the tree has only one. -/
noncomputable def halfCovered : Draft oneRoot where
  proposals := [[1 / 2, 1 / 2], [1]]
  targets := [[1 / 2, 1 / 2], [1]]
  proposals_length := rfl
  targets_length := rfl
  proposal := isDistribution_rows isDistribution_half (by simp)
  target := isDistribution_rows isDistribution_half (by simp)
  vocabulary := fun _ => rfl
  candidate := by
    intro n hn
    have hn : n < 1 := hn
    interval_cases n
    simp [SpecTree.parentOf, SpecTree.tokenOf, SpecTree.tokenAt, oneRoot, rowIndex]

/-- **A tree that covers a part of the row gives another law**: the one candidate is always drawn and
always accepted, although the target gives it probability one half. -/
theorem law_of_restricted :
    halfCovered.chance 0 2 (fun v => v.outcome.tokens[0]? = some 0) = 1 ∧ halfCovered.p none 0 = 1 / 2 := by
  refine ⟨?_, rfl⟩
  have hne : oneRoot.under none ≠ [] := by decide
  rw [halfCovered.chance_eq 0 (by decide : oneRoot.len < 2), mean_pathLaw_cons hne]
  refine (mean_congr fun m hm => ?_).trans (mean_const _ 1)
  have hm := halfCovered.mem_under_of_support hm
  obtain rfl : m = 0 := by
    have hlt : m < 1 := (SpecTree.mem_under.mp hm).1
    omega
  refine (mean_congr fun path _ => ?_).trans (mean_const _ 1)
  have hrate : halfCovered.rate none 0 = 1 := by
    simp [rate, p, q, targetRow, proposalRow, halfCovered, rowIndex, SpecTree.tokenOf, SpecTree.tokenAt, oneRoot]
  have huniv : {ω : Fin 2 → Variate × Variate | halfCovered.Hits none [] 0 (0 :: path) (randomness ω)} = Set.univ := by
    ext ω
    simp only [Set.mem_ofPred_eq, Set.mem_univ, iff_true, randomness_cons, hits_nil_cons hm, hrate]
    exact .inl ⟨(ω 0).1.2.2, rfl⟩
  have hsame : {ω : Fin 2 → Variate × Variate | (commit oneRoot 0 (halfCovered.walk none (0 :: path) (randomness ω)).1
      (halfCovered.walk none (0 :: path) (randomness ω)).2).outcome.tokens[0]? = some 0} =
      {ω | halfCovered.Hits none [] 0 (0 :: path) (randomness ω)} := by
    ext ω
    simp [Hits, returned, commit]
  rw [hsame, huniv, measure_univ]

end Draft

end OnnxGenai.Speculative
