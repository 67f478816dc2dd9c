import Mathlib

/-!
# Independent uniform variates

Variates are uniform on `[0, 1)`. A sampler takes them in pairs, from a list; `variates n` is the
law of `n` independent pairs. Probabilities are computed by splitting off the first pair
(`variates_cons`).

A finite choice that is made besides is a `PMF`; `mean` is the expected value of a function of it.

Rejection sampling turns draws from `q` into draws from `p`: what is accepted of `x` has probability
`min (p x) (q x)`, what is missing of it is the positive part of `p x - q x` (`min_add_max_sub`), and what is
rejected altogether is what is missing altogether (`sum_residual`).
-/

namespace OnnxGenai.Lib

open MeasureTheory

/-- A number of `[0, 1)`. -/
abbrev Variate := Set.Ico (0 : ℝ) 1

/-- The uniform law on `[0, 1)`. -/
noncomputable def uniform : Measure Variate := Measure.comap Subtype.val volume

theorem uniform_between {a b : ℝ} (ha : 0 ≤ a) (hb : b ≤ 1) : uniform {u | a ≤ u.1 ∧ u.1 < b} = ENNReal.ofReal (b - a) := by
  rw [uniform, (MeasurableEmbedding.subtype_coe measurableSet_Ico).comap_apply]
  have himage : Subtype.val '' {u : Variate | a ≤ u.1 ∧ u.1 < b} = Set.Ico a b := by
    ext x
    constructor
    · rintro ⟨u, hu, rfl⟩
      exact hu
    · intro hx
      exact ⟨⟨x, ha.trans hx.1, hx.2.trans_le hb⟩, hx, rfl⟩
  rw [himage, Real.volume_Ico]

theorem uniform_lt {b : ℝ} (hb : b ≤ 1) : uniform {u | u.1 < b} = ENNReal.ofReal b := by
  have := uniform_between le_rfl hb
  rw [sub_zero] at this
  rw [← this]
  congr 1
  ext u
  exact ⟨fun h => ⟨u.2.1, h⟩, fun h => h.2⟩

theorem uniform_ge {a : ℝ} (ha : 0 ≤ a) : uniform {u | ¬ u.1 < a} = ENNReal.ofReal (1 - a) := by
  rw [← uniform_between ha le_rfl]
  congr 1
  ext u
  exact ⟨fun h => ⟨not_lt.mp h, u.2.2⟩, fun h => not_lt.mpr h.1⟩

instance : IsProbabilityMeasure uniform := by
  constructor
  have := uniform_lt (b := 1) le_rfl
  rw [ENNReal.ofReal_one] at this
  rw [← this]
  congr 1
  ext u
  exact ⟨fun _ => u.2.2, fun _ => trivial⟩

/-- The law of a pair of independent variates. -/
noncomputable def pair : Measure (Variate × Variate) := uniform.prod uniform

instance : IsProbabilityMeasure pair := inferInstanceAs (IsProbabilityMeasure (uniform.prod uniform))

theorem pair_prod (s t : Set Variate) : pair {r | r.1 ∈ s ∧ r.2 ∈ t} = uniform s * uniform t :=
  Measure.prod_prod s t

theorem pair_fst (s : Set Variate) : pair {r | r.1 ∈ s} = uniform s := by
  have := pair_prod s Set.univ
  rw [measure_univ, mul_one] at this
  rw [← this]
  simp

/-- The law of `n` independent pairs. -/
noncomputable def variates (n : ℕ) : Measure (Fin n → Variate × Variate) := Measure.pi fun _ => pair

instance (n : ℕ) : IsProbabilityMeasure (variates n) := inferInstanceAs (IsProbabilityMeasure (Measure.pi fun _ => pair))

/-- The first pair is independent of the others. -/
theorem variates_cons {n : ℕ} (s : Set (Variate × Variate)) (t : Set (Fin n → Variate × Variate)) :
    variates (n + 1) {ω | ω 0 ∈ s ∧ (fun i : Fin n => ω i.succ) ∈ t} = pair s * variates n t := by
  have hsplit := measurePreserving_piFinSuccAbove (fun _ : Fin (n + 1) => pair) 0
  have hpre := hsplit.measure_preimage_equiv (s ×ˢ t)
  rw [Measure.prod_prod] at hpre
  rw [variates, variates, ← hpre]
  rfl

theorem variates_head {n : ℕ} (s : Set (Variate × Variate)) : variates (n + 1) {ω | ω 0 ∈ s} = pair s := by
  have := variates_cons (n := n) s Set.univ
  rw [measure_univ, mul_one] at this
  rw [← this]
  simp

/-! ### Expected values of a finite choice -/

section Mean

variable {α β : Type}

/-- The expected value of a function of a random choice. -/
noncomputable def mean (P : PMF α) (f : α → ENNReal) : ENNReal := tsum fun a => P a * f a

theorem mean_congr {P : PMF α} {f g : α → ENNReal} (h : ∀ a ∈ P.support, f a = g a) : mean P f = mean P g := by
  apply tsum_congr
  intro a
  by_cases ha : P a = 0
  · rw [ha, zero_mul, zero_mul]
  · rw [h a ((PMF.mem_support_iff P a).mpr ha)]

theorem mean_const (P : PMF α) (c : ENNReal) : mean P (fun _ => c) = c := by
  rw [mean, ENNReal.tsum_mul_right, P.tsum_coe, one_mul]

theorem mean_pure (a : α) (f : α → ENNReal) : mean (PMF.pure a) f = f a := by
  rw [mean, tsum_eq_single a]
  · rw [PMF.pure_apply, if_pos rfl, one_mul]
  · intro b hb
    rw [PMF.pure_apply, if_neg hb, zero_mul]

theorem mean_bind (P : PMF α) (F : α → PMF β) (f : β → ENNReal) : mean (P.bind F) f = mean P fun a => mean (F a) f := by
  calc (tsum fun b => (tsum fun a => P a * F a b) * f b)
      = tsum fun b => tsum fun a => P a * F a b * f b := by simp only [ENNReal.tsum_mul_right]
    _ = tsum fun a => tsum fun b => P a * F a b * f b := ENNReal.tsum_comm
    _ = tsum fun a => P a * tsum fun b => F a b * f b := by simp only [mul_assoc, ENNReal.tsum_mul_left]

theorem mean_map (P : PMF α) (g : α → β) (f : β → ENNReal) : mean (P.map g) f = mean P fun a => f (g a) := by
  rw [PMF.map, mean_bind]
  congr 1
  funext a
  exact mean_pure (g a) f

theorem mean_const_mul (P : PMF α) (c : ENNReal) (f : α → ENNReal) : mean P (fun a => c * f a) = c * mean P f := by
  rw [mean, mean, ← ENNReal.tsum_mul_left]
  exact tsum_congr fun a => mul_left_comm _ _ _

end Mean

/-! ### Rejection sampling -/

section Rejection

variable {ι : Type} {s : Finset ι} {p q : ι → ℝ}

/-- Where `p` exceeds `q`, and where `q` exceeds `p`, is the same amount. -/
theorem sum_residual (h : ∑ i ∈ s, p i = ∑ i ∈ s, q i) :
    ∑ i ∈ s, (q i - min (p i) (q i)) = ∑ i ∈ s, max (p i - q i) 0 := by
  have hterm : ∀ i ∈ s, q i - min (p i) (q i) = max (p i - q i) 0 - (p i - q i) := by
    intro i _
    rcases le_total (p i) (q i) with hle | hle
    · rw [min_eq_left hle, max_eq_right (sub_nonpos.mpr hle)]
      ring
    · rw [min_eq_right hle, max_eq_left (sub_nonneg.mpr hle)]
      ring
  rw [Finset.sum_congr rfl hterm, Finset.sum_sub_distrib, Finset.sum_sub_distrib, h, sub_self, sub_zero]

/-- What is accepted and what is missing make up the whole. -/
theorem min_add_max_sub (a b : ℝ) : min a b + max (a - b) 0 = a := by
  rcases le_total a b with hle | hle
  · rw [min_eq_left hle, max_eq_right (sub_nonpos.mpr hle), add_zero]
  · rw [min_eq_right hle, max_eq_left (sub_nonneg.mpr hle), add_sub_cancel]

end Rejection

end OnnxGenai.Lib
