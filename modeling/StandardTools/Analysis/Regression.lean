import StandardTools.Analysis.NoArbitrage
import StandardTools.Analysis.Observations

/-!
# Regression (`analysis/calculator.cpp:293-347`)

The sums of the loops are scatters of the observations, so that the fitted line
is the least-squares line, and the coefficient of determination compares its
squares with those of the constant line through the mean.
-/

namespace StandardTools.Analysis
open StandardTools.Core Lib Finset Fintype

/-! ### The observations -/

section Observations
variable (observations : List (ℝ × ℝ))

def regressor (i : Fin observations.length) : ℝ := observations[i].1

def response (i : Fin observations.length) : ℝ := observations[i].2

/-- Sums of products of deviations, as the loops have them. -/
theorem sumOver_deviations (u v : ℝ × ℝ → ℝ) :
    sumOver (fun p => (u p - mean (observations.map u)) * (v p - mean (observations.map v)))
      observations = scatter (fun i : Fin observations.length => u observations[i])
        (fun i => v observations[i]) := by
  rw [sumOver_eq, mean_map, mean_map]
  rfl

theorem map_lineResidual :
    observations.map (fun p => p.2 - (lineIntercept (regressor observations)
      (response observations) + lineSlope (regressor observations) (response observations) * p.1)) =
      List.ofFn (lineResidual (regressor observations) (response observations)) :=
  List.ext_getElem (by simp) fun i hi _ => by simp [lineResidual, regressor, response]

end Observations

/-! ### The fitted line -/

/-- The least-squares line through the observations. -/
noncomputable def fittedLine (observations : List (ℝ × ℝ)) : RegressionResult ℝ where
  alpha := lineIntercept (regressor observations) (response observations)
  beta := lineSlope (regressor observations) (response observations)
  rSquared :=
    if scatter (response observations) (response observations) = 0 then 0
    else 1 - (∑ i, lineResidual (regressor observations) (response observations) i ^ 2) /
      scatter (response observations) (response observations)
  residuals := List.ofFn (lineResidual (regressor observations) (response observations))

theorem regression_eq {asset benchmark : List ℝ} (hlen : asset.length = benchmark.length)
    (htwo : 2 ≤ asset.length) : regression asset benchmark =
      if scatter (regressor (benchmark.zip asset)) (regressor (benchmark.zip asset)) = 0 then
        .error (.dataQuality "benchmark returns have zero variance")
      else .ok (fittedLine (benchmark.zip asset)) := by
  have hbenchmark : (benchmark.zip asset).map (·.1) = benchmark := List.map_fst_zip hlen.ge
  have hasset : (benchmark.zip asset).map (·.2) = asset := List.map_snd_zip hlen.le
  rw [regression, validateFinite_real, validateFinite_real]
  change (if asset.length ≠ benchmark.length then _ else _) = _
  rw [if_neg (not_not.mpr hlen), if_neg (not_lt.mpr htwo)]
  generalize benchmark.zip asset = observations at hbenchmark hasset ⊢
  subst hbenchmark hasset
  have hxx : _ = scatter (regressor observations) (regressor observations) :=
    sumOver_deviations observations (·.1) (·.1)
  have hxy : _ = scatter (regressor observations) (response observations) :=
    sumOver_deviations observations (·.1) (·.2)
  have hyy : _ = scatter (response observations) (response observations) :=
    sumOver_deviations observations (·.2) (·.2)
  have hx : mean (observations.map (·.1)) = average (regressor observations) := mean_map _ _
  have hy : mean (observations.map (·.2)) = average (response observations) := mean_map _ _
  simp only [hxx, hxy, hyy]
  simp only [hx, hy]
  have hsquares : sumOver (fun p : ℝ × ℝ =>
      (p.2 - (lineIntercept (regressor observations) (response observations) +
        lineSlope (regressor observations) (response observations) * p.1)) *
      (p.2 - (lineIntercept (regressor observations) (response observations) +
        lineSlope (regressor observations) (response observations) * p.1))) observations =
      ∑ i, lineResidual (regressor observations) (response observations) i ^ 2 := by
    rw [sumOver_eq]
    exact sum_congr rfl fun i _ => (sq _).symm
  by_cases hzero : scatter (regressor observations) (regressor observations) = 0
  · rw [if_pos hzero, if_pos (beq_iff_eq.mpr hzero)]
  · rw [if_neg hzero, if_neg (mt beq_iff_eq.mp hzero), fittedLine, ← map_lineResidual, ← hsquares]
    by_cases hflat : scatter (response observations) (response observations) = 0
    · rw [if_pos hflat, if_neg (mt bne_iff_ne.mp (not_not.mpr hflat))]
      rfl
    · rw [if_neg hflat, if_pos (bne_iff_ne.mpr hflat)]
      rfl

/-- A regression is refused for a different length, for fewer than two
observations, and for a benchmark which never moves. -/
theorem regression_ok_iff {asset benchmark : List ℝ} {r : RegressionResult ℝ} :
    regression asset benchmark = .ok r ↔ asset.length = benchmark.length ∧ 2 ≤ asset.length ∧
      scatter (regressor (benchmark.zip asset)) (regressor (benchmark.zip asset)) ≠ 0 ∧
      r = fittedLine (benchmark.zip asset) := by
  by_cases hguards : asset.length = benchmark.length ∧ 2 ≤ asset.length
  · obtain ⟨hlen, htwo⟩ := hguards
    rw [regression_eq hlen htwo, ite_error_eq_ok, Except.ok.injEq]
    exact ⟨fun h => ⟨hlen, htwo, h.1, h.2.symm⟩, fun h => ⟨h.2.2.1, h.2.2.2.symm⟩⟩
  · rw [regression, validateFinite_real, validateFinite_real]
    change (if asset.length ≠ benchmark.length then _ else if asset.length < 2 then _ else _) =
      _ ↔ _
    rw [ite_error_eq_ok, ite_error_eq_ok, not_not, not_lt]
    exact ⟨fun h => absurd ⟨h.1, h.2.1⟩ hguards, fun h => absurd ⟨h.1, h.2.1⟩ hguards⟩

theorem scatter_regressor_eq_zero_iff {asset benchmark : List ℝ}
    (hlen : asset.length = benchmark.length) :
    scatter (regressor (benchmark.zip asset)) (regressor (benchmark.zip asset)) = 0 ↔
      ∀ x ∈ benchmark, ∀ y ∈ benchmark, x = y := by
  have hbenchmark : (benchmark.zip asset).map (·.1) = benchmark := List.map_fst_zip hlen.ge
  generalize benchmark.zip asset = observations at hbenchmark ⊢
  subst hbenchmark
  rw [scatter_self_eq_zero_iff_const]
  constructor
  · intro h x hx y hy
    obtain ⟨i, hi, rfl⟩ := List.getElem_of_mem hx
    obtain ⟨j, hj, rfl⟩ := List.getElem_of_mem hy
    rw [List.length_map] at hi hj
    rw [List.getElem_map, List.getElem_map]
    exact h ⟨i, hi⟩ ⟨j, hj⟩
  · intro h i j
    exact h _ (List.mem_map_of_mem (List.getElem_mem i.isLt)) _
      (List.mem_map_of_mem (List.getElem_mem j.isLt))

/-- The squares of the residuals against the line with intercept `a` and slope `b`. -/
def squaredError (asset benchmark : List ℝ) (a b : ℝ) : ℝ :=
  (List.zipWith (fun y x => (y - a - b * x) ^ 2) asset benchmark).sum

theorem squaredError_eq (asset benchmark : List ℝ) (a b : ℝ) :
    squaredError asset benchmark a b = ∑ i, (response (benchmark.zip asset) i - a -
      b * regressor (benchmark.zip asset) i) ^ 2 := by
  have hzip : List.zipWith (fun y x => (y - a - b * x) ^ 2) asset benchmark =
      (benchmark.zip asset).map fun p => (p.2 - a - b * p.1) ^ 2 := by
    rw [List.zipWith_comm, List.map_zip_eq_zipWith]
    rfl
  rw [squaredError, hzip, ← Fin.sum_univ_fun_getElem]
  rfl

/-- Exactly the requests with two equally long series and a benchmark which moves
are accepted, and the answer is the least-squares line. -/
theorem regression_least_squares (asset benchmark : List ℝ) :
    ((∃ r, regression asset benchmark = .ok r) ↔ asset.length = benchmark.length ∧
      2 ≤ asset.length ∧ ¬∀ x ∈ benchmark, ∀ y ∈ benchmark, x = y) ∧
    ∀ r, regression asset benchmark = .ok r →
      r.residuals.sum = 0 ∧ (List.zipWith (· * ·) r.residuals benchmark).sum = 0 ∧
      (∀ a b, (r.residuals.map (· ^ 2)).sum ≤ squaredError asset benchmark a b ∧
        ((r.residuals.map (· ^ 2)).sum = squaredError asset benchmark a b ↔
          a = r.alpha ∧ b = r.beta)) ∧
      0 ≤ r.rSquared ∧ r.rSquared ≤ 1 := by
  constructor
  · constructor
    · rintro ⟨r, hr⟩
      obtain ⟨hlen, htwo, hvaries, -⟩ := regression_ok_iff.mp hr
      exact ⟨hlen, htwo, mt (scatter_regressor_eq_zero_iff hlen).mpr hvaries⟩
    · rintro ⟨hlen, htwo, hvaries⟩
      exact ⟨_, regression_ok_iff.mpr
        ⟨hlen, htwo, mt (scatter_regressor_eq_zero_iff hlen).mp hvaries, rfl⟩⟩
  rintro r hr
  obtain ⟨hlen, -, hvaries, rfl⟩ := regression_ok_iff.mp hr
  simp only [squaredError_eq]
  have hbenchmark : (benchmark.zip asset).map (·.1) = benchmark := List.map_fst_zip hlen.ge
  generalize benchmark.zip asset = observations at hvaries hbenchmark ⊢
  subst hbenchmark
  have hsquares : ((fittedLine observations).residuals.map (· ^ 2)).sum =
      ∑ i, lineResidual (regressor observations) (response observations) i ^ 2 := by
    rw [fittedLine, List.map_ofFn, List.sum_ofFn]
    rfl
  have horthogonal :
      List.zipWith (· * ·) (fittedLine observations).residuals (observations.map (·.1)) =
        List.ofFn fun i => lineResidual (regressor observations) (response observations) i *
          regressor observations i :=
    List.ext_getElem (by simp [fittedLine]) fun i hi _ => by simp [fittedLine, regressor]
  refine ⟨?_, ?_, fun a b => ?_, ?_⟩
  · rw [fittedLine, List.sum_ofFn, sum_lineResidual]
  · rw [horthogonal, List.sum_ofFn, sum_lineResidual_mul hvaries]
  · rw [hsquares]
    refine ⟨sum_lineResidual_sq_le hvaries a b, fun heq =>
      eq_line_of_sum_sq_eq hvaries heq.symm, ?_⟩
    rintro ⟨rfl, rfl⟩
    refine sum_congr rfl fun i _ => ?_
    rw [lineResidual, sub_sub]
    rfl
  · rw [fittedLine]
    split_ifs with hzero
    · exact ⟨le_rfl, zero_le_one⟩
    have hpos : 0 < scatter (response observations) (response observations) :=
      lt_of_le_of_ne (scatter_self_nonneg _) (Ne.symm hzero)
    -- the constant line through the mean has the scatter of the response as its squares
    have hmean := sum_lineResidual_sq_le (y := response observations) hvaries
      (average (response observations)) 0
    have htot : ∑ i, (response observations i - (average (response observations)) -
        0 * regressor observations i) ^ 2 =
        scatter (response observations) (response observations) :=
      sum_congr rfl fun i _ => by rw [deviation_apply]; ring
    rw [htot] at hmean
    have hratio := div_le_one_of_le₀ hmean hpos.le
    have hnonneg : 0 ≤ (∑ i, lineResidual (regressor observations) (response observations) i ^ 2) /
        scatter (response observations) (response observations) :=
      div_nonneg (sum_nonneg fun i _ => sq_nonneg _) hpos.le
    constructor <;> linarith

theorem regression_least_squares_two :
    ∃ r, regression [2, 5] [(0 : ℝ), 1] = .ok r ∧ r.residuals.sum = 0 ∧ 0 ≤ r.rSquared := by
  have hmoves : ¬∀ x ∈ [(0 : ℝ), 1], ∀ y ∈ [(0 : ℝ), 1], x = y := by simp
  obtain ⟨r, hr⟩ := (regression_least_squares [2, 5] [0, 1]).1.mpr ⟨rfl, le_rfl, hmoves⟩
  have h := (regression_least_squares [2, 5] [0, 1]).2 r hr
  exact ⟨r, hr, h.1, h.2.2.2.1⟩

end StandardTools.Analysis
