import StandardTools.Portfolio.Frontier

/-!
# The maximum-Sharpe fund (`portfolio/optimizer.cpp:381-393`)

`Sigma^{-1} (mu - rf 1)`, scaled to sum 1, has the largest Sharpe ratio where
its sum is positive. Where the sum is negative the scaling turns it around, and
the fund has the smallest ratio of all.
-/

namespace StandardTools.Portfolio
open Matrix StandardTools.Core StandardTools.Lib

variable {m : ReturnMatrix ℝ}

theorem single_portfolio_iff {w : Fin m.assets → ℝ} (hw : m.budget w = 1) :
    (∀ v, m.budget v = 1 → v = w) ↔ m.assets = 1 := by
  have hbudget := m.budget_apply
  have hpos := m.assets_pos
  generalize m.budget = budget at *
  generalize m.assets = n at *
  constructor
  · intro h
    by_contra hne
    have htwo : 1 < n := by omega
    have hsingle : ∀ i, budget (Pi.single i 1) = 1 := by
      intro i
      rw [hbudget, Finset.sum_pi_single' i 1, if_pos (Finset.mem_univ i)]
    have heq := (h _ (hsingle ⟨0, hpos⟩)).trans (h _ (hsingle ⟨1, htwo⟩)).symm
    have hentry := congrFun heq ⟨0, hpos⟩
    rw [Pi.single_eq_same, Pi.single_eq_of_ne (by simp)] at hentry
    exact one_ne_zero hentry
  · intro h v hv
    subst h
    rw [hbudget, Fin.sum_univ_one] at hv hw
    funext i
    rw [Fin.fin_one_eq_zero i, hv, hw]

/-- Of all fully invested portfolios the multiple of `Sigma^{-1} mu` has the largest
Sharpe ratio where the portfolio of least variance has a positive mean return. -/
theorem sharpe_max_iff {S : Matrix (Fin m.assets) (Fin m.assets) ℝ}
    (hS : S.PosDef) {μ w : Fin m.assets → ℝ} (hne : ∑ i, (S⁻¹ *ᵥ μ) i ≠ 0)
    (hw : w = (1 / ∑ i, (S⁻¹ *ᵥ μ) i) • (S⁻¹ *ᵥ μ)) :
    (∀ v : Fin m.assets → ℝ, ∑ i, v i = 1 → v ⬝ᵥ μ / √(v ⬝ᵥ S *ᵥ v) ≤ w ⬝ᵥ μ / √(w ⬝ᵥ S *ᵥ w)) ↔
    (∃ g : Fin m.assets → ℝ, ∑ i, g i = 1 ∧
      (∀ v : Fin m.assets → ℝ, ∑ i, v i = 1 → g ⬝ᵥ S *ᵥ g ≤ v ⬝ᵥ S *ᵥ v) ∧ 0 < g ⬝ᵥ μ) ∨
      m.assets = 1 := by
  have hinverse : S⁻¹ * S = 1 := nonsing_inv_mul _ ((isUnit_iff_isUnit_det _).mp hS.isUnit)
  have happly : ∀ v, S.toBilin' v v = v ⬝ᵥ S *ᵥ v := fun v => toBilin'_apply' _ _ _
  have hpos := posDef_apply_self hS
  have hroot : ∀ v, 0 ≤ √(v ⬝ᵥ S *ᵥ v) ∧ √(v ⬝ᵥ S *ᵥ v) ^ 2 = S.toBilin' v v := by
    intro v
    rw [← happly]
    exact ⟨Real.sqrt_nonneg _, Real.sq_sqrt (apply_self_nonneg hpos v)⟩
  -- `Sigma^{-1} mu` represents the mean return, and `Sigma^{-1} 1` the budget
  have hmean : ∀ v, S.toBilin' (S⁻¹ *ᵥ μ) v = v ⬝ᵥ μ :=
    fun v => (toBilin'_inverse hS hinverse μ v).trans (dotProduct_comm μ v)
  have hbudget : ∀ v, S.toBilin' (S⁻¹ *ᵥ 1) v = m.budget v := fun v =>
    (toBilin'_inverse hS hinverse 1 v).trans ((one_dotProduct v).trans (m.budget_apply v).symm)
  have hsum : m.budget (S⁻¹ *ᵥ μ) ≠ 0 := by
    rw [m.budget_apply]
    exact hne
  rw [← m.budget_apply] at hw
  have hwsum : m.budget w = 1 := by
    rw [hw, map_smul, smul_eq_mul]
    exact one_div_mul_cancel hsum
  obtain ⟨hleast, hgradient⟩ := representer_minimum hpos hbudget hsum
  have hmax := quotient_max_iff (posDef_isSymm hS) hpos hroot hmean hsum
  rw [← hw, single_portfolio_iff hwsum,
    ← exists_minimum_pos_iff (posDef_isSymm hS) hpos hmean hleast hgradient] at hmax
  simp only [m.budget_apply, happly] at hmax
  exact hmax

/-- Scaled by a negative sum the fund does not earn the rate. -/
theorem maxSharpeFund_sharpe_nonpos {inv : SquareMatrix ℝ m.assets} {wMv : Fin m.assets → ℝ} {rf : ℝ}
    (hinv : matInverse m.covariance = .ok inv)
    (hneg : m.budget (vecDotMat inv fun i => m.means i - rf) ≤ -degeneracyEps) :
    let w := maxSharpeFund inv m.means rf wMv
    m.excess rf w / m.deviation w ≤ 0 := by
  have hk := m.form_excess hinv rf
  rw [maxSharpeFund_eq]
  generalize vecDotMat inv (fun i => m.means i - rf) = k at *
  have hlt : m.budget k < 0 := by linarith [degeneracyEps_pos]
  have hsum : ¬|m.budget k| < degeneracyEps := by
    rw [abs_of_neg hlt]
    linarith
  have hscale : 1 / m.budget k < 0 := one_div_neg.mpr hlt
  rw [if_neg hsum]
  show m.excess rf ((1 / m.budget k) • k) / m.deviation ((1 / m.budget k) • k) ≤ 0
  rw [quotient_smul m.deviation_root hk hscale.ne, abs_of_neg hscale, div_neg,
    div_self hscale.ne, neg_one_mul]
  exact neg_nonpos.mpr (m.deviation_root k).1

theorem solve_still (x : Fin 2 → ℝ) (i : Fin 2) :
    ((Matrix.of stillMarket.covariance)⁻¹ *ᵥ x) i = x i / stillVariance i := by
  obtain ⟨inv, wMv, hinv, hmv, hsolve⟩ := minVarianceFund_still
  rw [inv_eq_left_inv (matInverse_mul hinv), ← vecDotMat_eq]
  exact hsolve x i

theorem sum_still (rf : ℝ) :
    ∑ i, ((Matrix.of stillMarket.covariance)⁻¹ *ᵥ fun i => stillMarket.means i - rf) i =
      (1 / 2 - rf) / (1 / 2 + covRidge) - rf / covRidge := by
  rw [Fin.sum_univ_two, solve_still, solve_still, means_still, means_still]
  unfold stillVariance
  norm_num
  ring

theorem max_sharpe_iff {request : MeanVarianceRequest ℝ} {result : PortfolioResult ℝ}
    (hm : validateReturnMatrix request.returns request.labels = .ok m)
    (hobjective : request.objective = objectiveMaxSharpe)
    (hresult : meanVariance request = .ok result)
    (hbranch : degeneracyEps ≤
      |∑ i, ((Matrix.of m.covariance)⁻¹ *ᵥ fun i => m.means i - request.riskFreeRate) i|) :
    (∀ v : Fin m.assets → ℝ, ∑ i, v i = 1 →
      (v ⬝ᵥ m.means - request.riskFreeRate) / √(v ⬝ᵥ Matrix.of m.covariance *ᵥ v) ≤
        result.sharpeRatio) ↔
    (∃ g : Fin m.assets → ℝ, ∑ i, g i = 1 ∧
      (∀ v : Fin m.assets → ℝ, ∑ i, v i = 1 →
        g ⬝ᵥ Matrix.of m.covariance *ᵥ g ≤ v ⬝ᵥ Matrix.of m.covariance *ᵥ v) ∧
      request.riskFreeRate < g ⬝ᵥ m.means) ∨ m.assets = 1 := by
  obtain ⟨m', objective, w, hm', hobjective', hweights, rfl⟩ := meanVariance_eq_ok.mp hresult
  rw [hm] at hm'
  cases hm'
  rw [checkedObjective_maxSharpe hobjective] at hobjective'
  cases hobjective'
  obtain ⟨inv, wMv, hinv, hmv, hw⟩ := weights_eq_ok.mp hweights
  generalize request.riskFreeRate = rf at *
  have hne := ne_zero_of_not_degenerate (not_lt.mpr hbranch)
  have hfund : w = (1 / ∑ i, ((Matrix.of m.covariance)⁻¹ *ᵥ fun i => m.means i - rf) i) •
      ((Matrix.of m.covariance)⁻¹ *ᵥ fun i => m.means i - rf) := by
    rw [inv_eq_left_inv (matInverse_mul hinv), ← vecDotMat_eq, ← m.budget_apply] at hbranch ⊢
    rw [hw]
    exact maxSharpeFund_eq.trans (if_neg (not_lt.mpr hbranch))
  -- of a fully invested portfolio the excess return is the mean of `mu - rf 1`
  have hexcess : ∀ v : Fin m.assets → ℝ, ∑ i, v i = 1 →
      v ⬝ᵥ (fun i => m.means i - rf) = v ⬝ᵥ m.means - rf := by
    intro v hv
    calc v ⬝ᵥ (fun i => m.means i - rf)
        = ∑ i, (v i * m.means i - v i * rf) := Finset.sum_congr rfl fun i _ => mul_sub _ _ _
      _ = v ⬝ᵥ m.means - (∑ i, v i) * rf := by rw [Finset.sum_sub_distrib, Finset.sum_mul]; rfl
      _ = v ⬝ᵥ m.means - rf := by rw [hv, one_mul]
  have hwsum : ∑ i, w i = 1 := (m.budget_apply w).symm.trans (weights_isFund hweights).2
  have hsharpe : (m.resultOf rf w).sharpeRatio =
      (w ⬝ᵥ m.means - rf) / √(w ⬝ᵥ Matrix.of m.covariance *ᵥ w) :=
    portfolioMetrics_sharpe m.covariance_posDef hwsum m.means rf
  have hmax := sharpe_max_iff m.covariance_posDef hne hfund
  rw [hexcess w hwsum, ← hsharpe] at hmax
  refine (forall₂_congr fun v hv => ?_).trans
    (hmax.trans (or_congr_left (exists_congr fun g => ?_)))
  · rw [hexcess v hv]
  · exact and_congr_right fun hg => and_congr_right fun _ => by rw [hexcess g hg, sub_pos]

/-- Two assets without covariance: each is held as the variance of the other. -/
theorem diagonal_least {d : Fin 2 → ℝ} (hd : ∀ i, 0 < d i) {g : Fin 2 → ℝ}
    (hg : g = ![d 1 / (d 0 + d 1), d 0 / (d 0 + d 1)]) :
    ∑ i, g i = 1 ∧ ∀ v : Fin 2 → ℝ, ∑ i, v i = 1 →
      g ⬝ᵥ diagonal d *ᵥ g ≤ v ⬝ᵥ diagonal d *ᵥ v := by
  have hform : ∀ v : Fin 2 → ℝ, v ⬝ᵥ diagonal d *ᵥ v = d 0 * v 0 ^ 2 + d 1 * v 1 ^ 2 := by
    intro v
    simp only [dotProduct, mulVec_diagonal, Fin.sum_univ_two]
    ring
  have hsum : 0 < d 0 + d 1 := add_pos (hd 0) (hd 1)
  have hleast : g ⬝ᵥ diagonal d *ᵥ g = d 0 * d 1 / (d 0 + d 1) := by
    rw [hform, hg]
    simp only [Matrix.cons_val_zero, Matrix.cons_val_one]
    field_simp
    ring
  refine ⟨?_, fun v hv => ?_⟩
  · rw [hg, Fin.sum_univ_two]
    simp only [Matrix.cons_val_zero, Matrix.cons_val_one]
    rw [← add_div, add_comm, div_self hsum.ne']
  · rw [Fin.sum_univ_two] at hv
    rw [hleast, hform, div_le_iff₀ hsum]
    calc d 0 * d 1 = d 0 * d 1 * (v 0 + v 1) ^ 2 := by rw [hv, one_pow, mul_one]
      _ ≤ d 0 * d 1 * (v 0 + v 1) ^ 2 + (d 0 * v 0 - d 1 * v 1) ^ 2 :=
        le_add_of_nonneg_right (sq_nonneg _)
      _ = (d 0 * v 0 ^ 2 + d 1 * v 1 ^ 2) * (d 0 + d 1) := by ring

theorem max_sharpe_iff_zero_rate :
    ∃ result, meanVariance ⟨[[1, 0], [0, 0]], ["A", "B"], 0, objectiveMaxSharpe, none, none⟩ =
        .ok result ∧
      ∀ v : Fin 2 → ℝ, ∑ i, v i = 1 →
        (v ⬝ᵥ stillMarket.means - 0) / √(v ⬝ᵥ Matrix.of stillMarket.covariance *ᵥ v) ≤
          result.sharpeRatio := by
  obtain ⟨w, hw, h⟩ := @meanVariance_still ⟨[[1, 0], [0, 0]], ["A", "B"], 0, objectiveMaxSharpe,
    none, none⟩ .maxSharpe rfl rfl rfl
  have hbranch : degeneracyEps ≤
      |∑ i, ((Matrix.of stillMarket.covariance)⁻¹ *ᵥ fun i => stillMarket.means i - 0) i| := by
    rw [sum_still]
    unfold covRidge degeneracyEps
    norm_num [abs_of_pos]
  have hpos : ∀ i, 0 < stillVariance i :=
    fun i => ReturnMatrix.covRidge_pos.trans_le (covRidge_le_stillVariance i)
  obtain ⟨hsum, hleast⟩ := diagonal_least hpos rfl
  rw [← of_diagonal, ← covariance_still] at hleast
  refine ⟨_, h, (max_sharpe_iff validateReturnMatrix_still rfl h hbranch).mpr
    (Or.inl ⟨_, hsum, hleast, ?_⟩)⟩
  rw [dotProduct, Fin.sum_univ_two, means_still, means_still]
  have hshare := div_pos (hpos 1) (add_pos (hpos 0) (hpos 1))
  simpa using hshare

/-- At a rate of one quarter the fund has no positive ratio, but asset `A` has. -/
theorem worst_sharpe_returned :
    ∃ result, validateReturnMatrix [[1, 0], [0, 0]] ["A", "B"] = .ok stillMarket ∧
      meanVariance ⟨[[1, 0], [0, 0]], ["A", "B"], 1 / 4, objectiveMaxSharpe, none, none⟩ =
        .ok result ∧
      degeneracyEps ≤
        |∑ i, ((Matrix.of stillMarket.covariance)⁻¹ *ᵥ fun i => stillMarket.means i - 1 / 4) i| ∧
      ∃ v : Fin 2 → ℝ, ∑ i, v i = 1 ∧ result.sharpeRatio <
        (v ⬝ᵥ stillMarket.means - 1 / 4) / √(v ⬝ᵥ Matrix.of stillMarket.covariance *ᵥ v) := by
  obtain ⟨w, hw, h⟩ := @meanVariance_still ⟨[[1, 0], [0, 0]], ["A", "B"], 1 / 4,
    objectiveMaxSharpe, none, none⟩ .maxSharpe rfl rfl rfl
  obtain ⟨inv, wMv, hinv, hmv, rfl⟩ := weights_eq_ok.mp hw
  have hsum := sum_still (1 / 4)
  have hneg : (1 / 2 - 1 / 4) / (1 / 2 + covRidge) - 1 / 4 / covRidge ≤ -(degeneracyEps : ℝ) := by
    unfold covRidge degeneracyEps
    norm_num
  have hfund : (stillMarket.resultOf (1 / 4)
      (maxSharpeFund inv stillMarket.means (1 / 4) wMv)).sharpeRatio ≤ 0 := by
    refine (sharpe_eq (weights_isFund hw) (1 / 4)).trans_le ?_
    apply maxSharpeFund_sharpe_nonpos hinv
    rw [stillMarket.budget_apply, vecDotMat_eq, ← inv_eq_left_inv (matInverse_mul hinv), hsum]
    exact hneg
  refine ⟨_, validateReturnMatrix_still, h, ?_, ![1, 0], by simp, hfund.trans_lt ?_⟩
  · rw [hsum, abs_of_neg (by linarith [degeneracyEps_pos])]
    linarith
  · rw [← stillMarket.form_apply]
    apply div_pos
    · rw [dotProduct, Fin.sum_univ_two, means_still, means_still]
      norm_num
    · exact Real.sqrt_pos.mpr (stillMarket.form_pos _ (by simp))

end StandardTools.Portfolio
