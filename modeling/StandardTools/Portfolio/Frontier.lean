import StandardTools.Portfolio.Pivots
import StandardTools.Portfolio.Validation

/-!
# The result of `MeanVariance` (`portfolio/optimizer.cpp:322-423`)

A result carries the weights under their labels and the figures of these
weights; over the reals `Validate` rejects none of them. The result is on the
minimum-variance frontier.
-/

namespace StandardTools.Portfolio
open Matrix StandardTools.Core StandardTools.Lib

variable {m : ReturnMatrix ℝ}

/-! ### Figures -/

theorem portfolioMetrics_volatility {n : ℕ} {cov : SquareMatrix ℝ n} (hcov : (Matrix.of cov).PosDef)
    (w means : Fin n → ℝ) (rf : ℝ) :
    (portfolioMetrics w means cov rf).volatility = √(w ⬝ᵥ Matrix.of cov *ᵥ w) := by
  have hnonneg := hcov.posSemidef.dotProduct_mulVec_nonneg w
  rw [star_trivial] at hnonneg
  unfold portfolioMetrics
  simp only [sqrt_real]
  rw [quadraticForm_eq, stdMax_real, max_eq_right hnonneg]

theorem portfolioMetrics_volatility_pos {n : ℕ} {cov : SquareMatrix ℝ n}
    (hcov : (Matrix.of cov).PosDef) {w : Fin n → ℝ} (hw : ∑ i, w i = 1) (means : Fin n → ℝ)
    (rf : ℝ) : 0 < (portfolioMetrics w means cov rf).volatility := by
  have hne : w ≠ 0 := by
    intro hzero
    rw [hzero] at hw
    simp at hw
  have hpos := hcov.dotProduct_mulVec_pos hne
  rw [star_trivial] at hpos
  rw [portfolioMetrics_volatility hcov]
  exact Real.sqrt_pos.mpr hpos

theorem portfolioMetrics_sharpe {n : ℕ} {cov : SquareMatrix ℝ n} (hcov : (Matrix.of cov).PosDef)
    {w : Fin n → ℝ} (hw : ∑ i, w i = 1) (means : Fin n → ℝ) (rf : ℝ) :
    (portfolioMetrics w means cov rf).sharpe =
      (w ⬝ᵥ means - rf) / √(w ⬝ᵥ Matrix.of cov *ᵥ w) := by
  calc (portfolioMetrics w means cov rf).sharpe
      = (vecDot w means - rf) / (portfolioMetrics w means cov rf).volatility :=
        if_pos (portfolioMetrics_volatility_pos hcov hw means rf)
    _ = (w ⬝ᵥ means - rf) / √(w ⬝ᵥ Matrix.of cov *ᵥ w) := by
      rw [vecDot_eq, portfolioMetrics_volatility hcov]

theorem expectedReturn_eq (w : Fin m.assets → ℝ) (rf : ℝ) :
    (portfolioMetrics w m.means m.covariance rf).expectedReturn = m.mean w := by
  rw [m.mean_apply]
  exact vecDot_eq w m.means

theorem volatility_eq (w : Fin m.assets → ℝ) (rf : ℝ) :
    (portfolioMetrics w m.means m.covariance rf).volatility = m.deviation w := by
  rw [portfolioMetrics_volatility m.covariance_posDef, ReturnMatrix.deviation, m.form_apply]

theorem sharpe_eq {w : Fin m.assets → ℝ} (hw : m.IsFund w) (rf : ℝ) :
    (portfolioMetrics w m.means m.covariance rf).sharpe = m.excess rf w / m.deviation w := by
  have hsum : ∑ i, w i = 1 := (m.budget_apply w).symm.trans hw.2
  rw [portfolioMetrics_sharpe m.covariance_posDef hsum, m.excess_of_budget rf hw.2, m.mean_apply,
    ReturnMatrix.deviation, m.form_apply]

/-! ### Validation -/

theorem forM_checkWeight (entries : List (String × ℝ)) : entries.forM checkWeight = .ok () :=
  forM_eq_ok.mpr fun _ _ => rfl

theorem weightSumTolerance_nonneg : 0 ≤ (weightSumTolerance : ℝ) := by
  unfold weightSumTolerance
  positivity

theorem validate_eq_ok {r : PortfolioResult ℝ} (hne : r.weights.entries ≠ [])
    (hsum : (r.weights.entries.map Prod.snd).sum = 1) (hvol : 0 ≤ r.volatility) :
    r.validate = .ok () := by
  have hfold : r.weights.entries.foldl (fun sum e => sum + e.2) 0 = 1 := by
    rw [foldl_add_eq, zero_add]
    exact hsum
  have htol : ¬(weightSumTolerance : ℝ) < |(1 : ℝ) - 1| := by
    rw [sub_self, abs_zero]
    exact not_lt.mpr weightSumTolerance_nonneg
  unfold PortfolioResult.validate
  rw [if_neg hne, forM_checkWeight]
  show (if _ then _ else _) = _
  rw [hfold, abs_real, if_neg htol]
  simp [not_lt.mpr hvol]

/-! ### Results -/

theorem assign_labels_perm {n : ℕ} {labels : Fin n → String} (hlabels : Function.Injective labels)
    (w : Fin n → ℝ) :
    (StdMap.empty.assign ((List.finRange n).map fun i => (labels i, w i))).entries.Perm
      ((List.finRange n).map fun i => (labels i, w i)) := by
  apply StdMap.assign_perm
  rw [show (StdMap.empty : StdMap ℝ).entries = [] from rfl, List.nil_append, List.map_map]
  exact (List.nodup_finRange _).map hlabels

theorem assign_labels_sum {n : ℕ} {labels : Fin n → String} (hlabels : Function.Injective labels)
    (w : Fin n → ℝ) :
    ((StdMap.empty.assign ((List.finRange n).map fun i => (labels i, w i))).entries.map
      Prod.snd).sum = ∑ i, w i := by
  have hperm := ((assign_labels_perm hlabels w).map Prod.snd).sum_eq
  rw [hperm, List.map_map, Fin.sum_univ_def]
  rfl

/-- Over the reals no check of `Validate` fails on weights which sum to 1. -/
theorem buildResult_of_sum {n : ℕ} {labels : Fin n → String} (hlabels : Function.Injective labels)
    {w : Fin n → ℝ} (hw : ∑ i, w i = 1) {figures : PortfolioFigures ℝ}
    (hvol : 0 ≤ figures.volatility) :
    buildResult w labels figures = .ok
      { weights := StdMap.empty.assign ((List.finRange n).map fun i => (labels i, w i))
        expectedReturn := figures.expectedReturn
        volatility := figures.volatility
        sharpeRatio := figures.sharpe } := by
  have hsum := assign_labels_sum hlabels w
  rw [hw] at hsum
  refine bind_eq_ok.mpr ⟨(), validate_eq_ok ?_ hsum hvol, rfl⟩
  intro hnil
  simp only at hnil
  rw [hnil, List.map_nil, List.sum_nil] at hsum
  exact zero_ne_one hsum

/-- The result of accepted weights: `Validate` does not throw. -/
noncomputable def ReturnMatrix.resultOf (m : ReturnMatrix ℝ) (rf : ℝ) (w : Fin m.assets → ℝ) :
    PortfolioResult ℝ :=
  let figures := portfolioMetrics w m.means m.covariance rf
  { weights := StdMap.empty.assign ((List.finRange m.assets).map fun i => (m.labels i, w i))
    expectedReturn := figures.expectedReturn
    volatility := figures.volatility
    sharpeRatio := figures.sharpe }

theorem resultOf_sum {rf : ℝ} {w : Fin m.assets → ℝ} (hw : m.IsFund w) :
    ((m.resultOf rf w).weights.entries.map Prod.snd).sum = 1 := by
  rw [← hw.2, m.budget_apply]
  exact assign_labels_sum m.labels_injective w

theorem buildResult_eq_ok {rf : ℝ} {w : Fin m.assets → ℝ} (hw : m.IsFund w) :
    buildResult w m.labels (portfolioMetrics w m.means m.covariance rf) =
      .ok (m.resultOf rf w) :=
  buildResult_of_sum m.labels_injective ((m.budget_apply w).symm.trans hw.2) (Real.sqrt_nonneg _)

/-- `MeanVariance` returns the result of the weights that it computes. -/
theorem meanVariance_eq_ok {request : MeanVarianceRequest ℝ} {result : PortfolioResult ℝ} :
    meanVariance request = .ok result ↔
      ∃ m objective w, validateReturnMatrix request.returns request.labels = .ok m ∧
        request.checkedObjective = .ok objective ∧
        m.weights request.riskFreeRate objective = .ok w ∧
        result = m.resultOf request.riskFreeRate w := by
  have hrun : meanVariance request = (do
      let m ← validateReturnMatrix request.returns request.labels
      let objective ← request.checkedObjective
      let weights ← m.weights request.riskFreeRate objective
      buildResult weights m.labels
        (portfolioMetrics weights m.means m.covariance request.riskFreeRate)) := rfl
  rw [hrun]
  constructor
  · intro h
    obtain ⟨m, hm, h⟩ := bind_eq_ok.mp h
    obtain ⟨objective, hobjective, h⟩ := bind_eq_ok.mp h
    obtain ⟨w, hw, h⟩ := bind_eq_ok.mp h
    rw [buildResult_eq_ok (weights_isFund hw)] at h
    cases h
    exact ⟨m, objective, w, hm, hobjective, hw, rfl⟩
  · intro h
    obtain ⟨m, objective, w, hm, hobjective, hw, rfl⟩ := h
    refine bind_eq_ok.mpr ⟨m, hm, bind_eq_ok.mpr ⟨objective, hobjective, ?_⟩⟩
    exact bind_eq_ok.mpr ⟨w, hw, buildResult_eq_ok (weights_isFund hw)⟩

/-! ### Two assets, of which one stands still -/

/-- `A` moves by 1 and `B` does not move. -/
abbrev stillMarket : ReturnMatrix ℝ where
  assets := 2
  obs := 2
  returns := fun i t => ([[1, 0], [0, 0]].get i).getD t 0
  labels := fun i => ["A", "B"].get i
  assets_pos := Nat.zero_lt_two
  assets_le := by decide
  obs_two := by decide
  labels_injective := by decide

theorem validateReturnMatrix_still :
    validateReturnMatrix [[1, 0], [0, 0]] ["A", "B"] = .ok stillMarket := rfl

noncomputable def stillVariance (i : Fin 2) : ℝ := if i = 0 then 1 / (1 + 1) + covRidge else covRidge

theorem means_still (i : Fin 2) : stillMarket.means i = if i = 0 then 1 / 2 else 0 := by
  unfold ReturnMatrix.means
  rw [sumLoop_eq, Fin.sum_univ_two]
  fin_cases i
  · norm_num
  · norm_num

theorem sampleCovariance_still (i j : Fin 2) :
    stillMarket.sampleCovariance i j = if i = 0 ∧ j = 0 then 1 / 2 else 0 := by
  unfold ReturnMatrix.sampleCovariance ReturnMatrix.centered
  simp only [sumLoop_eq, means_still, Fin.sum_univ_two]
  fin_cases i <;> fin_cases j <;> norm_num

theorem covariance_still :
    stillMarket.covariance = fun i j => if i = j then stillVariance i else 0 := by
  funext i j
  unfold ReturnMatrix.covariance
  rw [sampleCovariance_still]
  unfold stillVariance
  fin_cases i <;> fin_cases j <;> norm_num

theorem covRidge_le_stillVariance (i : Fin 2) : covRidge ≤ stillVariance i := by
  unfold stillVariance
  split_ifs
  · norm_num
  · exact le_refl _

theorem minVarianceFund_still :
    ∃ inv wMv, matInverse stillMarket.covariance = .ok inv ∧ minVarianceFund inv = .ok wMv ∧
      ∀ x i, vecDotMat inv x i = x i / stillVariance i := by
  rw [covariance_still]
  obtain ⟨inv, hinv, hsolve⟩ := matInverse_diagonal two_ne_zero stillMarket.assets_le
    covRidge_le_stillVariance
  have hsum : ¬|sumLoop (vecDotMat inv fun _ => 1)| < degeneracyEps := by
    rw [sumLoop_eq, Fin.sum_univ_two, hsolve, hsolve]
    unfold stillVariance covRidge degeneracyEps
    norm_num [abs_of_pos]
  have hmv : minVarianceFund inv = .ok (scale (vecDotMat inv fun _ => 1)
      (1 / sumLoop (vecDotMat inv fun _ => 1))) := if_neg hsum
  exact ⟨inv, _, hinv, hmv, hsolve⟩

theorem meanVariance_still {request : MeanVarianceRequest ℝ} {objective : Objective ℝ}
    (hreturns : request.returns = [[1, 0], [0, 0]]) (hlabels : request.labels = ["A", "B"])
    (hobjective : request.checkedObjective = .ok objective) :
    ∃ w, stillMarket.weights request.riskFreeRate objective = .ok w ∧
      meanVariance request = .ok (stillMarket.resultOf request.riskFreeRate w) := by
  obtain ⟨inv, wMv, hinv, hmv, hsolve⟩ := minVarianceFund_still
  obtain ⟨w, hweights⟩ : ∃ w, stillMarket.weights request.riskFreeRate objective = .ok w :=
    ⟨_, weights_eq_ok.mpr ⟨inv, wMv, hinv, hmv, rfl⟩⟩
  have hvalid : validateReturnMatrix request.returns request.labels = .ok stillMarket := by
    rw [hreturns, hlabels]
    exact validateReturnMatrix_still
  exact ⟨w, hweights, meanVariance_eq_ok.mpr ⟨_, _, _, hvalid, hobjective, hweights, rfl⟩⟩

/-! ### The frontier -/

theorem checkedObjective_maxSharpe {request : MeanVarianceRequest ℝ}
    (h : request.objective = objectiveMaxSharpe) : request.checkedObjective = .ok .maxSharpe := by
  unfold MeanVarianceRequest.checkedObjective
  rw [h, if_neg (by decide), if_neg (by decide), if_pos rfl]

theorem checkedObjective_minVolatility {request : MeanVarianceRequest ℝ}
    (h : request.objective = objectiveMinVolatility) :
    request.checkedObjective = .ok .minVolatility := by
  unfold MeanVarianceRequest.checkedObjective
  rw [h, if_neg (by decide), if_neg (by decide), if_neg (by decide), if_pos rfl]

theorem ReturnMatrix.IsFund.minimal {w v : Fin m.assets → ℝ} (hw : m.IsFund w)
    (hsum : ∑ i, v i = 1) (hmean : m.mean v = m.mean w) : m.form w w ≤ m.form v v := by
  apply twoFunds_minimal m.form_isSymm m.form_pos hw.1 hmean
  rw [m.budget_apply, hsum, hw.2]

theorem minVarianceFund_minimal {inv : SquareMatrix ℝ m.assets} {w v : Fin m.assets → ℝ}
    (hinv : matInverse m.covariance = .ok inv) (h : minVarianceFund inv = .ok w)
    (hsum : ∑ i, v i = 1) : m.form w w ≤ m.form v v := by
  obtain ⟨hw, b, hgradient⟩ := minVarianceFund_gradient hinv h
  apply apply_self_le m.form_isSymm m.form_pos
  rw [hgradient, map_sub, m.budget_apply v, hsum, hw, sub_self, mul_zero]

theorem mean_variance_on_frontier {request : MeanVarianceRequest ℝ} {result : PortfolioResult ℝ}
    (h : meanVariance request = .ok result) :
    (result.weights.entries.map Prod.fst).Perm request.labels ∧
    (result.weights.entries.map Prod.snd).sum = 1 ∧
    ∃ (m : ReturnMatrix ℝ) (w : Fin m.assets → ℝ),
      validateReturnMatrix request.returns request.labels = .ok m ∧
      result.weights.entries.Perm ((List.finRange m.assets).map fun i => (m.labels i, w i)) ∧
      result.expectedReturn = w ⬝ᵥ m.means ∧
      result.volatility ^ 2 = w ⬝ᵥ Matrix.of m.covariance *ᵥ w ∧
      (∀ v : Fin m.assets → ℝ, ∑ i, v i = 1 → v ⬝ᵥ m.means = result.expectedReturn →
        result.volatility ^ 2 ≤ v ⬝ᵥ Matrix.of m.covariance *ᵥ v) ∧
      (request.objective = objectiveMinVolatility →
        ∀ v : Fin m.assets → ℝ, ∑ i, v i = 1 →
          result.volatility ^ 2 ≤ v ⬝ᵥ Matrix.of m.covariance *ᵥ v) := by
  obtain ⟨m, objective, w, hm, hobjective, hweights, rfl⟩ := meanVariance_eq_ok.mp h
  have hw := weights_isFund hweights
  have hentries := assign_labels_perm m.labels_injective w
  have hreturn : (m.resultOf request.riskFreeRate w).expectedReturn = m.mean w :=
    expectedReturn_eq w request.riskFreeRate
  have hvolatility : (m.resultOf request.riskFreeRate w).volatility = m.deviation w :=
    volatility_eq w request.riskFreeRate
  have hvariance : (m.resultOf request.riskFreeRate w).volatility ^ 2 = m.form w w := by
    rw [hvolatility, (m.deviation_root w).2]
  refine ⟨?_, resultOf_sum hw, m, w, hm, hentries, hreturn.trans (m.mean_apply w), ?_, ?_, ?_⟩
  · rw [← (validateReturnMatrix_inv hm).2.2, List.ofFn_eq_map]
    have hkeys := hentries.map Prod.fst
    rw [List.map_map] at hkeys
    exact hkeys
  · rw [hvariance, m.form_apply]
  · intro v hsum hmean
    rw [hvariance, ← m.form_apply]
    rw [← m.mean_apply, hreturn] at hmean
    exact hw.minimal hsum hmean
  · intro hname v hsum
    rw [checkedObjective_minVolatility hname] at hobjective
    cases hobjective
    obtain ⟨inv, wMv, hinv, hmv, rfl⟩ := weights_eq_ok.mp hweights
    rw [hvariance, ← m.form_apply]
    exact minVarianceFund_minimal hinv hmv hsum

theorem mean_variance_on_frontier_target_return :
    ∃ result, meanVariance ⟨[[1, 0], [0, 0]], ["A", "B"], 0, objectiveTargetReturn, some (1 / 4),
        none⟩ = .ok result ∧
      (result.weights.entries.map Prod.snd).sum = 1 ∧
      ∃ m : ReturnMatrix ℝ, validateReturnMatrix [[1, 0], [0, 0]] ["A", "B"] = .ok m ∧
        ∀ v : Fin m.assets → ℝ, ∑ i, v i = 1 → v ⬝ᵥ m.means = result.expectedReturn →
          result.volatility ^ 2 ≤ v ⬝ᵥ Matrix.of m.covariance *ᵥ v := by
  obtain ⟨w, hw, h⟩ := @meanVariance_still ⟨[[1, 0], [0, 0]], ["A", "B"], 0,
    objectiveTargetReturn, some (1 / 4), none⟩ (.targetReturn (1 / 4)) rfl rfl rfl
  obtain ⟨hkeys, hsum, m, w', hm, hentries, hreturn, hvariance, hfrontier, hmin⟩ :=
    mean_variance_on_frontier h
  exact ⟨_, h, hsum, m, hm, hfrontier⟩

/-! ### No covariance is singular -/

theorem checkedObjective_error {request : MeanVarianceRequest ℝ} {e : Error}
    (h : request.checkedObjective = .error e) : ∃ msg, e = .invalidCommand msg := by
  unfold MeanVarianceRequest.checkedObjective at h
  split_ifs at h
  · cases htarget : request.targetReturn with
    | none =>
      rw [htarget] at h
      cases h
      exact ⟨_, rfl⟩
    | some target =>
      rw [htarget] at h
      cases h
  · cases htarget : request.targetVolatility with
    | none =>
      rw [htarget] at h
      cases h
      exact ⟨_, rfl⟩
    | some target =>
      rw [htarget] at h
      simp only at h
      split_ifs at h
      cases h
      exact ⟨_, rfl⟩
  · cases h
    exact ⟨_, rfl⟩

theorem weights_error {rf : ℝ} {objective : Objective ℝ} {e : Error}
    (h : m.weights rf objective = .error e) :
    e = .internal "minimum-variance portfolio is degenerate" := by
  obtain ⟨inv, hinv⟩ := matInverse_covariance m
  rcases bind_eq_error.mp h with herror | ⟨inv', -, h⟩
  · rw [hinv] at herror
    cases herror
  rcases bind_eq_error.mp h with herror | ⟨wMv, -, h⟩
  · unfold minVarianceFund at herror
    simp only at herror
    split_ifs at herror
    cases herror
    rfl
  · cases h

/-- Duplicated, constant or perfectly correlated series included, the elimination
finds a pivot in every round. -/
theorem covariance_never_singular {request : MeanVarianceRequest ℝ} {m : ReturnMatrix ℝ}
    (hm : validateReturnMatrix request.returns request.labels = .ok m) :
    (∃ inv, matInverse m.covariance = .ok inv) ∧
    (∀ col : Fin m.assets, ∃ aug,
      ((List.finRange m.assets).take col).foldlM inverseStep (augment m.covariance) = .ok aug ∧
      inversePivotEps ≤ (pivotSearch aug col).2) ∧
    meanVariance request ≠ .error (.internal "matrix is singular or near-singular") := by
  refine ⟨matInverse_covariance m, fun col => ?_, fun h => ?_⟩
  · obtain ⟨aug, haug, hpending⟩ := m.covariance_wellConditioned.rounds col.isLt.le
    exact ⟨aug, haug, m.covariance_wellConditioned.pivot hpending⟩
  · have hrun : meanVariance request = (do
        let m ← validateReturnMatrix request.returns request.labels
        let objective ← request.checkedObjective
        let weights ← m.weights request.riskFreeRate objective
        buildResult weights m.labels
          (portfolioMetrics weights m.means m.covariance request.riskFreeRate)) := rfl
    rw [hrun] at h
    rcases bind_eq_error.mp h with herror | ⟨m', -, h⟩
    · rw [hm] at herror
      cases herror
    rcases bind_eq_error.mp h with herror | ⟨objective, -, h⟩
    · obtain ⟨msg, hmsg⟩ := checkedObjective_error herror
      cases hmsg
    rcases bind_eq_error.mp h with herror | ⟨w, hw, h⟩
    · have hdegenerate := weights_error herror
      simp at hdegenerate
    · rw [buildResult_eq_ok (weights_isFund hw)] at h
      cases h

/-- Asset `B` of the example never moves, and its row would be zero without the ridge. -/
theorem covariance_never_singular_still :
    meanVariance ⟨[[(1 : ℝ), 0], [0, 0]], ["A", "B"], 0, objectiveMinVolatility, none, none⟩ ≠
      .error (.internal "matrix is singular or near-singular") :=
  (@covariance_never_singular ⟨[[1, 0], [0, 0]], ["A", "B"], 0, objectiveMinVolatility, none,
    none⟩ stillMarket validateReturnMatrix_still).2.2

end StandardTools.Portfolio
