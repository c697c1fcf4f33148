import StandardTools.Lib.LinearViews
import StandardTools.Portfolio.BlackLitterman
import StandardTools.Portfolio.Sharpe

/-!
# The optimum against the posterior (`portfolio/black_litterman.cpp:308-411`)

The mean and the covariance which the code inverts its way to are those of the
prior after the views. The covariance is positive definite, and the weights are
the multiple of `Sigma^{-1} mu` which sums to 1. They have the largest Sharpe
ratio where `Sigma^{-1} mu` has a positive sum; a negative sum turns them around.
-/

namespace StandardTools.Portfolio
open Matrix StandardTools.Core StandardTools.Lib

variable {n : ℕ}

theorem matScale_eq (m : SquareMatrix ℝ n) (s : ℝ) : Matrix.of (matScale m s) = s • Matrix.of m := by
  ext i j
  exact mul_comm _ _

theorem matAdd_eq (a b : SquareMatrix ℝ n) : Matrix.of (matAdd a b) = Matrix.of a + Matrix.of b :=
  rfl

theorem matInverse_eq {m inv : SquareMatrix ℝ n} (h : matInverse m = .ok inv) :
    Matrix.of inv = (Matrix.of m)⁻¹ :=
  (inv_eq_left_inv (matInverse_mul h)).symm

/-! ### The views -/

namespace ViewedMarket
variable (p : ViewedMarket ℝ)

theorem tauSigma_posDef : (Matrix.of p.tauSigma).PosDef := by
  rw [tauSigma, matScale_eq]
  exact p.market.covariance_posDef.smul (not_le.mp p.tau_pos)

theorem omega_eq (i : Fin p.views) :
    p.omega i = p.pMatrix i ⬝ᵥ Matrix.of p.tauSigma *ᵥ p.pMatrix i := by
  rw [omega, vecDot_eq, vecDotMat_eq]

theorem omega_nonneg (i : Fin p.views) : 0 ≤ p.omega i := by
  have h := p.tauSigma_posDef.posSemidef.dotProduct_mulVec_nonneg (p.pMatrix i)
  rw [star_trivial] at h
  rw [omega_eq]
  exact h

theorem omegaInv_eq_ok {omegaInv : Fin p.views → ℝ} (h : p.omegaInv = .ok omegaInv) :
    (∀ i, 0 < p.omega i) ∧ omegaInv = p.omega⁻¹ := by
  unfold ViewedMarket.omegaInv at h
  split at h
  · cases h
  case h_2 hnone =>
    cases h
    refine ⟨fun i => ?_, funext fun i => one_div _⟩
    have hconfident := List.find?_eq_none.mp hnone i (List.mem_finRange i)
    rw [abs_real, decide_eq_true_eq] at hconfident
    exact lt_of_le_of_ne (p.omega_nonneg i) (ne_zero_of_not_degenerate hconfident).symm

variable {p} in
theorem omegaInv_ok (h : ∀ i, degeneracyEps ≤ |p.omega i|) :
    p.omegaInv = .ok fun i => 1 / p.omega i := by
  have hconfident : (List.finRange p.views).find? (fun i =>
      Double.abs (p.omega i) < degeneracyEps) = none := by
    rw [List.find?_eq_none]
    intro i _
    rw [abs_real, decide_eq_true_eq]
    exact not_lt.mpr (h i)
  unfold ViewedMarket.omegaInv
  rw [hconfident]

theorem ptOp_eq (d : Fin p.views → ℝ) :
    Matrix.of (p.ptOp d) = (Matrix.of p.pMatrix)ᵀ * diagonal d * Matrix.of p.pMatrix := by
  ext a b
  rw [Matrix.of_apply, Matrix.mul_apply]
  unfold ptOp
  rw [sumLoop_eq]
  refine Finset.sum_congr rfl fun i _ => ?_
  rw [mul_diagonal, mul_comm (d i)]
  rfl

theorem ptOq_eq (d : Fin p.views → ℝ) :
    p.ptOq d = (Matrix.of p.pMatrix)ᵀ *ᵥ (d * p.qVector) := by
  funext a
  unfold ptOq
  rw [sumLoop_eq]
  exact Finset.sum_congr rfl fun i _ => mul_comm _ _

/-! ### The posterior -/

noncomputable def precision : Matrix (Fin p.market.assets) (Fin p.market.assets) ℝ :=
  viewPrecision (Matrix.of p.tauSigma) (Matrix.of p.pMatrix) p.omega

noncomputable def posteriorMean : Fin p.market.assets → ℝ :=
  viewMean (Matrix.of p.tauSigma) (Matrix.of p.pMatrix) p.omega p.priorMean p.qVector

noncomputable def posteriorCovariance : Matrix (Fin p.market.assets) (Fin p.market.assets) ℝ :=
  Matrix.of p.market.covariance + p.precision⁻¹

theorem posterior_eq_ok {b : Posterior ℝ p.market.assets} (h : p.posterior = .ok b) :
    (∀ i, 0 < p.omega i) ∧ b.mean = p.posteriorMean ∧
      Matrix.of b.covariance = p.posteriorCovariance := by
  obtain ⟨omegaInv, homega, h⟩ := bind_eq_ok.mp h
  obtain ⟨tauSigmaInv, htau, h⟩ := bind_eq_ok.mp h
  obtain ⟨m1Inv, hm1, h⟩ := bind_eq_ok.mp h
  cases h
  obtain ⟨hpos, rfl⟩ := p.omegaInv_eq_ok homega
  have hprecision : Matrix.of m1Inv = p.precision⁻¹ := by
    rw [matInverse_eq hm1, matAdd_eq, matInverse_eq htau, ptOp_eq]
    rfl
  refine ⟨hpos, ?_, ?_⟩
  · show vecDotMat m1Inv (vecDotMat tauSigmaInv p.priorMean + p.ptOq p.omega⁻¹) = p.posteriorMean
    rw [vecDotMat_eq, vecDotMat_eq, hprecision, matInverse_eq htau, ptOq_eq]
    rfl
  · rw [matAdd_eq, hprecision]
    rfl

theorem posteriorCovariance_posDef (h : ∀ i, 0 < p.omega i) : p.posteriorCovariance.PosDef :=
  viewCovariance_posDef p.market.covariance_posDef p.tauSigma_posDef h

end ViewedMarket

/-! ### The weights -/

theorem optimizedWeights_eq_ok {riskAversion : ℝ} {b : Posterior ℝ n} {w : Fin n → ℝ}
    (h : optimizedWeights riskAversion b = .ok w) (hrisk : 0 < riskAversion) :
    let k := (Matrix.of b.covariance)⁻¹ *ᵥ b.mean
    ∑ i, k i ≠ 0 ∧ w = (1 / ∑ i, k i) • k := by
  intro k
  obtain ⟨aInv, hinv, h⟩ := bind_eq_ok.mp h
  have hscaled : (riskAversion • Matrix.of aInv) * Matrix.of b.covariance = 1 := by
    rw [smul_mul_assoc, ← mul_smul_comm, ← matScale_eq]
    exact matInverse_mul hinv
  have hk : k = riskAversion • (Matrix.of aInv *ᵥ b.mean) := by
    show (Matrix.of b.covariance)⁻¹ *ᵥ b.mean = _
    rw [inv_eq_left_inv hscaled, smul_mulVec]
  have hraw : vecDotMat aInv b.mean = riskAversion⁻¹ • k := by
    rw [vecDotMat_eq, hk, smul_smul, inv_mul_cancel₀ hrisk.ne', one_smul]
  have hsum : sumLoop (riskAversion⁻¹ • k) = riskAversion⁻¹ * ∑ i, k i := by
    rw [sumLoop_eq, Finset.mul_sum]
    rfl
  simp only [hraw, hsum, scale_eq] at h
  by_cases hsmall : Double.abs (riskAversion⁻¹ * ∑ i, k i) < degeneracyEps
  · rw [if_pos hsmall] at h
    cases h
  rw [if_neg hsmall] at h
  cases h
  have hne : ∑ i, k i ≠ 0 := right_ne_zero_of_mul (ne_zero_of_not_degenerate hsmall)
  refine ⟨hne, ?_⟩
  rw [smul_smul]
  congr 1
  field_simp

theorem optimizedWeights_sum {riskAversion : ℝ} {b : Posterior ℝ n} {w : Fin n → ℝ}
    (h : optimizedWeights riskAversion b = .ok w) (hrisk : 0 < riskAversion) : ∑ i, w i = 1 := by
  obtain ⟨hne, hw⟩ := optimizedWeights_eq_ok h hrisk
  rw [hw]
  simp only [Pi.smul_apply, smul_eq_mul]
  rw [← Finset.mul_sum]
  exact one_div_mul_cancel hne

/-! ### The result -/

/-- The result of accepted weights: `Validate` does not throw. -/
noncomputable def ViewedMarket.resultOf (p : ViewedMarket ℝ) (b : Posterior ℝ p.market.assets)
    (w : Fin p.market.assets → ℝ) : BlackLittermanResult ℝ :=
  let figures := portfolioMetrics w b.mean b.covariance 0
  { portfolio :=
      { weights := StdMap.empty.assign
          ((List.finRange p.market.assets).map fun i => (p.market.labels i, w i))
        expectedReturn := figures.expectedReturn
        volatility := figures.volatility
        sharpeRatio := figures.sharpe }
    expectedReturns := StdMap.empty.assign
      ((List.finRange p.market.assets).map fun i => (p.market.labels i, b.mean i))
    covariance := List.ofFn fun i => List.ofFn (b.covariance i) }

theorem blackLitterman_eq_ok {request : BlackLittermanRequest ℝ} {result : BlackLittermanResult ℝ} :
    blackLitterman request = .ok result ↔
      ∃ p b w, validateBlackLittermanRequest request = .ok p ∧ p.posterior = .ok b ∧
        optimizedWeights p.riskAversion b = .ok w ∧ result = p.resultOf b w := by
  constructor
  · intro h
    obtain ⟨p, hp, h⟩ := bind_eq_ok.mp h
    obtain ⟨b, hb, h⟩ := bind_eq_ok.mp h
    obtain ⟨w, hw, h⟩ := bind_eq_ok.mp h
    obtain ⟨portfolio, hbuild, h⟩ := bind_eq_ok.mp h
    obtain ⟨u, -, hbuild⟩ := bind_eq_ok.mp hbuild
    cases hbuild
    cases h
    exact ⟨p, b, w, hp, hb, hw, rfl⟩
  · intro h
    obtain ⟨p, b, w, hp, hb, hw, rfl⟩ := h
    have hbuild := @buildResult_of_sum _ _ p.market.labels_injective _
      (optimizedWeights_sum hw (not_le.mp p.riskAversion_pos))
      (portfolioMetrics w b.mean b.covariance 0) (Real.sqrt_nonneg _)
    exact bind_eq_ok.mpr ⟨p, hp, bind_eq_ok.mpr ⟨b, hb, bind_eq_ok.mpr ⟨w, hw,
      bind_eq_ok.mpr ⟨_, hbuild, rfl⟩⟩⟩⟩

theorem eq_of_expectedReturns {p : ViewedMarket ℝ} {b : Posterior ℝ p.market.assets}
    {w μ : Fin p.market.assets → ℝ}
    (h : ∀ i, (p.market.labels i, μ i) ∈ (p.resultOf b w).expectedReturns.entries) :
    μ = b.mean := by
  funext i
  apply StdMap.eq_of_mem _ (h i)
  apply (assign_labels_perm p.market.labels_injective b.mean).mem_iff.mpr
  exact List.mem_map.mpr ⟨i, List.mem_finRange i, rfl⟩

theorem eq_of_covariance {S T : SquareMatrix ℝ n}
    (h : (List.ofFn fun i => List.ofFn (S i)) = List.ofFn fun i => List.ofFn (T i)) : S = T :=
  funext fun i => List.ofFn_injective (congrFun (List.ofFn_injective h) i)

theorem black_litterman_optimal_iff {request : BlackLittermanRequest ℝ}
    {result : BlackLittermanResult ℝ} {p : ViewedMarket ℝ} {μ : Fin p.market.assets → ℝ}
    {S : SquareMatrix ℝ p.market.assets} (hp : validateBlackLittermanRequest request = .ok p)
    (hresult : blackLitterman request = .ok result)
    (hμ : ∀ i, (p.market.labels i, μ i) ∈ result.expectedReturns.entries)
    (hS : result.covariance = List.ofFn fun i => List.ofFn (S i)) :
    ((result.portfolio.weights.entries.map Prod.snd).sum = 1 ∧
      ∀ v : Fin p.market.assets → ℝ, ∑ i, v i = 1 →
        (v ⬝ᵥ μ) / √(v ⬝ᵥ Matrix.of S *ᵥ v) ≤ result.portfolio.sharpeRatio) ↔
    (∃ g : Fin p.market.assets → ℝ, ∑ i, g i = 1 ∧
      (∀ v : Fin p.market.assets → ℝ, ∑ i, v i = 1 →
        g ⬝ᵥ p.posteriorCovariance *ᵥ g ≤ v ⬝ᵥ p.posteriorCovariance *ᵥ v) ∧
      0 < g ⬝ᵥ p.posteriorMean) ∨ p.market.assets = 1 := by
  obtain ⟨p', b, w, hp', hb, hw, rfl⟩ := blackLitterman_eq_ok.mp hresult
  rw [hp] at hp'
  cases hp'
  rw [eq_of_expectedReturns hμ, ← eq_of_covariance hS]
  obtain ⟨homega, hmean, hcov⟩ := p.posterior_eq_ok hb
  have hpos : (Matrix.of b.covariance).PosDef := hcov ▸ p.posteriorCovariance_posDef homega
  rw [← hmean, ← hcov]
  obtain ⟨hne, hweights⟩ := optimizedWeights_eq_ok hw (not_le.mp p.riskAversion_pos)
  have hsum := optimizedWeights_sum hw (not_le.mp p.riskAversion_pos)
  have hsharpe : (p.resultOf b w).portfolio.sharpeRatio =
      (w ⬝ᵥ b.mean) / √(w ⬝ᵥ Matrix.of b.covariance *ᵥ w) := by
    have h := portfolioMetrics_sharpe hpos hsum b.mean 0
    rw [sub_zero] at h
    exact h
  refine Iff.trans ?_ (sharpe_max_iff hpos hne hweights)
  constructor
  · intro h v hv
    rw [← hsharpe]
    exact h.2 v hv
  · intro h
    refine ⟨(assign_labels_sum p.market.labels_injective w).trans hsum, fun v hv => ?_⟩
    rw [hsharpe]
    exact h v hv

/-! ### Diagonal covariances -/

theorem ViewedMarket.posterior_diagonal {p : ViewedMarket ℝ} {omegaInv : Fin p.views → ℝ}
    {variance precision : Fin p.market.assets → ℝ} (homega : p.omegaInv = .ok omegaInv)
    (htau : p.tauSigma = fun i j => if i = j then variance i else 0)
    (hvariance : ∀ i, covRidge ≤ variance i)
    (hsum : matAdd (fun i j => if i = j then 1 / variance i else 0) (p.ptOp omegaInv) =
      fun i j => if i = j then precision i else 0)
    (hprecision : ∀ i, covRidge ≤ precision i) :
    p.posterior = .ok
      ⟨vecDotMat (fun i j => if i = j then 1 / precision i else 0)
        fun i => vecDotMat (fun i j => if i = j then 1 / variance i else 0) p.priorMean i +
          p.ptOq omegaInv i,
      matAdd p.market.covariance fun i j => if i = j then 1 / precision i else 0⟩ := by
  have hassets := p.market.assets_pos.ne'
  unfold ViewedMarket.posterior
  refine bind_eq_ok.mpr ⟨omegaInv, homega, ?_⟩
  refine bind_eq_ok.mpr ⟨fun i j => if i = j then 1 / variance i else 0, ?_, ?_⟩
  · rw [htau]
    exact matInverse_diagonal_eq hassets p.market.assets_le hvariance
  refine bind_eq_ok.mpr ⟨fun i j => if i = j then 1 / precision i else 0, ?_, rfl⟩
  rw [hsum]
  exact matInverse_diagonal_eq hassets p.market.assets_le hprecision

theorem optimizedWeights_diagonal {b : Posterior ℝ n} {variance : Fin n → ℝ} (hn : n ≠ 0)
    (hmax : n ≤ maxAssets) (hcov : b.covariance = fun i j => if i = j then variance i else 0)
    (hvariance : ∀ i, covRidge ≤ variance i)
    (hsum : ¬|∑ i, b.mean i / variance i| < degeneracyEps) :
    optimizedWeights 1 b =
      .ok fun i => b.mean i / variance i * (1 / ∑ i, b.mean i / variance i) := by
  have hscaled : matScale b.covariance 1 = fun i j => if i = j then variance i else 0 := by
    rw [hcov]
    funext i j
    exact mul_one _
  obtain ⟨inv, hinv, hsolve⟩ := matInverse_diagonal hn hmax hvariance
  have hraw : vecDotMat inv b.mean = fun i => b.mean i / variance i := funext (hsolve _)
  unfold optimizedWeights
  refine bind_eq_ok.mpr ⟨inv, hscaled ▸ hinv, ?_⟩
  simp only [hraw, sumLoop_eq, abs_real, if_neg hsum]
  rfl

/-! ### A view on the first of two assets -/

def viewRequest (q : ℝ) : BlackLittermanRequest ℝ where
  returns := [[1, 0], [0, 0]]
  labels := ["A", "B"]
  marketCaps := [1, 1]
  pMatrix := [[1, 0]]
  qVector := [q]
  tau := 1
  riskAversion := 1

abbrev viewMarket (q : ℝ) : ViewedMarket ℝ where
  market := stillMarket
  marketCaps := fun i => [1, 1].getD i 0
  views := 1
  pMatrix := fun i a => ([[1, 0]].get i).getD a 0
  qVector := fun i => [q].getD i 0
  tau := 1
  riskAversion := 1
  tau_pos := not_le.mpr one_pos
  riskAversion_pos := not_le.mpr one_pos
  views_pos := Nat.one_pos

theorem validate_singleView {m : ReturnMatrix ℝ} {returns : List (List ℝ)} {labels : List String}
    {row : List ℝ} (q : ℝ) (hm : validateReturnMatrix returns labels = .ok m)
    (hassets : m.assets = 2) (hrow : checkViewRow m.assets (row, 0) = .ok ()) :
    validateBlackLittermanRequest
      { viewRequest q with returns := returns, labels := labels, pMatrix := [row] } =
      .ok { viewMarket q with
        market := m
        marketCaps := fun i => [1, 1].getD i 0
        pMatrix := fun i a => ([row].get i).getD a 0 } := by
  have hpos : ¬((1 : ℝ) ≤ 0 ∨ !Double.isFinite (1 : ℝ)) := by simp
  have hcaps : [(1 : ℝ), 1].findIdx? (fun cap => decide (cap ≤ 0) || !Double.isFinite cap) =
      none := by simp
  have hrows : [row].zipIdx.forM (checkViewRow m.assets) = .ok () := bind_eq_ok.mpr ⟨(), hrow, rfl⟩
  unfold validateBlackLittermanRequest viewRequest
  rw [dif_neg hpos, dif_neg hpos]
  refine bind_eq_ok.mpr ⟨m, hm, ?_⟩
  rw [if_neg (by simp [hassets]), hcaps]
  exact bind_eq_ok.mpr ⟨(), hrows, rfl⟩

theorem validate_viewRequest (q : ℝ) :
    validateBlackLittermanRequest (viewRequest q) = .ok (viewMarket q) :=
  validate_singleView q validateReturnMatrix_still rfl (by simp [checkViewRow])

/-- The precisions after the view. -/
noncomputable def viewDiagonal (i : Fin 2) : ℝ :=
  if i.val = 0 then (1 + 1) / stillVariance i else 1 / stillVariance i

noncomputable def viewVariance (i : Fin 2) : ℝ := stillVariance i + 1 / viewDiagonal i

noncomputable def viewPosterior (q : ℝ) : Posterior ℝ 2 where
  mean i := if i.val = 0 then stillVariance i / (1 + 1) / (1 + 1) + q / (1 + 1)
    else stillVariance i / (1 + 1)
  covariance i j := if i = j then viewVariance i else 0

theorem omega_viewMarket (q : ℝ) (i : Fin 1) : (viewMarket q).omega i = stillVariance 0 := by
  rw [ViewedMarket.omega_eq, ViewedMarket.tauSigma, matScale_eq, one_smul, covariance_still]
  simp [dotProduct, mulVec, Fin.sum_univ_two]

theorem priorMean_viewMarket (q : ℝ) : (viewMarket q).priorMean = fun i => stillVariance i / 2 := by
  funext i
  rw [ViewedMarket.priorMean, scale_eq, one_smul, vecDotMat_eq]
  unfold ViewedMarket.marketWeights
  simp [sumLoop_eq, covariance_still, mulVec, dotProduct, Fin.sum_univ_two]
  fin_cases i <;> simp <;> ring

theorem stillVariance_zero : stillVariance 0 = 1 / 2 + 1 / 100000000 := by
  unfold stillVariance covRidge
  norm_num

theorem stillVariance_one : stillVariance 1 = 1 / 100000000 := by
  unfold stillVariance covRidge
  norm_num

theorem omegaInv_viewMarket (q : ℝ) :
    (viewMarket q).omegaInv = .ok fun _ => 1 / stillVariance 0 := by
  rw [ViewedMarket.omegaInv_ok]
  · simp only [omega_viewMarket]
  · intro i
    rw [omega_viewMarket, stillVariance_zero]
    unfold degeneracyEps
    norm_num [abs_of_pos]

theorem tauSigma_viewMarket (q : ℝ) :
    (viewMarket q).tauSigma = fun i j => if i = j then stillVariance i else 0 := by
  rw [ViewedMarket.tauSigma, covariance_still]
  funext i j
  exact mul_one _

theorem covRidge_le_viewDiagonal (i : Fin 2) : covRidge ≤ viewDiagonal i := by
  unfold viewDiagonal covRidge
  fin_cases i
  · simp only [Fin.zero_eta, stillVariance_zero]
    norm_num
  · simp only [Fin.mk_one, stillVariance_one]
    norm_num

theorem precision_viewMarket (q : ℝ) :
    matAdd (fun i j => if i = j then 1 / stillVariance i else 0)
      ((viewMarket q).ptOp fun _ => 1 / stillVariance 0) =
      fun i j => if i = j then viewDiagonal i else 0 := by
  funext i j
  unfold matAdd ViewedMarket.ptOp viewDiagonal
  rw [sumLoop_eq, Fin.sum_univ_one]
  fin_cases i <;> fin_cases j <;> simp
  ring

theorem posterior_viewMarket (q : ℝ) : (viewMarket q).posterior = .ok (viewPosterior q) := by
  have hmean : vecDotMat (fun i j => if i = j then 1 / viewDiagonal i else 0)
      (fun i => vecDotMat (fun i j => if i = j then 1 / stillVariance i else 0)
        (viewMarket q).priorMean i + (viewMarket q).ptOq (fun _ => 1 / stillVariance 0) i) =
      (viewPosterior q).mean := by
    have hs0 : stillVariance 0 ≠ 0 := by rw [stillVariance_zero]; norm_num
    have hs1 : stillVariance 1 ≠ 0 := by rw [stillVariance_one]; norm_num
    funext i
    simp only [vecDotMat_eq, priorMean_viewMarket, ViewedMarket.ptOq, sumLoop_eq]
    fin_cases i
    · simp [mulVec, dotProduct, viewDiagonal, viewPosterior]
      field_simp
      ring
    · simp [mulVec, dotProduct, viewDiagonal, viewPosterior]
      field_simp
      norm_num
  have hcov : matAdd (viewMarket q).market.covariance
      (fun i j => if i = j then 1 / viewDiagonal i else 0) = (viewPosterior q).covariance := by
    rw [covariance_still]
    funext i j
    unfold matAdd viewPosterior
    by_cases hij : i = j
    · simp only [if_pos hij]
      rfl
    · simp only [if_neg hij, add_zero]
  rw [ViewedMarket.posterior_diagonal (omegaInv_viewMarket q) (tauSigma_viewMarket q)
    covRidge_le_stillVariance (precision_viewMarket q) covRidge_le_viewDiagonal]
  exact congrArg Except.ok (congrArg₂ Posterior.mk hmean hcov)

theorem posDef_viewPosterior (q : ℝ) : (Matrix.of (viewPosterior q).covariance).PosDef := by
  obtain ⟨homega, -, hcov⟩ := (viewMarket q).posterior_eq_ok (posterior_viewMarket q)
  exact hcov ▸ (viewMarket q).posteriorCovariance_posDef homega

theorem viewVariance_zero : viewVariance 0 = 3 / 4 + 3 / 200000000 := by
  unfold viewVariance viewDiagonal
  rw [stillVariance_zero, if_pos (Fin.val_zero 2)]
  norm_num

theorem viewVariance_one : viewVariance 1 = 1 / 50000000 := by
  unfold viewVariance viewDiagonal
  rw [stillVariance_one, if_neg (by decide)]
  norm_num

noncomputable def viewRaw (q : ℝ) (i : Fin 2) : ℝ := (viewPosterior q).mean i / viewVariance i

theorem covRidge_le_viewVariance (i : Fin 2) : covRidge ≤ viewVariance i := by
  unfold covRidge
  fin_cases i
  · simp only [Fin.zero_eta, viewVariance_zero]
    norm_num
  · simp only [Fin.mk_one, viewVariance_one]
    norm_num

theorem optimizedWeights_view {q : ℝ} (hq : ¬|∑ i, viewRaw q i| < degeneracyEps) :
    optimizedWeights 1 (viewPosterior q) = .ok fun i => viewRaw q i * (1 / ∑ i, viewRaw q i) :=
  optimizedWeights_diagonal two_ne_zero stillMarket.assets_le rfl covRidge_le_viewVariance hq

theorem blackLitterman_view {q : ℝ} (hq : ¬|∑ i, viewRaw q i| < degeneracyEps) :
    blackLitterman (viewRequest q) = .ok ((viewMarket q).resultOf (viewPosterior q)
      fun i => viewRaw q i * (1 / ∑ i, viewRaw q i)) :=
  blackLitterman_eq_ok.mpr ⟨_, _, _, validate_viewRequest q, posterior_viewMarket q,
    optimizedWeights_view hq, rfl⟩

theorem viewRaw_sum (q : ℝ) :
    ∑ i, viewRaw q i = (1 / 8 + 1 / 400000000 + q / 2) / (3 / 4 + 3 / 200000000) + 1 / 4 := by
  rw [Fin.sum_univ_two]
  unfold viewRaw
  rw [viewVariance_zero, viewVariance_one]
  unfold viewPosterior
  simp only [stillVariance_zero, stillVariance_one]
  norm_num

theorem viewRaw_bullish : ¬|∑ i, viewRaw 1 i| < degeneracyEps := by
  rw [viewRaw_sum]
  unfold degeneracyEps
  norm_num [abs_of_pos]

theorem viewResult_expectedReturns (q : ℝ) (w : Fin 2 → ℝ) (i : Fin 2) :
    (stillMarket.labels i, (viewPosterior q).mean i) ∈
      ((viewMarket q).resultOf (viewPosterior q) w).expectedReturns.entries :=
  (assign_labels_perm stillMarket.labels_injective _).mem_iff.mpr
    (List.mem_map.mpr ⟨i, List.mem_finRange i, rfl⟩)

theorem black_litterman_optimal_iff_bullish :
    ∃ result, blackLitterman (viewRequest 1) = .ok result ∧
      (result.portfolio.weights.entries.map Prod.snd).sum = 1 ∧
      ∀ v : Fin 2 → ℝ, ∑ i, v i = 1 → (v ⬝ᵥ (viewPosterior 1).mean) /
        √(v ⬝ᵥ Matrix.of (viewPosterior 1).covariance *ᵥ v) ≤ result.portfolio.sharpeRatio := by
  have h := blackLitterman_view viewRaw_bullish
  obtain ⟨-, hmean, hcov⟩ := (viewMarket 1).posterior_eq_ok (posterior_viewMarket 1)
  have hpos : ∀ i, 0 < viewVariance i :=
    fun i => ReturnMatrix.covRidge_pos.trans_le (covRidge_le_viewVariance i)
  obtain ⟨hsum, hleast⟩ := diagonal_least hpos rfl
  refine ⟨_, h, (black_litterman_optimal_iff (validate_viewRequest 1) h
    (viewResult_expectedReturns 1 _) rfl).mpr (Or.inl ⟨_, hsum, ?_, ?_⟩)⟩
  · rw [← of_diagonal] at hleast
    rw [← hcov]
    exact hleast
  · rw [← hmean, dotProduct, Fin.sum_univ_two]
    unfold viewPosterior
    simp only [viewVariance_zero, viewVariance_one, stillVariance_zero, stillVariance_one]
    norm_num

/-- A view that `A` loses twice its value: the posterior of `B` has the better ratio
than the returned portfolio, which is short of `B` and long in `A`. -/
theorem bearish_view_inverted :
    ∃ result, blackLitterman (viewRequest (-2)) = .ok result ∧
      (∀ i, (stillMarket.labels i, (viewPosterior (-2)).mean i) ∈ result.expectedReturns.entries) ∧
      result.covariance = (List.ofFn fun i => List.ofFn ((viewPosterior (-2)).covariance i)) ∧
      ∃ v : Fin 2 → ℝ, ∑ i, v i = 1 ∧ result.portfolio.sharpeRatio <
        (v ⬝ᵥ (viewPosterior (-2)).mean) / √(v ⬝ᵥ Matrix.of (viewPosterior (-2)).covariance *ᵥ v) := by
  have hsum : ¬|∑ i, viewRaw (-2) i| < degeneracyEps := by
    rw [viewRaw_sum]
    unfold degeneracyEps
    norm_num [abs_of_neg]
  have hpos := posDef_viewPosterior (-2)
  have hmean : ∀ i, (viewPosterior (-2)).mean i = if i = 0 then -(7 / 8) + 1 / 400000000
      else 1 / 200000000 := by
    intro i
    unfold viewPosterior
    fin_cases i
    · norm_num [stillVariance_zero]
    · norm_num [stillVariance_one]
  have hweights := optimizedWeights_sum (optimizedWeights_view hsum) one_pos
  have hloss : ((viewMarket (-2)).resultOf (viewPosterior (-2))
      fun i => viewRaw (-2) i * (1 / ∑ i, viewRaw (-2) i)).portfolio.sharpeRatio ≤ 0 := by
    refine (portfolioMetrics_sharpe hpos hweights _ 0).trans_le ?_
    apply div_nonpos_of_nonpos_of_nonneg _ (Real.sqrt_nonneg _)
    rw [viewRaw_sum, dotProduct, Fin.sum_univ_two]
    simp only [viewRaw, hmean, viewVariance_zero, viewVariance_one]
    norm_num
  refine ⟨_, blackLitterman_view hsum, viewResult_expectedReturns (-2) _, rfl, ![0, 1], by simp,
    hloss.trans_lt ?_⟩
  apply div_pos
  · rw [dotProduct, Fin.sum_univ_two, hmean, hmean]
    norm_num
  · have hv := hpos.dotProduct_mulVec_pos (show ![0, 1] ≠ (0 : Fin 2 → ℝ) by simp)
    rw [star_trivial] at hv
    exact Real.sqrt_pos.mpr hv

end StandardTools.Portfolio
