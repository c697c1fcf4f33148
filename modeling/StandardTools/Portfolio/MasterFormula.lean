import StandardTools.Portfolio.Posterior

/-!
# The posterior in the space of the views (`portfolio/black_litterman.cpp:308-411`)

The variance of a view is `tau` times its variance under the prior, so `tau` drops
out of the mean: it is the prior mean moved by the surprise of the views. The
covariance grows by at most `tau` times the prior's, and never shrinks.
-/

namespace StandardTools.Portfolio
open Matrix StandardTools.Core StandardTools.Lib

/-! ### What a checked request keeps -/

theorem checked_request {request : BlackLittermanRequest ℝ} {p : ViewedMarket ℝ}
    (h : validateBlackLittermanRequest request = .ok p) :
    p.tau = request.tau ∧ ∀ {t : ℝ} (ht : ¬t ≤ 0),
      validateBlackLittermanRequest { request with tau := t } =
        .ok { p with tau := t, tau_pos := ht } := by
  have hfinite : ∀ {t : ℝ}, ¬t ≤ 0 → ¬(t ≤ 0 ∨ !Double.isFinite t) := by
    intro t ht
    simp [ht]
  unfold validateBlackLittermanRequest at h ⊢
  split at h
  · cases h
  split at h
  · cases h
  case isFalse hrisk =>
    obtain ⟨market, hmarket, h⟩ := bind_eq_ok.mp h
    simp only [dif_neg hrisk, hmarket]
    by_cases hcaps : request.marketCaps.length ≠ market.assets
    · rw [if_pos hcaps] at h
      cases h
    rw [if_neg hcaps] at h
    cases hfind : request.marketCaps.findIdx? fun cap => decide (cap ≤ 0) || !Double.isFinite cap with
    | some i =>
      rw [hfind] at h
      cases h
    | none =>
      rw [hfind] at h
      simp only at h
      split at h
      · cases h
      split at h
      · cases h
      case isFalse hviews hlength =>
        obtain ⟨u, hrows, h⟩ := bind_eq_ok.mp h
        cases h
        refine ⟨rfl, fun {t} ht => ?_⟩
        rw [dif_neg (hfinite ht)]
        refine bind_eq_ok.mpr ⟨market, rfl, ?_⟩
        simp only [if_neg hcaps, dif_neg hviews, if_neg hlength]
        exact bind_eq_ok.mpr ⟨u, hrows, rfl⟩

namespace ViewedMarket
variable (p : ViewedMarket ℝ)

/-! ### The mean without `tau` -/

/-- The variances of the views under the prior. -/
noncomputable def viewVariances (i : Fin p.views) : ℝ :=
  p.pMatrix i ⬝ᵥ Matrix.of p.market.covariance *ᵥ p.pMatrix i

/-- The prior moved by the gain on what the views expect beyond it. -/
noncomputable def masterMean : Fin p.market.assets → ℝ :=
  let S : Matrix (Fin p.market.assets) (Fin p.market.assets) ℝ := Matrix.of p.market.covariance
  let P : Matrix (Fin p.views) (Fin p.market.assets) ℝ := Matrix.of p.pMatrix
  let prior := p.riskAversion • S *ᵥ p.marketWeights
  prior + (S * Pᵀ * (P * S * Pᵀ + diagonal p.viewVariances)⁻¹) *ᵥ (p.qVector - P *ᵥ prior)

theorem priorMean_eq :
    p.priorMean = p.riskAversion • Matrix.of p.market.covariance *ᵥ p.marketWeights := by
  rw [priorMean, scale_eq, vecDotMat_eq]

theorem omega_eq_tau : p.omega = p.tau • p.viewVariances := by
  funext i
  rw [omega_eq, tauSigma, matScale_eq, smul_mulVec, dotProduct_smul]
  rfl

theorem viewVariances_pos (h : ∀ i, 0 < p.omega i) (i : Fin p.views) : 0 < p.viewVariances i := by
  have hi := h i
  rw [omega_eq_tau, Pi.smul_apply, smul_eq_mul] at hi
  exact (mul_pos_iff_of_pos_left (not_le.mp p.tau_pos)).mp hi

theorem posteriorMean_eq (h : ∀ i, 0 < p.omega i) : p.posteriorMean = p.masterMean := by
  have htau := not_le.mp p.tau_pos
  have hspace := viewSpace_posDef (P := Matrix.of p.pMatrix) p.market.covariance_posDef
    (p.viewVariances_pos h)
  have hinv : (diagonal p.omega + Matrix.of p.pMatrix * Matrix.of p.tauSigma *
        (Matrix.of p.pMatrix)ᵀ)⁻¹ = p.tau⁻¹ • (diagonal p.viewVariances +
          Matrix.of p.pMatrix * Matrix.of p.market.covariance * (Matrix.of p.pMatrix)ᵀ)⁻¹ := by
    rw [omega_eq_tau, tauSigma, matScale_eq, Matrix.mul_smul, Matrix.smul_mul, diagonal_smul,
      ← smul_add]
    apply inv_eq_left_inv
    rw [smul_mul_smul_comm, inv_mul_cancel₀ htau.ne', one_smul, inv_mul_of_posDef hspace]
  unfold posteriorMean masterMean
  rw [viewMean_eq p.tauSigma_posDef h, viewSurprise, hinv, tauSigma, matScale_eq, priorMean_eq,
    smul_mulVec, smul_mulVec, mulVec_smul, mulVec_smul, smul_smul, mul_inv_cancel₀ htau.ne',
    one_smul, add_comm (diagonal p.viewVariances)]
  simp only [mulVec_mulVec, Matrix.mul_assoc]

theorem posteriorMean_single (h : ∀ i, 0 < p.omega i) (hviews : p.views = 1) (i : Fin p.views) :
    p.pMatrix i ⬝ᵥ p.posteriorMean = (p.pMatrix i ⬝ᵥ p.priorMean + p.qVector i) / (1 + 1) :=
  viewMean_single p.tauSigma_posDef h p.priorMean p.qVector (fun j => by omega) (p.omega_eq i)

/-! ### The covariance between the prior's and `1 + tau` times it -/

theorem posteriorCovariance_form (x : Fin p.market.assets → ℝ) :
    x ⬝ᵥ p.posteriorCovariance *ᵥ x =
      x ⬝ᵥ Matrix.of p.market.covariance *ᵥ x + x ⬝ᵥ p.precision⁻¹ *ᵥ x := by
  unfold posteriorCovariance
  rw [add_mulVec, dotProduct_add]

theorem lt_posteriorCovariance (h : ∀ i, 0 < p.omega i) {x : Fin p.market.assets → ℝ}
    (hx : x ≠ 0) :
    x ⬝ᵥ Matrix.of p.market.covariance *ᵥ x < x ⬝ᵥ p.posteriorCovariance *ᵥ x := by
  have hgap := (viewPrecision_posDef (P := Matrix.of p.pMatrix) p.tauSigma_posDef
    h).inv.dotProduct_mulVec_pos hx
  rw [star_trivial] at hgap
  rw [posteriorCovariance_form]
  exact lt_add_of_pos_right _ hgap

theorem posteriorCovariance_le (h : ∀ i, 0 < p.omega i) (x : Fin p.market.assets → ℝ) :
    x ⬝ᵥ p.posteriorCovariance *ᵥ x ≤
      (1 + p.tau) * (x ⬝ᵥ Matrix.of p.market.covariance *ᵥ x) := by
  have hgap : x ⬝ᵥ p.precision⁻¹ *ᵥ x ≤ p.tau * (x ⬝ᵥ Matrix.of p.market.covariance *ᵥ x) := by
    refine (viewPrecision_inv_le (P := Matrix.of p.pMatrix) p.tauSigma_posDef h x).trans_eq ?_
    rw [tauSigma, matScale_eq, smul_mulVec, dotProduct_smul, smul_eq_mul]
  rw [posteriorCovariance_form]
  linear_combination hgap

end ViewedMarket

/-! ### The returned figures -/

theorem blackLitterman_master_formula {request : BlackLittermanRequest ℝ}
    {result : BlackLittermanResult ℝ} (hresult : blackLitterman request = .ok result) :
    ∃ p, validateBlackLittermanRequest request = .ok p ∧
      result.expectedReturns.entries.Perm
        ((List.finRange p.market.assets).map fun i => (p.market.labels i, p.masterMean i)) ∧
      (∀ (t : ℝ) (result' : BlackLittermanResult ℝ),
        blackLitterman { request with tau := t } = .ok result' →
          result'.expectedReturns = result.expectedReturns) ∧
      (p.views = 1 → ∀ i, p.pMatrix i ⬝ᵥ p.masterMean =
        (p.pMatrix i ⬝ᵥ p.priorMean + p.qVector i) / (1 + 1)) := by
  obtain ⟨p, b, w, hp, hb, hw, rfl⟩ := blackLitterman_eq_ok.mp hresult
  obtain ⟨homega, hmean, -⟩ := p.posterior_eq_ok hb
  have hmaster := hmean.trans (p.posteriorMean_eq homega)
  refine ⟨p, hp, ?_, ?_, ?_⟩
  · rw [← hmaster]
    exact assign_labels_perm p.market.labels_injective b.mean
  · intro t result' hresult'
    obtain ⟨p', b', w', hp', hb', hw', rfl⟩ := blackLitterman_eq_ok.mp hresult'
    have ht := p'.tau_pos
    rw [(checked_request hp').1] at ht
    rw [(checked_request hp).2 ht] at hp'
    cases hp'
    obtain ⟨homega', hmean', -⟩ := ViewedMarket.posterior_eq_ok _ hb'
    have hmaster' : b'.mean = b.mean :=
      hmean'.trans ((ViewedMarket.posteriorMean_eq _ homega').trans hmaster.symm)
    unfold ViewedMarket.resultOf
    simp only [hmaster']
  · intro hviews i
    rw [← p.posteriorMean_eq homega]
    exact p.posteriorMean_single homega hviews i

theorem blackLitterman_master_formula_bullish :
    ∃ result, blackLitterman (viewRequest 1) = .ok result ∧
    ∃ p, validateBlackLittermanRequest (viewRequest 1) = .ok p ∧
      result.expectedReturns.entries.Perm
        ((List.finRange p.market.assets).map fun i => (p.market.labels i, p.masterMean i)) ∧
      (∀ (t : ℝ) (result' : BlackLittermanResult ℝ),
        blackLitterman { viewRequest 1 with tau := t } = .ok result' →
          result'.expectedReturns = result.expectedReturns) ∧
      (p.views = 1 → ∀ i, p.pMatrix i ⬝ᵥ p.masterMean =
        (p.pMatrix i ⬝ᵥ p.priorMean + p.qVector i) / (1 + 1)) := by
  have hresult := blackLitterman_view viewRaw_bullish
  exact ⟨_, hresult, blackLitterman_master_formula hresult⟩

theorem views_never_add_uncertainty (request : BlackLittermanRequest ℝ) :
    (∀ result, blackLitterman request = .ok result →
      ∃ p, ∃ S : SquareMatrix ℝ p.market.assets, validateBlackLittermanRequest request = .ok p ∧
        result.covariance = (List.ofFn fun i => List.ofFn (S i)) ∧ (∀ i j, S i j = S j i) ∧
        (∀ x : Fin p.market.assets → ℝ, x ≠ 0 →
          x ⬝ᵥ Matrix.of p.market.covariance *ᵥ x < x ⬝ᵥ Matrix.of S *ᵥ x ∧
          x ⬝ᵥ Matrix.of S *ᵥ x ≤
            (1 + request.tau) * (x ⬝ᵥ Matrix.of p.market.covariance *ᵥ x)) ∧
        0 < result.portfolio.volatility) ∧
    (∀ p b w, validateBlackLittermanRequest request = .ok p → p.posterior = .ok b →
      optimizedWeights p.riskAversion b = .ok w → ∃ result, blackLitterman request = .ok result) := by
  constructor
  · intro result hresult
    obtain ⟨p, b, w, hp, hb, hw, rfl⟩ := blackLitterman_eq_ok.mp hresult
    obtain ⟨homega, -, hcov⟩ := p.posterior_eq_ok hb
    have hpos : (Matrix.of b.covariance).PosDef := hcov ▸ p.posteriorCovariance_posDef homega
    have hsum := optimizedWeights_sum hw (not_le.mp p.riskAversion_pos)
    refine ⟨p, b.covariance, hp, rfl, ?_, ?_, ?_⟩
    · intro i j
      have h := hpos.isHermitian.apply j i
      rw [star_trivial] at h
      exact h
    · intro x hx
      rw [hcov, ← (checked_request hp).1]
      exact ⟨p.lt_posteriorCovariance homega hx, p.posteriorCovariance_le homega x⟩
    · exact portfolioMetrics_volatility_pos hpos hsum b.mean 0
  · intro p b w hp hb hw
    exact ⟨_, blackLitterman_eq_ok.mpr ⟨p, b, w, hp, hb, hw, rfl⟩⟩

end StandardTools.Portfolio
