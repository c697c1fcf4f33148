import StandardTools.Portfolio.Frontier
import StandardTools.Portfolio.RiskParity

/-!
# What risk parity returns (`portfolio/risk_parity.cpp:142-231`)

Every round keeps the weights positive with sum 1, whatever the covariances are.
-/

namespace StandardTools.Portfolio
open Matrix StandardTools.Core StandardTools.Lib

variable {n : ℕ}

/-- Long only and fully invested. -/
structure OnSimplex (w : Fin n → ℝ) : Prop where
  pos : ∀ i, 0 < w i
  sum : ∑ i, w i = 1

theorem OnSimplex.assets_pos {w : Fin n → ℝ} (hw : OnSimplex w) : 0 < n := by
  apply Nat.pos_of_ne_zero
  intro hn
  subst hn
  have hsum := hw.sum
  rw [Finset.univ_eq_empty, Finset.sum_empty] at hsum
  exact zero_ne_one hsum

/-! ### One round -/

theorem clamped_pos (x : ℝ) : 0 < stdMax x (degeneracyEps : ℝ) := by
  rw [stdMax_real]
  exact lt_max_of_lt_right degeneracyEps_pos

theorem dampedWeights_eq (w rc : Fin n → ℝ) (target : ℝ) (i : Fin n) :
    dampedWeights w rc target i =
      w i / 2 + w i * target / (2 * stdMax (rc i) degeneracyEps) := by
  have hclamped := (clamped_pos (rc i)).ne'
  unfold dampedWeights damping
  field_simp
  push_cast
  ring

/-- A positive target pulls every weight up: at most its half is lost. -/
theorem half_lt_dampedWeights {w : Fin n → ℝ} (hw : OnSimplex w) (rc : Fin n → ℝ) {target : ℝ}
    (htarget : 0 < target) (i : Fin n) : w i / 2 < dampedWeights w rc target i := by
  have hclamped := clamped_pos (rc i)
  have hwi := hw.pos i
  rw [dampedWeights_eq]
  have hpull : 0 < w i * target / (2 * stdMax (rc i) degeneracyEps) := by positivity
  linarith

theorem half_le_sum_dampedWeights {w : Fin n → ℝ} (hw : OnSimplex w) (rc : Fin n → ℝ) {target : ℝ}
    (htarget : 0 < target) : 1 / 2 ≤ sumLoop (dampedWeights w rc target) := by
  rw [sumLoop_eq]
  calc (1 : ℝ) / 2 = ∑ i, w i / 2 := by rw [← Finset.sum_div, hw.sum]
    _ ≤ ∑ i, dampedWeights w rc target i :=
      Finset.sum_le_sum fun i _ => (half_lt_dampedWeights hw rc htarget i).le

theorem onSimplex_normalized {next : Fin n → ℝ} (hpos : ∀ i, 0 < next i)
    (hsum : 0 < sumLoop next) : OnSimplex fun i => next i / sumLoop next := by
  refine ⟨fun i => div_pos (hpos i) hsum, ?_⟩
  rw [← Finset.sum_div, ← sumLoop_eq]
  exact div_self hsum.ne'

theorem degeneracyEps_lt_half : (degeneracyEps : ℝ) < 1 / 2 := by
  unfold degeneracyEps
  norm_num

/-- What a round can do to weights on the simplex. -/
theorem riskParityRound_cases (cov : SquareMatrix ℝ n) {w : Fin n → ℝ} (hw : OnSimplex w) :
    let rc := riskContributions cov w
    (sumLoop rc < degeneracyEps ∧ riskParityRound cov w = .degenerate) ∨
    (degeneracyEps ≤ sumLoop rc ∧ riskConverged rc (sumLoop rc / n) = true ∧
      riskParityRound cov w = .converged) ∨
    (degeneracyEps ≤ sumLoop rc ∧ 1 / 2 ≤ sumLoop (dampedWeights w rc (sumLoop rc / n)) ∧
      ∃ w', OnSimplex w' ∧ riskParityRound cov w = .moved w') := by
  intro rc
  have hn : (0 : ℝ) < n := Nat.cast_pos.mpr hw.assets_pos
  unfold riskParityRound
  by_cases hdegenerate : sumLoop rc < degeneracyEps
  · exact Or.inl ⟨hdegenerate, if_pos hdegenerate⟩
  have htotal := not_lt.mp hdegenerate
  rw [if_neg hdegenerate]
  by_cases hconverged : riskConverged rc (sumLoop rc / n) = true
  · exact Or.inr (Or.inl ⟨htotal, hconverged, if_pos hconverged⟩)
  have htarget : 0 < sumLoop rc / n := div_pos (degeneracyEps_pos.trans_le htotal) hn
  have hhalf := half_le_sum_dampedWeights hw rc htarget
  have hnext := degeneracyEps_lt_half.trans_le hhalf
  rw [if_neg hconverged]
  refine Or.inr (Or.inr ⟨htotal, hhalf, _, ?_, if_neg (not_lt.mpr hnext.le)⟩)
  apply onSimplex_normalized
  · intro i
    exact (half_pos (hw.pos i)).trans (half_lt_dampedWeights hw rc htarget i)
  · exact degeneracyEps_pos.trans hnext

/-! ### A whole run -/

theorem riskParityLoop_onSimplex (cov : SquareMatrix ℝ n) (rounds : ℕ) {w : Fin n → ℝ}
    (hw : OnSimplex w) : OnSimplex (riskParityLoop cov rounds w) := by
  induction rounds generalizing w with
  | zero => exact hw
  | succ rounds ih =>
    rw [riskParityLoop]
    obtain ⟨-, hround⟩ | ⟨-, -, hround⟩ | ⟨-, -, w', hw', hround⟩ := riskParityRound_cases cov hw
    · rw [hround]
      exact hw
    · rw [hround]
      exact hw
    · rw [hround]
      exact ih hw'

theorem equalWeights_onSimplex (hn : 0 < n) : OnSimplex (equalWeights n : Fin n → ℝ) := by
  have hcast : (0 : ℝ) < n := Nat.cast_pos.mpr hn
  refine ⟨fun i => one_div_pos.mpr hcast, ?_⟩
  unfold equalWeights
  rw [Finset.sum_const, Finset.card_univ, Fintype.card_fin, nsmul_eq_mul]
  exact mul_one_div_cancel hcast.ne'

/-! ### The result -/

variable {m : ReturnMatrix ℝ}

/-- The weights where the loop ends. -/
noncomputable def ReturnMatrix.parityWeights (m : ReturnMatrix ℝ) : Fin m.assets → ℝ :=
  riskParityLoop m.sampleCovariance riskParityRounds (equalWeights m.assets)

noncomputable def ReturnMatrix.parityResult (m : ReturnMatrix ℝ) : PortfolioResult ℝ :=
  let figures := portfolioMetrics m.parityWeights m.means m.sampleCovariance 0
  { weights := StdMap.empty.assign
      ((List.finRange m.assets).map fun i => (m.labels i, m.parityWeights i))
    expectedReturn := figures.expectedReturn
    volatility := figures.volatility
    sharpeRatio := figures.sharpe }

theorem parityWeights_onSimplex (m : ReturnMatrix ℝ) : OnSimplex m.parityWeights :=
  riskParityLoop_onSimplex _ _ (equalWeights_onSimplex m.assets_pos)

/-- `Validate` has nothing to reject. -/
theorem riskParity_eq_ok {request : RiskParityRequest ℝ}
    (hm : validateReturnMatrix request.returns request.labels = .ok m)
    (hvariance : ¬sumLoop (fun i => m.sampleCovariance i i) < degeneracyEps) :
    riskParity request = .ok m.parityResult := by
  refine bind_eq_ok.mpr ⟨m, hm, ?_⟩
  simp only [if_neg hvariance]
  exact buildResult_of_sum m.labels_injective (parityWeights_onSimplex m).sum (Real.sqrt_nonneg _)

theorem riskParity_inv {request : RiskParityRequest ℝ} {result : PortfolioResult ℝ}
    (hm : validateReturnMatrix request.returns request.labels = .ok m)
    (hresult : riskParity request = .ok result) :
    ¬sumLoop (fun i => m.sampleCovariance i i) < degeneracyEps ∧ result = m.parityResult := by
  by_cases hvariance : sumLoop (fun i => m.sampleCovariance i i) < degeneracyEps
  · obtain ⟨m', hm', h⟩ := bind_eq_ok.mp hresult
    rw [hm] at hm'
    cases hm'
    simp only [if_pos hvariance] at h
    cases h
  · rw [riskParity_eq_ok hm hvariance] at hresult
    cases hresult
    exact ⟨hvariance, rfl⟩

theorem parityResult_entries (m : ReturnMatrix ℝ) :
    m.parityResult.weights.entries.Perm
      ((List.finRange m.assets).map fun i => (m.labels i, m.parityWeights i)) :=
  assign_labels_perm m.labels_injective m.parityWeights

theorem riskParity_onSimplex {request : RiskParityRequest ℝ}
    (hm : validateReturnMatrix request.returns request.labels = .ok m)
    (hvariance : ¬sumLoop (fun i => m.sampleCovariance i i) < degeneracyEps) :
    (∀ rounds : ℕ,
      let w := riskParityLoop m.sampleCovariance rounds (equalWeights m.assets)
      let rc := riskContributions m.sampleCovariance w
      (∀ i, 0 < w i) ∧ ∑ i, w i = 1 ∧
      (degeneracyEps ≤ sumLoop rc →
        1 / 2 ≤ sumLoop (dampedWeights w rc (sumLoop rc / m.assets))) ∧
      riskParityRound m.sampleCovariance w ≠ .vanished ∧
      (m.assets : ℝ) ≠ 0 ∧ ∀ i, stdMax (rc i) degeneracyEps ≠ 0) ∧
    ∃ result, riskParity request = .ok result ∧ result.validate = .ok () ∧
      result.weights.entries.length = m.assets ∧
      (∀ e ∈ result.weights.entries, 0 < e.2) ∧
      (result.weights.entries.map Prod.snd).sum = 1 := by
  have hassets : (0 : ℝ) < m.assets := Nat.cast_pos.mpr m.assets_pos
  constructor
  · intro rounds w rc
    have hw : OnSimplex w := riskParityLoop_onSimplex _ rounds (equalWeights_onSimplex m.assets_pos)
    refine ⟨hw.pos, hw.sum, ?_, ?_, hassets.ne', fun i => (clamped_pos (rc i)).ne'⟩
    · intro htotal
      exact half_le_sum_dampedWeights hw rc (div_pos (degeneracyEps_pos.trans_le htotal) hassets)
    · intro hvanished
      obtain ⟨-, hround⟩ | ⟨-, -, hround⟩ | ⟨-, -, w', -, hround⟩ :=
        riskParityRound_cases m.sampleCovariance hw
      · rw [hround] at hvanished
        cases hvanished
      · rw [hround] at hvanished
        cases hvanished
      · rw [hround] at hvanished
        cases hvanished
  · have hresult := riskParity_eq_ok hm hvariance
    have hw := parityWeights_onSimplex m
    refine ⟨_, hresult, ?_, ?_, ?_, ?_⟩
    · obtain ⟨m', hm', h⟩ := bind_eq_ok.mp hresult
      rw [hm] at hm'
      cases hm'
      simp only [if_neg hvariance] at h
      obtain ⟨u, hvalid, h⟩ := bind_eq_ok.mp h
      exact hvalid
    · rw [(parityResult_entries m).length_eq, List.length_map, List.length_finRange]
    · intro e he
      obtain ⟨i, -, rfl⟩ := List.mem_map.mp ((parityResult_entries m).mem_iff.mp he)
      exact hw.pos i
    · exact (assign_labels_sum m.labels_injective m.parityWeights).trans hw.sum

/-! ### Two uncorrelated assets -/

/-- `A` swings by `a` and `B` by `b`, at times of their own. -/
def swingRequest (a b : ℝ) : RiskParityRequest ℝ where
  returns := [[a, 0, a, 0], [b, b, 0, 0]]
  labels := ["A", "B"]

abbrev swingMarket (a b : ℝ) : ReturnMatrix ℝ where
  assets := 2
  obs := 4
  returns := fun i t => ([[a, 0, a, 0], [b, b, 0, 0]].get i).getD t 0
  labels := fun i => ["A", "B"].get i
  assets_pos := stillMarket.assets_pos
  assets_le := stillMarket.assets_le
  obs_two := by decide
  labels_injective := stillMarket.labels_injective

theorem validate_swing (a b : ℝ) :
    validateReturnMatrix (swingRequest a b).returns (swingRequest a b).labels =
      .ok (swingMarket a b) := rfl

theorem means_swing (a b : ℝ) (i : Fin 2) :
    (swingMarket a b).means i = (if i = 0 then a else b) / 2 := by
  unfold ReturnMatrix.means
  rw [sumLoop_eq, Fin.sum_univ_four]
  fin_cases i
  · norm_num
    ring
  · norm_num
    ring

noncomputable def swingVariance (a b : ℝ) (i : Fin 2) : ℝ :=
  (if i.val = 0 then a * a else b * b) / ((3 : ℕ) : ℝ)

theorem sampleCovariance_swing (a b : ℝ) :
    (swingMarket a b).sampleCovariance = fun i j => if i = j then swingVariance a b i else 0 := by
  funext i j
  unfold ReturnMatrix.sampleCovariance ReturnMatrix.centered swingVariance
  simp only [sumLoop_eq, means_swing, Fin.sum_univ_four]
  fin_cases i <;> fin_cases j <;> norm_num <;> ring

theorem riskParity_swing {a b : ℝ} (hvariance : degeneracyEps ≤ a * a / 3 + b * b / 3) :
    riskParity (swingRequest a b) = .ok (swingMarket a b).parityResult := by
  apply riskParity_eq_ok (validate_swing a b)
  rw [sampleCovariance_swing, sumLoop_eq, Fin.sum_univ_two, not_lt]
  exact hvariance

theorem riskParity_onSimplex_swing :
    ∃ result, riskParity (swingRequest 1 1) = .ok result ∧ result.validate = .ok () ∧
      result.weights.entries.length = 2 ∧ (∀ e ∈ result.weights.entries, 0 < e.2) ∧
      (result.weights.entries.map Prod.snd).sum = 1 := by
  have hvariance :
      ¬sumLoop (fun i => (swingMarket 1 1).sampleCovariance i i) < (degeneracyEps : ℝ) := by
    rw [sampleCovariance_swing, sumLoop_eq, Fin.sum_univ_two]
    unfold swingVariance degeneracyEps
    norm_num
  exact (riskParity_onSimplex (validate_swing 1 1) hvariance).2

end StandardTools.Portfolio
