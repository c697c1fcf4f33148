import StandardTools.Portfolio.Frontier

/-!
# Targets of return and of volatility (`portfolio/optimizer.cpp:274-320`, `394-422`)

The mean return of a blend is linear in the share of the maximum-Sharpe fund.
Its variance is quadratic, and has no linear term: the covariance of any fund
with the minimum-variance fund is the minimum variance. So the positive root is
the share at which the target is met.
-/

namespace StandardTools.Portfolio
open Matrix StandardTools.Core StandardTools.Lib

/-! ### Clamps and roots -/

theorem stdMin_real (a b : ℝ) : stdMin a b = min a b := by
  unfold stdMin
  split_ifs with h
  · exact (min_eq_right h.le).symm
  · exact (min_eq_left (not_lt.mp h)).symm

theorem clamp_real {v low high : ℝ} (h : low ≤ high) : clamp v low high = max low (min high v) := by
  unfold clamp
  split_ifs with hlow hhigh
  · rw [min_eq_right (hlow.le.trans h), max_eq_left hlow.le]
  · rw [min_eq_left hhigh.le, max_eq_right h]
  · rw [min_eq_right (not_lt.mp hhigh), max_eq_right (not_lt.mp hlow)]

theorem solveQuadraticForBlend_flat {a c : ℝ} (ha : |a| < degeneracyEps) :
    solveQuadraticForBlend a 0 c = 1 / 2 := by
  unfold solveQuadraticForBlend
  simp only [abs_real, ha, or_true, if_true, abs_zero, degeneracyEps_pos]
  norm_num

/-- Without a linear term the larger root is the square root of `d / a`. -/
theorem solveQuadraticForBlend_root {a d : ℝ} (ha : degeneracyEps ≤ a) (hd : 0 ≤ d) (hle : d ≤ a) :
    solveQuadraticForBlend a 0 (-d) = √(d / a) := by
  have hpos : 0 < a := degeneracyEps_pos.trans_le ha
  have hdiscriminant : (0 : ℝ) * 0 - ((4 : ℕ) : ℝ) * a * -d =
      (((2 : ℕ) : ℝ) * a) ^ 2 * (d / a) := by
    push_cast
    field_simp
    ring
  have hroot : √((((2 : ℕ) : ℝ) * a) ^ 2 * (d / a)) = ((2 : ℕ) : ℝ) * a * √(d / a) := by
    rw [Real.sqrt_mul (sq_nonneg _), Real.sqrt_sq (by positivity)]
  have hsmall : ¬((((2 : ℕ) : ℝ) * a) ^ 2 * (d / a) < 0 ∨ |a| < degeneracyEps) := by
    rw [abs_of_pos hpos, not_or, not_lt, not_lt]
    exact ⟨by positivity, ha⟩
  have hscale : ((2 : ℕ) : ℝ) * a ≠ 0 := by positivity
  have hunit : √(d / a) ≤ 1 := Real.sqrt_le_one.mpr ((div_le_one hpos).mpr hle)
  unfold solveQuadraticForBlend
  simp only [hdiscriminant, abs_real, sqrt_real, if_neg hsmall, hroot, neg_zero, zero_add, zero_sub,
    neg_div, mul_div_cancel_left₀ _ hscale, stdMax_real]
  rw [max_eq_left (neg_le_self (Real.sqrt_nonneg _)), clamp_real zero_le_one, min_eq_right hunit,
    max_eq_right (Real.sqrt_nonneg _)]

/-! ### Blends -/

variable {m : ReturnMatrix ℝ}

theorem blend_mean (wMs wMv : Fin m.assets → ℝ) (alpha : ℝ) :
    m.mean (blend wMs wMv alpha) = m.mean wMv + alpha * (m.mean wMs - m.mean wMv) := by
  rw [blend_eq, map_add, map_smul, map_smul, smul_eq_mul, smul_eq_mul]
  ring

/-- The gradient at the fund of least variance does not tell funds apart. -/
theorem minVarianceFund_form {inv : SquareMatrix ℝ m.assets} {wMv : Fin m.assets → ℝ}
    (hinv : matInverse m.covariance = .ok inv) (hmv : minVarianceFund inv = .ok wMv)
    {v : Fin m.assets → ℝ} (hv : m.budget v = 1) : m.form wMv v = m.form wMv wMv := by
  obtain ⟨hsum, b, hgradient⟩ := minVarianceFund_gradient hinv hmv
  rw [hgradient v, hgradient wMv, hv, hsum]

theorem blend_form {wMs wMv : Fin m.assets → ℝ} (hcov : m.form wMv wMs = m.form wMv wMv)
    (alpha : ℝ) : m.form (blend wMs wMv alpha) (blend wMs wMv alpha) =
      m.form wMv wMv + alpha ^ 2 * (m.form wMs wMs - m.form wMv wMv) := by
  have hsymm : m.form wMs wMv = m.form wMv wMv := (m.form_isSymm.eq wMs wMv).trans hcov
  rw [blend_eq]
  simp only [map_add, map_smul, LinearMap.add_apply, LinearMap.smul_apply, smul_eq_mul, hcov, hsymm]
  ring

/-- Clamping the share clamps the blend, whichever end is the larger. -/
theorem clamp_share {low high : ℝ} (hne : high - low ≠ 0) (target : ℝ) :
    low + max 0 (min 1 ((target - low) / (high - low))) * (high - low) =
      max (min low high) (min (max low high) target) := by
  have hshare : (target - low) / (high - low) * (high - low) = target - low := div_mul_cancel₀ _ hne
  rcases lt_or_gt_of_ne hne with hneg | hpos
  · have hle : high ≤ low := (sub_neg.mp hneg).le
    have hflip : Antitone (· * (high - low)) := fun _ _ h => mul_le_mul_of_nonpos_right h hneg.le
    have hmax := hflip.map_max (a := 0) (b := min 1 ((target - low) / (high - low)))
    have hmin := hflip.map_min (a := 1) (b := (target - low) / (high - low))
    rw [hmax, hmin, hshare, zero_mul, one_mul, ← min_add_add_left, ← max_add_add_left, add_zero,
      add_sub_cancel, add_sub_cancel, min_eq_right hle, max_eq_left hle, max_min_distrib_left,
      max_eq_right hle]
  · have hle : low ≤ high := (sub_pos.mp hpos).le
    rw [max_mul_of_nonneg _ _ hpos.le, min_mul_of_nonneg _ _ hpos.le, hshare, zero_mul, one_mul,
      ← max_add_add_left, ← min_add_add_left, add_zero, add_sub_cancel, add_sub_cancel,
      min_eq_left hle, max_eq_right hle]

theorem targetReturnBlend_mean {wMs wMv : Fin m.assets → ℝ} (target : ℝ)
    (hne : degeneracyEps ≤ |m.mean wMs - m.mean wMv|) :
    m.mean (targetReturnBlend wMs wMv target (m.mean wMv) (m.mean wMs)) =
      max (min (m.mean wMv) (m.mean wMs)) (min (max (m.mean wMv) (m.mean wMs)) target) := by
  unfold targetReturnBlend
  simp only [abs_real, if_pos hne, clamp_real zero_le_one]
  rw [blend_mean]
  exact clamp_share (ne_zero_of_not_degenerate (not_lt.mpr hne)) target

/-! ### Volatility -/

theorem deviation_le_iff {v w : Fin m.assets → ℝ} :
    m.deviation v ≤ m.deviation w ↔ m.form v v ≤ m.form w w :=
  Real.sqrt_le_sqrt_iff (apply_self_nonneg m.form_pos w)

/-- The variance of a blend has no term which is linear in the share. -/
theorem blend_deviation {wMs wMv : Fin m.assets → ℝ} (hcov : m.form wMv wMs = m.form wMv wMv)
    (alpha : ℝ) : m.deviation (blend wMs wMv alpha) =
      √(m.deviation wMv ^ 2 + alpha ^ 2 * (m.deviation wMs ^ 2 - m.deviation wMv ^ 2)) := by
  rw [(m.deviation_root wMv).2, (m.deviation_root wMs).2, ← blend_form hcov]
  rfl

/-- The solved share meets the target, or stays between the ends where they do not differ. -/
theorem solved_deviation {low high t : ℝ} (hlow : 0 ≤ low) (hlt : low ≤ t) (hth : t ≤ high) :
    let alpha := solveQuadraticForBlend (high ^ 2 - low ^ 2) 0 (-(t ^ 2 - low ^ 2))
    let deviation := √(low ^ 2 + alpha ^ 2 * (high ^ 2 - low ^ 2))
    (low ≤ deviation ∧ deviation ≤ high) ∧
      (degeneracyEps ≤ high ^ 2 - low ^ 2 → deviation = t) := by
  have hsq : low ^ 2 ≤ t ^ 2 := pow_le_pow_left₀ hlow hlt 2
  have hsq' : t ^ 2 ≤ high ^ 2 := pow_le_pow_left₀ (hlow.trans hlt) hth 2
  intro alpha deviation
  by_cases hflat : degeneracyEps ≤ high ^ 2 - low ^ 2
  · have hpos : 0 < high ^ 2 - low ^ 2 := degeneracyEps_pos.trans_le hflat
    have halpha : alpha = √((t ^ 2 - low ^ 2) / (high ^ 2 - low ^ 2)) :=
      solveQuadraticForBlend_root hflat (sub_nonneg.mpr hsq) (by linarith)
    have hmet : deviation = t := by
      simp only [deviation, halpha]
      rw [Real.sq_sqrt (div_nonneg (sub_nonneg.mpr hsq) hpos.le), div_mul_cancel₀ _ hpos.ne',
        add_sub_cancel, Real.sqrt_sq (hlow.trans hlt)]
    rw [hmet]
    exact ⟨⟨hlt, hth⟩, fun _ => rfl⟩
  · have hsmall : |high ^ 2 - low ^ 2| < degeneracyEps := by
      rw [abs_of_nonneg (by linarith)]
      exact not_le.mp hflat
    have halpha : alpha = 1 / 2 := solveQuadraticForBlend_flat hsmall
    simp only [deviation, halpha]
    refine ⟨⟨?_, ?_⟩, fun hgap => absurd hgap hflat⟩
    · refine Real.le_sqrt_of_sq_le ?_
      linarith
    · refine (Real.sqrt_le_left (hlow.trans (hlt.trans hth))).mpr ?_
      linarith

theorem targetVolatilityBlend_deviation {wMs wMv : Fin m.assets → ℝ}
    (hcov : m.form wMv wMs = m.form wMv wMv) (hle : m.deviation wMv ≤ m.deviation wMs)
    (target : ℝ) :
    let w := targetVolatilityBlend wMs wMv m.covariance target (m.deviation wMv) (m.deviation wMs)
    (m.deviation wMv ≤ m.deviation w ∧ m.deviation w ≤ m.deviation wMs) ∧
      (degeneracyEps ≤ m.deviation wMs - m.deviation wMv →
        degeneracyEps ≤ m.deviation wMs ^ 2 - m.deviation wMv ^ 2 →
          m.deviation w = max (m.deviation wMv) (min (m.deviation wMs) target)) := by
  obtain ⟨hlow, -⟩ := m.deviation_root wMv
  have hcross : vecDot wMs (vecDotMat m.covariance wMv) = m.deviation wMv ^ 2 := by
    rw [vecDot_eq, vecDotMat_eq, ← m.form_apply, (m.deviation_root wMv).2, ← hcov]
    exact m.form_isSymm.eq wMs wMv
  unfold targetVolatilityBlend
  simp only [stdMax_real, stdMin_real, abs_real, hcross]
  set low := m.deviation wMv
  set high := m.deviation wMs
  set t := max low (min high target)
  have hlt : low ≤ t := le_max_left _ _
  have hth : t ≤ high := max_le hle (min_le_left _ _)
  by_cases hmv : t ≤ low ∨ |high - low| < degeneracyEps
  · rw [if_pos hmv]
    refine ⟨⟨le_refl _, hle⟩, fun hgap _ => ?_⟩
    rcases hmv with hmv | hmv
    · exact le_antisymm hlt hmv
    · exact absurd (hgap.trans (le_abs_self _)) (not_le.mpr hmv)
  rw [if_neg hmv]
  by_cases hms : high ≤ t
  · rw [if_pos hms]
    exact ⟨⟨hle, le_refl _⟩, fun _ _ => le_antisymm hms hth⟩
  rw [if_neg hms]
  have ha : high * high + low * low - ((2 : ℕ) : ℝ) * low ^ 2 = high ^ 2 - low ^ 2 := by
    push_cast
    ring
  have hb : ((2 : ℕ) : ℝ) * low ^ 2 - ((2 : ℕ) : ℝ) * (low * low) = 0 := by ring
  have hc : low * low - t * t = -(t ^ 2 - low ^ 2) := by ring
  rw [ha, hb, hc, blend_deviation hcov]
  obtain ⟨hbetween, hmet⟩ := solved_deviation hlow hlt hth
  exact ⟨hbetween, fun _ => hmet⟩

/-! ### The objectives -/

theorem target_objectives_met {request : MeanVarianceRequest ℝ} {result : PortfolioResult ℝ}
    (h : meanVariance request = .ok result) :
    ∃ m inv wMv, validateReturnMatrix request.returns request.labels = .ok m ∧
      matInverse m.covariance = .ok inv ∧ minVarianceFund inv = .ok wMv ∧
      let wMs := maxSharpeFund inv m.means request.riskFreeRate wMv
      let mv := portfolioMetrics wMv m.means m.covariance request.riskFreeRate
      let ms := portfolioMetrics wMs m.means m.covariance request.riskFreeRate
      (∀ target, request.objective = objectiveTargetReturn → request.targetReturn = some target →
        degeneracyEps ≤ |ms.expectedReturn - mv.expectedReturn| →
        result.expectedReturn = max (min mv.expectedReturn ms.expectedReturn)
          (min (max mv.expectedReturn ms.expectedReturn) target)) ∧
      (∀ target, request.objective = objectiveTargetVolatility →
        request.targetVolatility = some target →
        (mv.volatility ≤ result.volatility ∧ result.volatility ≤ ms.volatility) ∧
        (degeneracyEps ≤ ms.volatility - mv.volatility →
          degeneracyEps ≤ ms.volatility ^ 2 - mv.volatility ^ 2 →
          result.volatility = max mv.volatility (min ms.volatility target))) := by
  obtain ⟨m, objective, w, hm, hobjective, hweights, rfl⟩ := meanVariance_eq_ok.mp h
  obtain ⟨inv, wMv, hinv, hmv, rfl⟩ := weights_eq_ok.mp hweights
  refine ⟨m, inv, wMv, hm, hinv, hmv, ?_, ?_⟩
  · intro target hname htarget hne
    have hreturn : objective = .targetReturn target := by
      unfold MeanVarianceRequest.checkedObjective at hobjective
      rw [if_pos hname, htarget] at hobjective
      exact (Except.ok.inj hobjective).symm
    subst hreturn
    simp only [ReturnMatrix.resultOf, ReturnMatrix.combine, expectedReturn_eq] at hne ⊢
    exact targetReturnBlend_mean target hne
  · intro target hname htarget
    have hvolatility : objective = .targetVolatility target := by
      unfold MeanVarianceRequest.checkedObjective at hobjective
      rw [if_neg (by rw [hname]; decide), if_pos hname, htarget] at hobjective
      simp only at hobjective
      split_ifs at hobjective
      exact (Except.ok.inj hobjective).symm
    subst hvolatility
    have hms : m.IsFund (maxSharpeFund inv m.means request.riskFreeRate wMv) :=
      maxSharpeFund_isFund hinv (minVarianceFund_isFund hinv hmv)
    have hcov := minVarianceFund_form hinv hmv hms.2
    have hle : m.deviation wMv ≤ m.deviation (maxSharpeFund inv m.means request.riskFreeRate wMv) :=
      deviation_le_iff.mpr (minVarianceFund_minimal hinv hmv ((m.budget_apply _).symm.trans hms.2))
    simp only [ReturnMatrix.resultOf, ReturnMatrix.combine, volatility_eq]
    exact targetVolatilityBlend_deviation hcov hle target

theorem target_objectives_met_quarter :
    ∃ result, meanVariance ⟨[[1, 0], [0, 0]], ["A", "B"], 0, objectiveTargetVolatility, none,
        some (1 / 4)⟩ = .ok result ∧
      ∃ (m : ReturnMatrix ℝ) (inv : SquareMatrix ℝ m.assets) (wMv : Fin m.assets → ℝ),
        validateReturnMatrix [[1, 0], [0, 0]] ["A", "B"] = .ok m ∧
        matInverse m.covariance = .ok inv ∧ minVarianceFund inv = .ok wMv ∧
        let wMs := maxSharpeFund inv m.means 0 wMv
        (portfolioMetrics wMv m.means m.covariance 0).volatility ≤ result.volatility ∧
          result.volatility ≤ (portfolioMetrics wMs m.means m.covariance 0).volatility := by
  have hobjective : MeanVarianceRequest.checkedObjective ⟨[[(1 : ℝ), 0], [0, 0]], ["A", "B"], 0,
      objectiveTargetVolatility, none, some (1 / 4)⟩ = .ok (.targetVolatility (1 / 4)) := by
    unfold MeanVarianceRequest.checkedObjective
    rw [if_neg (by decide), if_pos rfl]
    simp only [isFinite_real]
    rw [if_neg (by norm_num)]
  obtain ⟨w, -, h⟩ := meanVariance_still rfl rfl hobjective
  obtain ⟨m, inv, wMv, hm, hinv, hmv, -, hvolatility⟩ := target_objectives_met h
  exact ⟨_, h, m, inv, wMv, hm, hinv, hmv, (hvolatility (1 / 4) rfl rfl).1⟩

end StandardTools.Portfolio
