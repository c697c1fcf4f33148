import StandardTools.Analysis.NoArbitrage
import StandardTools.Core.Checked

/-!
# The domain of the option formulas (`analysis/calculator.cpp:685-756`)

The formulas are read in the arithmetic which loses its value outside the domain
of an operation. Maturity and volatility are checked to be positive and so are
the divisors made of them. The spot and the strike are checked not to be
negative only; the strike divides and their quotient goes to the logarithm.
-/

namespace StandardTools.Analysis
open StandardTools.Core StandardTools.Lib

/-! ### The same parameters in checked arithmetic -/

def BlackScholesParams.checked (p : BlackScholesParams ℝ) : BlackScholesParams Checked where
  spot := .of p.spot
  strike := .of p.strike
  riskFreeRate := .of p.riskFreeRate
  volatility := .of p.volatility
  timeToMaturity := .of p.timeToMaturity
  optionType := p.optionType

def OptionPricingResult.checked (r : OptionPricingResult ℝ) : OptionPricingResult Checked where
  price := .of r.price
  delta := .of r.delta
  gamma := .of r.gamma
  vega := .of r.vega
  theta := .of r.theta
  rho := .of r.rho

theorem checkParams_checked (p : BlackScholesParams ℝ) : checkParams p.checked = checkParams p := by
  have hfinite : validateFinite [p.checked.spot, p.checked.strike, p.checked.riskFreeRate,
      p.checked.volatility, p.checked.timeToMaturity] "Black-Scholes inputs" = .ok () := by
    simp [validateFinite, BlackScholesParams.checked]
  rw [checkParams, checkParams, hfinite, validateFinite_real]
  simp only [BlackScholesParams.checked, Checked.zero_eq, Checked.lt_of_iff, Checked.beq_of_iff,
    beq_iff_eq]

/-! ### The distribution -/

theorem decimal_checked (digits : ℤ) (places : ℕ) :
    (decimal digits places : Checked) = .of (decimal digits places) := by
  have hpos : ((10 ^ places : ℕ) : ℝ) ≠ 0 := Nat.cast_ne_zero.mpr (pow_ne_zero _ (by decide))
  rw [decimal, Checked.intCast_eq, Checked.natCast_eq, Checked.div_of _ hpos]
  rfl

theorem cdfPoly_checked (t : ℝ) : cdfPoly (Checked.of t) = .of (cdfPoly t) := by
  simp only [cdfPoly, decimal_checked, Checked.mul_of, Checked.add_of]

theorem upperNormalCdf_checked {x : ℝ} (hx : 0 ≤ x) :
    upperNormalCdf (Checked.of x) = .of (upperNormalCdf x) := by
  have htwo : ((2 : ℕ) : ℝ) ≠ 0 := Nat.cast_ne_zero.mpr two_ne_zero
  have hp : 0 ≤ (decimal 2316419 7 : ℝ) * x := mul_nonneg (decimal_pos 7 (by decide)).le hx
  have hdivisor : 1 + (decimal 2316419 7 : ℝ) * x ≠ 0 := by positivity
  simp only [upperNormalCdf, decimal_checked, Checked.one_eq, Checked.natCast_eq, Checked.neg_of,
    Checked.mul_of, Checked.add_of, Checked.div_of _ hdivisor, Checked.div_of _ htwo,
    Checked.exp_of, Checked.sub_of, cdfPoly_checked, exp_real]

theorem normalCdf_checked (x : ℝ) : normalCdf (Checked.of x) = .of (normalCdf x) := by
  rw [normalCdf, normalCdf]
  simp only [Checked.isInf_eq, isInf_real, Checked.zero_eq, Checked.le_of_iff]
  by_cases hx : 0 ≤ x
  · simp only [hx, if_true, Bool.false_eq_true, if_false, upperNormalCdf_checked]
  · have hneg : 0 ≤ -x := neg_nonneg.mpr (not_le.mp hx).le
    simp only [hx, Bool.false_eq_true, if_false, Checked.neg_of, upperNormalCdf_checked hneg,
      Checked.one_eq, Checked.sub_of]

theorem normalPdf_checked (x : ℝ) : normalPdf (Checked.of x) = .of (normalPdf x) := by
  have htwo : ((2 : ℕ) : ℝ) ≠ 0 := Nat.cast_ne_zero.mpr two_ne_zero
  have hpi : 0 < ((2 : ℕ) : ℝ) * decimal 314159265358979323846 20 :=
    mul_pos (Nat.cast_pos.mpr two_pos) (decimal_pos 20 (by decide))
  have hroot : Real.sqrt (((2 : ℕ) : ℝ) * decimal 314159265358979323846 20) ≠ 0 :=
    (Real.sqrt_pos.mpr hpi).ne'
  simp only [normalPdf, decimal_checked, Checked.natCast_eq, Checked.neg_of, Checked.mul_of,
    Checked.div_of _ htwo, Checked.exp_of, Checked.sqrt_of hpi.le, Checked.div_of _ hroot,
    exp_real, sqrt_real]

/-! ### The formulas -/

section Formulas
variable {p : BlackScholesParams ℝ}

theorem sqrtT_checked (hmaturity : 0 < p.timeToMaturity) : p.checked.sqrtT = .of p.sqrtT :=
  Checked.sqrt_of hmaturity.le

theorem Priced.d1_checked (h : Priced p) : p.checked.d1 = .of p.d1 := by
  have htwo : ((2 : ℕ) : ℝ) ≠ 0 := Nat.cast_ne_zero.mpr two_ne_zero
  have hratio : 0 < p.spot / p.strike := div_pos h.spot_pos h.strike_pos
  have hspread := h.spread_pos.ne'
  rw [BlackScholesParams.d1, sqrtT_checked h.maturity_pos]
  simp only [BlackScholesParams.checked, Checked.div_of _ h.strike_pos.ne', Checked.log_of hratio,
    Checked.one_eq, Checked.natCast_eq, Checked.div_of _ htwo, Checked.mul_of, Checked.add_of,
    Checked.div_of _ hspread]
  rfl

theorem Priced.d2_checked (h : Priced p) : p.checked.d2 = .of p.d2 := by
  rw [BlackScholesParams.d2, h.d1_checked, sqrtT_checked h.maturity_pos]
  rfl

/-- Of priced parameters every operation is within its domain. -/
theorem Priced.pricing_checked (h : Priced p) : p.checked.pricing = p.pricing.checked := by
  have hsqrt : 0 < p.sqrtT := Real.sqrt_pos.mpr h.maturity_pos
  have hgamma : p.spot * p.volatility * p.sqrtT ≠ 0 :=
    (mul_pos (mul_pos h.spot_pos h.volatility_pos) hsqrt).ne'
  have htheta : ((2 : ℕ) : ℝ) * p.sqrtT ≠ 0 := (mul_pos (Nat.cast_pos.mpr two_pos) hsqrt).ne'
  have hdiscount : p.checked.discount = .of p.discount := rfl
  have hfields : p.checked.spot = .of p.spot ∧ p.checked.strike = .of p.strike ∧
      p.checked.riskFreeRate = .of p.riskFreeRate ∧ p.checked.volatility = .of p.volatility ∧
      p.checked.timeToMaturity = .of p.timeToMaturity := ⟨rfl, rfl, rfl, rfl, rfl⟩
  have hside : p.checked.optionType = p.optionType := rfl
  unfold BlackScholesParams.pricing
  rw [h.d1_checked, h.d2_checked, sqrtT_checked h.maturity_pos, hdiscount, hside]
  cases p.optionType with
  | call =>
    simp only [hfields, Checked.neg_of, normalCdf_checked, normalPdf_checked, Checked.natCast_eq,
      Checked.mul_of, Checked.sub_of, Checked.div_of _ hgamma, Checked.div_of _ htheta,
      OptionPricingResult.checked]
  | put =>
    simp only [hfields, Checked.neg_of, normalCdf_checked, normalPdf_checked, Checked.natCast_eq,
      Checked.one_eq, Checked.mul_of, Checked.sub_of, Checked.add_of, Checked.div_of _ hgamma,
      Checked.div_of _ htheta, OptionPricingResult.checked]

/-- A spot or a strike of zero leaves the logarithm without a value. -/
theorem d1_none (hstrike : 0 ≤ p.strike) (h : ¬(0 < p.spot ∧ 0 < p.strike)) : p.checked.d1 = .none := by
  have hlog : Cmath.log (p.checked.spot / p.checked.strike) = Checked.none := by
    change Cmath.log (Checked.of p.spot / Checked.of p.strike) = Checked.none
    rcases hstrike.lt_or_eq with hpos | hzero
    · have hspot0 : p.spot ≤ 0 := not_lt.mp fun hlt => h ⟨hlt, hpos⟩
      rw [Checked.div_of _ hpos.ne']
      exact Checked.log_of_nonpos (div_nonpos_of_nonpos_of_nonneg hspot0 hpos.le)
    · rw [← hzero, Checked.div_zero, Checked.log_none]
  rw [BlackScholesParams.d1, hlog, Checked.none_add, Checked.none_div]

theorem vega_none (hd1 : p.checked.d1 = .none) : p.checked.pricing.vega = .none := by
  have hpdf : normalPdf Checked.none = Checked.none := by
    simp only [normalPdf, Checked.neg_none, Checked.none_mul, Checked.none_div, Checked.exp_none]
  have hvega : p.checked.pricing.vega =
      p.checked.spot * normalPdf p.checked.d1 * p.checked.sqrtT := by
    unfold BlackScholesParams.pricing
    cases p.checked.optionType with
    | call => rfl
    | put => rfl
  rw [hvega, hd1, hpdf, Checked.mul_none, Checked.none_mul]

end Formulas

/-- Every operation of an accepted request is within its domain, and the results
are numbers, exactly when the spot and the strike are positive. -/
theorem options_defined_iff (p : BlackScholesParams ℝ) (r : OptionPricingResult Checked)
    (h : options (some p.checked) = .ok r) :
    (∃ s : OptionPricingResult ℝ, options (some p) = .ok s ∧ r = s.checked) ↔
      0 < p.spot ∧ 0 < p.strike := by
  obtain ⟨⟨⟩, hcheck, hr⟩ := bind_eq_ok.mp h
  cases hr
  rw [checkParams_checked] at hcheck
  obtain ⟨-, hstrike, -, hvolatility, hmaturity⟩ := checkParams_iff.mp hcheck
  constructor
  · rintro ⟨s, -, hs⟩
    by_contra hzero
    have hvega := vega_none (d1_none hstrike hzero)
    rw [hs] at hvega
    exact Checked.of_ne_none s.vega hvega
  · rintro ⟨hspot, hstrike⟩
    have hpriced : Priced p := ⟨hspot, hstrike, hvolatility, hmaturity⟩
    refine ⟨p.pricing, ?_, hpriced.pricing_checked⟩
    rw [options, hcheck]
    rfl

theorem options_defined_iff_atTheMoney :
    ∃ s : OptionPricingResult ℝ, options (some atTheMoney) = .ok s ∧
      atTheMoney.checked.pricing = s.checked := by
  have hcheck : checkParams atTheMoney.checked = .ok () := by
    rw [checkParams_checked]
    exact Priced.accepted ⟨one_pos, one_pos, one_pos, one_pos⟩ zero_le_one
  refine (options_defined_iff atTheMoney atTheMoney.checked.pricing ?_).mpr ⟨one_pos, one_pos⟩
  rw [options, hcheck]
  rfl

/-- A spot of zero, which is what the parser fills in for a missing one. -/
def missingSpot : BlackScholesParams ℝ := ⟨0, 1, 1, 1, 1, .call⟩

theorem missing_spot_undefined : ∃ r, options (some missingSpot.checked) = .ok r ∧
    ¬∃ s : OptionPricingResult ℝ, r = s.checked := by
  have haccepted : checkParams missingSpot = .ok () :=
    checkParams_iff.mpr ⟨le_rfl, zero_le_one, zero_le_one, one_pos, one_pos⟩
  refine ⟨missingSpot.checked.pricing, ?_, ?_⟩
  · rw [options, checkParams_checked, haccepted]
    rfl
  · rintro ⟨s, hs⟩
    have hd1 : missingSpot.checked.d1 = .none :=
      d1_none zero_le_one fun h => lt_irrefl _ h.1
    have hvega := vega_none hd1
    rw [hs] at hvega
    exact Checked.of_ne_none s.vega hvega

end StandardTools.Analysis
