import Mathlib.Analysis.Calculus.Deriv.MeanValue
import Mathlib.Analysis.Calculus.Deriv.Pow
import StandardTools.Analysis.Options
import StandardTools.Lib.Except
import StandardTools.Lib.TailFactor

/-!
# No arbitrage (`analysis/calculator.cpp:64-87`, `685-756`)

The polynomial of `NormalCdf` increases on the whole line and vanishes at zero,
and its argument `1 / (1 + p x)` falls in `x`: the approximate tail is a tail
factor. At the two arguments `d1` and `d2` the spot and the discounted strike
weigh the same density, so that a call exchanges the one for the other and a put
the other way.
-/

namespace StandardTools.Analysis
open StandardTools.Core StandardTools.Lib

/-! ### The polynomial -/

theorem cdfPoly_eq (t : ℝ) : cdfPoly t =
    0.319381530 * t - 0.356563782 * t ^ 2 + 1.781477937 * t ^ 3 - 1.821255978 * t ^ 4 +
      1.330274429 * t ^ 5 := by
  simp only [cdfPoly, decimal]
  norm_num
  ring

theorem cdfPoly_strictMono : StrictMono (cdfPoly : ℝ → ℝ) := by
  have hderiv : ∀ t : ℝ, HasDerivAt (cdfPoly : ℝ → ℝ) (0.319381530 - 0.713127564 * t +
      5.344433811 * t ^ 2 - 7.285023912 * t ^ 3 + 6.651372145 * t ^ 4) t := by
    intro t
    have h := ((((hasDerivAt_id' t).const_mul (0.319381530 : ℝ)).sub
      ((hasDerivAt_pow 2 t).const_mul (0.356563782 : ℝ))).add
      ((hasDerivAt_pow 3 t).const_mul (1.781477937 : ℝ))).sub
      ((hasDerivAt_pow 4 t).const_mul (1.821255978 : ℝ)) |>.add
      ((hasDerivAt_pow 5 t).const_mul (1.330274429 : ℝ))
    refine (h.congr_of_eventuallyEq (.of_forall cdfPoly_eq)).congr_deriv ?_
    norm_num
    ring
  refine strictMono_of_deriv_pos fun t => ?_
  rw [(hderiv t).deriv]
  -- the quartic and cubic terms are a square up to `2 t^2`, and the rest has no root
  nlinarith [sq_nonneg (t ^ 2 - 0.5476 * t), sq_nonneg (t - 0.106)]

theorem cdfPoly_zero : cdfPoly (0 : ℝ) = 0 := by
  rw [cdfPoly_eq]
  norm_num

theorem cdfPoly_pos {t : ℝ} (ht : 0 < t) : 0 < cdfPoly t :=
  cdfPoly_zero ▸ cdfPoly_strictMono ht

/-! ### The tail -/

noncomputable def tailArgument (x : ℝ) : ℝ := 1 / (1 + decimal 2316419 7 * x)

noncomputable def tail (x : ℝ) : ℝ := decimal 3989422804014327 16 * cdfPoly (tailArgument x)

theorem decimal_pos {digits : ℤ} (places : ℕ) (h : 0 < digits) :
    0 < (decimal digits places : ℝ) := by
  unfold decimal
  positivity

theorem tailArgument_pos {x : ℝ} (hx : 0 ≤ x) : 0 < tailArgument x := by
  have hp : 0 < (decimal 2316419 7 : ℝ) := decimal_pos 7 (by decide)
  unfold tailArgument
  positivity

theorem tailArgument_lt {x y : ℝ} (hx : 0 ≤ x) (h : x < y) : tailArgument y < tailArgument x := by
  have hp : 0 < (decimal 2316419 7 : ℝ) := decimal_pos 7 (by decide)
  apply one_div_lt_one_div_of_lt (by positivity)
  linarith [mul_lt_mul_of_pos_left h hp]

theorem tail_tailFactor : TailFactor tail := by
  have hc : 0 < (decimal 3989422804014327 16 : ℝ) := decimal_pos 16 (by decide)
  refine ⟨fun x hx => mul_pos hc (cdfPoly_pos (tailArgument_pos hx)), fun x y hx h =>
    mul_lt_mul_of_pos_left (cdfPoly_strictMono (tailArgument_lt hx h)) hc, ?_⟩
  rw [tail, tailArgument, mul_zero, add_zero, div_one, cdfPoly_eq]
  norm_num [decimal]

/-! ### The distribution function -/

theorem upperNormalCdf_eq (x : ℝ) : upperNormalCdf x = 1 - gaussian x * tail x := by
  simp only [upperNormalCdf, exp_real, gaussian, tail, tailArgument, div_eq_mul_inv]
  ring

theorem normalCdf_eq (x : ℝ) : normalCdf x = tailCdf tail x := by
  unfold normalCdf tailCdf
  rw [isInf_real, if_neg Bool.false_ne_true]
  split_ifs with hx
  · exact upperNormalCdf_eq x
  · rw [upperNormalCdf_eq, gaussian_neg]
    ring

/-! ### The two arguments -/

structure Priced (p : BlackScholesParams ℝ) : Prop where
  spot_pos : 0 < p.spot
  strike_pos : 0 < p.strike
  volatility_pos : 0 < p.volatility
  maturity_pos : 0 < p.timeToMaturity

theorem checkParams_iff {p : BlackScholesParams ℝ} : checkParams p = .ok () ↔
    0 ≤ p.spot ∧ 0 ≤ p.strike ∧ 0 ≤ p.riskFreeRate ∧ 0 < p.volatility ∧
      0 < p.timeToMaturity := by
  rw [checkParams, validateFinite_real]
  change (if p.spot < 0 then _ else _) = _ ↔ _
  simp only [ite_error_eq_ok, not_lt, beq_iff_eq]
  constructor
  · rintro ⟨hspot, hstrike, hrate, hvolatility, hmaturity, hmaturity0, hvolatility0, -⟩
    exact ⟨hspot, hstrike, hrate, hvolatility.lt_of_ne' hvolatility0,
      hmaturity.lt_of_ne' hmaturity0⟩
  · rintro ⟨hspot, hstrike, hrate, hvolatility, hmaturity⟩
    exact ⟨hspot, hstrike, hrate, hvolatility.le, hmaturity.le, hmaturity.ne', hvolatility.ne',
      trivial⟩

theorem options_eq_ok {p : BlackScholesParams ℝ} {r : OptionPricingResult ℝ}
    (h : options (some p) = .ok r) : checkParams p = .ok () ∧ r = p.pricing := by
  obtain ⟨u, hcheck, hr⟩ := bind_eq_ok.mp h
  cases hr
  exact ⟨hcheck, rfl⟩

namespace Priced
variable {p : BlackScholesParams ℝ}

theorem spread_pos (h : Priced p) : 0 < p.volatility * p.sqrtT :=
  mul_pos h.volatility_pos (Real.sqrt_pos.mpr h.maturity_pos)

theorem d2_lt_d1 (h : Priced p) : p.d2 < p.d1 := sub_lt_self _ h.spread_pos

theorem spread_mul_d1 (h : Priced p) : p.volatility * p.sqrtT * p.d1 =
    Real.log p.spot - Real.log p.strike +
      (p.riskFreeRate * p.timeToMaturity + (p.volatility * p.sqrtT) ^ 2 / 2) := by
  have hT : p.sqrtT ^ 2 = p.timeToMaturity := Real.sq_sqrt h.maturity_pos.le
  have hs := h.spread_pos.ne'
  rw [BlackScholesParams.d1, mul_div_cancel₀ _ hs, log_real,
    Real.log_div h.spot_pos.ne' h.strike_pos.ne', mul_pow, hT]
  norm_num
  ring

/-- The spot and the discounted strike weigh the same density. -/
theorem same_weight (h : Priced p) :
    p.spot * gaussian p.d1 = p.strike * p.discount * gaussian p.d2 := by
  have hd := h.spread_mul_d1
  calc p.spot * gaussian p.d1
      = Real.exp (Real.log p.spot) * gaussian p.d1 := by rw [Real.exp_log h.spot_pos]
    _ = Real.exp (Real.log p.strike) * p.discount * gaussian p.d2 := by
      simp only [gaussian, BlackScholesParams.discount, exp_real, ← Real.exp_add]
      congr 1
      rw [BlackScholesParams.d2]
      linear_combination -hd
    _ = _ := by rw [Real.exp_log h.strike_pos]

theorem accepted (h : Priced p) (hrate : 0 ≤ p.riskFreeRate) : checkParams p = .ok () :=
  checkParams_iff.mpr ⟨h.spot_pos.le, h.strike_pos.le, hrate, h.volatility_pos, h.maturity_pos⟩

theorem discount_pos (_ : Priced p) : 0 < p.discount := Real.exp_pos _

theorem call_bounds (h : Priced p) :
    max 0 (p.spot - p.strike * p.discount) ≤
        p.spot * normalCdf p.d1 - p.strike * p.discount * normalCdf p.d2 ∧
      p.spot * normalCdf p.d1 - p.strike * p.discount * normalCdf p.d2 ≤ p.spot := by
  rw [normalCdf_eq, normalCdf_eq]
  exact tail_tailFactor.exchange_bounds h.spot_pos (mul_pos h.strike_pos h.discount_pos)
    h.d2_lt_d1 h.same_weight

/-- A put receives the strike for the spot: the arguments change sign and place. -/
theorem put_bounds (h : Priced p) :
    max 0 (p.strike * p.discount - p.spot) ≤
        p.strike * p.discount * normalCdf (-p.d2) - p.spot * normalCdf (-p.d1) ∧
      p.strike * p.discount * normalCdf (-p.d2) - p.spot * normalCdf (-p.d1) ≤
        p.strike * p.discount := by
  rw [normalCdf_eq, normalCdf_eq]
  refine tail_tailFactor.exchange_bounds (mul_pos h.strike_pos h.discount_pos) h.spot_pos
    (neg_lt_neg h.d2_lt_d1) ?_
  rw [gaussian_neg, gaussian_neg]
  exact h.same_weight.symm

end Priced

/-! ### The bounds -/

noncomputable def discountedStrike (p : BlackScholesParams ℝ) : ℝ :=
  p.strike * Real.exp (-(p.riskFreeRate * p.timeToMaturity))

theorem discountedStrike_eq (p : BlackScholesParams ℝ) :
    discountedStrike p = p.strike * p.discount := by
  simp only [discountedStrike, BlackScholesParams.discount, exp_real, neg_mul]

def WithinBounds (p : BlackScholesParams ℝ) (r : OptionPricingResult ℝ) : Prop :=
  match p.optionType with
  | .call => max 0 (p.spot - discountedStrike p) ≤ r.price ∧ r.price ≤ p.spot ∧
      0 < r.delta ∧ r.delta < 1
  | .put => max 0 (discountedStrike p - p.spot) ≤ r.price ∧ r.price ≤ discountedStrike p ∧
      -1 < r.delta ∧ r.delta < 0

theorem Priced.within_bounds {p : BlackScholesParams ℝ} (h : Priced p) :
    WithinBounds p p.pricing := by
  obtain ⟨hdelta, hdelta1⟩ := tail_tailFactor.cdf_bounds p.d1
  rw [← normalCdf_eq] at hdelta hdelta1
  unfold WithinBounds BlackScholesParams.pricing
  rw [discountedStrike_eq]
  cases hside : p.optionType with
  | call => exact ⟨h.call_bounds.1, h.call_bounds.2, hdelta, hdelta1⟩
  | put =>
    exact ⟨h.put_bounds.1, h.put_bounds.2, by simpa using hdelta, by simpa using hdelta1⟩

theorem options_no_arbitrage (p : BlackScholesParams ℝ) (r : OptionPricingResult ℝ)
    (h : options (some p) = .ok r) (hspot : 0 < p.spot) (hstrike : 0 < p.strike) :
    WithinBounds p r := by
  obtain ⟨hcheck, rfl⟩ := options_eq_ok h
  obtain ⟨-, -, -, hvolatility, hmaturity⟩ := checkParams_iff.mp hcheck
  exact Priced.within_bounds ⟨hspot, hstrike, hvolatility, hmaturity⟩

def atTheMoney : BlackScholesParams ℝ := ⟨1, 1, 1, 1, 1, .put⟩

theorem options_no_arbitrage_atTheMoney : WithinBounds atTheMoney atTheMoney.pricing := by
  refine options_no_arbitrage atTheMoney atTheMoney.pricing ?_ one_pos one_pos
  have hcheck : checkParams atTheMoney = .ok () :=
    Priced.accepted ⟨one_pos, one_pos, one_pos, one_pos⟩ zero_le_one
  rw [options, hcheck]
  rfl

end StandardTools.Analysis
