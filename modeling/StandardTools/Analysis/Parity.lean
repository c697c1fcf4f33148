import StandardTools.Analysis.NoArbitrage

/-!
# Put-call parity (`analysis/calculator.cpp:64-82`, `717-755`)

A call and a put with the same parameters evaluate the distribution function at
`d` and at `-d`. Off zero one of the two is the reflection of the other and they
add up to one. At zero both take the branch of the upper half line, and twice
its value there misses one by about `10^-9`.
-/

namespace StandardTools.Analysis
open StandardTools.Core StandardTools.Lib

/-! ### Reflection -/

/-- How far the two values are from adding up to one. -/
noncomputable def reflectionGap (x : ℝ) : ℝ := normalCdf x + normalCdf (-x) - 1

theorem reflectionGap_of_ne {x : ℝ} (hx : x ≠ 0) : reflectionGap x = 0 := by
  rw [reflectionGap, normalCdf_eq, normalCdf_eq, TailFactor.tailCdf_add_neg hx, sub_self]

theorem reflectionGap_zero : reflectionGap 0 = 1 - 2 * (0.3989422804014327 * 1.253314136) := by
  have htail : tail 0 = 0.3989422804014327 * 1.253314136 := by
    rw [tail, tailArgument, mul_zero, add_zero, div_one, cdfPoly_eq]
    norm_num [decimal]
  have hgaussian : gaussian 0 = 1 := by simp [gaussian]
  rw [reflectionGap, neg_zero, normalCdf_eq, TailFactor.tailCdf_of_nonneg le_rfl, htail, hgaussian]
  ring

theorem abs_reflectionGap_le (x : ℝ) : |reflectionGap x| ≤ 2 / 10 ^ 9 := by
  by_cases hx : x = 0
  · rw [hx, reflectionGap_zero, abs_le]
    norm_num
  · rw [reflectionGap_of_ne hx, abs_zero]
    positivity

/-! ### Parity -/

section Sides
variable (p : BlackScholesParams ℝ)

/-- The parameters with the option on the other side or the same. -/
def BlackScholesParams.withType (optionType : OptionType) : BlackScholesParams ℝ :=
  { p with optionType := optionType }

theorem price_parity :
    (p.withType .call).pricing.price - (p.withType .put).pricing.price =
      p.spot - discountedStrike p +
        (p.spot * reflectionGap p.d1 - discountedStrike p * reflectionGap p.d2) := by
  rw [discountedStrike_eq]
  change p.spot * normalCdf p.d1 - p.strike * p.discount * normalCdf p.d2 -
    (p.strike * p.discount * normalCdf (-p.d2) - p.spot * normalCdf (-p.d1)) = _
  unfold reflectionGap
  ring

theorem rho_parity :
    (p.withType .call).pricing.rho - (p.withType .put).pricing.rho =
      p.timeToMaturity * discountedStrike p * (1 + reflectionGap p.d2) := by
  rw [discountedStrike_eq]
  change p.strike * p.timeToMaturity * p.discount * normalCdf p.d2 -
    -p.strike * p.timeToMaturity * p.discount * normalCdf (-p.d2) = _
  unfold reflectionGap
  ring

theorem theta_parity :
    (p.withType .call).pricing.theta - (p.withType .put).pricing.theta =
      -(p.riskFreeRate * discountedStrike p * (1 + reflectionGap p.d2)) := by
  rw [discountedStrike_eq]
  change -p.spot * normalPdf p.d1 * p.volatility / (((2 : ℕ) : ℝ) * p.sqrtT) -
      p.riskFreeRate * p.strike * p.discount * normalCdf p.d2 -
    (-p.spot * normalPdf p.d1 * p.volatility / (((2 : ℕ) : ℝ) * p.sqrtT) +
      p.riskFreeRate * p.strike * p.discount * normalCdf (-p.d2)) = _
  unfold reflectionGap
  ring

end Sides

/-- At most one of the two arguments is zero. -/
theorem abs_gap_le {p : BlackScholesParams ℝ} (h : Priced p) :
    |p.spot * reflectionGap p.d1 - discountedStrike p * reflectionGap p.d2| ≤
      2 / 10 ^ 9 * max p.spot (discountedStrike p) := by
  have hstrike : 0 ≤ discountedStrike p := mul_nonneg h.strike_pos.le (Real.exp_pos _).le
  have hbound (a x : ℝ) (ha : 0 ≤ a) (hmax : a ≤ max p.spot (discountedStrike p)) :
      |a * reflectionGap x| ≤ 2 / 10 ^ 9 * max p.spot (discountedStrike p) := by
    rw [abs_mul, abs_of_nonneg ha, mul_comm]
    exact mul_le_mul (abs_reflectionGap_le x) hmax ha (by positivity)
  by_cases hd1 : p.d1 = 0
  · have hd2 : p.d2 ≠ 0 := (hd1 ▸ h.d2_lt_d1).ne
    rw [reflectionGap_of_ne hd2, mul_zero, sub_zero]
    exact hbound p.spot _ h.spot_pos.le (le_max_left _ _)
  · rw [reflectionGap_of_ne hd1, mul_zero, zero_sub, abs_neg]
    exact hbound (discountedStrike p) _ hstrike (le_max_right _ _)

theorem put_call_parity (p : BlackScholesParams ℝ) (hspot : 0 < p.spot) (hstrike : 0 < p.strike)
    (hrate : 0 ≤ p.riskFreeRate) (hvolatility : 0 < p.volatility)
    (hmaturity : 0 < p.timeToMaturity) :
    ∃ call put, options (some (p.withType .call)) = .ok call ∧
      options (some (p.withType .put)) = .ok put ∧
      (p.d1 ≠ 0 → p.d2 ≠ 0 → call.price - put.price = p.spot - discountedStrike p) ∧
      |call.price - put.price - (p.spot - discountedStrike p)| ≤
        2 / 10 ^ 9 * max p.spot (discountedStrike p) ∧
      (p.d2 ≠ 0 → call.rho - put.rho = p.timeToMaturity * discountedStrike p ∧
        call.theta - put.theta = -(p.riskFreeRate * discountedStrike p)) ∧
      call.delta - put.delta = 1 ∧ call.gamma = put.gamma ∧ call.vega = put.vega := by
  have hpriced : Priced p := ⟨hspot, hstrike, hvolatility, hmaturity⟩
  have haccepted (optionType : OptionType) :
      options (some (p.withType optionType)) = .ok (p.withType optionType).pricing := by
    have hcheck : checkParams (p.withType optionType) = .ok () :=
      Priced.accepted ⟨hspot, hstrike, hvolatility, hmaturity⟩ hrate
    rw [options, hcheck]
    rfl
  refine ⟨_, _, haccepted .call, haccepted .put, fun hd1 hd2 => ?_, ?_, fun hd2 => ⟨?_, ?_⟩, ?_,
    rfl, rfl⟩
  · rw [price_parity, reflectionGap_of_ne hd1, reflectionGap_of_ne hd2]
    ring
  · rw [price_parity, add_sub_cancel_left]
    exact abs_gap_le hpriced
  · rw [rho_parity, reflectionGap_of_ne hd2]
    ring
  · rw [theta_parity, reflectionGap_of_ne hd2]
    ring
  · exact sub_sub_cancel (normalCdf p.d1) 1

theorem put_call_parity_atTheMoney :
    ∃ call put, options (some (atTheMoney.withType .call)) = .ok call ∧
      options (some (atTheMoney.withType .put)) = .ok put ∧ call.delta - put.delta = 1 := by
  obtain ⟨call, put, hcall, hput, -, -, -, hdelta, -⟩ :=
    put_call_parity atTheMoney one_pos one_pos zero_le_one one_pos one_pos
  exact ⟨call, put, hcall, hput, hdelta⟩

end StandardTools.Analysis
