import StandardTools.Backtest.Homogeneity

/-!
# The metrics of a scaled run (`engine.cpp:88-184`, `281-308`)

A positive factor on the initial capital multiplies every amount of a run. The
metrics compare amounts with one another or with zero, and so they stay.
-/

namespace StandardTools.Backtest
open StandardTools.Core

variable {c : ℝ}

/-! ### The metrics -/

/-- The peak scales with the curve, and the share that is lost from it stays. -/
theorem drawdownStep_scale (hc : 0 < c) (peak maxDd : ℝ) (p : EquityPoint ℝ) :
    drawdownStep (peak * c, maxDd) (p.scale c) =
      ((drawdownStep (peak, maxDd) p).1 * c, (drawdownStep (peak, maxDd) p).2) := by
  have hscale : ∀ {a b : ℝ}, a * c < b * c ↔ a < b := mul_lt_mul_iff_left₀ hc
  unfold drawdownStep
  simp only [EquityPoint.scale, hscale]
  by_cases hpeak : peak < p.equity
  · simp only [hpeak, if_true, mul_pos_iff_of_pos_right hc, ← sub_mul,
      mul_div_mul_right _ _ hc.ne']
    split_ifs <;> rfl
  · simp only [hpeak, if_false, mul_pos_iff_of_pos_right hc, ← sub_mul,
      mul_div_mul_right _ _ hc.ne']
    split_ifs <;> rfl

theorem computeMaxDrawdown_scale (hc : 0 < c) (curve : List (EquityPoint ℝ)) :
    computeMaxDrawdown (curve.map (EquityPoint.scale c)) = computeMaxDrawdown curve := by
  have hfold : ∀ (curve : List (EquityPoint ℝ)) (peak maxDd : ℝ),
      ((curve.map (EquityPoint.scale c)).foldl drawdownStep (peak * c, maxDd)).2 =
        (curve.foldl drawdownStep (peak, maxDd)).2 := by
    intro curve
    induction curve with
    | nil => exact fun _ _ => rfl
    | cons p curve ih =>
      intro peak maxDd
      rw [List.map_cons, List.foldl_cons, List.foldl_cons, drawdownStep_scale hc, ih]
  have hstart := hfold curve 0 0
  rw [zero_mul] at hstart
  unfold computeMaxDrawdown
  rw [hstart]

theorem equityReturns_scale (hc : c ≠ 0) (curve : List (EquityPoint ℝ)) :
    equityReturns (curve.map (EquityPoint.scale c)) = equityReturns curve := by
  unfold equityReturns
  rw [← List.map_tail, List.zipWith_map]
  congr 1
  funext prev curr
  simp only [EquityPoint.scale, mul_div_mul_right _ _ hc]
  by_cases hprev : prev.equity = 0
  · simp [hprev]
  · simp [hprev, hc]

theorem computeMetrics_scale (hc : 0 < c) (curve : List (EquityPoint ℝ))
    (config : BacktestConfig ℝ) (capital : ℝ) :
    computeMetrics (curve.map (EquityPoint.scale c)) (config.withCapital capital) =
      computeMetrics curve config := by
  have hratio : ∀ front back : ℝ, (if front * c != 0 then back * c / (front * c) - 1 else 0) =
      if front != 0 then back / front - 1 else 0 := by
    intro front back
    rw [mul_div_mul_right _ _ hc.ne']
    by_cases hfront : front = 0
    · simp [hfront]
    · simp [hfront, hc.ne']
  unfold computeMetrics
  rw [List.head?_map, List.getLast?_map]
  cases curve.head? with
  | none => rfl
  | some front =>
    cases curve.getLast? with
    | none => rfl
    | some back =>
      simp only [Option.map_some, computeMaxDrawdown_scale hc, equityReturns_scale hc.ne',
        BacktestConfig.withCapital]
      congr 1
      exact hratio front.equity back.equity

theorem winRateOf_scale (hc : 0 < c) (trades : List (Trade ℝ)) :
    winRateOf (trades.map (Trade.scale c)) = winRateOf trades := by
  have hwins : (fun t : Trade ℝ => decide (0 < t.pnl)) ∘ Trade.scale c =
      fun t => decide (0 < t.pnl) := by
    funext t
    simp only [Function.comp_apply, Trade.scale, mul_pos_iff_of_pos_right hc]
  unfold winRateOf
  rw [List.countP_map, List.length_map, hwins]
  simp only [List.map_eq_nil_iff]

/-! ### The result -/

/-- The result whose amounts are multiplied, all else unchanged. -/
def BacktestResult.scale (c : ℝ) (r : BacktestResult ℝ) : BacktestResult ℝ :=
  { r with
    finalEquity := r.finalEquity * c
    equityCurve := r.equityCurve.map (EquityPoint.scale c)
    trades := r.trades.map (Trade.scale c) }

theorem simulate_withCapital (hc : 0 < c) (config : BacktestConfig ℝ) (series : List (OHLCV ℝ))
    (signals : List SignalResult) :
    (config.withCapital (config.initialCapital * c)).simulate series signals =
      (config.simulate series signals).scale c := by
  have hback : ∀ curve : List (EquityPoint ℝ),
      ((curve.map (EquityPoint.scale c)).getLast?.map (·.equity)).getD
          (config.initialCapital * c) =
        (curve.getLast?.map (·.equity)).getD config.initialCapital * c := by
    intro curve
    rw [List.getLast?_map]
    cases curve.getLast? with
    | none => rfl
    | some p => rfl
  unfold BacktestConfig.simulate
  rw [config.finalState_withCapital series signals c]
  simp only [RunState.scale, computeMetrics_scale hc, winRateOf_scale hc, List.length_map,
    BacktestResult.scale]
  simp only [BacktestConfig.withCapital, hback]

/-- Both runs throw the same error, or the second returns the result of the first
with its amounts multiplied. -/
theorem run_withCapital (engine : BacktestEngine ℝ) (series : List (OHLCV ℝ))
    (params : ParamMap ℝ) (c : ℝ) (hc : 0 < c) :
    (BacktestEngine.mk engine.strategy
        { engine.config with initialCapital := engine.config.initialCapital * c }).run
        series params =
      (engine.run series params).map (BacktestResult.scale c) := by
  have hsimulate := simulate_withCapital hc engine.config series
  simp only [BacktestConfig.withCapital] at hsimulate
  unfold BacktestEngine.run
  split_ifs
  · rfl
  · rfl
  · cases engine.strategy.signals series params with
    | error e => rfl
    | ok signals =>
      simp only [bind, Except.bind, hsimulate]
      split_ifs <;> rfl

theorem run_withCapital_doubled :
    ∃ bt, (BacktestEngine.mk buyAndHold ⟨110 * 2, 1 / 10, 252, 0⟩).run
        [⟨0, 100, 100, 100, 100, 1⟩, ⟨1, 100, 200, 100, 200, 1⟩] ParamMap.empty = .ok bt ∧
      bt.finalEquity = 360 ∧ bt.trades = [⟨1, 1, 100, 200, (2 : ℝ), .long, 140⟩] := by
  obtain ⟨bt, hrun, hfinal, htrades⟩ := doubling_run
  have hscaled := run_withCapital ⟨buyAndHold, ⟨110, 1 / 10, 252, 0⟩⟩
    [⟨0, 100, 100, 100, 100, 1⟩, ⟨1, 100, 200, 100, 200, 1⟩] ParamMap.empty 2 two_pos
  rw [hrun] at hscaled
  refine ⟨_, hscaled, ?_, ?_⟩
  · norm_num [BacktestResult.scale, hfinal]
  · norm_num [BacktestResult.scale, htrades, Trade.scale]

end StandardTools.Backtest
