import StandardTools.Backtest.CombinedTrades

/-!
# The combined metrics (`backtest/walk_forward.cpp:150-188`)

`CombineResults` computes the metrics of the engine anew, except for the Sharpe
ratio, which it leaves empty; `ComputeSharpe` does that only for constant returns.
-/

namespace StandardTools.Backtest
open StandardTools.Core StandardTools.Lib

/-! ### When the engine leaves the ratio empty -/

theorem sum_square_nonneg (returns : List ℝ) (mean : ℝ) :
    0 ≤ (returns.map fun r => (r - mean) * (r - mean)).sum := by
  refine List.sum_nonneg ?_
  intro x hx
  obtain ⟨r, -, rfl⟩ := List.mem_map.mp hx
  exact mul_self_nonneg _

theorem sum_square_eq_zero_iff (returns : List ℝ) (mean : ℝ) :
    (returns.map fun r => (r - mean) * (r - mean)).sum = 0 ↔ ∀ r ∈ returns, r = mean := by
  induction returns with
  | nil => simp
  | cons r returns ih =>
    rw [List.map_cons, List.sum_cons,
      add_eq_zero_iff_of_nonneg (mul_self_nonneg _) (sum_square_nonneg returns mean), ih,
      mul_self_eq_zero, sub_eq_zero, List.forall_mem_cons]

theorem computeSharpe_eq_none_iff {returns : List ℝ} {riskFreeRate : ℝ} {periodsPerYear : ℕ} :
    computeSharpe returns riskFreeRate periodsPerYear = none ↔
      periodsPerYear = 0 ∨ ∃ c, ∀ x ∈ returns, x = c := by
  by_cases hempty : returns = []
  · simp [computeSharpe, hempty]
  by_cases hperiods : periodsPerYear = 0
  · simp [computeSharpe, hperiods]
  have hlength : (0 : ℝ) < returns.length := Nat.cast_pos.mpr (List.length_pos_of_ne_nil hempty)
  have hmean : ∀ c, (∀ x ∈ returns, x = c) → returns.foldl (· + ·) 0 / (returns.length : ℝ) = c := by
    intro c hc
    have hsum := foldl_add_eq returns (fun x : ℝ => x) 0
    rw [List.map_congr_left hc, List.map_const', List.sum_replicate, nsmul_eq_mul, zero_add] at hsum
    rw [div_eq_iff hlength.ne', mul_comm]
    exact hsum
  unfold computeSharpe
  rw [if_neg (by simp [hempty, hperiods])]
  simp only [isNaN_real, Bool.or_false, Bool.false_eq_true, if_false, sqrt_real, foldl_add_eq,
    zero_add]
  generalize hm : returns.foldl (· + ·) 0 / (returns.length : ℝ) = mean
  have hvariance : Real.sqrt ((returns.map fun r => (r - mean) * (r - mean)).sum /
      (returns.length : ℝ)) = 0 ↔ ∀ x ∈ returns, x = mean := by
    rw [← sum_square_eq_zero_iff,
      Real.sqrt_eq_zero (div_nonneg (sum_square_nonneg returns mean) hlength.le), div_eq_zero_iff,
      or_iff_left hlength.ne']
  split_ifs with hstd
  · have hconstant := hvariance.mp (eq_of_beq hstd)
    exact iff_of_true rfl (Or.inr ⟨mean, hconstant⟩)
  · refine iff_of_false not_false ?_
    rintro (hzero | ⟨c, hc⟩)
    · exact hperiods hzero
    · have hcm : mean = c := hm ▸ hmean c hc
      exact hstd (beq_iff_eq.mpr (hvariance.mpr (hcm ▸ hc)))

/-! ### The metrics of a run -/

theorem combineResults_metrics {sort : DateSort ℝ} {results : List (BacktestResult ℝ)}
    {selected : List (ParamWindow ℝ)} {config : BacktestConfig ℝ} {result : WalkForwardResult ℝ}
    (h : combineResults sort results selected config = .ok result) :
    result.equityCurve = stdUnique (fun a b => a.date == b.date)
        (sort.run (stitch config results).equityCurve) ∧
      result.totalReturn = (computeMetrics result.equityCurve config).totalReturn ∧
      result.maxDrawdown = (computeMetrics result.equityCurve config).maxDrawdown ∧
      result.sharpe = none ∧
      result.winRate = winRateOf result.trades ∧ result.numberOfTrades = result.trades.length := by
  have hresults := combineResults_ne_nil h
  unfold combineResults at h
  rw [if_neg hresults] at h
  cases h
  refine ⟨rfl, ?_, ?_, rfl, rfl, rfl⟩
  all_goals
    cases hcurve : stdUnique (fun a b : EquityPoint ℝ => a.date == b.date)
      (sort.run (stitch config results).equityCurve) with
    | nil => simp [computeMetrics, computeMaxDrawdown]
    | cons p curve => simp [computeMetrics, List.getLast?_eq_some_getLast]

theorem computeMetrics_sharpe (curve : List (EquityPoint ℝ)) (config : BacktestConfig ℝ) :
    (computeMetrics curve config).sharpe =
      computeSharpe (equityReturns curve) config.riskFreeRate config.periodsPerYear := by
  cases curve with
  | nil => rfl
  | cons p curve => simp [computeMetrics, List.getLast?_eq_some_getLast]

theorem twoWindows_curve {result : WalkForwardResult ℝ}
    (hrun : twoWindows.run DateSort.merge = .ok result) :
    result.equityCurve = [⟨1, 1⟩, ⟨2, 2⟩, ⟨3, 2⟩, ⟨4, 4⟩] := by
  obtain ⟨tests, htests, hcombine⟩ := WalkForwardOptimizer.run_eq_ok hrun
  obtain ⟨-, hcurve, -⟩ := WalkForwardOptimizer.combineResults_tests htests hcombine
    (by simp [twoWindows])
  obtain ⟨first, second, rfl, hfirst, hsecond⟩ := @twoWindowsTo_tests (1 + 1) tests htests
  rw [hcurve]
  norm_num [stitch, stitchStep, hfirst.1, hsecond.1, twoWindows]

/-- A run reports the metrics which the engine would, exactly if its own windows,
run in a row, leave the engine without a Sharpe ratio. -/
theorem walk_forward_metrics_iff (w : WalkForwardOptimizer ℝ) (sort : DateSort ℝ)
    (result : WalkForwardResult ℝ) (tests : List (Tested ℝ)) (hrun : w.run sort = .ok result)
    (htests : w.outOfSample = .ok tests) :
    ∃ runs, carriedRuns w.strategy w.config w.config.initialCapital
        ((w.testWindows 0 w.windowCount).zip (tests.map (·.params))) = .ok runs ∧
      ((result.totalReturn = (computeMetrics result.equityCurve w.config).totalReturn ∧
          result.maxDrawdown = (computeMetrics result.equityCurve w.config).maxDrawdown ∧
          result.sharpe = (computeMetrics result.equityCurve w.config).sharpe ∧
          result.winRate = winRateOf result.trades ∧
          result.numberOfTrades = result.trades.length) ↔
        w.config.periodsPerYear = 0 ∨
          ∃ c, ∀ x ∈ equityReturns (stdUnique (fun a b => a.date == b.date)
            (sort.run (runs.flatMap (·.equityCurve)))), x = c) := by
  obtain ⟨tests', htests', hcombine⟩ := WalkForwardOptimizer.run_eq_ok hrun
  obtain rfl : tests = tests' := Except.ok.inj (htests.symm.trans htests')
  obtain ⟨runs, hruns, hstitch⟩ := outOfSample_carriedRuns htests
  obtain ⟨hcurve, hreturn, hdrawdown, hsharpe, hwin, hcount⟩ := combineResults_metrics hcombine
  refine ⟨runs, hruns, ?_⟩
  rw [← hstitch, ← hcurve, ← computeSharpe_eq_none_iff ,
    ← computeMetrics_sharpe, hsharpe]
  constructor
  · intro h
    exact h.2.2.1.symm
  · intro h
    exact ⟨hreturn, hdrawdown, h.symm, hwin, hcount⟩

/-- The returns of the two windows are one, zero and one. -/
theorem twoWindows_sharpe {result : WalkForwardResult ℝ}
    (hrun : twoWindows.run DateSort.merge = .ok result) :
    result.sharpe = none ∧ (computeMetrics result.equityCurve twoWindows.config).sharpe ≠ none := by
  obtain ⟨tests, -, hcombine⟩ := WalkForwardOptimizer.run_eq_ok hrun
  obtain ⟨-, -, -, hsharpe, -, -⟩ := combineResults_metrics hcombine
  refine ⟨hsharpe, ?_⟩
  rw [twoWindows_curve hrun, computeMetrics_sharpe, Ne, computeSharpe_eq_none_iff]
  rintro (hperiods | ⟨c, hc⟩)
  · cases hperiods
  · have hone := hc 1 (by norm_num [equityReturns])
    have hzero := hc 0 (by norm_num [equityReturns])
    exact one_ne_zero (hone.trans hzero.symm)

theorem two_windows_sharpe_missing :
    ∃ result, twoWindows.run DateSort.merge = .ok result ∧ result.sharpe = none ∧
      (computeMetrics result.equityCurve twoWindows.config).sharpe ≠ none := by
  obtain ⟨-, -, result, -, -, hrun, -⟩ := twoWindowsTo_run (1 + 1)
  exact ⟨result, hrun, twoWindows_sharpe hrun⟩

theorem walk_forward_metrics_two_windows :
    ∃ result tests runs, twoWindows.run DateSort.merge = .ok result ∧
      twoWindows.outOfSample = .ok tests ∧
      carriedRuns "buy_and_hold" twoWindows.config 1
        ((twoWindows.testWindows 0 twoWindows.windowCount).zip (tests.map (·.params))) = .ok runs ∧
      ¬∃ c, ∀ x ∈ equityReturns (stdUnique (fun a b => a.date == b.date)
        (DateSort.merge.run (runs.flatMap (·.equityCurve)))), x = c := by
  obtain ⟨-, -, result, -, -, hrun, -⟩ := twoWindowsTo_run (1 + 1)
  obtain ⟨hmissing, hsharpe⟩ := twoWindows_sharpe hrun
  obtain ⟨tests, htests, -⟩ := WalkForwardOptimizer.run_eq_ok hrun
  obtain ⟨runs, hruns, hiff⟩ :=
    walk_forward_metrics_iff twoWindows DateSort.merge result tests hrun htests
  refine ⟨result, tests, runs, hrun, htests, hruns, fun hconstant => ?_⟩
  obtain ⟨-, -, hsame, -⟩ := hiff.mpr (Or.inr hconstant)
  exact hsharpe (hsame.symm.trans hmissing)

end StandardTools.Backtest
