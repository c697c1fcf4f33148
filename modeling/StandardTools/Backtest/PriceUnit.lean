import StandardTools.Backtest.Homogeneity
import StandardTools.Backtest.NoLookAhead
import StandardTools.Indicators.PriceUnit

/-!
# Backtests do not depend on the price unit

With every price multiplied by one positive factor the built-in strategies emit
the same signals: they compare lines which all scale, or read the strength index.
The engine then buys the factor times fewer units, and every amount of cash,
every equity and every result of a trade is what it was.
-/

namespace StandardTools.Backtest
open StandardTools.Core Lib Indicators

/-! ### Signals -/

def Strategy.UnitFree (strategy : Strategy ℝ) : Prop :=
  ∀ a : ℝ, 0 < a → ∀ series params,
    strategy.signals (series.map (OHLCV.repriced a)) params = strategy.signals series params

section Signals
variable {a : ℝ}

theorem valueAt_scale (values : List (IndicatorValue ℝ)) (i : ℕ) :
    valueAt (values.map (IndicatorValue.scale a)) i = (valueAt values i).map (a * ·) := by
  unfold valueAt
  rw [List.getElem?_map]
  cases values[i]? <;> rfl

theorem scale_lt_scale (ha : 0 < a) (x y : ℝ) : a * x < a * y ↔ x < y :=
  mul_lt_mul_iff_right₀ ha

theorem crossoverSignal_scale (ha : 0 < a) (fast slow : List (IndicatorValue ℝ)) (i : ℕ) :
    crossoverSignal (fast.map (IndicatorValue.scale a)) (slow.map (IndicatorValue.scale a)) i =
      crossoverSignal fast slow i := by
  unfold crossoverSignal
  simp only [valueAt_scale]
  cases valueAt fast i with
  | none => rfl
  | some f =>
    cases valueAt slow i with
    | none => rfl
    | some sl =>
      cases valueAt fast (i - 1) <;> cases valueAt slow (i - 1) <;>
        simp only [Option.map_some, Option.map_none, scale_lt_scale ha]

theorem reversionSignal_scale (ha : 0 < a) (upper lower : List (IndicatorValue ℝ)) (close : ℝ)
    (i : ℕ) :
    reversionSignal (upper.map (IndicatorValue.scale a)) (lower.map (IndicatorValue.scale a))
      (a * close) i = reversionSignal upper lower close i := by
  unfold reversionSignal
  rw [List.getElem?_map, List.getElem?_map]
  cases upper[i]? with
  | none => rfl
  | some u =>
    cases lower[i]? with
    | none => rfl
    | some l =>
      obtain ⟨_, u⟩ := u
      obtain ⟨_, l⟩ := l
      cases u <;> cases l <;> simp [IndicatorValue.scale, scale_lt_scale ha]

theorem signals_mapIdx_repriced {f g : ℕ → OHLCV ℝ → Signal}
    (h : ∀ i bar, f i (bar.repriced a) = g i bar) (series : List (OHLCV ℝ)) :
    (series.map (OHLCV.repriced a)).mapIdx (fun i bar => (⟨bar.date, f i bar⟩ : SignalResult)) =
      series.mapIdx fun i bar => ⟨bar.date, g i bar⟩ := by
  refine List.ext_getElem (by simp) fun i _ _ => ?_
  simp only [List.getElem_mapIdx, List.getElem_map, h]
  rfl

theorem crossoverSignals_repriced (ha : 0 < a) (series : List (OHLCV ℝ))
    (fast slow : List (IndicatorValue ℝ)) :
    crossoverSignals (series.map (OHLCV.repriced a)) (fast.map (IndicatorValue.scale a))
      (slow.map (IndicatorValue.scale a)) = crossoverSignals series fast slow :=
  signals_mapIdx_repriced (fun i _ => crossoverSignal_scale ha fast slow i) series

theorem thresholdSignals_repriced (series : List (OHLCV ℝ)) (values : List (IndicatorValue ℝ))
    (oversold overbought : ℝ) :
    thresholdSignals (series.map (OHLCV.repriced a)) values oversold overbought =
      thresholdSignals series values oversold overbought :=
  signals_mapIdx_repriced (fun _ _ => rfl) series

theorem reversionSignals_repriced (ha : 0 < a) (series : List (OHLCV ℝ))
    (upper lower : List (IndicatorValue ℝ)) :
    reversionSignals (series.map (OHLCV.repriced a)) (upper.map (IndicatorValue.scale a))
      (lower.map (IndicatorValue.scale a)) = reversionSignals series upper lower :=
  signals_mapIdx_repriced (fun i bar => reversionSignal_scale ha upper lower bar.close i) series

end Signals

/-! ### The built-in strategies -/

theorem unitFree_buyAndHold : (buyAndHold (K := ℝ)).UnitFree := by
  intro a _ series params
  exact congrArg Except.ok (signals_mapIdx_repriced (fun _ _ => rfl) series)

theorem unitFree_smaCrossover : (smaCrossover (K := ℝ)).UnitFree := by
  intro a ha series params
  simp only [smaCrossover, calculate_sma, calculateSMA]
  generalize params.set "period" (paramOrDefault params "fast" _) = fastParams
  generalize params.set "period" (paramOrDefault params "slow" _) = slowParams
  cases paramAsSize fastParams "period" 20 with
  | error e => rfl
  | ok fast =>
    cases paramAsSize slowParams "period" 20 with
    | error e => rfl
    | ok slow =>
      refine congrArg Except.ok ?_
      simp only [smaValues_repriced]
      exact crossoverSignals_repriced ha series _ _

theorem unitFree_rsiThreshold : (rsiThreshold (K := ℝ)).UnitFree := by
  intro a ha series params
  simp only [rsiThreshold, calculate_rsi, calculateRSI]
  cases paramAsSize params "period" 14 with
  | error e => rfl
  | ok period =>
    refine congrArg Except.ok ?_
    simp only [rsiValues_repriced ha]
    exact thresholdSignals_repriced series _ _ _

theorem unitFree_bollingerReversion : (bollingerReversion (K := ℝ)).UnitFree := by
  intro a ha series params
  simp only [bollingerReversion, calculate_bollinger, calculateBollinger]
  cases paramAsSize params "period" 20 with
  | error e => rfl
  | ok period =>
    cases paramAsSize params "std_dev" 2 with
    | error e => rfl
    | ok count =>
      have hupper := @bollingerSeries_repriced a ha series period count (fun m w => m + w)
        fun m w => (mul_add a m w).symm
      have hlower := @bollingerSeries_repriced a ha series period count (fun m w => m - w)
        fun m w => (mul_sub a m w).symm
      have hsignals := reversionSignals_repriced ha series
        (bollingerSeries series period count fun m w => m + w)
        (bollingerSeries series period count fun m w => m - w)
      rw [← hupper, ← hlower] at hsignals
      exact congrArg Except.ok hsignals

theorem unitFree_macdCrossover : (macdCrossover (K := ℝ)).UnitFree := by
  intro a ha series params
  simp only [macdCrossover, calculate_macd, calculateMACD]
  cases paramAsSize params "fast" 12 with
  | error e => rfl
  | ok fast =>
    cases paramAsSize params "slow" 26 with
    | error e => rfl
    | ok slow =>
      cases paramAsSize params "signal" 9 with
      | error e => rfl
      | ok signal =>
        refine congrArg Except.ok ?_
        rw [macdSeries_repriced]
        exact crossoverSignals_repriced ha series _ _

theorem builtinStrategy_unitFree {name : String} {strategy : Strategy ℝ}
    (h : builtinStrategy name = some strategy) : strategy.UnitFree := by
  unfold builtinStrategy at h
  split_ifs at h <;> cases h
  · exact unitFree_buyAndHold
  · exact unitFree_smaCrossover
  · exact unitFree_rsiThreshold
  · exact unitFree_bollingerReversion
  · exact unitFree_macdCrossover

/-! ### The engine -/

noncomputable def Trade.repriced (a : ℝ) (t : Trade ℝ) : Trade ℝ :=
  { t with
    entryPrice := a * t.entryPrice
    exitPrice := a * t.exitPrice
    quantity := t.quantity / a }

/-- The result whose trades are quoted in the other unit, all else unchanged. -/
noncomputable def BacktestResult.repriced (a : ℝ) (r : BacktestResult ℝ) : BacktestResult ℝ :=
  { r with trades := r.trades.map (Trade.repriced a) }

theorem Trade.rescale_price (a : ℝ) : Trade.rescale a 1 = Trade.repriced a := by
  funext t
  simp only [rescale, repriced, mul_one]

theorem EquityPoint.scale_one : EquityPoint.scale 1 = id := by
  funext p
  simp only [scale, mul_one]
  rfl

namespace BacktestConfig
variable {a : ℝ} (config : BacktestConfig ℝ) (series : List (OHLCV ℝ)) (signals : List SignalResult)

theorem finalState_repriced (ha : a ≠ 0) :
    config.finalState (series.map (OHLCV.repriced a)) signals =
      (config.finalState series signals).rescale a 1 := by
  have hrescale := config.finalState_rescale series signals ha 1
  have hsame : config.withCapital (config.initialCapital * 1) = config := by
    rw [mul_one]
    rfl
  rwa [hsame] at hrescale

theorem winRateOf_repriced (trades : List (Trade ℝ)) :
    winRateOf (trades.map (Trade.repriced a)) = winRateOf trades := by
  unfold winRateOf
  rw [List.countP_map, List.length_map]
  simp only [List.map_eq_nil_iff]
  rfl

theorem simulate_repriced (ha : a ≠ 0) :
    config.simulate (series.map (OHLCV.repriced a)) signals =
      (config.simulate series signals).repriced a := by
  unfold simulate
  rw [config.finalState_repriced series signals ha]
  simp only [RunState.rescale, EquityPoint.scale_one, List.map_id, Trade.rescale_price,
    winRateOf_repriced, List.length_map, BacktestResult.repriced]

end BacktestConfig

/-- Both runs throw the same error, or the second returns the result of the first
with its trades quoted in the other unit. -/
theorem run_repriced (name : String) (config : BacktestConfig ℝ) (engine : BacktestEngine ℝ)
    (hengine : BacktestEngine.ofName name config = .ok engine) (params : ParamMap ℝ)
    (series : List (OHLCV ℝ)) (a : ℝ) (ha : 0 < a) :
    engine.run (series.map (OHLCV.repriced a)) params =
      (engine.run series params).map (BacktestResult.repriced a) := by
  have hsignals := builtinStrategy_unitFree (BacktestEngine.ofName_eq_ok.mp hengine).1 a ha
    series params
  unfold BacktestEngine.run
  rw [hsignals, List.length_map]
  simp only [List.map_eq_nil_iff]
  split_ifs
  · rfl
  · rfl
  · cases engine.strategy.signals series params with
    | error e => rfl
    | ok signals =>
      simp only [bind, Except.bind, engine.config.simulate_repriced series signals ha.ne']
      split_ifs <;> rfl

theorem run_repriced_doubled :
    ∃ bt, (BacktestEngine.mk buyAndHold ⟨110, 1 / 10, 252, 0⟩).run
        ([⟨0, 100, 100, 100, 100, 1⟩, ⟨1, 100, 200, 100, 200, 1⟩].map (OHLCV.repriced 2))
        ParamMap.empty = .ok bt ∧
      bt.finalEquity = 180 ∧ bt.trades = [⟨1, 1, 200, 400, 1 / 2, .long, 70⟩] := by
  obtain ⟨bt, hrun, hfinal, htrades⟩ := doubling_run
  have hrepriced := run_repriced "buy_and_hold" ⟨110, 1 / 10, 252, 0⟩
    ⟨buyAndHold, ⟨110, 1 / 10, 252, 0⟩⟩
    (BacktestEngine.ofName_eq_ok.mpr ⟨by simp [builtinStrategy], rfl⟩) ParamMap.empty
    [⟨0, 100, 100, 100, 100, 1⟩, ⟨1, 100, 200, 100, 200, 1⟩] 2 two_pos
  rw [hrun] at hrepriced
  refine ⟨_, hrepriced, hfinal, ?_⟩
  norm_num [BacktestResult.repriced, htrades, Trade.repriced]

end StandardTools.Backtest
