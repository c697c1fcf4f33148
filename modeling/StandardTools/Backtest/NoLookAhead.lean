import StandardTools.Backtest.Run
import StandardTools.Indicators.Causality

/-!
# No look-ahead

The signals of a built-in strategy are a causal function of the series, and
whether the strategy throws depends on the parameters alone. With the one-bar
delay of the engine it follows that two series with a common prefix have the
same signals, valuations and signal-closed trades there. Nothing is assumed of
the arithmetic, so this holds of IEEE doubles with their roundings and NaNs.
-/

namespace StandardTools.Backtest
open StandardTools.Core Lib Indicators

variable {K : Type} [Double K]

/-- Each parameter map makes the strategy throw on every series, or gives it
signals which are a causal function of the series. -/
def Strategy.Causal (strategy : Strategy K) : Prop :=
  ∀ params,
    (∃ f, Lib.Causal f ∧ ∀ series, strategy.signals series params = .ok (f series)) ∨
    (∃ e, ∀ series, strategy.signals series params = .error e)

/-! ### Signals from causal values -/

omit [Double K] in
theorem valueAt_append {f : List (OHLCV K) → List (IndicatorValue K)} (hf : Causal f)
    (xs ys : List (OHLCV K)) {i : ℕ} (hi : i < xs.length) :
    valueAt (f (xs ++ ys)) i = valueAt (f xs) i := by
  rw [valueAt, valueAt, hf.getElem?_append xs ys hi]

theorem causal_crossoverSignals {f g : List (OHLCV K) → List (IndicatorValue K)}
    (hf : Causal f) (hg : Causal g) :
    Causal (fun series => crossoverSignals series (f series) (g series)) := by
  refine Causal.mapIdx (g := fun series i (bar : OHLCV K) =>
    (⟨bar.date, crossoverSignal (f series) (g series) i⟩ : SignalResult)) ?_
  intro xs ys i bar hi
  have hprev : i - 1 < xs.length := by omega
  simp only [crossoverSignal, valueAt_append hf xs ys hi, valueAt_append hg xs ys hi,
    valueAt_append hf xs ys hprev, valueAt_append hg xs ys hprev]

theorem causal_thresholdSignals {f : List (OHLCV K) → List (IndicatorValue K)}
    (hf : Causal f) (oversold overbought : K) :
    Causal (fun series => thresholdSignals series (f series) oversold overbought) := by
  refine Causal.mapIdx (g := fun series i (bar : OHLCV K) =>
    (⟨bar.date, thresholdSignal (f series) oversold overbought i⟩ : SignalResult)) ?_
  intro xs ys i bar hi
  simp only [thresholdSignal, valueAt_append hf xs ys hi]

theorem causal_reversionSignals {f g : List (OHLCV K) → List (IndicatorValue K)}
    (hf : Causal f) (hg : Causal g) :
    Causal (fun series => reversionSignals series (f series) (g series)) := by
  refine Causal.mapIdx (g := fun series i (bar : OHLCV K) =>
    (⟨bar.date, reversionSignal (f series) (g series) bar.close i⟩ : SignalResult)) ?_
  intro xs ys i bar hi
  simp only [reversionSignal, hf.getElem?_append xs ys hi, hg.getElem?_append xs ys hi]

/-! ### The built-in strategies -/

omit [Double K] in
theorem causal_buyAndHold : (buyAndHold (K := K)).Causal := by
  intro params
  refine Or.inl ⟨buyAndHoldSignals, ?_, fun _ => rfl⟩
  exact Causal.mapIdx (g := fun _ i (bar : OHLCV K) =>
    (⟨bar.date, if i = 0 then .buy else .hold⟩ : SignalResult)) (fun _ _ _ _ _ => rfl)

theorem causal_smaCrossover : (smaCrossover (K := K)).Causal := by
  intro params
  simp only [smaCrossover, calculate_sma, calculateSMA]
  generalize params.set "period" (paramOrDefault params "fast" _) = fastParams
  generalize params.set "period" (paramOrDefault params "slow" _) = slowParams
  cases hfast : paramAsSize fastParams "period" 20 with
  | error e => exact Or.inr ⟨e, fun _ => rfl⟩
  | ok fast =>
    cases hslow : paramAsSize slowParams "period" 20 with
    | error e => exact Or.inr ⟨e, fun _ => rfl⟩
    | ok slow =>
      exact Or.inl ⟨_, causal_crossoverSignals (causal_smaValues fast) (causal_smaValues slow),
        fun _ => rfl⟩

theorem causal_rsiThreshold : (rsiThreshold (K := K)).Causal := by
  intro params
  simp only [rsiThreshold, calculate_rsi, calculateRSI]
  cases hperiod : paramAsSize params "period" 14 with
  | error e => exact Or.inr ⟨e, fun _ => rfl⟩
  | ok period =>
    exact Or.inl ⟨_, causal_thresholdSignals (causal_rsiValues period) _ _, fun _ => rfl⟩

theorem causal_bollingerReversion : (bollingerReversion (K := K)).Causal := by
  intro params
  simp only [bollingerReversion, calculate_bollinger, calculateBollinger]
  cases hperiod : paramAsSize params "period" 20 with
  | error e => exact Or.inr ⟨e, fun _ => rfl⟩
  | ok period =>
    cases hcount : paramAsSize params "std_dev" 2 with
    | error e => exact Or.inr ⟨e, fun _ => rfl⟩
    | ok count =>
      exact Or.inl ⟨_, causal_reversionSignals
        (causal_bollingerSeries period count (fun middle width => middle + width))
        (causal_bollingerSeries period count (fun middle width => middle - width)), fun _ => rfl⟩

theorem causal_macdCrossover : (macdCrossover (K := K)).Causal := by
  intro params
  simp only [macdCrossover, calculate_macd, calculateMACD]
  cases hfast : paramAsSize params "fast" 12 with
  | error e => exact Or.inr ⟨e, fun _ => rfl⟩
  | ok fast =>
    cases hslow : paramAsSize params "slow" 26 with
    | error e => exact Or.inr ⟨e, fun _ => rfl⟩
    | ok slow =>
      cases hsignal : paramAsSize params "signal" 9 with
      | error e => exact Or.inr ⟨e, fun _ => rfl⟩
      | ok signal =>
        exact Or.inl ⟨_, causal_crossoverSignals (causal_macdSeries_line fast slow signal)
          (causal_macdSeries_signal fast slow signal), fun _ => rfl⟩

theorem builtinStrategy_causal {name : String} {strategy : Strategy K}
    (h : builtinStrategy name = some strategy) : strategy.Causal := by
  unfold builtinStrategy at h
  split_ifs at h <;> cases h
  · exact causal_buyAndHold
  · exact causal_smaCrossover
  · exact causal_rsiThreshold
  · exact causal_bollingerReversion
  · exact causal_macdCrossover

omit [Double K] in
theorem Strategy.Causal.signals_congr {strategy : Strategy K} (hc : strategy.Causal)
    {params : ParamMap K} {s s' : List (OHLCV K)} {signals signals' : List SignalResult} {m : ℕ}
    (hs : strategy.signals s params = .ok signals)
    (hs' : strategy.signals s' params = .ok signals') (hm : s.take m = s'.take m) :
    signals.length = s.length ∧ signals'.length = s'.length ∧
      signals.take m = signals'.take m := by
  rcases hc params with ⟨f, hf, heq⟩ | ⟨e, he⟩
  · rw [heq] at hs hs'
    cases hs
    cases hs'
    exact ⟨hf.length_eq s, hf.length_eq s', hf.take_congr hm⟩
  · rw [he] at hs
    cases hs

/-! ### The engine -/

omit [Double K] in
theorem schedule_take_congr {s s' : List (OHLCV K)} {signals signals' : List SignalResult} {m : ℕ}
    (hsig : signals.take m = signals'.take m) (hm : s.take m = s'.take m) :
    (schedule signals s).take m = (schedule signals' s').take m := by
  simp only [schedule, List.zip, List.take_zipWith, hm]
  cases m with
  | zero => rfl
  | succ k =>
    have hk : signals.take k = signals'.take k := by
      have h := congrArg (List.take k) hsig
      rwa [List.take_take, List.take_take, Nat.min_eq_left (Nat.le_succ k)] at h
    simp only [List.take_succ_cons, ← List.map_take, hk]

theorem stateAfter_congr (config : BacktestConfig K) {s s' : List (OHLCV K)}
    {signals signals' : List SignalResult} {m k : ℕ} (hk : k ≤ m)
    (hsig : signals.take m = signals'.take m) (hm : s.take m = s'.take m) :
    config.stateAfter s signals k = config.stateAfter s' signals' k := by
  have h := congrArg (List.take k) (schedule_take_congr hsig hm)
  rw [List.take_take, List.take_take, Nat.min_eq_left hk] at h
  rw [BacktestConfig.stateAfter, BacktestConfig.stateAfter, h]

/-- Two series which agree on their first `m` bars: the built-in strategies emit
the same first `m` signals, the curves agree on the first `m` points which are
not the last point of their series, and the trades which signals closed in the
first `m` bars are the same list, with which both trade lists begin. -/
theorem no_look_ahead (name : String) (config : BacktestConfig K) (engine : BacktestEngine K)
    (hengine : BacktestEngine.ofName name config = .ok engine) (params : ParamMap K)
    (s s' : List (OHLCV K)) (m : ℕ) (hm : s.take m = s'.take m) (r r' : BacktestResult K)
    (hr : engine.run s params = .ok r) (hr' : engine.run s' params = .ok r') :
    ∃ signals signals', engine.strategy.signals s params = .ok signals ∧
      engine.strategy.signals s' params = .ok signals' ∧
      signals.take m = signals'.take m ∧
      (∀ i < m, i + 1 < s.length → i + 1 < s'.length →
        r.equityCurve[i]? = r'.equityCurve[i]?) ∧
      (engine.config.stateAfter s signals m).trades =
        (engine.config.stateAfter s' signals' m).trades ∧
      (engine.config.stateAfter s signals m).trades <+: r.trades ∧
      (engine.config.stateAfter s' signals' m).trades <+: r'.trades := by
  have hcausal : engine.strategy.Causal :=
    builtinStrategy_causal (BacktestEngine.ofName_eq_ok.mp hengine).1
  obtain ⟨-, -, signals, hsig, hlen, rfl⟩ := BacktestEngine.run_eq_ok.mp hr
  obtain ⟨-, -, signals', hsig', hlen', rfl⟩ := BacktestEngine.run_eq_ok.mp hr'
  obtain ⟨-, -, htake⟩ := hcausal.signals_congr hsig hsig' hm
  refine ⟨signals, signals', hsig, hsig', htake, ?_, ?_, ?_, ?_⟩
  · intro i hi his his'
    have hbar : s[i] = s'[i] := by
      have h := congrArg (fun l => l[i]?) hm
      simp only [List.getElem?_take, hi, if_true] at h
      rwa [List.getElem?_eq_getElem (by omega), List.getElem?_eq_getElem (by omega),
        Option.some_inj] at h
    show (engine.config.finalState s signals).equityCurve[i]? =
      (engine.config.finalState s' signals').equityCurve[i]?
    rw [engine.config.finalState_equityCurve_getElem s signals hlen his,
      engine.config.finalState_equityCurve_getElem s' signals' hlen' his',
      stateAfter_congr engine.config (by omega : i + 1 ≤ m) htake hm, hbar]
  · rw [stateAfter_congr engine.config (Nat.le_refl m) htake hm]
  · exact engine.config.stateAfter_trades_prefix s signals m
  · exact engine.config.stateAfter_trades_prefix s' signals' m

theorem no_look_ahead_buy_and_hold :
    ∃ signals signals' : List SignalResult,
      (buyAndHold (K := ℚ)).signals [⟨0, 1, 1, 1, 1, 1⟩, ⟨1, 2, 2, 2, 2, 1⟩] ParamMap.empty =
        .ok signals ∧
      (buyAndHold (K := ℚ)).signals [⟨0, 1, 1, 1, 1, 1⟩, ⟨1, 5, 5, 5, 5, 1⟩] ParamMap.empty =
        .ok signals' ∧
      signals.take 1 = signals'.take 1 := by
  have hrun : ∀ series : List (OHLCV ℚ), series ≠ [] → series.length ≤ maxBacktestBars →
      (BacktestEngine.mk buyAndHold ⟨100, 0, 252, 0⟩).run series ParamMap.empty =
        .ok (BacktestConfig.simulate ⟨100, 0, 252, 0⟩ series (buyAndHoldSignals series)) :=
    fun series hne hmax => BacktestEngine.run_eq_ok.mpr
      ⟨hne, hmax, buyAndHoldSignals series, rfl, List.length_mapIdx, rfl⟩
  obtain ⟨signals, signals', h, h', htake, -⟩ := no_look_ahead "buy_and_hold" ⟨100, 0, 252, 0⟩
    ⟨buyAndHold, ⟨100, 0, 252, 0⟩⟩ (by simp [BacktestEngine.ofName, builtinStrategy])
    ParamMap.empty [⟨0, 1, 1, 1, 1, 1⟩, ⟨1, 2, 2, 2, 2, 1⟩] [⟨0, 1, 1, 1, 1, 1⟩, ⟨1, 5, 5, 5, 5, 1⟩]
    1 rfl _ _ (hrun _ (by simp) (by simp [maxBacktestBars]))
    (hrun _ (by simp) (by simp [maxBacktestBars]))
  exact ⟨signals, signals', h, h', htake⟩

end StandardTools.Backtest
