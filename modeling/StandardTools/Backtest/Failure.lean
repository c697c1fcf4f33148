import StandardTools.Backtest.GridSearch
import StandardTools.Backtest.NoLookAhead

/-!
# When a run throws (`backtest/strategy.cpp`, `backtest/walk_forward.cpp:64-94`, `192-243`)

A built-in strategy hands its parameters to `ParamAsSize` before it looks at the
bars, and nothing throws behind that. So whether a run throws is decided by the
parameters, and the parameters which ran on the training bars run on the test
bars. Storage is taken to suffice for what a vector reserves.
-/

namespace StandardTools.Backtest
open StandardTools.Core StandardTools.Lib Indicators

variable {K : Type} [Double K]

/-! ### The parsed parameters -/

/-- The calls of `ParamAsSize` which a built-in strategy makes, in their order. -/
def parseParams (name : String) (params : ParamMap K) : Except Error (List ℕ) :=
  if name = "sma_crossover" then
    [("fast", (10 : ℕ)), ("slow", 30)].mapM fun key =>
      paramAsSize (params.set "period" (paramOrDefault params key.1 (key.2 : K))) "period" 20
  else if name = "rsi_threshold" then
    [("period", 14)].mapM fun key => paramAsSize params key.1 key.2
  else if name = "bollinger_bands_reversion" then
    [("period", 20), ("std_dev", 2)].mapM fun key => paramAsSize params key.1 key.2
  else if name = "macd_crossover" then
    [("fast", 12), ("slow", 26), ("signal", 9)].mapM fun key => paramAsSize params key.1 key.2
  else .ok []

attribute [local simp] parseParams

theorem parseParams_rsi (params : ParamMap K) : parseParams "rsi_threshold" params = do
    let period ← paramAsSize params "period" 14
    return [period] := by
  simp

theorem parseParams_bollinger (params : ParamMap K) :
    parseParams "bollinger_bands_reversion" params = do
      let period ← paramAsSize params "period" 20
      let stdDevCount ← paramAsSize params "std_dev" 2
      return [period, stdDevCount] := by
  simp

theorem parseParams_macd (params : ParamMap K) : parseParams "macd_crossover" params = do
    let fast ← paramAsSize params "fast" 12
    let slow ← paramAsSize params "slow" 26
    let signal ← paramAsSize params "signal" 9
    return [fast, slow, signal] := by
  simp

theorem parseParams_error {name : String} {params : ParamMap K} {e : Error}
    (h : parseParams name params = .error e) : ∃ msg, e = .invalidCommand msg := by
  unfold parseParams at h
  split_ifs at h
  all_goals
    obtain ⟨key, -, hkey⟩ := mapM_error h
    exact paramAsSize_error hkey

/-- The strategy throws what parsing throws, and else returns a signal for each bar. -/
def Parses (parsed : Except Error (List ℕ)) (strategy : Strategy K) (params : ParamMap K) : Prop :=
  ∀ series, ∃ f : List ℕ → List SignalResult, (∀ sizes, (f sizes).length = series.length) ∧
    strategy.signals series params = parsed.map f

omit [Double K] in
theorem parses_buyAndHold (params : ParamMap K) : Parses (.ok []) buyAndHold params :=
  fun series => ⟨fun _ => buyAndHoldSignals series, fun _ => List.length_mapIdx, rfl⟩

theorem parses_smaCrossover (params : ParamMap K) :
    Parses (parseParams "sma_crossover" params) smaCrossover params := by
  intro series
  refine ⟨fun sizes => crossoverSignals series (smaValues series (sizes.getD 0 0))
    (smaValues series (sizes.getD 1 0)), fun _ => List.length_mapIdx, ?_⟩
  simp only [smaCrossover, calculate_sma, calculateSMA, parseParams, if_true, List.mapM_cons,
    List.mapM_nil]
  generalize params.set "period" (paramOrDefault params "fast" _) = fastParams
  generalize params.set "period" (paramOrDefault params "slow" _) = slowParams
  cases paramAsSize fastParams "period" 20 with
  | error e => rfl
  | ok fast =>
    cases paramAsSize slowParams "period" 20 with
    | error e => rfl
    | ok slow => rfl

theorem parses_rsiThreshold (params : ParamMap K) :
    Parses (parseParams "rsi_threshold" params) rsiThreshold params := by
  intro series
  refine ⟨fun sizes => thresholdSignals series (rsiValues series (sizes.getD 0 0))
    (paramOrDefault params "oversold" ((30 : ℕ) : K))
    (paramOrDefault params "overbought" ((70 : ℕ) : K)), fun _ => List.length_mapIdx, ?_⟩
  simp only [rsiThreshold, calculate_rsi, calculateRSI, parseParams_rsi]
  cases paramAsSize params "period" 14 with
  | error e => rfl
  | ok period => rfl

theorem parses_bollingerReversion (params : ParamMap K) :
    Parses (parseParams "bollinger_bands_reversion" params) bollingerReversion params := by
  intro series
  refine ⟨fun sizes => reversionSignals series
    (bollingerSeries series (sizes.getD 0 0) (sizes.getD 1 0) fun middle width => middle + width)
    (bollingerSeries series (sizes.getD 0 0) (sizes.getD 1 0) fun middle width => middle - width),
    fun _ => List.length_mapIdx, ?_⟩
  simp only [bollingerReversion, calculate_bollinger, calculateBollinger, parseParams_bollinger]
  cases paramAsSize params "period" 20 with
  | error e => rfl
  | ok period =>
    cases paramAsSize params "std_dev" 2 with
    | error e => rfl
    | ok count => rfl

theorem parses_macdCrossover (params : ParamMap K) :
    Parses (parseParams "macd_crossover" params) macdCrossover params := by
  intro series
  refine ⟨fun sizes => crossoverSignals series
    (macdSeries series (sizes.getD 0 0) (sizes.getD 1 0) (sizes.getD 2 0)).1
    (macdSeries series (sizes.getD 0 0) (sizes.getD 1 0) (sizes.getD 2 0)).2.1,
    fun _ => List.length_mapIdx, ?_⟩
  simp only [macdCrossover, calculate_macd, calculateMACD, parseParams_macd]
  cases paramAsSize params "fast" 12 with
  | error e => rfl
  | ok fast =>
    cases paramAsSize params "slow" 26 with
    | error e => rfl
    | ok slow =>
      cases paramAsSize params "signal" 9 with
      | error e => rfl
      | ok signal => rfl

theorem builtinStrategy_parses {name : String} {strategy : Strategy K}
    (h : builtinStrategy name = some strategy) (params : ParamMap K) :
    Parses (parseParams name params) strategy params := by
  unfold builtinStrategy at h
  split_ifs at h with hhold hsma hrsi hbollinger hmacd <;> cases h
  · subst hhold
    exact parses_buyAndHold params
  · subst hsma
    exact parses_smaCrossover params
  · subst hrsi
    exact parses_rsiThreshold params
  · subst hbollinger
    exact parses_bollingerReversion params
  · subst hmacd
    exact parses_macdCrossover params

omit [Double K] in
theorem Parses.length_eq {parsed : Except Error (List ℕ)} {strategy : Strategy K}
    {params : ParamMap K} (h : Parses parsed strategy params) {series : List (OHLCV K)}
    {signals : List SignalResult} (hsignals : strategy.signals series params = .ok signals) :
    signals.length = series.length := by
  obtain ⟨f, hlen, hf⟩ := h series
  rw [hf] at hsignals
  obtain ⟨sizes, -, rfl⟩ := map_eq_ok.mp hsignals
  exact hlen sizes

/-! ### One run -/

variable {name : String} {config : BacktestConfig K} {engine : BacktestEngine K}

/-- On a series of admitted length the run throws what parsing throws. -/
theorem run_parsed (hengine : BacktestEngine.ofName name config = .ok engine)
    {series : List (OHLCV K)} (hne : series ≠ []) (hmax : series.length ≤ maxBacktestBars)
    (params : ParamMap K) :
    ∃ f, engine.run series params = (parseParams name params).map f := by
  have hparses := builtinStrategy_parses (BacktestEngine.ofName_eq_ok.mp hengine).1 params
  obtain ⟨f, hlen, hf⟩ := hparses series
  refine ⟨fun sizes => engine.config.simulate series (f sizes), ?_⟩
  unfold BacktestEngine.run
  rw [if_neg hne, if_neg (not_lt.mpr hmax), hf]
  cases parseParams name params with
  | error e => rfl
  | ok sizes => exact if_neg (not_not.mpr (hlen sizes))

theorem run_eq_error (hengine : BacktestEngine.ofName name config = .ok engine)
    {series : List (OHLCV K)} (hne : series ≠ []) (hmax : series.length ≤ maxBacktestBars)
    {params : ParamMap K} {e : Error} :
    engine.run series params = .error e ↔ parseParams name params = .error e := by
  obtain ⟨f, hf⟩ := run_parsed hengine hne hmax params
  rw [hf]
  cases parseParams name params with
  | error e' => simp [Except.map]
  | ok sizes => simp [Except.map]

theorem exists_run (hengine : BacktestEngine.ofName name config = .ok engine)
    {series : List (OHLCV K)} (hne : series ≠ []) (hmax : series.length ≤ maxBacktestBars)
    {params : ParamMap K} (h : ¬∃ e, parseParams name params = .error e) :
    ∃ r, engine.run series params = .ok r := by
  cases hrun : engine.run series params with
  | error e => exact absurd ⟨e, (run_eq_error hengine hne hmax).mp hrun⟩ h
  | ok r => exact ⟨r, rfl⟩

/-! ### All windows of a search -/

namespace WalkForwardOptimizer
variable {w : WalkForwardOptimizer K}

theorem exists_engine (w : WalkForwardOptimizer K) : ∃ engine,
    BacktestEngine.ofName w.strategy w.config = .ok engine ∧
      ∀ series params, runNamed w.strategy w.config series params = engine.run series params := by
  have hknown := w.known
  unfold runNamed
  cases hengine : BacktestEngine.ofName w.strategy w.config with
  | error e =>
    rw [hengine] at hknown
    cases hknown
  | ok engine => exact ⟨engine, rfl, fun _ _ => rfl⟩

omit [Double K] in
/-- Bars of a window: there are some, and not too many for the engine. -/
theorem window_admitted {bars : List (OHLCV K)} {size : ℕ} (hbars : bars.length = size)
    (hpos : 0 < size) (hmax : size ≤ maxWalkForwardWindow) :
    bars ≠ [] ∧ bars.length ≤ maxBacktestBars := by
  refine ⟨List.length_pos_iff.mp (hbars ▸ hpos), ?_⟩
  unfold maxWalkForwardWindow at hmax
  unfold maxBacktestBars
  omega

/-- What `Optimize` throws when every combination is skipped. -/
def noCombination : Error := .dataQuality "no parameter combination produced a result"

theorem optimize_trainBars {combinations : List (ParamMap K)} {start : ℕ}
    (hfit : start + w.trainSize + w.testSize ≤ w.series.length) {e : Error} :
    optimize w.strategy (w.trainBars start) combinations w.config w.metric = .error e ↔
      (∀ params ∈ combinations, ∃ e, parseParams w.strategy params = .error e) ∧
        e = noCombination := by
  obtain ⟨engine, hengine, hrun⟩ := w.exists_engine
  obtain ⟨hne, hmax⟩ := window_admitted (trainBars_length hfit) w.train_pos w.train_le
  simp only [optimize_eq_error, hrun, run_eq_error hengine hne hmax]
  rfl

/-- A combination which ran on the training bars runs on the test bars. -/
theorem exists_tested {combinations : List (ParamMap K)} {start : ℕ}
    (hfit : start + w.trainSize + w.testSize ≤ w.series.length)
    (hparse : ¬∀ params ∈ combinations, ∃ e, parseParams w.strategy params = .error e) :
    ∃ t, w.tested combinations start = .ok t := by
  obtain ⟨engine, hengine, hrun⟩ := w.exists_engine
  obtain ⟨hne, hmax⟩ := window_admitted (trainBars_length hfit) w.train_pos w.train_le
  obtain ⟨hne', hmax'⟩ := window_admitted (testBars_length hfit) w.test_pos w.test_le
  cases hbest : optimize w.strategy (w.trainBars start) combinations w.config w.metric with
  | error e => exact absurd ((optimize_trainBars hfit).mp hbest).1 hparse
  | ok params =>
    obtain ⟨-, trained, htrained⟩ := optimize_mem hbest
    rw [hrun] at htrained
    have hparses : ¬∃ e, parseParams w.strategy params = .error e := by
      rintro ⟨e, he⟩
      rw [(run_eq_error hengine hne hmax).mpr he] at htrained
      cases htrained
    obtain ⟨result, hresult⟩ := exists_run hengine hne' hmax' hparses
    exact ⟨⟨params, result⟩, w.tested_eq_ok.mpr ⟨hbest, (hrun _ _).trans hresult⟩⟩

theorem windowCount_pos (hlong : w.trainSize + w.testSize ≤ w.series.length) :
    0 < w.windowCount :=
  Nat.div_pos (Nat.le_sub_of_add_le' hlong) w.test_pos

theorem run_noCombination {combinations : List (ParamMap K)} {sort : DateSort K}
    (hlong : w.trainSize + w.testSize ≤ w.series.length)
    (hbuild : buildParamCombinations w.paramGrid = .ok combinations) (hne : combinations ≠ [])
    (hfirst : optimize w.strategy (w.trainBars 0) combinations w.config w.metric =
      .error noCombination) : w.run sort = .error noCombination := by
  obtain ⟨n, hcount⟩ := Nat.exists_eq_succ_of_ne_zero (windowCount_pos hlong).ne'
  have htested : w.tested combinations 0 = .error noCombination := by
    rw [tested, hfirst]
    rfl
  rw [run_eq hlong hbuild hne, outOfSample, hbuild, hcount, List.range_succ_eq_map]
  show (List.mapM _ _ >>= _) = _
  rw [List.mapM_cons, Nat.zero_mul, htested]
  rfl

theorem run_completes {combinations : List (ParamMap K)} {sort : DateSort K}
    (hlong : w.trainSize + w.testSize ≤ w.series.length)
    (hbuild : buildParamCombinations w.paramGrid = .ok combinations) (hne : combinations ≠ [])
    (hparse : ¬∀ params ∈ combinations, ∃ e, parseParams w.strategy params = .error e) :
    ∃ tests result, w.outOfSample = .ok tests ∧ tests.length = w.windowCount ∧
      w.run sort = .ok result := by
  obtain ⟨tests, hall⟩ := exists_mapM fun k (hk : k ∈ List.range w.windowCount) =>
    exists_tested (window_fits (List.mem_range.mp hk)) hparse
  have htests : w.outOfSample = .ok tests := bind_eq_ok.mpr ⟨combinations, hbuild, hall⟩
  obtain ⟨-, -, hcount, -⟩ := outOfSample_eq_ok.mp htests
  have hsome : tests.map (·.result) ≠ [] := by
    rw [← List.length_pos_iff, List.length_map, hcount]
    exact windowCount_pos hlong
  have hrun : ∃ result, w.run sort = .ok result := by
    rw [run_eq hlong hbuild hne, htests]
    exact ⟨_, if_neg hsome⟩
  obtain ⟨result, hresult⟩ := hrun
  exact ⟨tests, result, htests, hcount, hresult⟩

end WalkForwardOptimizer

/-! ### Failure -/

omit [Double K] in
theorem buildParamCombinations_ne_nil {grid : List (String × List K)}
    {combinations : List (ParamMap K)} (h : buildParamCombinations grid = .ok combinations) :
    combinations ≠ [] := by
  refine foldlM_invariant (P := fun _ built => built ≠ []) ?_ h (List.cons_ne_nil _ _)
  intro i hi built next hbuilt hnext
  by_cases hempty : grid[i].2 = []
  · have hskip : extendCombinations built grid[i] = .ok built := if_pos hempty
    rw [hskip] at hnext
    cases hnext
    exact hbuilt
  · obtain ⟨-, rfl⟩ := (extendCombinations_eq_ok hempty).mp hnext
    rw [← List.length_pos_iff, length_extended]
    exact Nat.mul_pos (List.length_pos_iff.mpr hbuilt) (List.length_pos_iff.mpr hempty)

open WalkForwardOptimizer in
theorem failure_depends_on_params :
    (∀ (name : String) (config : BacktestConfig K) (engine : BacktestEngine K),
      BacktestEngine.ofName name config = .ok engine →
      ∀ (params : ParamMap K) (first second : List (OHLCV K)),
        first ≠ [] → first.length ≤ maxBacktestBars →
        second ≠ [] → second.length ≤ maxBacktestBars →
        ((∃ e, engine.run first params = .error e) ↔ ∃ e, engine.run second params = .error e) ∧
        (∀ e, engine.run first params = .error e → ∃ msg, e = .invalidCommand msg) ∧
        ∀ signals, engine.strategy.signals first params = .ok signals →
          signals.length = first.length) ∧
    ∀ (w : WalkForwardOptimizer K) (sort : DateSort K),
      w.trainSize + w.testSize ≤ w.series.length →
      gridSize w.paramGrid ≤ maxWalkForwardCombinations →
      ∃ combinations, buildParamCombinations w.paramGrid = .ok combinations ∧
        (w.run sort = .error noCombination ↔
          ∀ params ∈ combinations, ∃ e, parseParams w.strategy params = .error e) ∧
        (w.run sort = .error noCombination ∧
            optimize w.strategy (w.trainBars 0) combinations w.config w.metric =
              .error noCombination ∨
          ∃ tests result, w.outOfSample = .ok tests ∧ tests.length = w.windowCount ∧
            w.run sort = .ok result) := by
  refine ⟨fun name config engine hengine params first second hne hmax hne' hmax' =>
    ⟨?_, fun e he => ?_, fun signals hsignals => ?_⟩, fun w sort hlong hsize => ?_⟩
  · simp only [run_eq_error hengine hne hmax, run_eq_error hengine hne' hmax']
  · exact parseParams_error ((run_eq_error hengine hne hmax).mp he)
  · have hparses := builtinStrategy_parses (BacktestEngine.ofName_eq_ok.mp hengine).1 params
    exact hparses.length_eq hsignals
  · obtain ⟨combinations, hbuild⟩ := buildParamCombinations_ok.mpr hsize
    have hsome := buildParamCombinations_ne_nil hbuild
    refine ⟨combinations, hbuild, ?_⟩
    by_cases hparse : ∀ params ∈ combinations, ∃ e, parseParams w.strategy params = .error e
    · have hfirst : optimize w.strategy (w.trainBars 0) combinations w.config w.metric =
          .error noCombination := (optimize_trainBars (by omega)).mpr ⟨hparse, rfl⟩
      have hrun : w.run sort = .error noCombination :=
        run_noCombination hlong hbuild hsome hfirst
      exact ⟨iff_of_true hrun hparse, Or.inl ⟨hrun, hfirst⟩⟩
    · obtain ⟨tests, result, htests, hcount, hrun⟩ :=
        @run_completes K _ w combinations sort hlong hbuild hsome hparse
      refine ⟨iff_of_false (fun herror => ?_) hparse, Or.inr ⟨tests, result, htests, hcount, hrun⟩⟩
      rw [hrun] at herror
      cases herror

/-- A search over the one value 0 for the fast window, which is no size. -/
def zeroFast : WalkForwardOptimizer ℚ where
  strategy := "sma_crossover"
  series := List.replicate 7 ⟨0, 1, 1, 1, 1, 1⟩
  paramGrid := [("fast", [0])]
  trainSize := 3
  testSize := 4
  metric := .totalReturn
  config := ⟨1, 0, 252, 0⟩
  known := rfl
  train_pos := by decide
  test_pos := by decide
  train_le := by decide
  test_le := by decide
  grid_ne := by simp

theorem failure_depends_on_params_zeroFast :
    (∃ engine : BacktestEngine ℚ,
      BacktestEngine.ofName "sma_crossover" zeroFast.config = .ok engine ∧
      ((∃ e, engine.run [⟨0, 1, 1, 1, 1, 1⟩] (ParamMap.empty.set "fast" 0) = .error e) ↔
        ∃ e, engine.run zeroFast.series (ParamMap.empty.set "fast" 0) = .error e)) ∧
      zeroFast.run DateSort.merge = .error WalkForwardOptimizer.noCombination := by
  obtain ⟨hrun, hsearch⟩ := failure_depends_on_params (K := ℚ)
  refine ⟨⟨⟨smaCrossover, zeroFast.config⟩, ?_, ?_⟩, ?_⟩
  · simp [BacktestEngine.ofName, builtinStrategy]
  · exact (hrun "sma_crossover" zeroFast.config ⟨smaCrossover, zeroFast.config⟩
      (by simp [BacktestEngine.ofName, builtinStrategy]) _ _ _ (List.cons_ne_nil _ _) (by decide)
      (List.cons_ne_nil _ _) (by decide)).1
  · obtain ⟨combinations, hbuild, hfails, -⟩ :=
      hsearch zeroFast DateSort.merge (by decide) (by decide)
    cases hbuild
    refine hfails.mpr fun params hparams => ?_
    rw [List.mem_singleton.mp hparams]
    exact ⟨_, rfl⟩

end StandardTools.Backtest
