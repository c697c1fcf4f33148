import StandardTools.Backtest.Homogeneity
import StandardTools.Backtest.Windows

/-!
# Stitched windows compound

`combineResults` never runs a window again: it rescales the curve that the
window had from the configured capital. As a run is linear in its capital, the
stitched curve is the one of windows run in a row, each from the equity the one
before it ended with.
-/

namespace StandardTools.Backtest
open StandardTools.Core StandardTools.Lib

/-- The windows run one after another, each from what the last one left. -/
def carriedRuns {K : Type} [Double K] (strategyName : String) (config : BacktestConfig K) :
    K → List (List (OHLCV K) × ParamMap K) → Except Error (List (BacktestResult K))
  | _, [] => .ok []
  | capital, (bars, params) :: rest => do
    let result ← runNamed strategyName { config with initialCapital := capital } bars params
    let results ← carriedRuns strategyName config result.finalEquity rest
    return result :: results

variable {name : String} {config : BacktestConfig ℝ} {bars : List (OHLCV ℝ)}
  {params : ParamMap ℝ} {r : BacktestResult ℝ}

/-! ### One window -/

theorem runNamed_head (h : runNamed name config bars params = .ok r) :
    r.equityCurve.head?.map (·.equity) = some config.initialCapital := by
  obtain ⟨strategy, -, hne, -, signals, -, hlen, rfl⟩ := runNamed_eq_ok.mp h
  obtain ⟨bar, hbar⟩ := Option.ne_none_iff_exists'.mp
    (fun hn => hne (List.head?_eq_none_iff.mp hn) : bars.head? ≠ none)
  have hhead := config.finalState_head bars signals hlen hbar
  simp only [BacktestConfig.simulate, hhead, Option.map_some]

theorem runNamed_back (h : runNamed name config bars params = .ok r) :
    r.equityCurve.getLast?.map (·.equity) = some r.finalEquity := by
  have hhead := runNamed_head h
  obtain ⟨strategy, -, -, -, signals, -, -, rfl⟩ := runNamed_eq_ok.mp h
  have hcurve : (config.simulate bars signals).equityCurve ≠ [] := by
    intro hnil
    rw [hnil] at hhead
    cases hhead
  have hlast := List.getLast?_eq_some_getLast hcurve
  simp only [BacktestConfig.simulate] at hlast ⊢
  rw [hlast, Option.map_some, Option.getD_some]

theorem runNamed_finalEquity (h : runNamed name config bars params = .ok r) :
    r.finalEquity = config.initialCapital * (1 + r.totalReturn) := by
  obtain ⟨strategy, -, hne, -, signals, -, hlen, rfl⟩ := runNamed_eq_ok.mp h
  exact config.simulate_finalEquity bars signals hne hlen

/-- Run again from another capital, the window's curve is the finished one
scaled as `combineResults` scales it. -/
theorem runNamed_withCapital (h : runNamed name config bars params = .ok r) {capital : ℝ}
    (hzero : config.initialCapital = 0 → capital = 0) :
    ∃ rerun, runNamed name (config.withCapital capital) bars params = .ok rerun ∧
      rerun.equityCurve =
        r.equityCurve.map (EquityPoint.scale (capital / config.initialCapital)) := by
  obtain ⟨strategy, hname, hne, hmax, signals, hsignals, hlen, rfl⟩ := runNamed_eq_ok.mp h
  have hcapital : capital = config.initialCapital * (capital / config.initialCapital) := by
    by_cases hc : config.initialCapital = 0
    · rw [hzero hc, zero_div, mul_zero]
    · rw [mul_div_cancel₀ capital hc]
  refine ⟨(config.withCapital capital).simulate bars signals, ?_, ?_⟩
  · exact runNamed_eq_ok.mpr ⟨strategy, hname, hne, hmax, signals, hsignals, hlen, rfl⟩
  · have hscale := config.finalState_withCapital bars signals (capital / config.initialCapital)
    rw [← hcapital] at hscale
    simp only [BacktestConfig.simulate, hscale]
    rfl

/-! ### Windows in a row -/

theorem carriedRuns_cons {capital : ℝ} {x : List (OHLCV ℝ) × ParamMap ℝ}
    {rest : List (List (OHLCV ℝ) × ParamMap ℝ)} {runs : List (BacktestResult ℝ)} :
    carriedRuns name config capital (x :: rest) = .ok runs ↔
      ∃ result results, runNamed name (config.withCapital capital) x.1 x.2 = .ok result ∧
        carriedRuns name config result.finalEquity rest = .ok results ∧
          runs = result :: results := by
  obtain ⟨bars, params⟩ := x
  rw [carriedRuns, bind_eq_ok]
  constructor
  · intro h
    obtain ⟨result, hresult, h⟩ := h
    obtain ⟨results, hresults, h⟩ := bind_eq_ok.mp h
    exact ⟨result, results, hresult, hresults, (Except.ok.inj h).symm⟩
  · intro h
    obtain ⟨result, results, hresult, hresults, rfl⟩ := h
    exact ⟨result, hresult, bind_eq_ok.mpr ⟨results, hresults, rfl⟩⟩

variable {windows : List (List (OHLCV ℝ) × ParamMap ℝ)} {runs : List (BacktestResult ℝ)}
  {capital : ℝ}

theorem carriedRuns_head (h : carriedRuns name config capital windows = .ok runs)
    (hne : windows ≠ []) :
    (runs.flatMap (·.equityCurve)).head?.map (·.equity) = some capital := by
  cases windows with
  | nil => exact absurd rfl hne
  | cons x rest =>
    obtain ⟨result, results, hresult, -, rfl⟩ := carriedRuns_cons.mp h
    have hhead := runNamed_head hresult
    obtain ⟨p, hp, -⟩ := Option.map_eq_some_iff.mp hhead
    rw [hp] at hhead
    rw [List.flatMap_cons, List.head?_append, hp, Option.some_or]
    exact hhead

theorem carriedRuns_back (h : carriedRuns name config capital windows = .ok runs)
    (hne : windows ≠ []) :
    (runs.flatMap (·.equityCurve)).getLast?.map (·.equity) =
      some (capital * (runs.map fun r => 1 + r.totalReturn).prod) := by
  induction windows generalizing capital runs with
  | nil => exact absurd rfl hne
  | cons x rest ih =>
    obtain ⟨result, results, hresult, hresults, rfl⟩ := carriedRuns_cons.mp h
    have hfinal : result.finalEquity = capital * (1 + result.totalReturn) :=
      runNamed_finalEquity hresult
    rw [List.flatMap_cons, List.map_cons, List.prod_cons, ← mul_assoc, ← hfinal,
      List.getLast?_append]
    cases rest with
    | nil =>
      cases hresults
      rw [List.flatMap_nil, List.getLast?_nil, Option.none_or, List.map_nil, List.prod_nil,
        mul_one]
      exact runNamed_back hresult
    | cons y rest =>
      have hback := ih hresults (List.cons_ne_nil y rest)
      obtain ⟨p, hp, -⟩ := Option.map_eq_some_iff.mp hback
      rw [hp] at hback
      rw [hp, Option.some_or]
      exact hback

/-! ### The stitching loop -/

def Stitch.carried (config : BacktestConfig ℝ) (s : Stitch ℝ) (i : ℕ) : ℝ :=
  if i = 0 then config.initialCapital else s.cumulativeCapital

theorem stitch_scale_eq (s : Stitch ℝ) (i : ℕ) :
    (if i = 0 then
        if config.initialCapital == 0 then 0 else config.initialCapital / config.initialCapital
      else if config.initialCapital == 0 then 0 else s.cumulativeCapital / config.initialCapital) =
      s.carried config i / config.initialCapital := by
  unfold Stitch.carried
  by_cases hc : config.initialCapital = 0
  · simp [hc]
  · have hbeq : (config.initialCapital == 0) = false := beq_eq_false_iff_ne.mpr hc
    simp only [hbeq, Bool.false_eq_true, if_false]
    split_ifs <;> rfl

theorem stitchStep_eq (s : Stitch ℝ) (i : ℕ)
    (hhead : r.equityCurve.head?.map (·.equity) = some config.initialCapital) :
    (stitchStep config s (r, i)).equityCurve = s.equityCurve ++
        r.equityCurve.map (EquityPoint.scale (s.carried config i / config.initialCapital)) ∧
      (r.equityCurve.map (EquityPoint.scale (s.carried config i / config.initialCapital))).getLast?.map
        (·.equity) = some (stitchStep config s (r, i)).cumulativeCapital := by
  have hne : r.equityCurve ≠ [] := by
    intro hnil
    rw [hnil] at hhead
    cases hhead
  simp only [stitchStep, hhead, Option.getD_some, stitch_scale_eq, List.getLast?_map,
    List.getLast?_eq_some_getLast hne, Option.map_some]
  exact ⟨rfl, rfl⟩

theorem stitchStep_trades (s : Stitch ℝ) (i : ℕ)
    (hhead : r.equityCurve.head?.map (·.equity) = some config.initialCapital) :
    (stitchStep config s (r, i)).trades = s.trades ++
      r.trades.map fun t => { t with pnl := t.pnl * (s.carried config i / config.initialCapital) } := by
  simp only [stitchStep, hhead, Option.getD_some, stitch_scale_eq]

/-- By induction on the windows: the loop carries the equity on which the next
window would be run again. -/
theorem stitch_foldl {results : List (BacktestResult ℝ)}
    (h : List.Forall₂ (fun x r => runNamed name config x.1 x.2 = .ok r) windows results)
    (s : Stitch ℝ) (i : ℕ) (hzero : config.initialCapital = 0 → s.carried config i = 0) :
    ∃ runs, carriedRuns name config (s.carried config i) windows = .ok runs ∧
      ((results.zipIdx i).foldl (stitchStep config) s).equityCurve =
        s.equityCurve ++ runs.flatMap (·.equityCurve) := by
  induction h generalizing s i with
  | nil => exact ⟨[], rfl, (List.append_nil _).symm⟩
  | @cons x r rest results hrun _ ih =>
    obtain ⟨hcurve, hback⟩ := stitchStep_eq s i (runNamed_head hrun)
    obtain ⟨rerun, hrerun, hscaled⟩ := runNamed_withCapital hrun hzero
    rw [← hscaled] at hcurve hback
    have hfinal : rerun.finalEquity = (stitchStep config s (r, i)).cumulativeCapital :=
      Option.some.inj ((runNamed_back hrerun).symm.trans hback)
    have hcarried : (stitchStep config s (r, i)).carried config (i + 1) = rerun.finalEquity :=
      hfinal.symm
    have hzero' : config.initialCapital = 0 →
        (stitchStep config s (r, i)).carried config (i + 1) = 0 := by
      intro hc
      have hvalue := runNamed_finalEquity hrerun
      rw [hcarried, hvalue]
      simp only [BacktestConfig.withCapital, hzero hc, zero_mul]
    obtain ⟨runs, hruns, hfold⟩ := ih (stitchStep config s (r, i)) (i + 1) hzero'
    rw [hcarried] at hruns
    refine ⟨rerun :: runs, carriedRuns_cons.mpr ⟨rerun, runs, hrerun, hruns, rfl⟩, ?_⟩
    rw [List.zipIdx_cons, List.foldl_cons, hfold, hcurve, List.flatMap_cons, List.append_assoc]

theorem combineResults_totalReturn {sort : DateSort ℝ} {results : List (BacktestResult ℝ)}
    {selected : List (ParamWindow ℝ)} {result : WalkForwardResult ℝ}
    (h : combineResults sort results selected config = .ok result) {front back : ℝ}
    (hfront : result.equityCurve.head?.map (·.equity) = some front)
    (hback : result.equityCurve.getLast?.map (·.equity) = some back) (hne : front ≠ 0) :
    1 + result.totalReturn = back / front := by
  have hresults := combineResults_ne_nil h
  unfold combineResults at h
  rw [if_neg hresults] at h
  cases h
  obtain ⟨p, hp, rfl⟩ := Option.map_eq_some_iff.mp hfront
  obtain ⟨q, hq, rfl⟩ := Option.map_eq_some_iff.mp hback
  have hbne : (p.equity != 0) = true := bne_iff_ne.mpr hne
  simp only at hp hq
  simp only [hp, hq, if_pos hbne]
  ring

/-! ### A whole run -/

/-- The tested windows, run again in a row. -/
theorem outOfSample_carriedRuns {w : WalkForwardOptimizer ℝ} {tests : List (Tested ℝ)}
    (h : w.outOfSample = .ok tests) :
    ∃ runs, carriedRuns w.strategy w.config w.config.initialCapital
        ((w.testWindows 0 w.windowCount).zip (tests.map (·.params))) = .ok runs ∧
      (stitch w.config (tests.map (·.result))).equityCurve = runs.flatMap (·.equityCurve) := by
  obtain ⟨combinations, -, hcount, htests⟩ := WalkForwardOptimizer.outOfSample_eq_ok.mp h
  have hruns : List.Forall₂ (fun x r => runNamed w.strategy w.config x.1 x.2 = .ok r)
      ((w.testWindows 0 w.windowCount).zip (tests.map (·.params))) (tests.map (·.result)) := by
    refine List.forall₂_of_length_eq_of_get
      (by simp [WalkForwardOptimizer.testWindows, hcount]) (fun k hk hk' => ?_)
    rw [List.length_map] at hk'
    have htest := (w.tested_eq_ok.mp (htests k hk')).2
    simpa only [List.get_eq_getElem, List.getElem_zip, List.getElem_map, List.getElem_range,
      WalkForwardOptimizer.testWindows, Nat.zero_add] using htest
  exact stitch_foldl hruns ⟨[], [], 0⟩ 0 (fun hzero => hzero)

/-- The stitched curve is the one of the windows run in a row, each from the
final equity of the one before it, and its total return compounds theirs. -/
theorem walk_forward_compounds (w : WalkForwardOptimizer ℝ) (sort : DateSort ℝ)
    (result : WalkForwardResult ℝ) (hrun : w.run sort = .ok result)
    (hdates : w.series.Pairwise fun a b => a.date < b.date) :
    result.selectedParams.length = (w.series.length - w.trainSize) / w.testSize ∧
    result.equityCurve.length = (w.series.length - w.trainSize) / w.testSize * w.testSize ∧
    result.equityCurve.map (·.date) =
      ((w.series.drop w.trainSize).take
        ((w.series.length - w.trainSize) / w.testSize * w.testSize)).map (·.date) ∧
    ∃ runs,
      carriedRuns w.strategy w.config w.config.initialCapital
        (((List.range ((w.series.length - w.trainSize) / w.testSize)).map fun k =>
          (w.series.drop (w.trainSize + k * w.testSize)).take w.testSize).zip
            (result.selectedParams.map (·.params))) = .ok runs ∧
      result.equityCurve = runs.flatMap (·.equityCurve) ∧
      (w.config.initialCapital ≠ 0 →
        1 + result.totalReturn = (runs.map fun r => 1 + r.totalReturn).prod) := by
  obtain ⟨tests, htests, hcombine⟩ := WalkForwardOptimizer.run_eq_ok hrun
  obtain ⟨-, -, hcount, -⟩ := WalkForwardOptimizer.outOfSample_eq_ok.mp htests
  obtain ⟨runs, hcarried, hcurve⟩ := outOfSample_carriedRuns htests
  obtain ⟨hparams, hequity, hpoints⟩ :=
    WalkForwardOptimizer.combineResults_tests htests hcombine hdates
  have hfits : w.windowCount * w.testSize ≤ w.series.length - w.trainSize :=
    Nat.div_mul_le_self _ _
  have hsize : result.selectedParams.length = w.windowCount := by
    have hlength := congrArg List.length hparams
    rw [List.length_map, List.length_map, hcount] at hlength
    exact hlength
  refine ⟨hsize, ?_, hpoints, runs, ?_, hequity.trans hcurve, ?_⟩
  · have hlength := congrArg List.length hpoints
    simp only [List.length_map, List.length_take, List.length_drop] at hlength
    rw [hlength]
    exact Nat.min_eq_left hfits
  · rw [hparams, ← w.testWindows_zero]
    exact hcarried
  · intro hcapital
    have hne : (w.testWindows 0 w.windowCount).zip (tests.map (·.params)) ≠ [] := by
      intro hnil
      have hlength := congrArg List.length hnil
      simp only [WalkForwardOptimizer.testWindows, List.length_zip, List.length_map,
        List.length_range, hcount, Nat.min_self, List.length_nil] at hlength
      apply combineResults_ne_nil hcombine
      rw [List.map_eq_nil_iff, ← List.length_eq_zero_iff, hcount, hlength]
    have hhead := carriedRuns_head hcarried hne
    have hback := carriedRuns_back hcarried hne
    rw [← hcurve, ← hequity] at hhead hback
    rw [combineResults_totalReturn hcombine hhead hback hcapital]
    exact mul_div_cancel_left₀ _ hcapital

noncomputable def twoWindows : WalkForwardOptimizer ℝ where
  strategy := "buy_and_hold"
  series := [⟨0, 1, 1, 1, 1, 1⟩, ⟨1, 1, 1, 1, 1, 1⟩, ⟨2, 1, 1 + 1, 1, 1 + 1, 1⟩,
    ⟨3, 1, 1, 1, 1, 1⟩, ⟨4, 1, 1 + 1, 1, 1 + 1, 1⟩]
  paramGrid := [("fast", [1])]
  trainSize := 1
  testSize := 2
  metric := .totalReturn
  config := ⟨1, 0, 252, 0⟩
  known := rfl
  train_pos := by decide
  test_pos := by decide
  train_le := by decide
  test_le := by decide
  grid_ne := by simp

/-- The same windows, the last bar of which closes at `last`. -/
noncomputable def twoWindowsTo (last : ℝ) : WalkForwardOptimizer ℝ :=
  { twoWindows with
    series := [⟨0, 1, 1, 1, 1, 1⟩, ⟨1, 1, 1, 1, 1, 1⟩, ⟨2, 1, 1 + 1, 1, 1 + 1, 1⟩,
      ⟨3, 1, 1, 1, 1, 1⟩, ⟨4, 1, last, 1, last, 1⟩] }

def twoWindowsParams : ParamMap ℝ := ParamMap.empty.set "fast" 1

theorem twoWindowsTo_run (last : ℝ) :
    ∃ first second result,
      runNamed "buy_and_hold" twoWindows.config ((twoWindowsTo last).testBars 0) twoWindowsParams =
        .ok first ∧
      runNamed "buy_and_hold" twoWindows.config ((twoWindowsTo last).testBars 2) twoWindowsParams =
        .ok second ∧
      (twoWindowsTo last).run DateSort.merge = .ok result ∧
      combineResults DateSort.merge [first, second] [⟨1, twoWindowsParams⟩, ⟨3, twoWindowsParams⟩]
        twoWindows.config = .ok result := by
  have hlength : (twoWindowsTo last).series.length = 5 := rfl
  have htrain : (twoWindowsTo last).trainSize = 1 := rfl
  have htest : (twoWindowsTo last).testSize = 2 := rfl
  obtain ⟨first, hfirst⟩ : ∃ r, runNamed "buy_and_hold" twoWindows.config
      ((twoWindowsTo last).testBars 0) twoWindowsParams = .ok r := ⟨_, rfl⟩
  obtain ⟨second, hsecond⟩ : ∃ r, runNamed "buy_and_hold" twoWindows.config
      ((twoWindowsTo last).testBars 2) twoWindowsParams = .ok r := ⟨_, rfl⟩
  have htune : ∀ start, start = 0 ∨ start = 2 → optimize "buy_and_hold"
      ((twoWindowsTo last).trainBars start) [twoWindowsParams] twoWindows.config .totalReturn =
        .ok twoWindowsParams := by
    intro start hstart
    obtain rfl | rfl := hstart
    · rfl
    · rfl
  have hwindows : (twoWindowsTo last).windows [twoWindowsParams] 0 [] [] =
      .ok ([first, second], [⟨1, twoWindowsParams⟩, ⟨3, twoWindowsParams⟩]) := by
    rw [WalkForwardOptimizer.windows, if_pos (by omega)]
    refine bind_eq_ok.mpr ⟨_, htune 0 (Or.inl rfl), bind_eq_ok.mpr ⟨first, hfirst, ?_⟩⟩
    rw [WalkForwardOptimizer.windows, if_pos (by omega)]
    refine bind_eq_ok.mpr ⟨_, htune 2 (Or.inr rfl), bind_eq_ok.mpr ⟨second, hsecond, ?_⟩⟩
    rw [WalkForwardOptimizer.windows, if_neg (by omega)]
    rfl
  obtain ⟨result, hcombine⟩ : ∃ result, combineResults DateSort.merge [first, second]
      [⟨1, twoWindowsParams⟩, ⟨3, twoWindowsParams⟩] twoWindows.config = .ok result :=
    ⟨_, if_neg (List.cons_ne_nil _ _)⟩
  refine ⟨first, second, result, hfirst, hsecond, ?_, hcombine⟩
  unfold WalkForwardOptimizer.run
  rw [if_neg (by omega)]
  refine bind_eq_ok.mpr ⟨[twoWindowsParams], rfl, ?_⟩
  rw [if_neg (List.cons_ne_nil _ _)]
  exact bind_eq_ok.mpr ⟨_, hwindows, hcombine⟩

theorem walk_forward_compounds_twoWindows :
    ∃ (result : WalkForwardResult ℝ) (runs : List (BacktestResult ℝ)),
      twoWindows.run DateSort.merge = .ok result ∧ result.selectedParams.length = 2 ∧
        result.equityCurve = runs.flatMap (·.equityCurve) ∧
        1 + result.totalReturn = (runs.map fun r => 1 + r.totalReturn).prod := by
  obtain ⟨first, second, result, -, -, hresult, -⟩ := twoWindowsTo_run (1 + 1)
  obtain ⟨hcount, -, -, runs, -, hcurve, hreturn⟩ := walk_forward_compounds twoWindows
    DateSort.merge result hresult (by simp [twoWindows])
  exact ⟨result, runs, hresult, hcount, hcurve, hreturn (by norm_num [twoWindows])⟩

end StandardTools.Backtest
