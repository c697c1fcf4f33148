import StandardTools.Backtest.Run
import StandardTools.Backtest.WalkForward
import StandardTools.Lib.Except

/-!
# The windows of a walk-forward run (`backtest/walk_forward.cpp:199-246`)

Window `k` is tuned on the `trainSize` bars from `k * testSize` on and tested
on the `testSize` bars behind them. A run which returns has tuned and tested
every window that fits into the series, each on its own.
-/

namespace StandardTools.Backtest
open StandardTools.Core StandardTools.Lib

variable {K : Type} [Double K]
variable {name : String} {config : BacktestConfig K} {bars : List (OHLCV K)}
  {params : ParamMap K} {r : BacktestResult K}

theorem runNamed_eq_ok :
    runNamed name config bars params = .ok r ↔
      ∃ strategy : Strategy K, builtinStrategy name = some strategy ∧
        bars ≠ [] ∧ bars.length ≤ maxBacktestBars ∧
          ∃ signals, strategy.signals bars params = .ok signals ∧
            signals.length = bars.length ∧ config.simulate bars signals = r := by
  unfold runNamed BacktestEngine.ofName
  cases hname : (builtinStrategy name : Option (Strategy K)) with
  | none => simp [bind, Except.bind]
  | some strategy =>
    have hrun := @BacktestEngine.run_eq_ok K _ ⟨strategy, config⟩ bars params r
    simpa [bind, Except.bind] using hrun

theorem runNamed_dates (h : runNamed name config bars params = .ok r) :
    r.equityCurve.map (·.date) = bars.map (·.date) := by
  obtain ⟨strategy, -, -, -, signals, -, hlen, rfl⟩ := runNamed_eq_ok.mp h
  exact config.finalState_equityCurve_dates bars signals hlen

/-! ### Tuned and tested -/

/-- What one round of the `while` loop finds out about its window. -/
structure Tested (K : Type) where
  params : ParamMap K
  result : BacktestResult K

namespace WalkForwardOptimizer
variable (w : WalkForwardOptimizer K)

def tested (combinations : List (ParamMap K)) (start : ℕ) : Except Error (Tested K) := do
  let params ← optimize w.strategy (w.trainBars start) combinations w.config w.metric
  let result ← runNamed w.strategy w.config (w.testBars start) params
  return ⟨params, result⟩

def windowCount : ℕ := (w.series.length - w.trainSize) / w.testSize

/-- All windows of a run, each for itself. -/
def outOfSample : Except Error (List (Tested K)) := do
  let combinations ← buildParamCombinations w.paramGrid
  (List.range w.windowCount).mapM fun k => w.tested combinations (k * w.testSize)

def selected (start : ℕ) (t : Tested K) : ParamWindow K :=
  ⟨((w.testBars start).head?.map (·.date)).getD 0, t.params⟩

theorem tested_eq_ok {combinations : List (ParamMap K)} {start : ℕ} {t : Tested K} :
    w.tested combinations start = .ok t ↔
      optimize w.strategy (w.trainBars start) combinations w.config w.metric = .ok t.params ∧
        runNamed w.strategy w.config (w.testBars start) t.params = .ok t.result := by
  constructor
  · intro h
    obtain ⟨params, hparams, h⟩ := bind_eq_ok.mp h
    obtain ⟨result, hresult, h⟩ := bind_eq_ok.mp h
    cases h
    exact ⟨hparams, hresult⟩
  · intro h
    exact bind_eq_ok.mpr ⟨t.params, h.1, bind_eq_ok.mpr ⟨t.result, h.2, rfl⟩⟩

/-- One round of the loop. -/
theorem windows_step (combinations : List (ParamMap K)) {start : ℕ}
    (hfit : start + w.trainSize + w.testSize ≤ w.series.length)
    (results : List (BacktestResult K)) (selected : List (ParamWindow K)) :
    w.windows combinations start results selected = w.tested combinations start >>= fun t =>
      w.windows combinations (start + w.testSize) (results ++ [t.result])
        (selected ++ [w.selected start t]) := by
  rw [windows, if_pos hfit, tested]
  cases optimize w.strategy (w.trainBars start) combinations w.config w.metric with
  | error e => rfl
  | ok params =>
    cases hrun : runNamed w.strategy w.config (w.testBars start) params with
    | error e => simp only [bind, Except.bind, hrun]
    | ok result => simp only [bind, Except.bind, hrun, pure, Except.pure, WalkForwardOptimizer.selected]

/-- What the loop makes of the windows tested from `start` on. -/
def collect (start : ℕ) (results : List (BacktestResult K)) (selected : List (ParamWindow K))
    (tests : List (Tested K)) : List (BacktestResult K) × List (ParamWindow K) :=
  (results ++ tests.map (·.result), selected ++ List.zipWith
    (fun k t => w.selected (start + k * w.testSize) t) (List.range tests.length) tests)

theorem next_start (start k : ℕ) :
    start + (k + 1) * w.testSize = start + w.testSize + k * w.testSize := by
  rw [Nat.succ_mul]
  omega

theorem collect_cons (start : ℕ) (results : List (BacktestResult K))
    (selected : List (ParamWindow K)) (t : Tested K) (tests : List (Tested K)) :
    w.collect start results selected (t :: tests) = w.collect (start + w.testSize)
      (results ++ [t.result]) (selected ++ [w.selected start t]) tests := by
  unfold collect
  rw [List.length_cons, List.range_succ_eq_map, List.zipWith_cons_cons, List.map_cons,
    List.zipWith_map_left, List.append_assoc, List.append_assoc, Nat.zero_mul, Nat.add_zero]
  simp only [Nat.succ_eq_add_one, next_start]
  rfl

/-- The loop from `start` on tests the windows which fit, by induction on the bars
which are left. -/
theorem windows_eq (combinations : List (ParamMap K)) (start : ℕ)
    (results : List (BacktestResult K)) (selected : List (ParamWindow K)) :
    w.windows combinations start results selected =
      ((List.range ((w.series.length - w.trainSize - start) / w.testSize)).mapM fun k =>
        w.tested combinations (start + k * w.testSize)).map (w.collect start results selected) := by
  induction hrest : w.series.length - start using Nat.strong_induction_on
    generalizing start results selected with
  | _ rest ih =>
    have htest := w.test_pos
    by_cases hfit : start + w.trainSize + w.testSize ≤ w.series.length
    · have hsub : w.series.length - w.trainSize - (start + w.testSize) =
          w.series.length - w.trainSize - start - w.testSize := by omega
      have hcount : (w.series.length - w.trainSize - start) / w.testSize =
          (w.series.length - w.trainSize - (start + w.testSize)) / w.testSize + 1 := by
        rw [hsub]
        exact Nat.div_eq_sub_div htest (by omega)
      have hnext : (fun k => w.tested combinations (start + k * w.testSize)) ∘ Nat.succ =
          fun k => w.tested combinations (start + w.testSize + k * w.testSize) :=
        funext fun k => congrArg _ (w.next_start start k)
      rw [w.windows_step combinations hfit, hcount, List.range_succ_eq_map, List.mapM_cons,
        List.mapM_map, hnext, Nat.zero_mul, Nat.add_zero]
      cases w.tested combinations start with
      | error e => rfl
      | ok t =>
        refine (ih (w.series.length - (start + w.testSize)) (by omega) _ _ _ rfl).trans ?_
        cases (List.range _).mapM fun k =>
          w.tested combinations (start + w.testSize + k * w.testSize) with
        | error e => rfl
        | ok tests => exact congrArg Except.ok (w.collect_cons start results selected t tests).symm
    · have hnone : (w.series.length - w.trainSize - start) / w.testSize = 0 :=
        Nat.div_eq_of_lt (by omega)
      rw [windows, if_neg hfit, hnone]
      simp only [List.range_zero, List.mapM_nil, pure, Except.pure, Except.map, collect,
        List.map_nil, List.append_nil, List.length_nil, List.zipWith_nil_left]

variable {w}

theorem outOfSample_eq_ok {tests : List (Tested K)} :
    w.outOfSample = .ok tests ↔ ∃ combinations, buildParamCombinations w.paramGrid = .ok combinations ∧
      tests.length = w.windowCount ∧
      ∀ k (h : k < tests.length), w.tested combinations (k * w.testSize) = .ok tests[k] := by
  unfold outOfSample
  simp only [bind_eq_ok, mapM_eq_ok, List.forall₂_iff_get, List.length_range, List.get_eq_getElem,
    List.getElem_range]
  refine exists_congr fun combinations => and_congr_right fun _ => ?_
  constructor
  · intro h
    exact ⟨h.1.symm, fun k hk => h.2 k (h.1 ▸ hk) hk⟩
  · intro h
    exact ⟨h.1.symm, fun k _ hk => h.2 k hk⟩

/-- A run with something to combine and something to search tests its windows and
combines the results. -/
theorem run_eq {sort : DateSort K} {combinations : List (ParamMap K)}
    (hlong : w.trainSize + w.testSize ≤ w.series.length)
    (hbuild : buildParamCombinations w.paramGrid = .ok combinations) (hne : combinations ≠ []) :
    w.run sort = w.outOfSample >>= fun tests => combineResults sort (tests.map (·.result))
      (List.zipWith (fun k t => w.selected (k * w.testSize) t) (List.range tests.length) tests)
      w.config := by
  have hloop := w.windows_eq combinations 0 [] []
  simp only [Nat.sub_zero, Nat.zero_add] at hloop
  unfold run outOfSample
  rw [if_neg (not_lt.mpr hlong), hbuild]
  show (if combinations = [] then _ else _) = _
  rw [if_neg hne, hloop, windowCount]
  show Except.map _ (List.mapM _ _) >>= _ = List.mapM _ _ >>= _
  cases (List.range _).mapM fun k => w.tested combinations (k * w.testSize) with
  | error e => rfl
  | ok tests => simp only [collect, List.nil_append, Nat.zero_add, Except.map, bind, Except.bind]

theorem run_eq_ok {sort : DateSort K} {result : WalkForwardResult K} (h : w.run sort = .ok result) :
    ∃ tests, w.outOfSample = .ok tests ∧ combineResults sort (tests.map (·.result))
      (List.zipWith (fun k t => w.selected (k * w.testSize) t) (List.range tests.length) tests)
      w.config = .ok result := by
  have hrun := h
  unfold run at h
  by_cases hshort : w.series.length < w.trainSize + w.testSize
  · rw [if_pos hshort] at h
    cases h
  rw [if_neg hshort] at h
  obtain ⟨combinations, hbuild, h⟩ := bind_eq_ok.mp h
  by_cases hempty : combinations = []
  · rw [if_pos hempty] at h
    cases h
  rw [run_eq (not_lt.mp hshort) hbuild hempty] at hrun
  exact bind_eq_ok.mp hrun

/-! ### Test slices -/

theorem trainBars_length {start : ℕ} (h : start + w.trainSize + w.testSize ≤ w.series.length) :
    (w.trainBars start).length = w.trainSize := by
  rw [trainBars, List.length_take, List.length_drop]
  omega

theorem testBars_length {start : ℕ} (h : start + w.trainSize + w.testSize ≤ w.series.length) :
    (w.testBars start).length = w.testSize := by
  rw [testBars, List.length_take, List.length_drop]
  omega

theorem lt_windowCount_iff {k : ℕ} :
    k < w.windowCount ↔ k * w.testSize + w.testSize ≤ w.series.length - w.trainSize := by
  rw [← Nat.succ_mul]
  exact Nat.le_div_iff_mul_le w.test_pos

theorem window_fits {k : ℕ} (h : k < w.windowCount) :
    k * w.testSize + w.trainSize + w.testSize ≤ w.series.length := by
  have hfits := lt_windowCount_iff.mp h
  have htest := w.test_pos
  omega

variable (w)

def testWindows (start count : ℕ) : List (List (OHLCV K)) :=
  (List.range count).map fun k => w.testBars (start + k * w.testSize)

theorem testWindows_zero (count : ℕ) :
    w.testWindows 0 count = (List.range count).map fun k =>
      (w.series.drop (w.trainSize + k * w.testSize)).take w.testSize := by
  simp only [testWindows, testBars, Nat.zero_add, Nat.add_comm w.trainSize]

theorem testWindows_succ (start count : ℕ) :
    w.testWindows start (count + 1) =
      w.testBars start :: w.testWindows (start + w.testSize) count := by
  simp only [testWindows, List.range_succ_eq_map, List.map_cons, List.map_map, Nat.zero_mul,
    Nat.add_zero, Function.comp_def, Nat.succ_eq_add_one, next_start]

theorem testWindows_flatten (start count : ℕ) :
    (w.testWindows start count).flatten =
      (w.series.drop (start + w.trainSize)).take (count * w.testSize) := by
  induction count generalizing start with
  | zero => simp [testWindows]
  | succ count ih =>
    have hdrop : start + w.testSize + w.trainSize = start + w.trainSize + w.testSize := by omega
    have htake : (count + 1) * w.testSize = w.testSize + count * w.testSize := by
      rw [Nat.succ_mul]
      omega
    have hnext : w.series.drop (start + w.trainSize + w.testSize) =
        (w.series.drop (start + w.trainSize)).drop w.testSize := List.drop_drop.symm
    rw [testWindows_succ, List.flatten_cons, ih, testBars, hdrop, hnext, htake, List.take_add]

variable {w}

/-- The curves of the tests, in a row, have a point for every bar of the test slices. -/
theorem outOfSample_dates {tests : List (Tested K)} (h : w.outOfSample = .ok tests) :
    (tests.flatMap (·.result.equityCurve)).map (·.date) =
      ((w.series.drop w.trainSize).take (w.windowCount * w.testSize)).map (·.date) := by
  obtain ⟨combinations, -, hcount, htests⟩ := outOfSample_eq_ok.mp h
  have hpoints : tests.map (fun t => t.result.equityCurve.map (·.date)) =
      (w.testWindows 0 w.windowCount).map (List.map (·.date)) := by
    refine List.ext_getElem (by simp [testWindows, hcount]) (fun k hk _ => ?_)
    rw [List.length_map] at hk
    have hdates := runNamed_dates (w.tested_eq_ok.mp (htests k hk)).2
    simpa only [List.getElem_map, testWindows, List.getElem_range, Nat.zero_add] using hdates
  rw [List.map_flatMap, List.flatMap_def, hpoints, ← List.map_flatten, w.testWindows_flatten,
    Nat.zero_add]

end WalkForwardOptimizer

/-! ### The stitched curve -/

theorem stitch_foldl_dates (config : BacktestConfig K) (results : List (BacktestResult K))
    (s : Stitch K) (i : ℕ) :
    ((results.zipIdx i).foldl (stitchStep config) s).equityCurve.map (·.date) =
      s.equityCurve.map (·.date) ++ (results.flatMap (·.equityCurve)).map (·.date) := by
  induction results generalizing s i with
  | nil => exact (List.append_nil _).symm
  | cons r results ih =>
    have hstep : (stitchStep config s (r, i)).equityCurve.map (·.date) =
        s.equityCurve.map (·.date) ++ r.equityCurve.map (·.date) := by
      simp only [stitchStep, List.map_append, List.map_map]
      rfl
    rw [List.zipIdx_cons, List.foldl_cons, ih, hstep, List.flatMap_cons, List.map_append,
      List.append_assoc]

theorem stitch_dates (config : BacktestConfig K) (results : List (BacktestResult K)) :
    (stitch config results).equityCurve.map (·.date) =
      (results.flatMap (·.equityCurve)).map (·.date) :=
  stitch_foldl_dates config results ⟨[], [], 0⟩ 0

theorem stitchStep_extends (config : BacktestConfig K) (s : Stitch K) (x : BacktestResult K × ℕ) :
    s.equityCurve <+: (stitchStep config s x).equityCurve := List.prefix_append _ _

/-- The windows behind a point of the loop leave the curve so far alone. -/
theorem stitch_extends (config : BacktestConfig K) (results rest : List (BacktestResult K)) :
    (stitch config results).equityCurve <+: (stitch config (results ++ rest)).equityCurve := by
  have hfold : ∀ (l : List (BacktestResult K × ℕ)) (s : Stitch K),
      s.equityCurve <+: (l.foldl (stitchStep config) s).equityCurve := by
    intro l
    induction l with
    | nil => exact fun s => List.prefix_refl _
    | cons x l ih => exact fun s => (stitchStep_extends config s x).trans (ih _)
  rw [stitch, stitch, List.zipIdx_append, List.foldl_append]
  exact hfold _ _

theorem combineResults_ne_nil {sort : DateSort K} {results : List (BacktestResult K)}
    {selected : List (ParamWindow K)} {result : WalkForwardResult K}
    (h : combineResults sort results selected config = .ok result) : results ≠ [] := by
  intro hempty
  unfold combineResults at h
  rw [if_pos hempty] at h
  cases h

/-- On strictly increasing dates the sort and the removal of repeated dates
leave the stitched curve alone. -/
theorem combineResults_increasing {sort : DateSort K} {results : List (BacktestResult K)}
    {selected : List (ParamWindow K)} {result : WalkForwardResult K}
    (h : combineResults sort results selected config = .ok result)
    (hdates : (stitch config results).equityCurve.Pairwise fun a b => a.date < b.date) :
    result.selectedParams = selected ∧ result.equityCurve = (stitch config results).equityCurve := by
  have hne := combineResults_ne_nil h
  unfold combineResults at h
  rw [if_neg hne] at h
  have hsort : sort.run (stitch config results).equityCurve = (stitch config results).equityCurve :=
    sort.run_eq_self (fun _ _ => Int64.lt_asymm) hdates
  have hunique : stdUnique (fun a b : EquityPoint K => a.date == b.date)
      (stitch config results).equityCurve = (stitch config results).equityCurve := by
    refine stdUnique_eq_self (hdates.imp ?_)
    intro a b hlt
    refine beq_eq_false_iff_ne.mpr fun heq => ?_
    rw [heq] at hlt
    exact Int64.lt_irrefl hlt
  simp only [hsort, hunique] at h
  cases h
  exact ⟨rfl, rfl⟩

namespace WalkForwardOptimizer

variable {w : WalkForwardOptimizer K}

/-- On strictly increasing dates a run hands out the parameters and the stitched
curve of its tests. -/
theorem combineResults_tests {sort : DateSort K} {result : WalkForwardResult K}
    {tests : List (Tested K)} (htests : w.outOfSample = .ok tests)
    (hcombine : combineResults sort (tests.map (·.result))
      (List.zipWith (fun k t => w.selected (k * w.testSize) t) (List.range tests.length) tests)
      w.config = .ok result)
    (hdates : w.series.Pairwise fun a b => a.date < b.date) :
    result.selectedParams.map (·.params) = tests.map (·.params) ∧
      result.equityCurve = (stitch w.config (tests.map (·.result))).equityCurve ∧
      result.equityCurve.map (·.date) =
        ((w.series.drop w.trainSize).take (w.windowCount * w.testSize)).map (·.date) := by
  have hpoints : (stitch w.config (tests.map (·.result))).equityCurve.map (·.date) =
      ((w.series.drop w.trainSize).take (w.windowCount * w.testSize)).map (·.date) := by
    rw [stitch_dates, List.flatMap_map, outOfSample_dates htests]
  have hincreasing : (stitch w.config (tests.map (·.result))).equityCurve.Pairwise
      fun a b => a.date < b.date := by
    rw [← List.pairwise_map (f := fun p : EquityPoint K => p.date) (R := (· < ·)), hpoints,
      List.pairwise_map]
    exact hdates.sublist ((List.take_sublist _ _).trans (List.drop_sublist _ _))
  obtain ⟨hselected, hequity⟩ := combineResults_increasing hcombine hincreasing
  refine ⟨?_, hequity, hequity ▸ hpoints⟩
  rw [hselected, List.map_zipWith]
  refine List.ext_getElem (by simp) (fun k hk _ => ?_)
  simp only [List.getElem_zipWith, List.getElem_map, selected]

end WalkForwardOptimizer

end StandardTools.Backtest
