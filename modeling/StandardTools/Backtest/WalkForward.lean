import StandardTools.Backtest.Engine
import StandardTools.Lib.StdAlgorithm

/-!
# Walk-forward optimization (`backtest/walk_forward.cpp`)

Each window is tuned on `trainSize` bars and tested on the `testSize` bars
behind them, every test from the configured capital; `combineResults` scales
the finished curves so that each begins where the one before it ended, then
sorts the points by date and drops repeated dates.
-/

namespace StandardTools.Backtest
open StandardTools.Core StandardTools.Lib

inductive OptimizationMetric where
  | totalReturn
  | sharpe
  | winRate
  deriving DecidableEq, Repr

structure ParamWindow (K : Type) where
  start : Date
  params : ParamMap K

structure WalkForwardResult (K : Type) where
  equityCurve : List (EquityPoint K)
  trades : List (Trade K)
  totalReturn : K
  maxDrawdown : K
  sharpe : Option K
  numberOfTrades : ℕ
  winRate : K
  selectedParams : List (ParamWindow K)

/- The grid is an `unordered_map`: its entries in the container's order. -/
structure WalkForwardRequest (K : Type) where
  strategy : String
  series : List (OHLCV K)
  paramGrid : List (String × List K)
  trainSize : ℕ
  testSize : ℕ
  metric : OptimizationMetric
  config : BacktestConfig K

variable {K : Type} [Double K]

/-! ### Tuning on the training bars -/

def maxWalkForwardCombinations : ℕ := 10000

omit [Double K] in
def extendCombinations (combinations : List (ParamMap K)) (entry : String × List K) :
    Except Error (List (ParamMap K)) :=
  if entry.2 = [] then .ok combinations
  else
    let next := combinations.flatMap fun base => entry.2.map fun value => base.set entry.1 value
    if maxWalkForwardCombinations < next.length then
      .error (.invalidCommand ("parameter grid produces more than " ++
        toString maxWalkForwardCombinations ++ " combinations"))
    else .ok next

omit [Double K] in
def buildParamCombinations (grid : List (String × List K)) : Except Error (List (ParamMap K)) :=
  grid.foldlM extendCombinations [ParamMap.empty]

def scoreResult (result : BacktestResult K) : OptimizationMetric → K
  | .sharpe => result.metrics.sharpe.getD 0
  | .winRate => result.metrics.winRate
  | .totalReturn => result.totalReturn

def runNamed (strategyName : String) (config : BacktestConfig K) (series : List (OHLCV K))
    (params : ParamMap K) : Except Error (BacktestResult K) := do
  let engine ← BacktestEngine.ofName strategyName config
  engine.run series params

/-- One round of `Optimize`: a combination which fails to run is skipped, a
strictly better one replaces the best so far. -/
def optimizeStep (strategyName : String) (train : List (OHLCV K)) (config : BacktestConfig K)
    (metric : OptimizationMetric) (best : Option (K × ParamMap K)) (params : ParamMap K) :
    Option (K × ParamMap K) :=
  match runNamed strategyName config train params with
  | .error _ => best
  | .ok result =>
    let score := scoreResult result metric
    match best with
    | none => some (score, params)
    | some (bestScore, bestParams) =>
      if bestScore < score then some (score, params) else some (bestScore, bestParams)

def optimize (strategyName : String) (train : List (OHLCV K)) (combinations : List (ParamMap K))
    (config : BacktestConfig K) (metric : OptimizationMetric) : Except Error (ParamMap K) :=
  match combinations.foldl (optimizeStep strategyName train config metric) none with
  | none => .error (.dataQuality "no parameter combination produced a result")
  | some (_, bestParams) => .ok bestParams

/-! ### Stitching the windows -/

/-- The locals of the stitching loop of `CombineResults`. -/
structure Stitch (K : Type) where
  equityCurve : List (EquityPoint K)
  trades : List (Trade K)
  cumulativeCapital : K

/-- One round of that loop, for the window `x.1` of index `x.2`. The quantities
of the trades stay those of the unscaled window. -/
def stitchStep (config : BacktestConfig K) (s : Stitch K) (x : BacktestResult K × ℕ) : Stitch K :=
  let windowInitial := (x.1.equityCurve.head?.map (·.equity)).getD config.initialCapital
  let windowFinal := (x.1.equityCurve.getLast?.map (·.equity)).getD windowInitial
  let scale :=
    if x.2 = 0 then
      if windowInitial == 0 then 0 else config.initialCapital / windowInitial
    else
      if windowInitial == 0 then 0 else s.cumulativeCapital / windowInitial
  { equityCurve := s.equityCurve ++ x.1.equityCurve.map fun p => ⟨p.date, p.equity * scale⟩
    trades := s.trades ++ x.1.trades.map fun t => { t with pnl := t.pnl * scale }
    cumulativeCapital := windowFinal * scale }

def stitch (config : BacktestConfig K) (results : List (BacktestResult K)) : Stitch K :=
  results.zipIdx.foldl (stitchStep config) ⟨[], [], 0⟩

abbrev DateSort (K : Type) := StdSort (EquityPoint K) fun a b => a.date < b.date

omit [Double K] in
def DateSort.merge : DateSort K :=
  .mergeOn (fun point => point.date.toInt) fun _ _ => Int64.lt_iff_toInt_lt.mp

def combineResults (sort : DateSort K) (results : List (BacktestResult K))
    (selectedParams : List (ParamWindow K)) (config : BacktestConfig K) :
    Except Error (WalkForwardResult K) :=
  if results = [] then
    .error (.invalidCommand "no out-of-sample windows were generated")
  else
    let stitched := stitch config results
    let equityCurve := stdUnique (fun a b => a.date == b.date) (sort.run stitched.equityCurve)
    let totalReturn :=
      match equityCurve.head?, equityCurve.getLast? with
      | some front, some back => if front.equity != 0 then back.equity / front.equity - 1 else 0
      | _, _ => 0
    .ok
      { equityCurve := equityCurve
        trades := stitched.trades
        totalReturn := totalReturn
        maxDrawdown := computeMaxDrawdown equityCurve
        sharpe := none
        numberOfTrades := stitched.trades.length
        winRate := winRateOf stitched.trades
        selectedParams := selectedParams }

/-! ### The optimizer -/

def maxWalkForwardWindow : ℕ := 10000

structure WalkForwardOptimizer (K : Type) [Double K] extends WalkForwardRequest K where
  known : (BacktestEngine.ofName strategy config).isOk
  train_pos : 0 < trainSize
  test_pos : 0 < testSize
  train_le : trainSize ≤ maxWalkForwardWindow
  test_le : testSize ≤ maxWalkForwardWindow
  grid_ne : paramGrid ≠ []

def WalkForwardOptimizer.ofRequest (request : WalkForwardRequest K) :
    Except Error (WalkForwardOptimizer K) :=
  match hengine : BacktestEngine.ofName request.strategy request.config with
  | .error e => .error e
  | .ok _ =>
    if hzero : request.trainSize = 0 ∨ request.testSize = 0 then
      .error (.invalidCommand "train and test sizes must be positive")
    else if hmax : maxWalkForwardWindow < request.trainSize ∨
        maxWalkForwardWindow < request.testSize then
      .error (.invalidCommand
        ("train and test sizes must be <= " ++ toString maxWalkForwardWindow))
    else if hgrid : request.paramGrid = [] then
      .error (.invalidCommand "walk-forward requires a non-empty parameter grid")
    else
      .ok
        { request with
          known := by rw [hengine]; rfl
          train_pos := by omega
          test_pos := by omega
          train_le := by omega
          test_le := by omega
          grid_ne := hgrid }

namespace WalkForwardOptimizer
variable (w : WalkForwardOptimizer K)

def trainBars (start : ℕ) : List (OHLCV K) := (w.series.drop start).take w.trainSize

def testBars (start : ℕ) : List (OHLCV K) :=
  (w.series.drop (start + w.trainSize)).take w.testSize

/-- The `while` loop of `Run`. -/
def windows (combinations : List (ParamMap K)) (start : ℕ)
    (testResults : List (BacktestResult K)) (selectedParams : List (ParamWindow K)) :
    Except Error (List (BacktestResult K) × List (ParamWindow K)) :=
  if start + w.trainSize + w.testSize ≤ w.series.length then do
    let test := w.testBars start
    let bestParams ← optimize w.strategy (w.trainBars start) combinations w.config w.metric
    let result ← runNamed w.strategy w.config test bestParams
    windows combinations (start + w.testSize) (testResults ++ [result])
      (selectedParams ++ [⟨(test.head?.map (·.date)).getD 0, bestParams⟩])
  else .ok (testResults, selectedParams)
termination_by w.series.length - start
decreasing_by
  have htest := w.test_pos
  omega

def run (sort : DateSort K) : Except Error (WalkForwardResult K) :=
  if w.series.length < w.trainSize + w.testSize then
    .error (.invalidCommand "series is too short for walk-forward configuration")
  else do
    let combinations ← buildParamCombinations w.paramGrid
    if combinations = [] then
      .error (.invalidCommand "walk-forward requires a non-empty parameter grid")
    else do
      let (testResults, selectedParams) ← w.windows combinations 0 [] []
      combineResults sort testResults selectedParams w.config

end WalkForwardOptimizer

end StandardTools.Backtest
