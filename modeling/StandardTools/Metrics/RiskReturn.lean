import StandardTools.Core.Cmath
import StandardTools.Core.ValueObjects
import StandardTools.Lib.StdAlgorithm

/-!
# Risk and return metrics (`metrics/risk_return.cpp`)

The metrics of a series of close prices, from its simple returns. `none` stands
for the NaN of a ratio which is undefined.
-/

namespace StandardTools.Metrics
open StandardTools.Core StandardTools.Lib

variable {K : Type} [Cmath K]

def tradingDaysPerYear : K := ((252 : ℕ) : K)

/-- `kVaRQuantile`, 0.05. -/
def varQuantile : K := ((5 : ℕ) : K) / ((100 : ℕ) : K)

structure ReturnMetrics (K : Type) where
  cumulativeReturn : K
  cagr : K
  annualizedVolatility : K

structure RiskMetrics (K : Type) where
  sharpeRatio : Option K
  sortinoRatio : Option K
  maxDrawdown : K
  calmarRatio : Option K
  var95 : Option K
  cvar95 : Option K
  volatility : K

/-! ### The figures of the returns -/

/-- The simple returns from one price to the next (`risk_return.cpp:20-27`). -/
def computeReturns (prices : List K) : List K :=
  List.zipWith (fun prev price => price / prev - 1) prices prices.tail

def cumulativeReturn (returns : List K) : K :=
  returns.foldl (fun product r => product * (1 + r)) 1 - 1

/-- Called on values only: an empty list would give NaN. -/
def mean (values : List K) : K := values.foldl (· + ·) 0 / (values.length : K)

/-- The population deviation, times the root of the trading days (`risk_return.cpp:48-60`). -/
def annualizedVolatility (returns : List K) : K :=
  if returns.length < 2 then 0
  else
    let mean := mean returns
    let sumSq := returns.foldl (fun sum r => sum + (r - mean) * (r - mean)) 0
    Double.sqrt (sumSq / (returns.length : K)) * Double.sqrt tradingDaysPerYear

/-- No ratio where nothing moves (`risk_return.cpp:62-67`). -/
def sharpeRatio (cagr volatility riskFreeRate : K) : Option K :=
  if volatility ≤ 0 ∨ !Double.isFinite volatility then none
  else some ((cagr - riskFreeRate) / volatility)

/-- Only returns below the periodic rate count, but all are divided by
(`risk_return.cpp:69-87`). -/
def sortinoRatio (returns : List K) (cagr riskFreeRate : K) : Option K :=
  if returns = [] then none
  else
    let periodicRf := riskFreeRate / tradingDaysPerYear
    let downsideSum := returns.foldl (fun sum r =>
      let d := r - periodicRf
      if d < 0 then sum + d * d else sum) 0
    let downsideDeviation :=
      Double.sqrt (downsideSum / (returns.length : K)) * Double.sqrt tradingDaysPerYear
    if downsideDeviation ≤ 0 ∨ !Double.isFinite downsideDeviation then none
    else some ((cagr - riskFreeRate) / downsideDeviation)

/-- The locals of the loop of `MaxDrawdown`. -/
structure DrawdownState (K : Type) where
  equity : K
  peak : K
  maxDd : K

def drawdownStep (s : DrawdownState K) (r : K) : DrawdownState K :=
  let equity := s.equity * (1 + r)
  let peak := if s.peak < equity then equity else s.peak
  let drawdown := (peak - equity) / peak
  ⟨equity, peak, if s.maxDd < drawdown then drawdown else s.maxDd⟩

/-- The largest share which the equity lost from its peak, as a negative number
(`risk_return.cpp:89-104`). -/
def maxDrawdown (returns : List K) : K := -(returns.foldl drawdownStep ⟨1, 1, 0⟩).maxDd

/-- The sorted return at a rounded position (`risk_return.cpp:106-116`). -/
def historicalVaR (sort : StdSort K (· < ·)) (returns : List K) (quantile : K) : Option K :=
  if returns = [] then none
  else
    let sorted := sort.run returns
    let index := (Cmath.lround (quantile * ((sorted.length - 1 : ℕ) : K))).toNat
    some (sorted.getD (min index (sorted.length - 1)) 0)

/-- The mean of the returns up to the value at risk (`risk_return.cpp:118-135`). -/
def historicalCVaR (sort : StdSort K (· < ·)) (returns : List K) (quantile : K) : Option K :=
  match historicalVaR sort returns quantile with
  | none => none
  | some varValue =>
    if !Double.isFinite varValue then none
    else
      let tail := returns.filter fun r => decide (r ≤ varValue)
      if tail.length = 0 then none else some (tail.foldl (· + ·) 0 / (tail.length : K))

def calmarRatio (cagr maxDrawdown : K) : Option K :=
  let dd := Double.abs maxDrawdown
  if dd ≤ 0 then none else some (cagr / dd)

/-! ### The calculator -/

/-- At least two prices, all positive and finite (`risk_return.cpp:145-159`). -/
def validatePrices (prices : List K) : Except Error Unit :=
  if prices.length < 2 then
    .error (.insufficientData
      ("at least two close prices required, got " ++ toString prices.length))
  else match prices.zipIdx.find? fun p => decide (p.1 ≤ 0) || !Double.isFinite p.1 with
    | some (p, i) =>
      .error (.invalidPrices ("price at index " ++ toString i ++
        " must be positive and finite (got " ++ Cmath.streamed p ++ ")"))
    | none => .ok ()

/-- The `cagr` which both calculators compute for themselves (`risk_return.cpp:169`, `184`). -/
def compoundAnnualGrowth (returns : List K) : K :=
  Cmath.pow (1 + cumulativeReturn returns) (tradingDaysPerYear / (returns.length : K)) - 1

def calculateReturnMetrics (series : List K) (_riskFreeRate : K) :
    Except Error (ReturnMetrics K) := do
  validatePrices series
  let returns := computeReturns series
  return ⟨cumulativeReturn returns, compoundAnnualGrowth returns, annualizedVolatility returns⟩

def calculateRiskMetrics (sort : StdSort K (· < ·)) (series : List K) (riskFreeRate : K) :
    Except Error (RiskMetrics K) := do
  validatePrices series
  let returns := computeReturns series
  let cagr := compoundAnnualGrowth returns
  let vol := annualizedVolatility returns
  let maxDd := maxDrawdown returns
  return {
    sharpeRatio := sharpeRatio cagr vol riskFreeRate
    sortinoRatio := sortinoRatio returns cagr riskFreeRate
    maxDrawdown := maxDd
    calmarRatio := calmarRatio cagr maxDd
    var95 := historicalVaR sort returns varQuantile
    cvar95 := historicalCVaR sort returns varQuantile
    volatility := vol }

end StandardTools.Metrics
