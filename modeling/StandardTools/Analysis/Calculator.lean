import Mathlib.Data.List.FinRange
import Mathlib.Order.WithBot
import StandardTools.Analysis.Options
import StandardTools.Lib.StdAlgorithm
import StandardTools.Lib.StdMap

/-!
# The analysis calculator (`analysis/calculator.cpp`)

The operations other than option pricing. A loop which adds up is a `sumOver`;
two sums of one loop are two of them. Matrices are functions of their indices.
`std::sort` enters as an implementation of its contract, and a result which may
stay at the infinity it starts from has its value in `Extended`.
-/

namespace StandardTools.Analysis
open StandardTools.Core Lib

variable {K : Type} [Cmath K]

/-- `double` with `std::numeric_limits<double>::infinity()` and its negative. -/
abbrev Extended (K : Type) := WithBot (WithTop K)

/-! ### Sums -/

/-- `for (x : l) sum += f(x);` -/
def sumOver {α : Type} (f : α → K) (l : List α) : K := l.foldl (fun sum x => sum + f x) 0

def mean (values : List K) : K :=
  if values.isEmpty then 0 else sumOver id values / (values.length : K)

def slope (xs ys : List K) : K :=
  if xs.length ≠ ys.length ∨ xs.isEmpty then 0
  else
    let meanX := mean xs
    let meanY := mean ys
    let num := sumOver (fun p => (p.1 - meanX) * (p.2 - meanY)) (xs.zip ys)
    let den := sumOver (fun x => (x - meanX) * (x - meanX)) xs
    if den == 0 then 0 else num / den

/-! ### Regression -/

structure RegressionResult (K : Type) where
  alpha : K
  beta : K
  rSquared : K
  residuals : List K

/-- One observation: the benchmark return, then the asset return. -/
def regression (assetReturns benchmarkReturns : List K) : Except Error (RegressionResult K) := do
  validateFinite assetReturns "asset returns"
  validateFinite benchmarkReturns "benchmark returns"
  if assetReturns.length ≠ benchmarkReturns.length then
    .error (.dataQuality ("asset and benchmark returns must have the same length (got " ++
      toString assetReturns.length ++ " and " ++ toString benchmarkReturns.length ++ ")"))
  else if assetReturns.length < 2 then
    .error (.dataQuality "regression requires at least two observations")
  else
    let meanX := mean benchmarkReturns
    let meanY := mean assetReturns
    let observations := benchmarkReturns.zip assetReturns
    let ssXX := sumOver (fun p => (p.1 - meanX) * (p.1 - meanX)) observations
    let ssXY := sumOver (fun p => (p.1 - meanX) * (p.2 - meanY)) observations
    if ssXX == 0 then .error (.dataQuality "benchmark returns have zero variance")
    else
      let beta := ssXY / ssXX
      let alpha := meanY - beta * meanX
      let resid := fun p : K × K => p.2 - (alpha + beta * p.1)
      let ssRes := sumOver (fun p => resid p * resid p) observations
      let ssTot := sumOver (fun p => (p.2 - meanY) * (p.2 - meanY)) observations
      .ok {
        alpha := alpha
        beta := beta
        rSquared := if ssTot != 0 then 1 - ssRes / ssTot else 0
        residuals := observations.map resid }

/-! ### Cointegration -/

/-- The pairs `(values[i - 1], values[i])`. -/
def lagged (values : List K) : List (K × K) := values.zip values.tail

def ar1Coefficient (values : List K) : K :=
  if values.length < 2 then 0
  else
    let num := sumOver (fun p => p.2 * p.1) (lagged values)
    let den := sumOver (fun p => p.1 * p.1) (lagged values)
    if den == 0 then 0 else num / den

def adfStatistic (values : List K) : K :=
  if values.length < 3 then 0
  else
    let num := sumOver (fun p => (p.2 - p.1) * p.1) (lagged values)
    let den := sumOver (fun p => p.1 * p.1) (lagged values)
    if den == 0 then 0
    else
      let gamma := num / den
      let eps := fun p : K × K => p.2 - p.1 - gamma * p.1
      let ssRes := sumOver (fun p => eps p * eps p) (lagged values)
      let df := ((values.length - 2 : ℕ) : K)
      let mse := ssRes / df
      let se := Double.sqrt (mse / den)
      if se == 0 then 0 else gamma / se

def standardScore (value : K) (values : List K) : K :=
  let m := mean values
  let std := Double.sqrt (sumOver (fun v => (v - m) * (v - m)) values / (values.length : K))
  if std == 0 then 0 else (value - m) / std

structure CointegrationResult (K : Type) where
  hedgeRatio : K
  adfStatistic : K
  halfLife : Extended K
  currentZScore : K

/-- The residuals of `a` against `b`, with the slope first. -/
def spread (aCloses bCloses : List K) : Except Error (K × List K) := do
  validateFinite aCloses "a closes"
  validateFinite bCloses "b closes"
  if aCloses.length ≠ bCloses.length then
    .error (.dataQuality ("price series must have the same length (got " ++
      toString aCloses.length ++ " and " ++ toString bCloses.length ++ ")"))
  else if aCloses.length < 10 then
    .error (.dataQuality "cointegration test requires at least ten observations")
  else
    let meanA := mean aCloses
    let meanB := mean bCloses
    let observations := bCloses.zip aCloses
    let ssBB := sumOver (fun p => (p.1 - meanB) * (p.1 - meanB)) observations
    let ssAB := sumOver (fun p => (p.2 - meanA) * (p.1 - meanB)) observations
    if ssBB == 0 then .error (.dataQuality "benchmark series has zero variance")
    else
      let hedgeRatio := ssAB / ssBB
      let alpha := meanA - hedgeRatio * meanB
      .ok (hedgeRatio, observations.map fun p => p.2 - (alpha + hedgeRatio * p.1))

def halfLife (phi : K) : Extended K :=
  if 0 < phi ∧ phi < 1 then ((-Cmath.log ((2 : ℕ) : K) / Cmath.log phi : K) : WithTop K) else ⊤

def cointegration (aCloses bCloses : List K) : Except Error (CointegrationResult K) := do
  let (hedgeRatio, residuals) ← spread aCloses bCloses
  return {
    hedgeRatio := hedgeRatio
    adfStatistic := adfStatistic residuals
    halfLife := halfLife (ar1Coefficient residuals)
    currentZScore := standardScore (residuals.getLastD 0) residuals }

/-! ### The Hurst exponent -/

/-- `static_cast<int>` of a `std::size_t`. -/
def toInt (n : ℕ) : ℤ := (n : ℤ).bmod (2 ^ 32)

/-- The locals of the loop over a chunk are `cumulative`, `max_dev` and `min_dev`;
`max()` is the negative of `lowest()`. -/
def deviationStep (chunkMean : K) (s : K × K × K) (r : K) : K × K × K :=
  let cumulative := s.1 + (r - chunkMean)
  (cumulative, if s.2.1 < cumulative then cumulative else s.2.1,
    if cumulative < s.2.2 then cumulative else s.2.2)

def chunkRange (chunk : List K) : K :=
  let s := chunk.foldl (deviationStep (mean chunk)) (0, Double.lowest, -Double.lowest)
  s.2.1 - s.2.2

def chunkStd (chunk : List K) : K :=
  let chunkMean := mean chunk
  Double.sqrt (sumOver (fun r => (r - chunkMean) * (r - chunkMean)) chunk / (chunk.length : K))

omit [Cmath K] in
/-- The chunks which the loop visits. -/
def chunks (series : List K) (lag : ℤ) : List (List K) :=
  (List.range ((toInt series.length).tdiv lag).toNat).map fun c =>
    (series.drop (c * lag.toNat)).take lag.toNat

def rescaledRange (series : List K) (lag : ℤ) : K :=
  let s := (chunks series lag).foldl
    (fun (s : K × ℕ) chunk =>
      if 0 < chunkStd chunk then (s.1 + chunkRange chunk / chunkStd chunk, s.2 + 1) else s)
    (0, 0)
  if s.2 = 0 then 0 else s.1 / (s.2 : K)

def interpretHurst (exponent : K) : String :=
  if exponent < decimal 4 1 then "mean-reverting"
  else if exponent < decimal 55 2 then "approximately random walk"
  else "persistent/trending"

structure HurstResult (K : Type) where
  exponent : K
  interpretation : String

/-- The largest lag for `n` returns. -/
def largestLag (n : ℕ) (maxLag : Option ℤ) : ℤ :=
  let quarter := toInt (n / 4)
  let maxL := match maxLag with
    | none => if quarter < 8 then 8 else quarter
    | some m =>
      let m := if m < 8 then 8 else m
      if quarter < m then quarter else m
  if toInt n - 1 < maxL then toInt n - 1 else maxL

/-- `for (int lag = min_lag; lag <= max_l; lag += step)` -/
def lagsUpTo (maxL : ℤ) : List ℤ :=
  let step := if (maxL - 8) / 50 < 1 then 1 else (maxL - 8) / 50
  (List.range ((maxL - 8) / step + 1).toNat).map fun i => 8 + i * step

def logReturns (prices : List K) : List K :=
  List.zipWith (fun next prev => Cmath.log (next / prev)) prices.tail prices

/-- The points `(log lag, log rs)` of the lags whose rescaled range is positive. -/
def rangePoints (returns : List K) (lags : List ℤ) : List (K × K) :=
  lags.filterMap fun lag =>
    let rs := rescaledRange returns lag
    if 0 < rs then some (Cmath.log (lag : K), Cmath.log rs) else none

def clampExponent (exponent : K) : K :=
  let exponent := if exponent < 0 then 0 else exponent
  if 1 < exponent then 1 else exponent

def hurst (prices : List K) (maxLag : Option ℤ) : Except Error (HurstResult K) := do
  validateFinite prices "prices"
  if prices.length < 50 then
    .error (.dataQuality "Hurst estimation requires at least 50 price observations")
  else if prices.any fun p => decide (p ≤ 0) then
    .error (.dataQuality "prices must be positive to compute log-returns")
  else
    let returns := logReturns prices
    let maxL := largestLag returns.length maxLag
    if maxL ≤ 8 then
      .error (.dataQuality "series is too short for meaningful R/S analysis")
    else
      let points := rangePoints returns (lagsUpTo maxL)
      if points.length < 2 then
        .error (.dataQuality "could not compute rescaled range for any lag")
      else
        let exponent := clampExponent (slope (points.map (·.1)) (points.map (·.2)))
        .ok ⟨exponent, interpretHurst exponent⟩

end StandardTools.Analysis
