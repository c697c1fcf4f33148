import Mathlib.Data.List.Nodup
import StandardTools.Lib.StdMap
import StandardTools.Portfolio.Matrices

/-!
# Mean-variance optimization (`portfolio/optimizer.cpp`, `portfolio/result.hpp`)

A request is checked once and becomes a `ReturnMatrix`, one row of at least two
returns for each of at most `maxAssets` distinct labels. From its means and its
covariance with a ridge on the diagonal the code computes two funds, of minimum
variance and of maximum Sharpe ratio, and blends them as the objective demands.
-/

namespace StandardTools.Portfolio
open StandardTools.Core StandardTools.Lib

variable {K : Type} [Double K]

/-- `kCovRidge`, 1e-8. -/
def covRidge : K := 1 / ((100000000 : ℕ) : K)

/-- `kDegeneracyEps`, 1e-12: sums and differences below it count as zero. -/
def degeneracyEps : K := 1 / ((1000000000000 : ℕ) : K)

def maxAssets : ℕ := 100

/-! ### The checked returns -/

/-- What `ValidateReturnMatrix` accepts. -/
structure ReturnMatrix (K : Type) where
  assets : ℕ
  obs : ℕ
  returns : Fin assets → Fin obs → K
  labels : Fin assets → String
  assets_pos : 0 < assets
  assets_le : assets ≤ maxAssets
  obs_two : 2 ≤ obs
  labels_injective : Function.Injective labels

def duplicateLabel (seen : List String) : List String → Option String
  | [] => none
  | label :: rest => if label ∈ seen then some label else duplicateLabel (label :: seen) rest

theorem nodup_of_duplicateLabel {seen labels : List String}
    (h : duplicateLabel seen labels = none) :
    labels.Nodup ∧ ∀ label ∈ labels, label ∉ seen := by
  induction labels generalizing seen with
  | nil => exact ⟨List.nodup_nil, fun _ hmem => absurd hmem List.not_mem_nil⟩
  | cons label rest ih =>
    rw [duplicateLabel] at h
    by_cases hseen : label ∈ seen
    · rw [if_pos hseen] at h
      cases h
    · rw [if_neg hseen] at h
      obtain ⟨hnodup, hfresh⟩ := ih h
      refine ⟨List.nodup_cons.mpr ⟨fun hmem => hfresh label hmem List.mem_cons_self, hnodup⟩, ?_⟩
      intro x hx
      rcases List.mem_cons.mp hx with rfl | hx
      · exact hseen
      · exact fun hmem => hfresh x hx (List.mem_cons_of_mem _ hmem)

def checkSeries (obs : ℕ) (series : List K × ℕ) : Except Error Unit :=
  if series.1.length ≠ obs then
    .error (.dataQuality ("series " ++ toString series.2 ++ " has length " ++
      toString series.1.length ++ " but series 0 has length " ++ toString obs))
  else match series.1.findIdx? fun v => !Double.isFinite v with
    | some j =>
      .error (.dataQuality ("series " ++ toString series.2 ++
        " contains non-finite value at index " ++ toString j))
    | none => .ok ()

/-- The checks in the order of the source (`optimizer.cpp:28-68`); the number of
observations is that of the first series. -/
def validateReturnMatrix (returns : List (List K)) (labels : List String) :
    Except Error (ReturnMatrix K) :=
  let obs := (returns.head?.map (·.length)).getD 0
  if hempty : returns = [] then
    .error (.dataQuality "returns matrix must contain at least one series")
  else if hmax : maxAssets < returns.length then
    .error (.invalidCommand ("asset count " ++ toString returns.length ++
      " exceeds maximum of " ++ toString maxAssets))
  else if hlabels : labels.length ≠ returns.length then
    .error (.invalidCommand ("expected " ++ toString returns.length ++ " labels, got " ++
      toString labels.length))
  else match hdup : duplicateLabel [] labels with
    | some label => .error (.invalidCommand ("duplicate label " ++ label))
    | none =>
      if hobs : obs < 2 then
        .error (.dataQuality "each return series must contain at least two observations")
      else do
        returns.zipIdx.forM (checkSeries obs)
        return {
          assets := returns.length
          obs := obs
          returns := fun i t => (returns.get i).getD t 0
          labels := fun i => labels.get (i.cast (not_not.mp hlabels).symm)
          assets_pos := List.length_pos_iff.mpr hempty
          assets_le := not_lt.mp hmax
          obs_two := not_lt.mp hobs
          labels_injective := by
            intro i j hij
            have hnodup := (nodup_of_duplicateLabel hdup).1
            have hcast := List.nodup_iff_injective_get.mp hnodup hij
            exact Fin.cast_injective _ hcast }

namespace ReturnMatrix
variable (m : ReturnMatrix K)

def means : Fin m.assets → K := fun i => sumLoop (m.returns i) / (m.obs : K)

def centered : Fin m.assets → Fin m.obs → K := fun i t => m.returns i t - m.means i

/-- `SampleCovariance`: the upper triangle, and its mirror image. -/
def sampleCovariance : SquareMatrix K m.assets :=
  let factor := 1 / ((m.obs : K) - 1)
  let entry := fun i j => sumLoop (fun t => m.centered i t * m.centered j t) * factor
  fun i j => if i ≤ j then entry i j else entry j i

/-- The ridge is added behind `SampleCovariance` (`optimizer.cpp:365-368`). -/
def covariance : SquareMatrix K m.assets := fun i j =>
  if i = j then m.sampleCovariance i j + covRidge else m.sampleCovariance i j

end ReturnMatrix

/-! ### Objectives -/

def objectiveMaxSharpe : String := "max_sharpe"
def objectiveMinVolatility : String := "min_volatility"
def objectiveTargetReturn : String := "target_return"
def objectiveTargetVolatility : String := "target_volatility"

structure MeanVarianceRequest (K : Type) where
  returns : List (List K)
  labels : List String
  riskFreeRate : K
  objective : String
  targetReturn : Option K
  targetVolatility : Option K

/-- The objective with the target which it needs. -/
inductive Objective (K : Type) where
  | maxSharpe
  | minVolatility
  | targetReturn (target : K)
  | targetVolatility (target : K)

/-- A target is only looked at under its own objective (`optimizer.cpp:346-359`). -/
def MeanVarianceRequest.checkedObjective (request : MeanVarianceRequest K) :
    Except Error (Objective K) :=
  if request.objective = objectiveTargetReturn then
    match request.targetReturn with
    | some target =>
      if Double.isFinite target then .ok (.targetReturn target)
      else .error (.invalidCommand "target_return must be a finite number")
    | none => .error (.invalidCommand "target_return must be a finite number")
  else if request.objective = objectiveTargetVolatility then
    match request.targetVolatility with
    | some target =>
      if !Double.isFinite target ∨ target < 0 then
        .error (.invalidCommand "target_volatility must be a finite non-negative number")
      else .ok (.targetVolatility target)
    | none => .error (.invalidCommand "target_volatility must be a finite non-negative number")
  else if request.objective = objectiveMaxSharpe then .ok .maxSharpe
  else if request.objective = objectiveMinVolatility then .ok .minVolatility
  else .error (.invalidCommand ("unknown objective " ++ request.objective))

/-! ### Figures of a portfolio -/

structure PortfolioFigures (K : Type) where
  expectedReturn : K
  volatility : K
  sharpe : K

variable {n : ℕ}

/-- Rounding may leave the variance below zero, and a portfolio without volatility has
the lowest `double` for its ratio (`optimizer.cpp:260-275`). -/
def portfolioMetrics (weights means : Fin n → K) (cov : SquareMatrix K n) (rf : K) :
    PortfolioFigures K :=
  let expectedReturn := vecDot weights means
  let variance := quadraticForm weights cov
  let volatility := Double.sqrt (stdMax 0 variance)
  { expectedReturn := expectedReturn
    volatility := volatility
    sharpe := if 0 < volatility then (expectedReturn - rf) / volatility else Double.lowest }

/-! ### The two funds and their blends -/

/-- `Sigma^{-1} 1`, scaled to sum 1 (`optimizer.cpp:372-379`). -/
def minVarianceFund (invCov : SquareMatrix K n) : Except Error (Fin n → K) :=
  let inv1 := vecDotMat invCov fun _ => 1
  let denom := sumLoop inv1
  if Double.abs denom < degeneracyEps then
    .error (.internal "minimum-variance portfolio is degenerate")
  else .ok (scale inv1 (1 / denom))

/-- `Sigma^{-1} (mu - rf 1)`, scaled to sum 1 where its sum is not negligible. -/
def maxSharpeFund (invCov : SquareMatrix K n) (means : Fin n → K) (rf : K)
    (minVariance : Fin n → K) : Fin n → K :=
  let k := vecDotMat invCov fun i => means i - rf
  let sumK := sumLoop k
  if Double.abs sumK < degeneracyEps then minVariance else scale k (1 / sumK)

/-- The larger root, kept in [0, 1]; without one the linear equation is solved, or one half
is taken (`optimizer.cpp:277-289`). -/
def solveQuadraticForBlend (a b c : K) : K :=
  let discriminant := b * b - ((4 : ℕ) : K) * a * c
  if discriminant < 0 ∨ Double.abs a < degeneracyEps then
    if Double.abs b < degeneracyEps then 1 / ((2 : ℕ) : K) else clamp (-c / b) 0 1
  else
    let sqrtD := Double.sqrt discriminant
    let alpha1 := (-b + sqrtD) / (((2 : ℕ) : K) * a)
    let alpha2 := (-b - sqrtD) / (((2 : ℕ) : K) * a)
    clamp (stdMax alpha1 alpha2) 0 1

/-- The target is first moved between the volatilities of the funds
(`optimizer.cpp:291-320`). -/
def targetVolatilityBlend (wMs wMv : Fin n → K) (cov : SquareMatrix K n)
    (targetVol volMv volMs : K) : Fin n → K :=
  let target := stdMax volMv (stdMin volMs targetVol)
  if target ≤ volMv ∨ Double.abs (volMs - volMv) < degeneracyEps then wMv
  else if volMs ≤ target then wMs
  else
    let varMs := volMs * volMs
    let varMv := volMv * volMv
    let covMsMv := vecDot wMs (vecDotMat cov wMv)
    let targetVar := target * target
    let a := varMs + varMv - ((2 : ℕ) : K) * covMsMv
    let b := ((2 : ℕ) : K) * covMsMv - ((2 : ℕ) : K) * varMv
    let c := varMv - targetVar
    blend wMs wMv (solveQuadraticForBlend a b c)

/-- Funds with the same return leave the one of minimum variance (`optimizer.cpp:405-411`). -/
def targetReturnBlend (wMs wMv : Fin n → K) (target retMv retMs : K) : Fin n → K :=
  let alpha :=
    if degeneracyEps ≤ Double.abs (retMs - retMv) then (target - retMv) / (retMs - retMv) else 0
  blend wMs wMv (clamp alpha 0 1)

def ReturnMatrix.combine (m : ReturnMatrix K) (rf : K) (wMv wMs : Fin m.assets → K) :
    Objective K → Fin m.assets → K :=
  let mv := portfolioMetrics wMv m.means m.covariance rf
  let ms := portfolioMetrics wMs m.means m.covariance rf
  fun
  | .maxSharpe => wMs
  | .minVolatility => wMv
  | .targetReturn target =>
    targetReturnBlend wMs wMv target mv.expectedReturn ms.expectedReturn
  | .targetVolatility target =>
    targetVolatilityBlend wMs wMv m.covariance target mv.volatility ms.volatility

def ReturnMatrix.weights (m : ReturnMatrix K) (rf : K) (objective : Objective K) :
    Except Error (Fin m.assets → K) := do
  let invCov ← matInverse m.covariance
  let wMv ← minVarianceFund invCov
  return m.combine rf wMv (maxSharpeFund invCov m.means rf wMv) objective

/-! ### The result -/

/-- What a portfolio request returns (`result.hpp:16-30`). -/
structure PortfolioResult (K : Type) where
  weights : StdMap K
  expectedReturn : K
  volatility : K
  sharpeRatio : K

def weightSumTolerance : K := 1 / ((1000000 : ℕ) : K)

def checkWeight (e : String × K) : Except Error Unit :=
  if Double.isFinite e.2 then .ok ()
  else .error (.dataQuality ("weight for " ++ e.1 ++ " is non-finite"))

/-- The checks of `Validate` in the order of the source (`result.hpp:37-61`). -/
def PortfolioResult.validate (r : PortfolioResult K) : Except Error Unit :=
  if r.weights.entries = [] then .error (.dataQuality "result contains no weights")
  else do
    r.weights.entries.forM checkWeight
    let sum := r.weights.entries.foldl (fun sum e => sum + e.2) 0
    if weightSumTolerance < Double.abs (sum - 1) then
      .error (.invalidCommand ("weights sum to " ++ Double.toStr sum ++ ", expected 1.0"))
    else if !Double.isFinite r.expectedReturn then
      .error (.dataQuality "expected return is non-finite")
    else if !Double.isFinite r.volatility ∨ r.volatility < 0 then
      .error (.dataQuality "volatility is non-finite or negative")
    else if !Double.isFinite r.sharpeRatio then
      .error (.dataQuality "sharpe ratio is non-finite")
    else .ok ()

def buildResult (weights : Fin n → K) (labels : Fin n → String) (figures : PortfolioFigures K) :
    Except Error (PortfolioResult K) := do
  let result : PortfolioResult K :=
    { weights := StdMap.empty.assign ((List.finRange n).map fun i => (labels i, weights i))
      expectedReturn := figures.expectedReturn
      volatility := figures.volatility
      sharpeRatio := figures.sharpe }
  result.validate
  return result

def meanVariance (request : MeanVarianceRequest K) : Except Error (PortfolioResult K) := do
  if !Double.isFinite request.riskFreeRate then
    .error (.invalidCommand "risk_free_rate must be finite")
  let m ← validateReturnMatrix request.returns request.labels
  let objective ← request.checkedObjective
  let weights ← m.weights request.riskFreeRate objective
  buildResult weights m.labels
    (portfolioMetrics weights m.means m.covariance request.riskFreeRate)

end StandardTools.Portfolio
