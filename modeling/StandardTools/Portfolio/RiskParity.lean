import StandardTools.Portfolio.Optimizer

/-!
# Risk parity (`portfolio/risk_parity.cpp`)

The weights start equal. A round of the iteration computes the risk contributions
`w_i (Sigma w)_i`, stops where their sum is negligible or each of them is near
their mean, and else moves every weight half way to `w_i target / rc_i`, with
the contribution clamped from below, and scales the weights to sum 1. At most
`riskParityRounds` rounds are made. The file has its own copies of
`ValidateReturnMatrix`, `SampleCovariance` and `PortfolioMetrics`, the same text as
in the optimizer.
-/

namespace StandardTools.Portfolio
open StandardTools.Core StandardTools.Lib

variable {K : Type} [Double K] {n : ℕ}

structure RiskParityRequest (K : Type) where
  returns : List (List K)
  labels : List String

def convergenceTol : K := 1 / ((10000000000 : ℕ) : K)

def damping : K := 1 / ((2 : ℕ) : K)

def riskParityRounds : ℕ := 1000

/-- `rc_i = w_i * (cov * w)_i`. -/
def riskContributions (cov : SquareMatrix K n) (w : Fin n → K) : Fin n → K :=
  fun i => w i * vecDotMat cov w i

/-- Every contribution is less than `kConvergenceTol` from the target. -/
def riskConverged (rc : Fin n → K) (target : K) : Bool :=
  (List.finRange n).all fun i => !decide (convergenceTol ≤ Double.abs (rc i - target))

/-- Half of the way to `w_i target / rc_i` (`risk_parity.cpp:204-209`). -/
def dampedWeights (w rc : Fin n → K) (target : K) : Fin n → K := fun i =>
  w i + damping * (w i * target / stdMax (rc i) degeneracyEps - w i)

/-- How a round ends: a `break`, one for each of its three causes, or new weights. -/
inductive RoundEnd (K : Type) (n : ℕ) where
  | degenerate
  | converged
  | vanished
  | moved (w : Fin n → K)

def riskParityRound (cov : SquareMatrix K n) (w : Fin n → K) : RoundEnd K n :=
  let rc := riskContributions cov w
  let totalRc := sumLoop rc
  if totalRc < degeneracyEps then .degenerate
  else
    let target := totalRc / (n : K)
    if riskConverged rc target then .converged
    else
      let next := dampedWeights w rc target
      let nextTotal := sumLoop next
      if nextTotal < degeneracyEps then .vanished
      else .moved fun i => next i / nextTotal

/-- The loop keeps the weights which it had when it breaks (`risk_parity.cpp:178-217`). -/
def riskParityLoop (cov : SquareMatrix K n) : ℕ → (Fin n → K) → Fin n → K
  | 0, w => w
  | rounds + 1, w =>
    match riskParityRound cov w with
    | .moved w' => riskParityLoop cov rounds w'
    | _ => w

def equalWeights (n : ℕ) : Fin n → K := fun _ => 1 / (n : K)

/-- The rounds run on the covariance without a ridge (`risk_parity.cpp:142-231`). -/
def riskParity (request : RiskParityRequest K) : Except Error (PortfolioResult K) := do
  let m ← validateReturnMatrix request.returns request.labels
  let totalVariance := sumLoop fun i => m.sampleCovariance i i
  if totalVariance < degeneracyEps then
    .error (.dataQuality "all assets have zero volatility; cannot compute risk-parity weights")
  let w := riskParityLoop m.sampleCovariance riskParityRounds (equalWeights m.assets)
  buildResult w m.labels (portfolioMetrics w m.means m.sampleCovariance 0)

end StandardTools.Portfolio
