import StandardTools.Portfolio.Optimizer

/-!
# Black-Litterman (`portfolio/black_litterman.cpp`)

A checked request is a `ViewedMarket`: the returns of the assets with their
market caps, and views, each a row of `P` with an expected return in `Q`. The
views move the mean which the caps imply, and the weights are `Sigma^{-1} mu`
of the moved mean and covariance, scaled to sum 1.
-/

namespace StandardTools.Portfolio
open StandardTools.Core StandardTools.Lib

variable {K : Type} [Double K] {n : ℕ}

def matScale (m : SquareMatrix K n) (s : K) : SquareMatrix K n := fun i j => m i j * s

def matAdd (a b : SquareMatrix K n) : SquareMatrix K n := fun i j => a i j + b i j

/-! ### The checked request -/

structure BlackLittermanRequest (K : Type) where
  returns : List (List K)
  labels : List String
  marketCaps : List K
  pMatrix : List (List K)
  qVector : List K
  tau : K
  riskAversion : K

/-- What `ValidateBlackLittermanRequest` accepts. -/
structure ViewedMarket (K : Type) [Double K] where
  market : ReturnMatrix K
  marketCaps : Fin market.assets → K
  views : ℕ
  pMatrix : Fin views → Fin market.assets → K
  qVector : Fin views → K
  tau : K
  riskAversion : K
  tau_pos : ¬tau ≤ 0
  riskAversion_pos : ¬riskAversion ≤ 0
  views_pos : 0 < views

/-- A row of `P` names every asset and is not all zeros (`black_litterman.cpp:284-304`). -/
def checkViewRow (n : ℕ) (row : List K × ℕ) : Except Error Unit :=
  if row.1.length ≠ n then
    .error (.invalidCommand ("P row " ++ toString row.2 ++ " has length " ++
      toString row.1.length ++ " but there are " ++ toString n ++ " assets"))
  else if row.1.all fun v => !(v != 0) then
    .error (.invalidCommand ("P row " ++ toString row.2 ++ " is all zeros"))
  else .ok ()

def validateBlackLittermanRequest (req : BlackLittermanRequest K) :
    Except Error (ViewedMarket K) :=
  if htau : req.tau ≤ 0 ∨ !Double.isFinite req.tau then
    .error (.invalidCommand "tau must be a positive finite number")
  else if hrisk : req.riskAversion ≤ 0 ∨ !Double.isFinite req.riskAversion then
    .error (.invalidCommand "risk_aversion must be a positive finite number")
  else do
    let market ← validateReturnMatrix req.returns req.labels
    if req.marketCaps.length ≠ market.assets then
      .error (.invalidCommand ("expected " ++ toString market.assets ++ " market caps, got " ++
        toString req.marketCaps.length))
    match req.marketCaps.findIdx? fun cap => decide (cap ≤ 0) || !Double.isFinite cap with
    | some i =>
      .error (.invalidCommand ("market cap " ++ toString i ++ " must be positive and finite"))
    | none =>
      if hviews : req.pMatrix = [] then
        .error (.invalidCommand "P matrix must contain at least one view")
      else if req.pMatrix.length ≠ req.qVector.length then
        .error (.invalidCommand ("P matrix has " ++ toString req.pMatrix.length ++
          " rows but Q has " ++ toString req.qVector.length ++ " elements"))
      else do
        req.pMatrix.zipIdx.forM (checkViewRow market.assets)
        return {
          market := market
          marketCaps := fun i => req.marketCaps.getD i 0
          views := req.pMatrix.length
          pMatrix := fun i a => (req.pMatrix.get i).getD a 0
          qVector := fun i => req.qVector.getD i 0
          tau := req.tau
          riskAversion := req.riskAversion
          tau_pos := fun h => htau (Or.inl h)
          riskAversion_pos := fun h => hrisk (Or.inl h)
          views_pos := List.length_pos_iff.mpr hviews }

/-! ### Prior and posterior -/

structure Posterior (K : Type) (n : ℕ) where
  mean : Fin n → K
  covariance : SquareMatrix K n

namespace ViewedMarket
variable (p : ViewedMarket K)

/-- `w_mkt`, the shares in the sum of the caps. -/
def marketWeights : Fin p.market.assets → K :=
  fun i => p.marketCaps i / sumLoop p.marketCaps

/-- `Pi = delta * Sigma * w_mkt`. -/
def priorMean : Fin p.market.assets → K :=
  scale (vecDotMat p.market.covariance p.marketWeights) p.riskAversion

def tauSigma : SquareMatrix K p.market.assets := matScale p.market.covariance p.tau

/-- The diagonal of `Omega`. -/
def omega (i : Fin p.views) : K := vecDot (p.pMatrix i) (vecDotMat p.tauSigma (p.pMatrix i))

/-- The first view of negligible variance is reported (`black_litterman.cpp:340-352`). -/
def omegaInv : Except Error (Fin p.views → K) :=
  match (List.finRange p.views).find? fun i => Double.abs (p.omega i) < degeneracyEps with
  | some i => .error (.dataQuality ("view " ++ toString i.val ++ " has zero confidence"))
  | none => .ok fun i => 1 / p.omega i

/-- `P' Omega^{-1} P`. -/
def ptOp (omegaInv : Fin p.views → K) : SquareMatrix K p.market.assets :=
  fun a b => sumLoop fun i => omegaInv i * p.pMatrix i a * p.pMatrix i b

/-- `P' Omega^{-1} Q`. -/
def ptOq (omegaInv : Fin p.views → K) : Fin p.market.assets → K :=
  fun a => sumLoop fun i => omegaInv i * p.qVector i * p.pMatrix i a

/-- The mean and the covariance behind the views (`black_litterman.cpp:368-383`). -/
def posterior : Except Error (Posterior K p.market.assets) := do
  let omegaInv ← p.omegaInv
  let tauSigmaInv ← matInverse p.tauSigma
  let m1Inv ← matInverse (matAdd tauSigmaInv (p.ptOp omegaInv))
  let m2Part := vecDotMat tauSigmaInv p.priorMean
  let m2 := fun i => m2Part i + p.ptOq omegaInv i
  return ⟨vecDotMat m1Inv m2, matAdd p.market.covariance m1Inv⟩

end ViewedMarket

/-- The risk aversion scales the matrix and cancels in the weights
(`black_litterman.cpp:385-393`). -/
def optimizedWeights (riskAversion : K) (posterior : Posterior K n) : Except Error (Fin n → K) := do
  let aInv ← matInverse (matScale posterior.covariance riskAversion)
  let wRaw := vecDotMat aInv posterior.mean
  let wSum := sumLoop wRaw
  if Double.abs wSum < degeneracyEps then .error (.internal "optimised weights sum to zero")
  else return scale wRaw (1 / wSum)

/-! ### The result -/

structure BlackLittermanResult (K : Type) where
  portfolio : PortfolioResult K
  expectedReturns : StdMap K
  covariance : List (List K)

def blackLitterman (req : BlackLittermanRequest K) : Except Error (BlackLittermanResult K) := do
  let p ← validateBlackLittermanRequest req
  let posterior ← p.posterior
  let w ← optimizedWeights p.riskAversion posterior
  let portfolio ← buildResult w p.market.labels
    (portfolioMetrics w posterior.mean posterior.covariance 0)
  return {
    portfolio := portfolio
    expectedReturns := StdMap.empty.assign
      ((List.finRange p.market.assets).map fun i => (p.market.labels i, posterior.mean i))
    covariance := List.ofFn fun i => List.ofFn (posterior.covariance i) }

end StandardTools.Portfolio
