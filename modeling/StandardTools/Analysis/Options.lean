import StandardTools.Core.Cmath
import StandardTools.Core.ValueObjects

/-!
# Option pricing (`analysis/calculator.cpp:64-87`, `685-756`)

The normal distribution function is a polynomial of degree five in
`1 / (1 + p x)` times the density, on the positive side, and its reflection on
the negative one.
-/

namespace StandardTools.Analysis
open StandardTools.Core

variable {K : Type} [Cmath K]

inductive OptionType where
  | call
  | put
  deriving DecidableEq, Repr

structure BlackScholesParams (K : Type) where
  spot : K
  strike : K
  riskFreeRate : K
  volatility : K
  timeToMaturity : K
  optionType : OptionType

structure OptionPricingResult (K : Type) where
  price : K
  delta : K
  gamma : K
  vega : K
  theta : K
  rho : K

/-! ### The normal distribution -/

/-- `digits / 10^places` -/
def decimal (digits : ℤ) (places : ℕ) : K := (digits : K) / ((10 ^ places : ℕ) : K)

def cdfPoly (t : K) : K :=
  let b1 := decimal 319381530 9
  let b2 := decimal (-356563782) 9
  let b3 := decimal 1781477937 9
  let b4 := decimal (-1821255978) 9
  let b5 := decimal 1330274429 9
  t * (t * (t * (t * (t * b5 + b4) + b3) + b2) + b1)

/-- The branch `x >= 0.0` of `NormalCdf`. -/
def upperNormalCdf (x : K) : K :=
  let p := decimal 2316419 7
  let c := decimal 3989422804014327 16
  let t := 1 / (1 + p * x)
  1 - c * Cmath.exp (-x * x / ((2 : ℕ) : K)) * cdfPoly t

/-- The call `NormalCdf(-x)` takes the branch of the positive numbers, but for a NaN, on
which the source calls itself for ever. -/
def normalCdf (x : K) : K :=
  if Cmath.isInf x then if 0 < x then 1 else 0
  else if 0 ≤ x then upperNormalCdf x
  else 1 - upperNormalCdf (-x)

def normalPdf (x : K) : K :=
  let pi := decimal 314159265358979323846 20
  Cmath.exp (-x * x / ((2 : ℕ) : K)) / Double.sqrt (((2 : ℕ) : K) * pi)

/-! ### The price -/

def validateFinite (values : List K) (context : String) : Except Error Unit :=
  if values.any fun v => Double.isNaN v || Cmath.isInf v then
    .error (.dataQuality ("input contains non-finite (NaN or infinite) values" ++
      if context = "" then "" else " in " ++ context))
  else .ok ()

omit [Cmath K] in
theorem validateFinite_real (values : List ℝ) (context : String) :
    validateFinite values context = .ok () := by
  simp [validateFinite]

def checkParams (p : BlackScholesParams K) : Except Error Unit := do
  validateFinite [p.spot, p.strike, p.riskFreeRate, p.volatility, p.timeToMaturity]
    "Black-Scholes inputs"
  if p.spot < 0 then .error (.dataQuality "spot must be a non-negative finite number")
  else if p.strike < 0 then .error (.dataQuality "strike must be a non-negative finite number")
  else if p.riskFreeRate < 0 then
    .error (.dataQuality "risk_free_rate must be a non-negative finite number")
  else if p.volatility < 0 then
    .error (.dataQuality "volatility must be a non-negative finite number")
  else if p.timeToMaturity < 0 then
    .error (.dataQuality "time_to_maturity must be a non-negative finite number")
  else if p.timeToMaturity == 0 then .error (.dataQuality "time_to_maturity must be positive")
  else if p.volatility == 0 then .error (.dataQuality "volatility must be positive")
  else .ok ()

namespace BlackScholesParams
variable (p : BlackScholesParams K)

def sqrtT : K := Double.sqrt p.timeToMaturity

def d1 : K :=
  (Cmath.log (p.spot / p.strike) +
      (p.riskFreeRate + 1 / ((2 : ℕ) : K) * p.volatility * p.volatility) * p.timeToMaturity) /
    (p.volatility * p.sqrtT)

def d2 : K := p.d1 - p.volatility * p.sqrtT

def discount : K := Cmath.exp (-p.riskFreeRate * p.timeToMaturity)

def pricing : OptionPricingResult K :=
  let nd1 := normalCdf p.d1
  let nd2 := normalCdf p.d2
  let nNegD1 := normalCdf (-p.d1)
  let nNegD2 := normalCdf (-p.d2)
  let pdfD1 := normalPdf p.d1
  let gamma := pdfD1 / (p.spot * p.volatility * p.sqrtT)
  let vega := p.spot * pdfD1 * p.sqrtT
  match p.optionType with
  | .call =>
    { price := p.spot * nd1 - p.strike * p.discount * nd2
      delta := nd1
      gamma := gamma
      vega := vega
      theta := -p.spot * pdfD1 * p.volatility / (((2 : ℕ) : K) * p.sqrtT) -
        p.riskFreeRate * p.strike * p.discount * nd2
      rho := p.strike * p.timeToMaturity * p.discount * nd2 }
  | .put =>
    { price := p.strike * p.discount * nNegD2 - p.spot * nNegD1
      delta := nd1 - 1
      gamma := gamma
      vega := vega
      theta := -p.spot * pdfD1 * p.volatility / (((2 : ℕ) : K) * p.sqrtT) +
        p.riskFreeRate * p.strike * p.discount * nNegD2
      rho := -p.strike * p.timeToMaturity * p.discount * nNegD2 }

end BlackScholesParams

/-- The request carries the parameters of every operation; only these are read. -/
def options (blackScholes : Option (BlackScholesParams K)) :
    Except Error (OptionPricingResult K) :=
  match blackScholes with
  | none => .error (.dataQuality "BlackScholes params are required for operation options")
  | some p => do
    checkParams p
    return p.pricing

end StandardTools.Analysis
