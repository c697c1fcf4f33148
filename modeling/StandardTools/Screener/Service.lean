import StandardTools.MarketData.Service

/-!
# The screener (`screener/criteria.cpp`, `screener/service.cpp`)

Every ticker of a universe is looked up and held against optional inclusive
bounds on seven metrics. What cannot be found and what misses a bound is put
down as failed; any other error of the provider ends the screening.
-/

namespace StandardTools.Screener
open StandardTools.Core MarketData

structure FundamentalData (K : Type) where
  ticker : String
  marketCap : K
  peRatio : K
  pbRatio : K
  dividendYield : K
  epsGrowth : K
  debtToEquity : K
  roe : K

structure ScreenResult (K : Type) where
  matches_ : List (FundamentalData K)
  failed : List String

structure ScreenCriteria (K : Type) where
  peRatioMax : Option K
  peRatioMin : Option K
  pbRatioMax : Option K
  pbRatioMin : Option K
  marketCapMax : Option K
  marketCapMin : Option K
  dividendYieldMax : Option K
  dividendYieldMin : Option K
  epsGrowthMax : Option K
  epsGrowthMin : Option K
  debtToEquityMax : Option K
  debtToEquityMin : Option K
  roeMax : Option K
  roeMin : Option K

/-- `FundamentalProvider::Fetch`. -/
abbrev FundamentalProvider (K : Type) := String → Except FetchError (FundamentalData K)

variable {K : Type}

/-- No bound is configured. -/
def ScreenCriteria.unbounded : ScreenCriteria K :=
  ⟨none, none, none, none, none, none, none, none, none, none, none, none, none, none⟩

variable [Double K]

/-! ### Criteria -/

/-- `ApplyMax` and `ApplyMin` differ in the comparison (`criteria.cpp:13-31`). -/
def applyLimit (compare : K → K → Bool) (limit : Option K) (value : K) : Bool :=
  match limit with
  | none => true
  | some limit => if !Double.isFinite value then false else compare value limit

def applyMax (limit : Option K) (value : K) : Bool :=
  applyLimit (fun value limit => decide (value ≤ limit)) limit value

def applyMin (limit : Option K) (value : K) : Bool :=
  applyLimit (fun value limit => decide (limit ≤ value)) limit value

def ScreenCriteria.apply (criteria : ScreenCriteria K) (data : FundamentalData K) : Bool :=
  applyMax criteria.peRatioMax data.peRatio &&
  applyMin criteria.peRatioMin data.peRatio &&
  applyMax criteria.pbRatioMax data.pbRatio &&
  applyMin criteria.pbRatioMin data.pbRatio &&
  applyMax criteria.marketCapMax data.marketCap &&
  applyMin criteria.marketCapMin data.marketCap &&
  applyMax criteria.dividendYieldMax data.dividendYield &&
  applyMin criteria.dividendYieldMin data.dividendYield &&
  applyMax criteria.epsGrowthMax data.epsGrowth &&
  applyMin criteria.epsGrowthMin data.epsGrowth &&
  applyMax criteria.debtToEquityMax data.debtToEquity &&
  applyMin criteria.debtToEquityMin data.debtToEquity &&
  applyMax criteria.roeMax data.roe &&
  applyMin criteria.roeMin data.roe

/-! ### Screening -/

def maxScreenTickers : ℕ := 500

/-- The body of the loop of `Screen`; the handler catches `NotFoundError` only. -/
def screenStep (provider : FundamentalProvider K) (criteria : ScreenCriteria K)
    (result : ScreenResult K) (ticker : String) : Except FetchError (ScreenResult K) :=
  match provider ticker with
  | .ok data =>
    if criteria.apply data then .ok { result with matches_ := result.matches_ ++ [data] }
    else .ok { result with failed := result.failed ++ [ticker] }
  | .error (.domain .notFound) => .ok { result with failed := result.failed ++ [ticker] }
  | .error e => .error e

def screen (provider : FundamentalProvider K) (tickers : List String)
    (criteria : ScreenCriteria K) : Except FetchError (ScreenResult K) :=
  if maxScreenTickers < tickers.length then
    .error (.domain (.invalidCommand ("ticker count " ++ toString tickers.length ++
      " exceeds maximum of " ++ toString maxScreenTickers)))
  else tickers.foldlM (screenStep provider criteria) ⟨[], []⟩

end StandardTools.Screener
