import StandardTools.Analysis.Requests
import StandardTools.Api.Parsing
import StandardTools.MarketData.Service
import StandardTools.Portfolio.ExpertViews
import StandardTools.Portfolio.RiskParity
import StandardTools.Screener.Service

/-!
# Requests out of JSON (`agent/dispatcher.cpp:26-200`, `api/rest.cpp:116-231`)

The agent and the REST layer read the inputs of a calculator with functions of the
same text. The functions here read a value that holds the inputs; what each of the
two takes for that value is its own.
-/

namespace StandardTools.Agent
open StandardTools.Core StandardTools.Lib Api

/-! ### The accessors of the library -/

section Accessors
variable {α : Type}

def typeError (wanted : String) (j : Json) : Stopped :=
  .thrown (.other ("[json.exception.type_error.302] type must be " ++ wanted ++ ", but is " ++
    j.typeName))

def getString (j : Json) : Except Stopped String :=
  j.getString.mapError fun msg => .thrown (.other msg)

/-- `get<std::vector<T>>()`. -/
def getArray (get : Json → Except Stopped α) : Json → Except Stopped (List α)
  | .array items => items.mapM get
  | j => .error (typeError "array" j)

/-- `get<std::map<std::string, T>>()`. -/
def getMap (get : Json → Except Stopped α) : Json → Except Stopped (StdMap α)
  | .object entries => do
    let pairs ← entries.mapM fun e => (get e.2).map fun value => (e.1, value)
    return StdMap.empty.assign pairs
  | j => .error (typeError "object" j)

/-- `value(key, default)`, which only an object has. -/
def value (get : Json → Except Stopped α) (j : Json) (key : String) (default : α) :
    Except Stopped α :=
  match j with
  | .object _ => valueOr get j key default
  | j => .error (.thrown (.other ("[json.exception.type_error.306] cannot use value() with " ++
      j.typeName)))

/-- `value(key, json::object())`. -/
def valueJson (j : Json) (key : String) : Except Stopped Json := value .ok j key (.object [])

end Accessors

/-! ### Price series -/

def parseDateParam (parseDay : String → Option ℤ) (name : String) (args : Json) :
    Except Error Date :=
  match args.field? name with
  | some (.string s) => Audit.parseDate parseDay s
  | _ => .error (.invalidCommand (name ++ " date is required"))

def stopped {α : Type} (x : Except Error α) : Except Stopped α :=
  x.mapError fun e => .thrown (.domain e)

/-- What `FetchSeries` asks the service for. -/
def seriesRequest (parseDay : String → Option ℤ) (args : Json)
    (tickerField : String := "ticker") : Except Stopped MarketData.Request := do
  let ticker ← stopped (Ticker.make (← value getString args tickerField ""))
  let start ← stopped (parseDateParam parseDay "start" args)
  let stop ← stopped (parseDateParam parseDay "end" args)
  let range ← stopped (DateRange.make start stop)
  let interval ← stopped (BarInterval.parse (← value getString args "interval" "daily"))
  let provider ← value getString args "provider" ""
  return ⟨ticker, interval, range, provider⟩

/-! ### The calculators -/

section Calculators
variable (conv : Conversions)

def getDoubles : Json → Except Stopped (List Binary64) := getArray conv.getDouble

def getMatrix : Json → Except Stopped (List (List Binary64)) := getArray (getDoubles conv)

def blackScholesParams (inputs : Json) :
    Except Stopped (Analysis.BlackScholesParams Binary64) := do
  let spot ← value conv.getDouble inputs "spot" 0
  let strike ← value conv.getDouble inputs "strike" 0
  let riskFreeRate ← value conv.getDouble inputs "risk_free_rate" 0
  let volatility ← value conv.getDouble inputs "volatility" 0
  let timeToMaturity ← value conv.getDouble inputs "time_to_maturity" 0
  let type ← value getString inputs "option_type" "call"
  return ⟨spot, strike, riskFreeRate, volatility, timeToMaturity,
    if type = "put" then .put else .call⟩

/-- `ParseAnalysisRequest` of the inputs. -/
def analysisRequest (operation : String) (inputs : Json) :
    Except Stopped (Analysis.Request Binary64) :=
  if operation = Analysis.kRegression then do
    let assetReturns ← valueOr (getDoubles conv) inputs "asset_returns" []
    let benchmarkReturns ← valueOr (getDoubles conv) inputs "benchmark_returns" []
    return { operation := operation, assetReturns := assetReturns,
             benchmarkReturns := benchmarkReturns }
  else if operation = Analysis.kCointegration then do
    let aCloses ← valueOr (getDoubles conv) inputs "a_closes" []
    let bCloses ← valueOr (getDoubles conv) inputs "b_closes" []
    return { operation := operation, aCloses := aCloses, bCloses := bCloses }
  else if operation = Analysis.kHurst then do
    let prices ← valueOr (getDoubles conv) inputs "prices" []
    let maxLag ← valueOr (fun j => (conv.getInt j).map fun i => some i.toInt) inputs "max_lag" none
    return { operation := operation, prices := prices, maxLag := maxLag }
  else if operation = Analysis.kPca then do
    let returnsMatrix ← valueOr (getMatrix conv) inputs "returns_matrix" []
    let nComponents ← value conv.getInt inputs "n_components" 1
    return { operation := operation, returnsMatrix := returnsMatrix,
             nComponents := nComponents.toInt }
  else if operation = Analysis.kCorrelation then do
    let returnsMap ← valueOr (getMap (getDoubles conv)) inputs "returns_map" .empty
    return { operation := operation, returnsMap := returnsMap }
  else if operation = Analysis.kOptions then do
    let params ← blackScholesParams conv inputs
    return { operation := operation, blackScholes := some params }
  else .ok { operation := operation }

def meanVarianceRequest (inputs : Json) :
    Except Stopped (Portfolio.MeanVarianceRequest Binary64) := do
  let returns ← value (getMatrix conv) inputs "returns" []
  let labels ← value (getArray getString) inputs "labels" []
  let riskFreeRate ← value conv.getDouble inputs "risk_free_rate" 0
  let objective ← value getString inputs "objective" Portfolio.objectiveMaxSharpe
  let targetReturn ← valueOr (fun j => (conv.getDouble j).map some) inputs "target_return" none
  let targetVolatility ←
    valueOr (fun j => (conv.getDouble j).map some) inputs "target_volatility" none
  return ⟨returns, labels, riskFreeRate, objective, targetReturn, targetVolatility⟩

def riskParityRequest (inputs : Json) : Except Stopped (Portfolio.RiskParityRequest Binary64) := do
  let returns ← value (getMatrix conv) inputs "returns" []
  let labels ← value (getArray getString) inputs "labels" []
  return ⟨returns, labels⟩

def blackLittermanRequest (inputs : Json) :
    Except Stopped (Portfolio.BlackLittermanSimplifiedRequest Binary64) := do
  let returns ← value (getMatrix conv) inputs "returns" []
  let labels ← value (getArray getString) inputs "labels" []
  let marketCaps ← valueOr (getMap conv.getDouble) inputs "market_caps" .empty
  let views ← valueOr (getMap conv.getDouble) inputs "views" .empty
  let tau ← value conv.getDouble inputs "tau" (literal 5 2)
  let riskAversion ← value conv.getDouble inputs "risk_aversion" (literal 25 1)
  return ⟨returns, labels, marketCaps, views, tau, riskAversion⟩

/-- The lambda `opt`: whatever is no number is no bound. -/
def bound (obj : Json) (key : String) : Except Stopped (Option Binary64) :=
  match obj.field? key with
  | some value => if value.isNumber then (conv.getDouble value).map some else .ok none
  | none => .ok none

def screenCriteria (obj : Json) : Except Stopped (Screener.ScreenCriteria Binary64) :=
  match obj with
  | .object _ => do
    let peRatioMax ← bound conv obj "pe_ratio_max"
    let peRatioMin ← bound conv obj "pe_ratio_min"
    let pbRatioMax ← bound conv obj "pb_ratio_max"
    let pbRatioMin ← bound conv obj "pb_ratio_min"
    let marketCapMax ← bound conv obj "market_cap_max"
    let marketCapMin ← bound conv obj "market_cap_min"
    let dividendYieldMax ← bound conv obj "dividend_yield_max"
    let dividendYieldMin ← bound conv obj "dividend_yield_min"
    let epsGrowthMax ← bound conv obj "eps_growth_max"
    let epsGrowthMin ← bound conv obj "eps_growth_min"
    let debtToEquityMax ← bound conv obj "debt_to_equity_max"
    let debtToEquityMin ← bound conv obj "debt_to_equity_min"
    let roeMax ← bound conv obj "roe_max"
    let roeMin ← bound conv obj "roe_min"
    return ⟨peRatioMax, peRatioMin, pbRatioMax, pbRatioMin, marketCapMax, marketCapMin,
      dividendYieldMax, dividendYieldMin, epsGrowthMax, epsGrowthMin, debtToEquityMax,
      debtToEquityMin, roeMax, roeMin⟩
  | _ => .ok .unbounded

/-- `tickers`, where it is an array. -/
def screenTickers (body : Json) : Except Stopped (List String) :=
  match body.field? "tickers" with
  | some (.array items) => getArray getString (.array items)
  | _ => .ok []

end Calculators

end StandardTools.Agent
