import StandardTools.Agent.Requests
import StandardTools.Agent.Results
import StandardTools.Core.Libm
import StandardTools.Screener.Hardcoded

/-!
# The dispatcher (`agent/dispatcher.cpp`)

A tool reads its arguments, perhaps fetches a price series, calculates and answers
in JSON. Only the fetching touches the state, which is that of the market data
service. What the calculators take from the standard library and what the screener
looks up is in `Dispatcher`.
-/

namespace StandardTools.Agent
open StandardTools.Core StandardTools.Lib Api MarketData

structure Dispatcher where
  libm : Libm
  conv : Conversions
  isoDay : ℤ → String
  parseDay : String → Option ℤ
  sortReturns : StdSort Binary64 (· < ·)
  sortIndices : Analysis.IndexSort Binary64
  sortLabels : StdSort String (· < ·)
  fundamentals : Screener.FundamentalProvider Binary64

/-- A call of the dispatcher. -/
abbrev Dispatched (α : Type) := Effect (Service Binary64) Stopped α

def fetchError : FetchError → Stopped
  | .domain e => .thrown (.domain e)
  | .foreign msg => .thrown (.other msg)

def invalidCommand {α : Type} (msg : String) : Except Stopped α :=
  .error (.thrown (.domain (.invalidCommand msg)))

/-- `args.value(key, std::string{})`, which must not be empty. -/
def required (args : Json) (key : String) : Except Stopped String := do
  let text ← value getString args key ""
  if text = "" then invalidCommand (key ++ " is required") else return text

/-- The keys that an indicator sets in its own parameters. -/
def sizeKeys : List String := ["period", "fast", "slow", "signal", "std_dev"]

def keysOf : Json → List String
  | .object entries => entries.map (·.1)
  | _ => []

namespace Dispatcher
variable (d : Dispatcher)

/-! ### Calculations -/

def indicatorOf (indicator : String) (params : Json) (series : List (OHLCV Binary64)) :
    Except Stopped Json := do
  let map ← Api.Agent.parseParams d.conv params
  let result ← stopped (Indicators.calculate indicator series map)
  return indicatorJson d.isoDay (sizeKeys ++ keysOf params) result

def returnMetricsOf (riskFreeRate : Binary64) (series : List (OHLCV Binary64)) :
    Except Stopped Json :=
  letI := d.libm.cmath
  (stopped (Metrics.calculateReturnMetrics (Indicators.closesOf series) riskFreeRate)).map
    returnMetricsJson

def riskMetricsOf (riskFreeRate : Binary64) (series : List (OHLCV Binary64)) :
    Except Stopped Json :=
  letI := d.libm.cmath
  (stopped (Metrics.calculateRiskMetrics d.sortReturns (Indicators.closesOf series)
    riskFreeRate)).map riskMetricsJson

def analysisOf (request : Analysis.Request Binary64) : Except Stopped Json :=
  letI := d.libm.cmath
  (stopped (Analysis.calculate d.sortIndices d.sortLabels request)).map analysisJson

def backtestOf (strategy : String) (params config : Json) (series : List (OHLCV Binary64)) :
    Except Stopped Json :=
  (Api.Agent.runBacktest d.conv strategy series params config).map (backtestJson d.isoDay)

def screenOf (tickers : List String) (criteria : Screener.ScreenCriteria Binary64) :
    Except Stopped Json :=
  ((Screener.screen d.fundamentals tickers criteria).mapError fetchError).map screenJson

/-! ### Tools -/

def fetchSeries (args : Json) : Dispatched (List (OHLCV Binary64)) := do
  let request ← Effect.ofExcept (seriesRequest d.parseDay args)
  Effect.mapError fetchError (Service.serve d.isoDay request)

def fetchOhlcv (args : Json) : Dispatched Json := do
  let series ← d.fetchSeries args
  return .array (series.map (ohlcvJson d.isoDay))

def calculateIndicator (args : Json) : Dispatched Json := do
  let indicator ← Effect.ofExcept (required args "indicator")
  let series ← d.fetchSeries args
  Effect.ofExcept (do d.indicatorOf indicator (← valueJson args "params") series)

/-- `kDefaultRiskFreeRate`. -/
def defaultRiskFreeRate : Binary64 := literal 2 2

def calculateReturnMetrics (args : Json) : Dispatched Json := do
  let series ← d.fetchSeries args
  Effect.ofExcept (do
    d.returnMetricsOf (← value d.conv.getDouble args "risk_free_rate" defaultRiskFreeRate) series)

def calculateRiskMetrics (args : Json) : Dispatched Json := do
  let series ← d.fetchSeries args
  Effect.ofExcept (do
    d.riskMetricsOf (← value d.conv.getDouble args "risk_free_rate" defaultRiskFreeRate) series)

/-- `ParseAnalysisRequest`, `ParseMeanVarianceRequest` and so on take the inputs from
the value under `request`. -/
def runAnalysis (args : Json) : Except Stopped Json := do
  let operation ← required args "operation"
  d.analysisOf (← analysisRequest d.conv operation (← valueJson args "request"))

def runBacktest (args : Json) : Dispatched Json := do
  let strategy ← Effect.ofExcept (required args "strategy")
  let series ← d.fetchSeries args
  Effect.ofExcept (do
    d.backtestOf strategy (← valueJson args "params") (← valueJson args "config") series)

def optimizePortfolio (args : Json) : Except Stopped Json := do
  let request ← meanVarianceRequest d.conv (← valueJson args "request")
  return portfolioJson (← stopped (Portfolio.meanVariance request))

def riskParityPortfolio (args : Json) : Except Stopped Json := do
  let request ← riskParityRequest d.conv (← valueJson args "request")
  return portfolioJson (← stopped (Portfolio.riskParity request))

def blackLittermanPortfolio (args : Json) : Except Stopped Json := do
  let request ← blackLittermanRequest d.conv (← valueJson args "request")
  return blackLittermanJson (← stopped (Portfolio.blackLittermanSimplified request))

def screenStocks (args : Json) : Except Stopped Json := do
  let tickers ← screenTickers args
  d.screenOf tickers (← screenCriteria d.conv (← valueJson args "criteria"))

def dispatch (call : ToolCall) : Dispatched Json :=
  if (findTool call.name).isNone then
    Effect.ofExcept (invalidCommand ("unknown tool " ++ call.name))
  else if call.name = toolHealth then
    return .ofFields [("status", .string "ok")]
  else if call.name = toolListTools then
    return strings (listTools.map (·.name))
  else if call.name = toolFetchOhlcv then d.fetchOhlcv call.arguments
  else if call.name = toolCalculateIndicator then d.calculateIndicator call.arguments
  else if call.name = toolCalculateReturnMetrics then d.calculateReturnMetrics call.arguments
  else if call.name = toolCalculateRiskMetrics then d.calculateRiskMetrics call.arguments
  else if call.name = toolRunAnalysis then Effect.ofExcept (d.runAnalysis call.arguments)
  else if call.name = toolRunBacktest then d.runBacktest call.arguments
  else if call.name = toolOptimizePortfolio then
    Effect.ofExcept (d.optimizePortfolio call.arguments)
  else if call.name = toolRiskParityPortfolio then
    Effect.ofExcept (d.riskParityPortfolio call.arguments)
  else if call.name = toolBlackLittermanPortfolio then
    Effect.ofExcept (d.blackLittermanPortfolio call.arguments)
  else if call.name = toolScreenStocks then Effect.ofExcept (d.screenStocks call.arguments)
  else Effect.ofExcept (invalidCommand ("unknown tool " ++ call.name))

/-- The dispatcher of the server (`server/main.cpp:92-98`), with the sorting of one
implementation of the standard library. -/
def started (libm : Libm) (isoDay : ℤ → String) (parseDay : String → Option ℤ) : Dispatcher where
  libm := libm
  conv := nlohmann
  isoDay := isoDay
  parseDay := parseDay
  sortReturns := Binary64.sort
  sortIndices _ key :=
    .mergeOn (fun a => OrderDual.toDual (place (key a).unpack)) fun _ _ => Binary64.place_lt
  sortLabels := .mergeOn id fun _ _ => id
  fundamentals := Screener.hardcoded

end Dispatcher

end StandardTools.Agent
