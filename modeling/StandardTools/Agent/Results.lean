import StandardTools.Agent.Tool
import StandardTools.Analysis.Requests
import StandardTools.Backtest.Engine
import StandardTools.Core.Binary64
import StandardTools.MarketData.Service
import StandardTools.Metrics.RiskReturn
import StandardTools.Portfolio.BlackLitterman
import StandardTools.Screener.Service

/-!
# Results as JSON (`to_json` of the `result.hpp` files)

Every field stands under its own name. A number keeps its bits, which `dump` shows
as `null` where they are no number.
-/

namespace StandardTools.Agent
open StandardTools.Core StandardTools.Lib

/-! ### Values -/

def number (x : Binary64) : Json := .float x.toBits

/-- `std::optional`, with `null` for nothing. -/
def optional (x : Option Binary64) : Json := x.elim .null number

/-- The quiet NaN where a ratio is undefined. -/
def ratio (x : Option Binary64) : Json := x.elim (.float 0x7FF8000000000000) number

def extended : Analysis.Extended Binary64 → Json
  | none => .float 0xFFF0000000000000
  | some none => .float 0x7FF0000000000000
  | some (some x) => number x

def numbers (xs : List Binary64) : Json := .array (xs.map number)

def matrix (rows : List (List Binary64)) : Json := .array (rows.map numbers)

def strings (texts : List String) : Json := .array (texts.map .string)

def mapJson (m : StdMap Binary64) : Json := .object (m.entries.map fun e => (e.1, number e.2))

/-- A `std::unordered_map`, of which the keys are known to be among `keys`. -/
def paramsJson (keys : List String) (params : ParamMap Binary64) : Json :=
  .ofFields (keys.filterMap fun key => (params key).map fun x => (key, number x))

section Dates
variable (isoDay : Int → String)

def date (d : Date) : Json := .string (MarketData.formatDate isoDay d)

def ohlcvJson (bar : OHLCV Binary64) : Json :=
  .ofFields [("date", date isoDay bar.date), ("open", number bar.open_), ("high", number bar.high),
    ("low", number bar.low), ("close", number bar.close), ("volume", .integer bar.volume.toInt)]

/-! ### Indicators and backtests -/

def indicatorValueJson (v : Indicators.IndicatorValue Binary64) : Json :=
  .ofFields [("date", date isoDay v.date), ("value", optional v.value)]

def indicatorJson (keys : List String) (r : Indicators.IndicatorResult Binary64) : Json :=
  let series := fun values => .array (values.map (indicatorValueJson isoDay))
  .ofFields [("name", .string r.name), ("params", paramsJson keys r.params),
    ("values", series r.values),
    ("extra_series", .ofFields (r.extraSeries.map fun e => (e.1, series e.2)))]

def sideJson : Backtest.TradeSide → Json
  | .long => .string "long"
  | .short => .string "short"

def equityPointJson (p : Backtest.EquityPoint Binary64) : Json :=
  .ofFields [("date", date isoDay p.date), ("equity", number p.equity)]

def tradeJson (t : Backtest.Trade Binary64) : Json :=
  .ofFields [("entry_date", date isoDay t.entryDate), ("exit_date", date isoDay t.exitDate),
    ("entry_price", number t.entryPrice), ("exit_price", number t.exitPrice),
    ("quantity", number t.quantity), ("side", sideJson t.side), ("pnl", number t.pnl)]

def backtestMetricsJson (m : Backtest.Metrics Binary64) : Json :=
  .ofFields [("max_drawdown", number m.maxDrawdown), ("sharpe", optional m.sharpe),
    ("win_rate", number m.winRate), ("trade_count", .integer m.tradeCount)]

def backtestJson (r : Backtest.BacktestResult Binary64) : Json :=
  .ofFields [("final_equity", number r.finalEquity), ("total_return", number r.totalReturn),
    ("equity_curve", .array (r.equityCurve.map (equityPointJson isoDay))),
    ("trades", .array (r.trades.map (tradeJson isoDay))),
    ("metrics", backtestMetricsJson r.metrics)]

end Dates

/-! ### Metrics -/

def returnMetricsJson (m : Metrics.ReturnMetrics Binary64) : Json :=
  .ofFields [("cumulative_return", number m.cumulativeReturn), ("cagr", number m.cagr),
    ("annualized_volatility", number m.annualizedVolatility)]

def riskMetricsJson (m : Metrics.RiskMetrics Binary64) : Json :=
  .ofFields [("sharpe_ratio", ratio m.sharpeRatio), ("sortino_ratio", ratio m.sortinoRatio),
    ("max_drawdown", number m.maxDrawdown), ("calmar_ratio", ratio m.calmarRatio),
    ("var_95", ratio m.var95), ("cvar_95", ratio m.cvar95), ("volatility", number m.volatility)]

/-! ### Analysis -/

def analysisJson : Analysis.Result Binary64 → Json
  | .regression r =>
    .ofFields [("alpha", number r.alpha), ("beta", number r.beta),
      ("r_squared", number r.rSquared), ("residuals", numbers r.residuals)]
  | .cointegration r =>
    .ofFields [("hedge_ratio", number r.hedgeRatio), ("adf_statistic", number r.adfStatistic),
      ("half_life", extended r.halfLife), ("current_z_score", number r.currentZScore)]
  | .hurst r =>
    .ofFields [("exponent", number r.exponent), ("interpretation", .string r.interpretation)]
  | .pca r =>
    .ofFields [("labels", strings r.labels),
      ("explained_variance_ratio", numbers r.explainedVarianceRatio),
      ("loadings", matrix r.loadings), ("factor_returns", matrix r.factorReturns)]
  | .correlation r =>
    .ofFields [("labels", strings r.labels), ("matrix", matrix r.matrix),
      ("average", number r.average), ("min", extended r.min), ("max", extended r.max)]
  | .options r =>
    .ofFields [("price", number r.price), ("delta", number r.delta), ("gamma", number r.gamma),
      ("vega", number r.vega), ("theta", number r.theta), ("rho", number r.rho)]

/-! ### Portfolios and screens -/

def portfolioJson (r : Portfolio.PortfolioResult Binary64) : Json :=
  .ofFields [("weights", mapJson r.weights), ("expected_return", number r.expectedReturn),
    ("volatility", number r.volatility), ("sharpe_ratio", number r.sharpeRatio)]

def blackLittermanJson (r : Portfolio.BlackLittermanResult Binary64) : Json :=
  .ofFields [("portfolio", portfolioJson r.portfolio),
    ("expected_returns", mapJson r.expectedReturns), ("covariance", matrix r.covariance)]

def fundamentalJson (d : Screener.FundamentalData Binary64) : Json :=
  .ofFields [("ticker", .string d.ticker), ("market_cap", number d.marketCap),
    ("pe_ratio", number d.peRatio), ("pb_ratio", number d.pbRatio),
    ("dividend_yield", number d.dividendYield), ("eps_growth", number d.epsGrowth),
    ("debt_to_equity", number d.debtToEquity), ("roe", number d.roe)]

def screenJson (r : Screener.ScreenResult Binary64) : Json :=
  .ofFields [("matches", .array (r.matches_.map fundamentalJson)), ("failed", strings r.failed)]

end StandardTools.Agent
