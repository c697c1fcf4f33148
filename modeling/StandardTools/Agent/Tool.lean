import StandardTools.Core.Json
import StandardTools.Lib.StdMap

/-!
# The tools of the agent (`agent/tool.hpp`, `agent/tool.cpp`)

Every tool has a name, a description and a JSON schema of its arguments.
-/

namespace StandardTools.Core
open Lib

/-- An object made of assignments, as `j["key"] = value` makes it. -/
def Json.ofFields (fields : List (String × Json)) : Json :=
  .object (StdMap.empty.assign fields).entries

theorem Json.AllStrings.ofFields {P : String → Prop} {fields : List (String × Json)}
    (h : ∀ e ∈ fields, P e.1 ∧ e.2.AllStrings P) : (Json.ofFields fields).AllStrings P := by
  refine Json.allStrings_object.mpr fun e he => ?_
  rcases StdMap.mem_assign he with he | he
  · exact absurd he List.not_mem_nil
  · exact h e he

end StandardTools.Core

namespace StandardTools.Agent
open StandardTools.Core StandardTools.Lib

structure ToolDefinition where
  name : String
  description : String
  parameters : Json

def toolHealth : String := "health"
def toolListTools : String := "list_tools"
def toolFetchOhlcv : String := "fetch_ohlcv"
def toolCalculateIndicator : String := "calculate_indicator"
def toolCalculateReturnMetrics : String := "calculate_return_metrics"
def toolCalculateRiskMetrics : String := "calculate_risk_metrics"
def toolRunAnalysis : String := "run_analysis"
def toolRunBacktest : String := "run_backtest"
def toolOptimizePortfolio : String := "optimize_portfolio"
def toolRiskParityPortfolio : String := "risk_parity"
def toolBlackLittermanPortfolio : String := "black_litterman"
def toolScreenStocks : String := "screen_stocks"

/-! ### Schemas -/

def typed (name : String) : Json := .ofFields [("type", .string name)]

def dateSchema : Json := .ofFields [("type", .string "string"), ("format", .string "date")]

def enumSchema (values : List String) : Json :=
  .ofFields [("type", .string "string"), ("enum", .array (values.map .string))]

def noArguments : Json := .ofFields [("type", .string "object"), ("properties", .object [])]

def argumentSchema (properties : List (String × Json)) (required : List String) : Json :=
  .ofFields [("type", .string "object"), ("properties", .ofFields properties),
    ("required", .array (required.map .string))]

/-- What every tool that reads a price series takes. -/
def seriesProperties : List (String × Json) :=
  [("ticker", typed "string"), ("start", dateSchema), ("end", dateSchema),
    ("interval", enumSchema ["daily", "weekly", "monthly"])]

def listTools : List ToolDefinition :=
  [⟨toolHealth, "Return agent health status.", noArguments⟩,
    ⟨toolListTools, "List all registered tool names.", noArguments⟩,
    ⟨toolFetchOhlcv, "Fetch OHLCV bars for a single ticker.",
      argumentSchema (seriesProperties ++ [("provider", typed "string")])
        ["ticker", "start", "end"]⟩,
    ⟨toolCalculateIndicator, "Calculate a technical indicator for a ticker.",
      argumentSchema
        (("indicator", typed "string") :: seriesProperties ++ [("params", typed "object")])
        ["indicator", "ticker", "start", "end"]⟩,
    ⟨toolCalculateReturnMetrics, "Calculate return metrics for a ticker's close prices.",
      argumentSchema (seriesProperties ++ [("risk_free_rate", typed "number")])
        ["ticker", "start", "end"]⟩,
    ⟨toolCalculateRiskMetrics, "Calculate risk metrics for a ticker's close prices.",
      argumentSchema (seriesProperties ++ [("risk_free_rate", typed "number")])
        ["ticker", "start", "end"]⟩,
    ⟨toolRunAnalysis,
      "Run an analysis operation (regression, cointegration, hurst, pca, correlation, options).",
      argumentSchema
        [("operation", enumSchema
            ["regression", "cointegration", "hurst", "pca", "correlation", "options"]),
          ("request", typed "object")]
        ["operation", "request"]⟩,
    ⟨toolRunBacktest, "Run a backtest strategy over a ticker.",
      argumentSchema
        (("strategy", typed "string") :: seriesProperties ++
          [("params", typed "object"), ("config", typed "object")])
        ["strategy", "ticker", "start", "end"]⟩,
    ⟨toolOptimizePortfolio, "Run mean-variance portfolio optimization.",
      argumentSchema [("request", typed "object")] ["request"]⟩,
    ⟨toolRiskParityPortfolio,
      "Run risk-parity portfolio allocation with equal per-asset risk contributions.",
      argumentSchema [("request", typed "object")] ["request"]⟩,
    ⟨toolBlackLittermanPortfolio, "Run simplified Black-Litterman portfolio optimization.",
      argumentSchema [("request", typed "object")] ["request"]⟩,
    ⟨toolScreenStocks, "Screen a universe of tickers by fundamental criteria.",
      argumentSchema
        [("tickers", .ofFields [("type", .string "array"), ("items", typed "string")]),
          ("criteria", typed "object")]
        ["tickers"]⟩]

def findTool (name : String) : Option ToolDefinition :=
  listTools.find? fun tool => decide (tool.name = name)

end StandardTools.Agent
