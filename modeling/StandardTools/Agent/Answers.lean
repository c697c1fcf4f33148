import StandardTools.Agent.Dispatcher
import StandardTools.MarketData.Concurrent
import StandardTools.MarketData.Keys

/-!
# Answers which last (`agent/dispatcher.cpp`, `marketdata/service.cpp`)

A call either leaves the market data service alone or fetches one series and
calculates from it. What a call has returned once it returns again, whatever has been
called or registered in the meantime, since the cache keeps its entries. Where nothing is
registered any more the answers are those of a server without a past.
-/

namespace StandardTools.Agent
open StandardTools.Core StandardTools.Lib Api MarketData

/-! ### What a call does with the service -/

inductive Plan where
  | done (x : Except Stopped Json)
  | fetch (request : Request) (finish : List (OHLCV Binary64) → Except Stopped Json)

namespace Plan

def run (isoDay : ℤ → String) : Plan → Dispatched Json
  | .done x => Effect.ofExcept x
  | .fetch request finish => do
    let series ← Effect.mapError fetchError (Service.serve isoDay request)
    Effect.ofExcept (finish series)

def ofRequest (request : Except Stopped Request)
    (finish : List (OHLCV Binary64) → Except Stopped Json) : Plan :=
  match request with
  | .error e => .done (.error e)
  | .ok request => .fetch request finish

/-- The plan behind a check. -/
def checked (text : Except Stopped String) (plan : String → Plan) : Plan :=
  match text with
  | .error e => .done (.error e)
  | .ok text => plan text

theorem run_fetch (isoDay : ℤ → String) (request : Request)
    (finish : List (OHLCV Binary64) → Except Stopped Json) (s : Service Binary64) :
    (Plan.fetch request finish).run isoDay s =
      ((Service.serve isoDay request s).1.mapError fetchError >>= finish,
        (Service.serve isoDay request s).2) := by
  rw [run]
  cases hserve : Service.serve isoDay request s with
  | mk result s' =>
    cases result with
    | error e => exact Effect.bind_error (by rw [Effect.mapError, hserve]; rfl)
    | ok series => exact Effect.bind_ok (by rw [Effect.mapError, hserve]; rfl)

/-- What is fetched satisfies `P`. -/
def Asks (P : Request → Prop) : Plan → Prop
  | .done _ => True
  | .fetch request _ => P request

variable {P : Request → Prop}

theorem Asks.ite {c : Prop} [Decidable c] {p q : Plan} (hp : p.Asks P) (hq : q.Asks P) :
    (if c then p else q).Asks P := by
  split_ifs
  · exact hp
  · exact hq

theorem Asks.checked {text : Except Stopped String} {plan : String → Plan}
    (h : ∀ t, (plan t).Asks P) : (Plan.checked text plan).Asks P := by
  cases text with
  | error e => trivial
  | ok t => exact h t

end Plan

namespace Dispatcher
variable (d : Dispatcher)

def seriesPlan (args : Json) (finish : List (OHLCV Binary64) → Except Stopped Json) : Plan :=
  .ofRequest (seriesRequest d.parseDay args) finish

def plan (call : ToolCall) : Plan :=
  let args := call.arguments
  if (findTool call.name).isNone then .done (invalidCommand ("unknown tool " ++ call.name))
  else if call.name = toolHealth then .done (.ok (.ofFields [("status", .string "ok")]))
  else if call.name = toolListTools then .done (.ok (strings (listTools.map (·.name))))
  else if call.name = toolFetchOhlcv then
    d.seriesPlan args fun series => .ok (.array (series.map (ohlcvJson d.isoDay)))
  else if call.name = toolCalculateIndicator then
    .checked (required args "indicator") fun indicator => d.seriesPlan args fun series => do
      d.indicatorOf indicator (← valueJson args "params") series
  else if call.name = toolCalculateReturnMetrics then
    d.seriesPlan args fun series => do
      d.returnMetricsOf (← value d.conv.getDouble args "risk_free_rate" defaultRiskFreeRate) series
  else if call.name = toolCalculateRiskMetrics then
    d.seriesPlan args fun series => do
      d.riskMetricsOf (← value d.conv.getDouble args "risk_free_rate" defaultRiskFreeRate) series
  else if call.name = toolRunAnalysis then .done (d.runAnalysis args)
  else if call.name = toolRunBacktest then
    .checked (required args "strategy") fun strategy => d.seriesPlan args fun series => do
      d.backtestOf strategy (← valueJson args "params") (← valueJson args "config") series
  else if call.name = toolOptimizePortfolio then .done (d.optimizePortfolio args)
  else if call.name = toolRiskParityPortfolio then .done (d.riskParityPortfolio args)
  else if call.name = toolBlackLittermanPortfolio then .done (d.blackLittermanPortfolio args)
  else if call.name = toolScreenStocks then .done (d.screenStocks args)
  else .done (invalidCommand ("unknown tool " ++ call.name))

variable {d}

theorem run_seriesPlan (args : Json) (finish : List (OHLCV Binary64) → Except Stopped Json) :
    (d.seriesPlan args finish).run d.isoDay =
      (d.fetchSeries args >>= fun series => Effect.ofExcept (finish series)) := by
  unfold seriesPlan fetchSeries
  cases seriesRequest d.parseDay args with
  | error e => rfl
  | ok request => rfl

theorem run_checked (text : Except Stopped String) (plan : String → Plan) :
    (Plan.checked text plan).run d.isoDay =
      (Effect.ofExcept text >>= fun text => (plan text).run d.isoDay) := by
  cases text with
  | error e => rfl
  | ok text => rfl

theorem dispatch_eq_plan (call : ToolCall) : d.dispatch call = (d.plan call).run d.isoDay := by
  unfold dispatch plan
  simp only [apply_ite (Plan.run d.isoDay), run_checked, run_seriesPlan]
  rfl

theorem asks_seriesPlan (args : Json) (finish : List (OHLCV Binary64) → Except Stopped Json) :
    (d.seriesPlan args finish).Asks fun request =>
      seriesRequest d.parseDay args = .ok request := by
  unfold seriesPlan Plan.ofRequest
  cases seriesRequest d.parseDay args with
  | error e => trivial
  | ok request => rfl

/-- What is fetched is what the arguments ask for. -/
theorem asks_plan (call : ToolCall) :
    (d.plan call).Asks fun request => seriesRequest d.parseDay call.arguments = .ok request := by
  unfold plan
  repeat' apply Plan.Asks.ite
  all_goals first
    | trivial
    | exact asks_seriesPlan _ _
    | exact Plan.Asks.checked fun _ => asks_seriesPlan _ _

end Dispatcher

/-! ### Entries stay -/

/-- The service answers the request from its cache. -/
structure Remembers (isoDay : ℤ → String) (request : Request) (series : List (OHLCV Binary64))
    (s : Service Binary64) : Prop where
  resolves : ∃ provider, s.providers.find?
    (Service.requestedName s.defaultProvider request.providerName) = some provider
  cached : s.cache.get (requestKey isoDay s.defaultProvider request) = some series

section Entries
variable {isoDay : ℤ → String} {request : Request} {series : List (OHLCV Binary64)}
  {s : Service Binary64}

theorem Remembers.serve (h : Remembers isoDay request series s) :
    Service.serve isoDay request s = (.ok series, s) := by
  obtain ⟨⟨provider, hfind⟩, hcached⟩ := h
  rw [requestKey] at hcached
  simp only [Service.serve, Service.fetch, Service.resolveProvider, hfind, hcached]

theorem remembers_serve (h : (Service.serve isoDay request s).1 = .ok series) :
    Remembers isoDay request series (Service.serve isoDay request s).2 := by
  cases hfind : s.providers.find?
      (Service.requestedName s.defaultProvider request.providerName) with
  | none =>
    simp only [Service.serve, Service.fetch, Service.resolveProvider, hfind] at h
    cases h
  | some provider =>
    obtain ⟨hfst, hcache, hproviders, hdefault⟩ := serve_resolved isoDay hfind
    refine ⟨⟨provider, ?_⟩, ?_⟩
    · rw [hproviders, hdefault, hfind]
    · rw [hcache, hdefault]
      exact Memo.ask_stores (hfst.symm.trans h)

theorem preserves_remembers_serve (other : Request) :
    Effect.Preserves (Remembers isoDay request series) (Service.serve isoDay other) := by
  rintro s ⟨⟨provider, hresolves⟩, hcached⟩
  cases hfind : s.providers.find?
      (Service.requestedName s.defaultProvider other.providerName) with
  | none =>
    rw [serve_unresolved isoDay hfind]
    exact ⟨⟨provider, hresolves⟩, hcached⟩
  | some found =>
    obtain ⟨-, hcache, hproviders, hdefault⟩ := serve_resolved isoDay hfind
    refine ⟨⟨provider, ?_⟩, ?_⟩
    · rw [hproviders, hdefault, hresolves]
    · rw [hcache, hdefault]
      exact Memo.ask_stored hcached

theorem Remembers.register (h : Remembers isoDay request series s) (provider : Provider Binary64) :
    Remembers isoDay request series (s.register provider) := by
  refine ⟨?_, h.cached⟩
  obtain ⟨found, hfound⟩ := h.resolves
  rw [Service.register, StdMap.find?_insert, Function.update_apply]
  split_ifs
  · exact ⟨provider, rfl⟩
  · exact ⟨found, hfound⟩

end Entries

/-! ### Runs -/

inductive Activity where
  | registered (provider : Provider Binary64)
  | called (call : ToolCall)

namespace Dispatcher
variable (d : Dispatcher)

def act (s : Service Binary64) : Activity → Service Binary64
  | .registered provider => s.register provider
  | .called call => (d.dispatch call s).2

def after (s : Service Binary64) (run : List Activity) : Service Binary64 := run.foldl d.act s

variable {d} {request : Request} {series : List (OHLCV Binary64)}

theorem preserves_remembers_dispatch (call : ToolCall) :
    Effect.Preserves (Remembers d.isoDay request series) (d.dispatch call) := by
  rw [dispatch_eq_plan]
  cases d.plan call with
  | done x => exact Effect.preserves_ofExcept x
  | fetch other finish =>
    exact ((preserves_remembers_serve other).mapError fetchError).bind
      fun series => Effect.preserves_ofExcept _

theorem remembers_after {s : Service Binary64} (h : Remembers d.isoDay request series s)
    (run : List Activity) : Remembers d.isoDay request series (d.after s run) := by
  induction run generalizing s with
  | nil => exact h
  | cons activity rest ih =>
    cases activity with
    | registered provider => exact ih (h.register provider)
    | called call => exact ih (preserves_remembers_dispatch call s h)

/-- The first nine days of 2024 as they are printed, and how two of them are read. -/
def januaryDay (day : ℤ) : String := "2024-01-0" ++ (day - 19722).repr

def parseJanuary (text : String) : Option ℤ :=
  if text = "2024-01-01" then some 19723 else if text = "2024-01-02" then some 19724 else none

def sample : Dispatcher :=
  started ⟨id, id, fun x _ => x, Binary64.toString⟩ januaryDay parseJanuary

/-- One bar at a price of 1, whatever is asked for. -/
def unitProvider : Provider Binary64 where
  name := "synthetic"
  fetch _ _ _ := .ok [⟨1704067200000000000, .ofBits 0x3FF0000000000000, .ofBits 0x3FF0000000000000,
    .ofBits 0x3FF0000000000000, .ofBits 0x3FF0000000000000, 0⟩]

def closedProvider : Provider Binary64 where
  name := "synthetic"
  fetch _ _ _ := .error (.foreign "closed")

/-- Prices of two days. -/
def fetchCall : ToolCall where
  name := "fetch_ohlcv"
  arguments := .object [("end", .string "2024-01-02"), ("start", .string "2024-01-01"),
    ("ticker", .string "AAPL")]

def unitBarJson : Json :=
  .object [("close", .float 0x3FF0000000000000), ("date", .string "2024-01-01"),
    ("high", .float 0x3FF0000000000000), ("low", .float 0x3FF0000000000000),
    ("open", .float 0x3FF0000000000000), ("volume", .integer 0)]

end Dispatcher

end StandardTools.Agent
