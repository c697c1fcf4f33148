import StandardTools.Audit.Record
import StandardTools.Lib.Effect
import StandardTools.Lib.StdMap

/-!
# The market data service (`marketdata/service.cpp`, `marketdata/cache.cpp`)

Providers are registered under their own names. `Fetch` answers from the cache
what it has answered before under the same key; the key shows the symbol of the
ticker and the days of the range, and neither the exchange nor the time of day.
The rendering of a calendar day (`date::format("%F")`) is a parameter `isoDay`.
-/

namespace StandardTools.MarketData
open StandardTools.Core StandardTools.Lib

variable {K : Type}

/-- An error of the domain, or whatever a provider throws. -/
inductive FetchError where
  | domain (e : Error)
  | foreign (msg : String)
  deriving DecidableEq, Repr

structure Provider (K : Type) where
  name : String
  fetch : Ticker → BarInterval → DateRange → Except FetchError (List (OHLCV K))

/-! ### The cache -/

structure InMemoryCache (K : Type) where
  data : StdMap (List (OHLCV K))

namespace InMemoryCache

def empty : InMemoryCache K := ⟨StdMap.empty⟩

def get (cache : InMemoryCache K) (key : String) : Option (List (OHLCV K)) :=
  cache.data.find? key

def put (cache : InMemoryCache K) (key : String) (series : List (OHLCV K)) : InMemoryCache K :=
  ⟨cache.data.insert key series⟩

theorem get_put (cache : InMemoryCache K) (key : String) (series : List (OHLCV K)) :
    (cache.put key series).get = Function.update cache.get key (some series) :=
  cache.data.find?_insert key series

end InMemoryCache

/-- `core::FormatDate`: the day only. -/
def formatDate (isoDay : Int → String) (d : Date) : String := isoDay (Audit.dayOf d)

def cacheKey (isoDay : Int → String) (provider : String) (ticker : Ticker)
    (interval : BarInterval) (range : DateRange) : String :=
  provider ++ ":" ++ ticker.symbol ++ ":" ++ interval.toString ++ ":" ++
    formatDate isoDay range.start ++ ":" ++ formatDate isoDay range.stop

/-! ### The service -/

structure Service (K : Type) where
  defaultProvider : String
  providers : StdMap (Provider K)
  cache : InMemoryCache K

namespace Service

/-- A service with an empty `InMemoryCache`. -/
def new (defaultProvider : String) : Service K := ⟨defaultProvider, StdMap.empty, .empty⟩

def register (service : Service K) (provider : Provider K) : Service K :=
  { service with providers := service.providers.insert provider.name provider }

def resolveProvider (service : Service K) (name : String) : Except FetchError (Provider K) :=
  match service.providers.find? name with
  | none => .error (.domain (.providerNotAvailable name))
  | some provider => .ok provider

def requestedName (defaultProvider providerName : String) : String :=
  if providerName = "" then defaultProvider else providerName

def fetch (isoDay : Int → String) (ticker : Ticker) (interval : BarInterval) (range : DateRange)
    (providerName : String) : Effect (Service K) FetchError (List (OHLCV K)) := fun service =>
  let name := requestedName service.defaultProvider providerName
  match service.resolveProvider name with
  | .error e => (.error e, service)
  | .ok provider =>
    let key := cacheKey isoDay name ticker interval range
    match service.cache.get key with
    | some cached => (.ok cached, service)
    | none =>
      match provider.fetch ticker interval range with
      | .error e => (.error e, service)
      | .ok series => (.ok series, { service with cache := service.cache.put key series })

end Service

/-! ### Runs -/

structure Request where
  ticker : Ticker
  interval : BarInterval
  range : DateRange
  providerName : String

inductive Call (K : Type) where
  | register (provider : Provider K)
  | fetch (request : Request)

def Provider.answer (provider : Provider K) (request : Request) :
    Except FetchError (List (OHLCV K)) :=
  provider.fetch request.ticker request.interval request.range

def Service.serve (isoDay : Int → String) (request : Request) :
    Effect (Service K) FetchError (List (OHLCV K)) :=
  Service.fetch isoDay request.ticker request.interval request.range request.providerName

/-- The `Fetch` calls of a run, each with the service as it is then. -/
def Service.fetches (isoDay : Int → String) : Service K → List (Call K) →
    List (Service K × Request)
  | _, [] => []
  | service, .register provider :: calls => (service.register provider).fetches isoDay calls
  | service, .fetch request :: calls =>
    (service, request) :: (Service.serve isoDay request service).2.fetches isoDay calls

end StandardTools.MarketData
