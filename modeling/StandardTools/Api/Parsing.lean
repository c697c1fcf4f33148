import StandardTools.Api.Handlers
import StandardTools.Backtest.WalkForward
import StandardTools.Core.Binary64

/-!
# Parsing requests (`api/rest.cpp:68-108`, `408-411`, `agent/dispatcher.cpp:56-79`, `309-313`)

Both entry points read parameters and a backtest configuration out of JSON, each
with functions of its own, and run the engine with them. How the JSON library
converts a value to a C++ type is a parameter; what it does with numbers is that
of a `static_cast`.
-/

namespace StandardTools.Api
open StandardTools.Core StandardTools.Backtest

/-- An exception, or an operation which C++ leaves undefined. -/
inductive Stopped where
  | thrown (e : Thrown)
  | undefined
  deriving DecidableEq, Repr

/-! ### Conversions -/

/-- `static_cast` from `double` to an integer type with the values from `low` to `high - 1`. -/
def castWithin (low high : ℤ) (x : Binary64) : Except Stopped ℤ :=
  match Lib.Binary64.trunc? x with
  | some t => if low ≤ t ∧ t < high then .ok t else .error .undefined
  | none => .error .undefined

/-- `get<double>`, `get<std::size_t>` and `get<int>` of a JSON value. -/
structure Conversions where
  getDouble : Json → Except Stopped Binary64
  getSize : Json → Except Stopped UInt64
  getInt : Json → Except Stopped Int32

/-- A number is converted by `static_cast`; anything else is converted or refused. -/
structure Conversions.Documented (conv : Conversions) : Prop where
  double_integer : ∀ n, conv.getDouble (.integer n) = .ok (Float.Model.ofInt n)
  double_float : ∀ bits, conv.getDouble (.float bits) = .ok (Float.Model.ofBits bits)
  size_integer : ∀ n, conv.getSize (.integer n) = .ok (UInt64.ofInt n)
  size_float : ∀ bits, conv.getSize (.float bits) =
    (castWithin 0 (2 ^ 64) (Float.Model.ofBits bits)).map UInt64.ofInt
  int_integer : ∀ n, conv.getInt (.integer n) = .ok (Int32.ofInt n)
  int_float : ∀ bits, conv.getInt (.float bits) =
    (castWithin (-2 ^ 31) (2 ^ 31) (Float.Model.ofBits bits)).map Int32.ofInt
  double_defined : ∀ j, conv.getDouble j ≠ .error .undefined
  size_defined : ∀ j, ¬j.isNumber → conv.getSize j ≠ .error .undefined

/-- What the library throws at a value which is no number. -/
def notNumber (j : Json) : Stopped :=
  .thrown (.other ("[json.exception.type_error.302] type must be number, but is " ++ j.typeName))

/-- The overloads of the library: the one for `int` takes a boolean as well. -/
def nlohmann : Conversions where
  getDouble
    | .integer n => .ok (Float.Model.ofInt n)
    | .float bits => .ok (Float.Model.ofBits bits)
    | j => .error (notNumber j)
  getSize
    | .integer n => .ok (UInt64.ofInt n)
    | .float bits => (castWithin 0 (2 ^ 64) (Float.Model.ofBits bits)).map UInt64.ofInt
    | j => .error (notNumber j)
  getInt
    | .integer n => .ok (Int32.ofInt n)
    | .float bits => (castWithin (-2 ^ 31) (2 ^ 31) (Float.Model.ofBits bits)).map Int32.ofInt
    | .boolean b => .ok (if b then 1 else 0)
    | j => .error (notNumber j)

/-- `value(key, default)` of an object. -/
def valueOr {α : Type} (get : Json → Except Stopped α) (obj : Json) (key : String) (default : α) :
    Except Stopped α :=
  match obj.field? key with
  | none => .ok default
  | some value => get value

/-! ### The REST layer -/

namespace Rest

/-- The keys of `ParseIndicatorParams`; `stod` is `std::stod`, or nothing when it throws. -/
def parseIndicatorParams (stod : String → Option Binary64) (query : String → Option String) :
    Except Error (ParamMap Binary64) :=
  ["period", "fast", "slow", "signal", "std_dev"].foldlM (fun params key =>
    match query key with
    | none => .ok params
    | some value =>
      match stod value with
      | some x => .ok (params.set key x)
      | none => .error (.invalidCommand ("invalid numeric value for " ++ key))) .empty

def parseParams (conv : Conversions) (obj : Json) : Except Stopped (ParamMap Binary64) :=
  match obj with
  | .object entries =>
    entries.foldlM (fun params entry =>
      if entry.2.isNumber then (conv.getDouble entry.2).map (params.set entry.1)
      else .ok params) .empty
  | _ => .ok .empty

def parseBacktestConfig (conv : Conversions) (obj : Json) :
    Except Stopped (BacktestConfig Binary64) :=
  let config : BacktestConfig Binary64 := default
  match obj with
  | .object _ => do
    let initialCapital ← valueOr conv.getDouble obj "initial_capital" config.initialCapital
    let commissionRate ← valueOr conv.getDouble obj "commission_rate" config.commissionRate
    let periodsPerYear ←
      valueOr conv.getSize obj "periods_per_year" (UInt64.ofNat config.periodsPerYear)
    let riskFreeRate ← valueOr conv.getDouble obj "risk_free_rate" config.riskFreeRate
    return ⟨initialCapital, commissionRate, periodsPerYear.toNat, riskFreeRate⟩
  | _ => .ok config

/-- The backtest itself, once the series is fetched. -/
def runBacktest (conv : Conversions) (strategy : String) (series : List (OHLCV Binary64))
    (params config : Json) : Except Stopped (BacktestResult Binary64) := do
  let params ← parseParams conv params
  let config ← parseBacktestConfig conv config
  (runNamed strategy config series params).mapError fun e => .thrown (.domain e)

end Rest

/-! ### The agent -/

namespace Agent

def parseParams (conv : Conversions) (obj : Json) : Except Stopped (ParamMap Binary64) :=
  match obj with
  | .object entries =>
    entries.foldlM (fun params entry =>
      if entry.2.isNumber then (conv.getDouble entry.2).map (params.set entry.1)
      else .ok params) .empty
  | _ => .ok .empty

/-- The default of `periods_per_year` is cast to `int`, and so is the value. -/
def parseBacktestConfig (conv : Conversions) (obj : Json) :
    Except Stopped (BacktestConfig Binary64) :=
  let config : BacktestConfig Binary64 := default
  match obj with
  | .object _ => do
    let initialCapital ← valueOr conv.getDouble obj "initial_capital" config.initialCapital
    let commissionRate ← valueOr conv.getDouble obj "commission_rate" config.commissionRate
    let periodsPerYear ←
      valueOr conv.getInt obj "periods_per_year" (Int32.ofNat config.periodsPerYear)
    let riskFreeRate ← valueOr conv.getDouble obj "risk_free_rate" config.riskFreeRate
    return ⟨initialCapital, commissionRate, (UInt64.ofInt periodsPerYear.toInt).toNat,
      riskFreeRate⟩
  | _ => .ok config

def runBacktest (conv : Conversions) (strategy : String) (series : List (OHLCV Binary64))
    (params config : Json) : Except Stopped (BacktestResult Binary64) := do
  let params ← parseParams conv params
  let config ← parseBacktestConfig conv config
  (runNamed strategy config series params).mapError fun e => .thrown (.domain e)

end Agent

end StandardTools.Api
