import StandardTools.Core.Double
import Mathlib.Data.List.DropRight

/-!
# Errors and value objects (`core/errors.hpp`, `core/value_objects.hpp`)

The domain errors with their messages, what names a price series (ticker, bar
interval, range of dates), its bars, and the parameter maps which strategies and
indicators read.
-/

namespace StandardTools.Core

inductive Error where
  | invalidTicker
  | invalidDateRange
  | invalidCommand (msg : String)
  | notFound
  | dataQuality (msg : String)
  | providerNotAvailable (name : String)
  | internal (msg : String)
  | insufficientData (msg : String)
  | invalidPrices (msg : String)
  deriving DecidableEq, Repr

def Error.what : Error → String
  | .invalidTicker => "invalid ticker"
  | .invalidDateRange => "invalid date range"
  | .invalidCommand msg => "invalid command: " ++ msg
  | .notFound => "not found"
  | .dataQuality msg => "data quality: " ++ msg
  | .providerNotAvailable name => "provider not available: " ++ name
  | .internal msg => "internal error: " ++ msg
  | .insufficientData msg => "insufficient data: " ++ msg
  | .invalidPrices msg => "invalid prices: " ++ msg

/-- `std::chrono::system_clock::time_point`: nanoseconds since the epoch, in a
signed 64-bit count. A value-initialised time point is the epoch. -/
abbrev Date := Int64

/-! ### Tickers -/

/-- `std::isspace` in the C locale. -/
def isSpace (c : Char) : Bool :=
  c = ' ' || c = '\t' || c = '\n' || c = '\x0b' || c = '\x0c' || c = '\r'

def trim (s : String) : String :=
  String.ofList ((s.toList.dropWhile isSpace).rdropWhile isSpace)

theorem trim_trim (s : String) : trim (trim s) = trim s := by
  have hleft : ((s.toList.dropWhile isSpace).rdropWhile isSpace).dropWhile isSpace =
      (s.toList.dropWhile isSpace).rdropWhile isSpace := by
    rw [List.dropWhile_eq_self_iff]
    intro hpos
    have hpre := List.rdropWhile_prefix isSpace (l := s.toList.dropWhile isSpace)
    rw [hpre.getElem hpos]
    exact List.dropWhile_eq_self_iff.mp (List.dropWhile_idempotent isSpace s.toList) _
  rw [trim, trim, String.toList_ofList, hleft, List.rdropWhile_idempotent]

/-- `std::tolower` on every character. -/
def toLower (s : String) : String := String.ofList (s.toList.map Char.toLower)

structure Ticker where
  symbol : String
  exchange : String
  symbol_trimmed : trim symbol = symbol
  symbol_nonempty : symbol ≠ ""

def Ticker.make (symbol : String) : Except Error Ticker :=
  if h : trim symbol = "" then .error .invalidTicker
  else .ok ⟨trim symbol, "", trim_trim symbol, h⟩

/-! ### Price series -/

inductive BarInterval where
  | daily
  | weekly
  | monthly
  deriving DecidableEq, Repr

def BarInterval.toString : BarInterval → String
  | .daily => "daily"
  | .weekly => "weekly"
  | .monthly => "monthly"

def BarInterval.parse (s : String) : Except Error BarInterval :=
  let lower := toLower (trim s)
  if lower = "" ∨ lower = "daily" then .ok .daily
  else if lower = "weekly" then .ok .weekly
  else if lower = "monthly" then .ok .monthly
  else .error (.invalidCommand ("invalid interval " ++ s ++ " (want daily, weekly, or monthly)"))

structure DateRange where
  start : Date
  stop : Date
  ordered : ¬stop < start

def DateRange.make (start stop : Date) : Except Error DateRange :=
  if h : stop < start then .error .invalidDateRange else .ok ⟨start, stop, h⟩

structure OHLCV (K : Type) where
  date : Date
  open_ : K
  high : K
  low : K
  close : K
  volume : Int64

/-- `std::unordered_map<std::string, double>`, seen through `find`. -/
def ParamMap (K : Type) := String → Option K

namespace ParamMap
variable {K : Type}

def empty : ParamMap K := fun _ => none

def set (params : ParamMap K) (key : String) (value : K) : ParamMap K :=
  fun k => if k = key then some value else params k

def ofList (entries : List (String × K)) : ParamMap K :=
  entries.foldr (fun e m => m.set e.1 e.2) empty

end ParamMap

end StandardTools.Core
