import StandardTools.Analysis.Multivariate

/-!
# The operations by their names (`analysis/calculator.hpp`, `analysis/calculator.cpp:271-291`)

A request carries the inputs of every operation; the one it names reads its own.
-/

namespace StandardTools.Analysis
open StandardTools.Core Lib

def kRegression : String := "regression"
def kCointegration : String := "cointegration"
def kHurst : String := "hurst"
def kPca : String := "pca"
def kCorrelation : String := "correlation"
def kOptions : String := "options"

structure Request (K : Type) where
  operation : String
  assetReturns : List K := []
  benchmarkReturns : List K := []
  aCloses : List K := []
  bCloses : List K := []
  prices : List K := []
  maxLag : Option ℤ := none
  returnsMatrix : List (List K) := []
  nComponents : ℤ := 1
  returnsMap : StdMap (List K) := .empty
  blackScholes : Option (BlackScholesParams K) := none

inductive Result (K : Type) where
  | regression (r : RegressionResult K)
  | cointegration (r : CointegrationResult K)
  | hurst (r : HurstResult K)
  | pca (r : PCAResult K)
  | correlation (r : CorrelationResult K)
  | options (r : OptionPricingResult K)

variable {K : Type} [Cmath K]

def calculate (sortIndices : IndexSort K) (sortLabels : StdSort String (· < ·))
    (request : Request K) : Except Error (Result K) :=
  if request.operation = kRegression then
    (regression request.assetReturns request.benchmarkReturns).map .regression
  else if request.operation = kCointegration then
    (cointegration request.aCloses request.bCloses).map .cointegration
  else if request.operation = kHurst then
    (hurst request.prices request.maxLag).map .hurst
  else if request.operation = kPca then
    (pca sortIndices request.returnsMatrix request.nComponents).map .pca
  else if request.operation = kCorrelation then
    (correlation sortLabels request.returnsMap).map .correlation
  else if request.operation = kOptions then
    (options request.blackScholes).map .options
  else .error (.invalidCommand ("unknown analysis operation " ++ request.operation))

end StandardTools.Analysis
