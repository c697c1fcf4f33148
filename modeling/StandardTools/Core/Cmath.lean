import Mathlib.Analysis.SpecialFunctions.Pow.Real
import StandardTools.Core.Double

/-!
# More of `<cmath>`

The metrics and the analysis code also call the exponential, the logarithm, powers
and `lround`. `Cmath K` adds these to the arithmetic of `K`, again without a law.
-/

namespace StandardTools.Core

class Cmath (K : Type) extends Double K where
  exp : K → K
  log : K → K
  pow : K → K → K
  /-- To the nearest integer, halfway cases away from zero. -/
  lround : K → ℤ
  isInf : K → Bool
  /-- What `operator<<` writes. -/
  streamed : K → String

instance : Cmath Float where
  exp := Float.exp
  log := Float.log
  pow := Float.pow
  lround x := x.round.toInt64.toInt
  isInf := Float.isInf
  streamed := toString

/-- The text of a number is that of `std::to_string`; no statement depends on it. -/
noncomputable instance : Cmath ℝ where
  exp := Real.exp
  log := Real.log
  pow := fun x y => x ^ y
  lround x := if x < 0 then -⌊-x + 1 / ((2 : ℕ) : ℝ)⌋ else ⌊x + 1 / ((2 : ℕ) : ℝ)⌋
  isInf _ := false
  streamed := Double.toStr

@[simp] theorem exp_real (x : ℝ) : Cmath.exp x = Real.exp x := rfl
@[simp] theorem log_real (x : ℝ) : Cmath.log x = Real.log x := rfl
@[simp] theorem isInf_real (x : ℝ) : Cmath.isInf x = false := rfl

end StandardTools.Core
