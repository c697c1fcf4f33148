import Mathlib.Algebra.Order.Round
import Mathlib.Analysis.Real.Sqrt
import Mathlib.Data.Rat.Floor
import Mathlib.Data.Rat.Sqrt

/-!
# The arithmetic of `double`

The calculators are written over C++ `double`. The model keeps their text and
leaves the arithmetic open: `Double K` lists the operators, the `<cmath>` calls
and the casts which the source applies, and no law about them. A statement
proved for every `Double K` holds of IEEE arithmetic with its NaNs and
roundings (`Float` below is one instance); a statement read in exact real
arithmetic is one about the instance on `ℝ`.
-/

namespace StandardTools.Core

/-- The operations on `double` which the source uses. -/
class Double (K : Type) extends Zero K, One K, NatCast K, IntCast K, Neg K,
    Add K, Sub K, Mul K, Div K, LT K, LE K, BEq K where
  decLt : (a b : K) → Decidable (a < b)
  decLe : (a b : K) → Decidable (a ≤ b)
  sqrt : K → K
  floor : K → K
  abs : K → K
  isNaN : K → Bool
  isFinite : K → Bool
  lowest : K
  /-- `static_cast<std::size_t>`: truncation on `[0, 2^64)`. Outside that range
  the cast is undefined in C++ and nothing may be concluded from its value. -/
  toSize : K → ℕ
  toStr : K → String

attribute [reducible, instance] Double.decLt Double.decLe

def stdMax {K : Type} [Double K] (a b : K) : K := if a < b then b else a

def stdMin {K : Type} [Double K] (a b : K) : K := if b < a then b else a

/-- The literal `digits / 10^places`. -/
def literal {K : Type} [Double K] (digits places : ℕ) : K := (digits : K) / ((10 ^ places : ℕ) : K)

/-- A matrix of `n` rows and `n` columns. -/
abbrev SquareMatrix (K : Type) (n : ℕ) := Fin n → Fin n → K

/-- `printf("%f")` of the number `n / 10^6`. -/
def fixedSix (n : ℤ) : String :=
  let digits := toString (n.natAbs % 1000000)
  (if n < 0 then "-" else "") ++ toString (n.natAbs / 1000000) ++ "." ++
    String.ofList (List.replicate (6 - digits.length) '0') ++ digits

instance : Double Float where
  zero := 0
  one := 1
  natCast := Float.ofNat
  intCast := Float.ofInt
  decLt := inferInstance
  decLe := inferInstance
  sqrt := Float.sqrt
  floor := Float.floor
  abs := Float.abs
  isNaN := Float.isNaN
  isFinite := Float.isFinite
  lowest := -1.7976931348623157e308
  toSize x := x.toUInt64.toNat
  toStr := toString

/-- Exact rational arithmetic, for evaluating the model on concrete inputs
(the square root is exact on squares only). -/
instance : Double ℚ where
  decLt := inferInstance
  decLe := inferInstance
  sqrt := Rat.sqrt
  floor x := ⌊x⌋
  abs x := |x|
  isNaN _ := false
  isFinite _ := true
  lowest := -(2 ^ 1024 - 2 ^ 971)
  toSize x := ⌊x⌋₊
  toStr x := fixedSix (round (x * 1000000))

noncomputable instance : Double ℝ where
  decLt := inferInstance
  decLe := inferInstance
  sqrt := Real.sqrt
  floor x := ⌊x⌋
  abs x := |x|
  isNaN _ := false
  isFinite _ := true
  lowest := -(2 ^ 1024 - 2 ^ 971)
  toSize x := ⌊x⌋₊
  toStr x := fixedSix (round (x * 1000000))

section Real

@[simp] theorem sqrt_real (x : ℝ) : Double.sqrt x = Real.sqrt x := rfl
@[simp] theorem abs_real (x : ℝ) : Double.abs x = |x| := rfl
@[simp] theorem isFinite_real (x : ℝ) : Double.isFinite x = true := rfl
@[simp] theorem isNaN_real (x : ℝ) : Double.isNaN x = false := rfl

theorem stdMax_real (a b : ℝ) : stdMax a b = max a b := by
  unfold stdMax
  split_ifs with h
  · exact (max_eq_right h.le).symm
  · exact (max_eq_left (not_lt.mp h)).symm

end Real

end StandardTools.Core
