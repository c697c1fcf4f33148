import StandardTools.Core.Double
import StandardTools.Lib.Binary64

/-!
# IEEE doubles

The arithmetic of `double` itself, NaNs, infinities, signed zeros and rounding
included, on Lean's model of a `Float`. Where the target type of a cast cannot
hold the value the cast is undefined, and what `toSize` gives there means nothing.
-/

namespace StandardTools.Core
open Lib Float.Model

abbrev Binary64 := Float.Model

/-- To the nearest integer, halfway cases to the even one. -/
def roundHalfEven (n d : ℕ) : ℕ :=
  if 2 * (n % d) < d then n / d
  else if 2 * (n % d) = d then n / d + n / d % 2
  else n / d + 1

/-- `std::to_string`, which is `printf("%f")`. -/
def Binary64.toString (x : Binary64) : String :=
  let signed (s : UnpackedFloat.Sign) (digits : String) : String :=
    match s with
    | .negative => "-" ++ digits
    | .positive => digits
  match x.unpack with
  | .notANumber => "nan"
  | .infinity s => signed s "inf"
  | .zero s => signed s (fixedSix 0)
  | .finite s m e _ =>
    signed s (fixedSix (roundHalfEven (m * 2 ^ e.toNat * 1000000) (2 ^ (-e).toNat)))

instance : Double Binary64 where
  zero := Float.Model.ofNat 0
  one := Float.Model.ofNat 1
  natCast := Float.Model.ofNat
  intCast := Float.Model.ofInt
  decLt := inferInstance
  decLe := inferInstance
  sqrt := Float.Model.sqrt
  floor := Lib.Binary64.floor
  abs := Float.Model.abs
  isNaN := Float.Model.isNaN
  isFinite := Float.Model.isFinite
  lowest := Float.Model.ofBits 0xFFEFFFFFFFFFFFFF
  toSize x := ((Lib.Binary64.trunc? x).getD 0).toNat
  toStr := Binary64.toString

example : Double.toStr (Float.Model.ofBits 0xBFF8000000000000) = "-1.500000" := by decide

end StandardTools.Core
