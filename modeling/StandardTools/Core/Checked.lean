import StandardTools.Core.Cmath

/-!
# Arithmetic which knows its domain

`Checked` is exact arithmetic in which a division by zero, a logarithm of a
number which is not positive and a root of a negative one have no value, and
every operation on such a result has none either. A formula read in it has a
value only when every operation it evaluates is within its domain, and the value
is then the one over the reals.
-/

namespace StandardTools.Core

structure Checked where
  value : Option ℝ

namespace Checked

def of (x : ℝ) : Checked := ⟨some x⟩

def none : Checked := ⟨.none⟩

def map (f : ℝ → ℝ) (a : Checked) : Checked := ⟨a.value.map f⟩

def map₂ (f : ℝ → ℝ → ℝ) (a b : Checked) : Checked :=
  ⟨a.value.bind fun x => b.value.map (f x)⟩

open Classical in
/-- `f` where `P` holds of the argument. -/
noncomputable def within (P : ℝ → Prop) (f : ℝ → ℝ) (a : Checked) : Checked :=
  ⟨a.value.bind fun x => if P x then some (f x) else .none⟩

/-- A comparison with a missing value fails, as one with a NaN does. -/
def Compared (R : ℝ → ℝ → Prop) (a b : Checked) : Prop := ∃ x ∈ a.value, ∃ y ∈ b.value, R x y

open Classical in
noncomputable instance : Cmath Checked where
  zero := of 0
  one := of 1
  natCast n := of n
  intCast n := of n
  neg := map fun x => -x
  add := map₂ fun x y => x + y
  sub := map₂ fun x y => x - y
  mul := map₂ fun x y => x * y
  div a b := map₂ (fun x y => x / y) a (within (· ≠ 0) id b)
  lt := Compared (· < ·)
  le := Compared (· ≤ ·)
  beq a b := decide (Compared (· = ·) a b)
  decLt _ _ := inferInstance
  decLe _ _ := inferInstance
  sqrt := within (0 ≤ ·) Real.sqrt
  floor := map Double.floor
  abs := map Double.abs
  isNaN a := a.value.isNone
  isFinite a := a.value.isSome
  lowest := of Double.lowest
  toSize a := a.value.elim 0 Double.toSize
  toStr a := a.value.elim "nan" Double.toStr
  exp := map Real.exp
  log := within (0 < ·) Real.log
  pow a b := map₂ Cmath.pow (within (0 < ·) id a) b
  lround a := a.value.elim 0 Cmath.lround
  isInf _ := false
  streamed a := a.value.elim "nan" Cmath.streamed

/-! ### Operations on values -/

section Values
variable (x y : ℝ)

theorem of_ne_none : of x ≠ none := fun h => Option.some_ne_none x (congrArg value h)

@[simp] theorem zero_eq : (0 : Checked) = of 0 := rfl
@[simp] theorem one_eq : (1 : Checked) = of 1 := rfl
@[simp] theorem natCast_eq (n : ℕ) : (n : Checked) = of n := rfl
@[simp] theorem intCast_eq (n : ℤ) : (n : Checked) = of n := rfl
@[simp] theorem neg_of : -of x = of (-x) := rfl
@[simp] theorem add_of : of x + of y = of (x + y) := rfl
@[simp] theorem sub_of : of x - of y = of (x - y) := rfl
@[simp] theorem mul_of : of x * of y = of (x * y) := rfl
@[simp] theorem exp_of : Cmath.exp (of x) = of (Real.exp x) := rfl
@[simp] theorem isInf_eq (a : Checked) : Cmath.isInf a = false := rfl
@[simp] theorem isNaN_of : Double.isNaN (of x) = false := rfl

theorem within_of {P : ℝ → Prop} {f : ℝ → ℝ} {x : ℝ} (h : P x) : within P f (of x) = of (f x) :=
  congrArg mk (if_pos h)

theorem within_of_not {P : ℝ → Prop} {f : ℝ → ℝ} {x : ℝ} (h : ¬P x) :
    within P f (of x) = none :=
  congrArg mk (if_neg h)

theorem div_of {y : ℝ} (hy : y ≠ 0) : of x / of y = of (x / y) := by
  change map₂ (fun x y => x / y) (of x) (within (· ≠ 0) id (of y)) = _
  rw [@within_of (· ≠ 0) id y hy]
  rfl

theorem div_zero : of x / of 0 = none := by
  change map₂ (fun x y => x / y) (of x) (within (· ≠ 0) id (of 0)) = _
  rw [@within_of_not (· ≠ 0) id 0 fun h => h rfl]
  rfl

theorem sqrt_of {x : ℝ} (hx : 0 ≤ x) : Double.sqrt (of x) = of (Real.sqrt x) := within_of hx

theorem log_of {x : ℝ} (hx : 0 < x) : Cmath.log (of x) = of (Real.log x) := within_of hx

theorem log_of_nonpos {x : ℝ} (hx : x ≤ 0) : Cmath.log (of x) = none :=
  within_of_not (not_lt.mpr hx)

@[simp] theorem lt_of_iff : of x < of y ↔ x < y := by
  change Compared (· < ·) (of x) (of y) ↔ _
  simp [Compared, of]

@[simp] theorem le_of_iff : of x ≤ of y ↔ x ≤ y := by
  change Compared (· ≤ ·) (of x) (of y) ↔ _
  simp [Compared, of]

@[simp] theorem beq_of_iff : (of x == of y) = true ↔ x = y := by
  have hdecide : (of x == of y) = true ↔ Compared (· = ·) (of x) (of y) :=
    @decide_eq_true_iff _ (Classical.propDecidable _)
  rw [hdecide]
  simp [Compared, of]

end Values

/-! ### Operations on no value -/

section Missing
variable (a : Checked)

@[simp] theorem neg_none : -none = none := rfl
@[simp] theorem none_add : none + a = none := rfl
@[simp] theorem none_sub : none - a = none := rfl
@[simp] theorem none_mul : none * a = none := rfl
@[simp] theorem none_div : none / a = none := rfl
@[simp] theorem exp_none : Cmath.exp none = none := rfl
@[simp] theorem log_none : Cmath.log none = none := rfl

@[simp] theorem mul_none : a * none = none := by
  change map₂ (fun x y => x * y) a none = none
  obtain ⟨_ | x⟩ := a <;> rfl

end Missing

end Checked

end StandardTools.Core
