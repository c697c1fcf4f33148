import Mathlib.Data.Prod.Lex
import StandardTools.Core.Binary64
import StandardTools.Core.Cmath
import StandardTools.Lib.StdAlgorithm

/-!
# `<cmath>` and `std::sort` on doubles

The library rounds `exp`, `log` and `pow` as it likes, so that these are parameters,
and so is the text which `operator<<` writes.
-/

namespace StandardTools.Core
open Lib Float.Model

structure Libm where
  exp : Binary64 → Binary64
  log : Binary64 → Binary64
  pow : Binary64 → Binary64 → Binary64
  streamed : Binary64 → String

/-- To the nearest integer, halfway cases away from zero. -/
def roundHalfAway (n d : ℕ) : ℕ := (2 * n + d) / (2 * d)

/-- Nothing is promised of what is not finite, or does not fit into a `long`. -/
def Binary64.lround (x : Binary64) : ℤ :=
  match x.unpack with
  | .finite s m e _ =>
    let magnitude := roundHalfAway (m * 2 ^ e.toNat) (2 ^ (-e).toNat)
    match s with
    | .negative => -magnitude
    | .positive => magnitude
  | _ => 0

abbrev Libm.cmath (libm : Libm) : Cmath Binary64 where
  exp := libm.exp
  log := libm.log
  pow := libm.pow
  lround := Binary64.lround
  isInf := Float.Model.isInf
  streamed := libm.streamed

example : Binary64.lround (Float.Model.ofBits 0x4004000000000000) = 3 := by decide

/-! ### Sorting -/

/-- Where a number stands in the order: by sign, exponent and mantissa. -/
def place : UnpackedFloat → ℤ ×ₗ ℤ ×ₗ ℤ
  | .notANumber => toLex (0, toLex (0, 0))
  | .infinity .negative => toLex (-2, toLex (0, 0))
  | .infinity .positive => toLex (2, toLex (0, 0))
  | .zero _ => toLex (0, toLex (0, 0))
  | .finite .negative m e _ => toLex (-1, toLex (-e, -m))
  | .finite .positive m e _ => toLex (1, toLex (e, m))

theorem place_lt {a b : UnpackedFloat} (h : a.compare b = some .lt) : place a < place b := by
  have hlevel {i j : ℤ} {x y : ℤ ×ₗ ℤ} (hij : i < j) : toLex (i, x) < toLex (j, y) :=
    Prod.Lex.toLex_lt_toLex.mpr (.inl hij)
  have hfinite {i e e' m m' : ℤ} (h : e < e' ∨ e = e' ∧ m < m') :
      toLex (i, toLex (e, m)) < toLex (i, toLex (e', m')) :=
    Prod.Lex.toLex_lt_toLex.mpr (.inr ⟨rfl, Prod.Lex.toLex_lt_toLex.mpr h⟩)
  cases a with
  | notANumber => cases h
  | infinity s =>
    cases s with
    | positive => cases b with
      | infinity t => cases t <;> cases h
      | notANumber | zero | finite => cases h
    | negative => cases b with
      | notANumber => cases h
      | infinity t => cases t with
        | negative => cases h
        | positive => exact hlevel (by decide)
      | zero t => exact hlevel (by decide)
      | finite t => cases t <;> exact hlevel (by decide)
  | zero s => cases b with
    | notANumber | zero => cases h
    | infinity t => cases t with
      | negative => cases h
      | positive => exact hlevel (by decide)
    | finite t => cases t with
      | negative => cases h
      | positive => exact hlevel (by decide)
  | finite s m e => cases b with
    | notANumber => cases s <;> cases h
    | infinity t => cases t with
      | negative => cases s <;> cases h
      | positive => cases s <;> exact hlevel (by decide)
    | zero t => cases s with
      | negative => exact hlevel (by decide)
      | positive => cases h
    | finite t m' e' => cases s with
      | negative => cases t with
        | negative =>
          replace h := Option.some.inj h
          rw [Ordering.swap_eq_lt, Ordering.then_eq_gt, Int.compare_eq_gt, Int.compare_eq_eq,
            Nat.compare_eq_gt] at h
          exact hfinite (by omega)
        | positive => exact hlevel (by decide)
      | positive => cases t with
        | negative => cases h
        | positive =>
          replace h := Option.some.inj h
          rw [Ordering.then_eq_lt, Int.compare_eq_lt, Int.compare_eq_eq, Nat.compare_eq_lt] at h
          exact hfinite (by omega)

theorem Binary64.place_lt {x y : Binary64} (h : x < y) : place x.unpack < place y.unpack :=
  Core.place_lt (beq_iff_eq.mp h)

def Binary64.sort : StdSort Binary64 (· < ·) := .mergeOn (fun x => place x.unpack) fun _ _ => place_lt

end StandardTools.Core
