import Mathlib.Data.Fintype.BigOperators
import Mathlib.LinearAlgebra.Matrix.NonsingularInverse
import Mathlib.LinearAlgebra.Matrix.Trace
import Mathlib.Tactic.LinearCombination

/-!
# Plane rotations

A matrix is conjugated by rotations in the planes of two coordinates, and the
product of the rotations is kept beside it. The product stays orthogonal and
the matrix stays the conjugate of the one it began as, whatever the angles are;
in particular neither the trace nor the sum of the squares of the entries
changes. A rotation which zeroes an entry of a symmetric matrix takes the square
of that entry away from the triangle above the diagonal.
-/

namespace StandardTools.Lib
open Matrix

variable {ι R : Type*} [Fintype ι] [DecidableEq ι] [CommRing R]

/-- `v` is orthogonal and takes `m` to `a`. -/
structure Conjugated (m a v : Matrix ι ι R) : Prop where
  orthogonal : vᵀ * v = 1
  eq : a = vᵀ * m * v

theorem Conjugated.refl (m : Matrix ι ι R) : Conjugated m m 1 := by
  constructor
  · rw [transpose_one, Matrix.one_mul]
  · rw [transpose_one, Matrix.one_mul, Matrix.mul_one]

theorem Conjugated.mul {m a v g : Matrix ι ι R} (h : Conjugated m a v) (hg : gᵀ * g = 1) :
    Conjugated m (gᵀ * a * g) (v * g) := by
  constructor
  · calc (v * g)ᵀ * (v * g) = gᵀ * (vᵀ * v) * g := by simp only [transpose_mul, Matrix.mul_assoc]
      _ = 1 := by rw [h.orthogonal, Matrix.mul_one, hg]
  · rw [h.eq]
    simp only [transpose_mul, Matrix.mul_assoc]

theorem Conjugated.trace_eq {m a v : Matrix ι ι R} (h : Conjugated m a v) :
    a.trace = m.trace := by
  have hright : v * vᵀ = 1 := mul_eq_one_comm.mp h.orthogonal
  rw [h.eq, trace_mul_cycle, hright, Matrix.one_mul]

theorem Conjugated.diag_eq {m a v : Matrix ι ι R} (h : Conjugated m a v) (i : ι) :
    a i i = ∑ k, ∑ l, v k i * v l i * m k l := by
  rw [h.eq, mul_apply, Finset.sum_comm]
  refine Finset.sum_congr rfl fun l _ => ?_
  rw [mul_apply, Finset.sum_mul]
  exact Finset.sum_congr rfl fun k _ => by rw [transpose_apply]; ring

/-- The columns are orthonormal. -/
theorem Conjugated.sum_mul {m a v : Matrix ι ι R} (h : Conjugated m a v) (i j : ι) :
    ∑ k, v k i * v k j = if i = j then 1 else 0 := by
  have hentry := congrFun (congrFun h.orthogonal i) j
  rwa [mul_apply, one_apply] at hentry

/-! ### The rotation of one plane -/

section Plane
variable {p q : ι} {c s : R}

def planeRotation (p q : ι) (c s : R) : Matrix ι ι R := fun k j =>
  if j = p then if k = p then c else if k = q then -s else 0
  else if j = q then if k = p then s else if k = q then c else 0
  else if k = j then 1 else 0

theorem mul_planeRotation (hpq : p ≠ q) (m : Matrix ι ι R) (k j : ι) :
    (m * planeRotation p q c s) k j =
      if j = p then c * m k p - s * m k q
      else if j = q then s * m k p + c * m k q
      else m k j := by
  rw [mul_apply]
  unfold planeRotation
  split_ifs with hp hq
  · rw [Fintype.sum_eq_add p q hpq fun x hx => by rw [if_neg hx.1, if_neg hx.2, mul_zero]]
    rw [if_pos rfl, if_neg hpq.symm, if_pos rfl]
    ring
  · rw [Fintype.sum_eq_add p q hpq fun x hx => by rw [if_neg hx.1, if_neg hx.2, mul_zero]]
    rw [if_pos rfl, if_neg hpq.symm, if_pos rfl]
    ring
  · rw [Fintype.sum_eq_single j fun x hx => by rw [if_neg hx, mul_zero], if_pos rfl, mul_one]

theorem planeRotation_transpose_mul_apply (hpq : p ≠ q) (m : Matrix ι ι R) (j k : ι) :
    ((planeRotation p q c s)ᵀ * m) j k =
      if j = p then c * m p k - s * m q k
      else if j = q then s * m p k + c * m q k
      else m j k := by
  have htranspose : ((planeRotation p q c s)ᵀ * m) j k = (mᵀ * planeRotation p q c s) k j := by
    rw [← transpose_apply (mᵀ * _), transpose_mul, transpose_transpose]
  rw [htranspose, mul_planeRotation hpq]
  rfl

theorem planeRotation_orthogonal (hpq : p ≠ q) (hcs : c * c + s * s = 1) :
    (planeRotation p q c s)ᵀ * planeRotation p q c s = 1 := by
  ext j k
  rw [planeRotation_transpose_mul_apply hpq, one_apply]
  unfold planeRotation
  rcases eq_or_ne k p with rfl | hkp
  · rcases eq_or_ne j k with rfl | hjk
    · simp only [if_true, if_neg hpq.symm]
      linear_combination hcs
    · rcases eq_or_ne j q with rfl | hjq
      · simp only [if_true, if_neg hjk]
        ring
      · simp only [if_true, if_neg hjk, if_neg hjq]
  rcases eq_or_ne k q with rfl | hkq
  · rcases eq_or_ne j p with rfl | hjp
    · simp only [if_true, if_neg hkp, if_neg hpq]
      ring
    · rcases eq_or_ne j k with rfl | hjk
      · simp only [if_true, if_neg hkp]
        linear_combination hcs
      · simp only [if_true, if_neg hkp, if_neg hjp, if_neg hjk]
  · rcases eq_or_ne j p with rfl | hjp
    · simp only [if_true, if_neg hkp, if_neg hkq, if_neg hkp.symm, if_neg hkq.symm]
      ring
    · rcases eq_or_ne j q with rfl | hjq
      · simp only [if_true, if_neg hjp, if_neg hkp, if_neg hkq, if_neg hkp.symm, if_neg hkq.symm]
        ring
      · simp only [if_neg hkp, if_neg hkq, if_neg hjp, if_neg hjq]

/-- The entries of the conjugate in the plane of the rotation. -/
theorem planeRotation_conj_apply (hpq : p ≠ q) (m : Matrix ι ι R) :
    let a := (planeRotation p q c s)ᵀ * m * planeRotation p q c s
    a p p = c * c * m p p - c * s * (m p q + m q p) + s * s * m q q ∧
      a p q = c * s * (m p p - m q q) + c * c * m p q - s * s * m q p ∧
      a q q = s * s * m p p + c * s * (m p q + m q p) + c * c * m q q := by
  simp only [mul_planeRotation hpq, planeRotation_transpose_mul_apply hpq, if_true, hpq.symm,
    if_false]
  refine ⟨?_, ?_, ?_⟩ <;> ring

theorem planeRotation_conj_diag (hpq : p ≠ q) (m : Matrix ι ι R) {i : ι} (hp : i ≠ p)
    (hq : i ≠ q) : ((planeRotation p q c s)ᵀ * m * planeRotation p q c s) i i = m i i := by
  simp only [mul_planeRotation hpq, planeRotation_transpose_mul_apply hpq, hp, hq, if_false]

end Plane

/-! ### Sums of squares -/

def sumSquares (a : Matrix ι ι R) : R := ∑ i, ∑ j, a i j ^ 2

omit [DecidableEq ι] in
theorem sumSquares_eq_trace (a : Matrix ι ι R) : sumSquares a = (aᵀ * a).trace := by
  simp only [sumSquares, trace, diag_apply, mul_apply, transpose_apply, ← sq]
  exact Finset.sum_comm

theorem sumSquares_conj {g : Matrix ι ι R} (hg : gᵀ * g = 1) (a : Matrix ι ι R) :
    sumSquares (gᵀ * a * g) = sumSquares a := by
  have hright : g * gᵀ = 1 := mul_eq_one_comm.mp hg
  calc sumSquares (gᵀ * a * g) = (gᵀ * (aᵀ * (g * gᵀ) * a) * g).trace := by
        simp only [sumSquares_eq_trace, transpose_mul, transpose_transpose, Matrix.mul_assoc]
    _ = (aᵀ * a).trace := by rw [hright, Matrix.mul_one, trace_mul_cycle, hright, Matrix.one_mul]
    _ = sumSquares a := (sumSquares_eq_trace a).symm

section Triangle
variable [LinearOrder ι]

/-- The squares of the entries above the diagonal. -/
def upperSquares (a : Matrix ι ι R) : R := ∑ i, ∑ j, if i < j then a i j ^ 2 else 0

theorem sumSquares_eq_upperSquares {a : Matrix ι ι R} (ha : a.IsSymm) :
    sumSquares a = ∑ i, a i i ^ 2 + 2 * upperSquares a := by
  have hentry : ∀ i j, a i j ^ 2 = (if i = j then a i i ^ 2 else 0) +
      ((if i < j then a i j ^ 2 else 0) + if j < i then a j i ^ 2 else 0) := by
    intro i j
    rcases lt_trichotomy i j with hlt | rfl | hlt
    · simp [hlt, hlt.ne, hlt.not_gt]
    · simp
    · simp [hlt, hlt.ne', hlt.not_gt, ha.apply i j]
  have hlower : ∑ i, ∑ j, (if j < i then a j i ^ 2 else 0) = upperSquares a := Finset.sum_comm
  rw [sumSquares, Finset.sum_congr rfl fun i _ => Finset.sum_congr rfl fun j _ => hentry i j]
  simp only [Finset.sum_add_distrib, Finset.sum_ite_eq, Finset.mem_univ, if_true, hlower]
  rw [upperSquares, two_mul]

end Triangle

section Zeroed
variable {F : Type*} [Field F] [CharZero F] [LinearOrder ι] {p q : ι} {c s : F}

/-- The plane keeps its sum of squares, so that what the entry loses the diagonal
gains, and the rest of the triangle keeps its own. -/
theorem upperSquares_conj (hpq : p ≠ q) (hcs : c * c + s * s = 1) {m : Matrix ι ι F}
    (hm : m.IsSymm) (hzero : ((planeRotation p q c s)ᵀ * m * planeRotation p q c s) p q = 0) :
    upperSquares ((planeRotation p q c s)ᵀ * m * planeRotation p q c s) =
      upperSquares m - m p q ^ 2 := by
  have hsymm : ((planeRotation p q c s)ᵀ * m * planeRotation p q c s).IsSymm := by
    rw [IsSymm, transpose_mul, transpose_mul, transpose_transpose, hm.eq, Matrix.mul_assoc]
  have htotal := sumSquares_conj (planeRotation_orthogonal hpq hcs) m
  obtain ⟨hpp, hentry, hqq⟩ := planeRotation_conj_apply (c := c) (s := s) hpq m
  have hother : ∀ i, i ≠ p ∧ i ≠ q →
      ((planeRotation p q c s)ᵀ * m * planeRotation p q c s) i i ^ 2 - m i i ^ 2 = 0 := by
    intro i hi
    rw [planeRotation_conj_diag hpq m hi.1 hi.2, sub_self]
  rw [sumSquares_eq_upperSquares hsymm, sumSquares_eq_upperSquares hm] at htotal
  generalize (planeRotation p q c s)ᵀ * m * planeRotation p q c s = a at *
  have hdiag := Fintype.sum_eq_add (f := fun i => a i i ^ 2 - m i i ^ 2) p q hpq hother
  rw [Finset.sum_sub_distrib] at hdiag
  have hsymmEntry : m q p = m p q := hm.apply p q
  have hplane : a p p ^ 2 + a q q ^ 2 = m p p ^ 2 + m q q ^ 2 + 2 * m p q ^ 2 := by
    rw [hentry, hsymmEntry] at hzero
    rw [hpp, hqq, hsymmEntry]
    linear_combination (c * c + s * s + 1) * (m p p ^ 2 + m q q ^ 2 + 2 * m p q ^ 2) * hcs -
      2 * (c * s * (m p p - m q q) + c * c * m p q - s * s * m p q) * hzero
  have htwo : (2 : F) ≠ 0 := two_ne_zero
  refine mul_left_cancel₀ htwo ?_
  linear_combination htotal - hdiag - hplane

end Zeroed

end StandardTools.Lib
