import StandardTools.Analysis.NoArbitrage
import StandardTools.Analysis.PrincipalComponents

/-!
# Progress of Jacobi's method (`analysis/calculator.cpp:206-267`)

Between any two rotations the matrix is symmetric and is the given one seen in an
orthogonal frame. The tangent of a rotation solves `t² + 2θt = 1`, which zeroes
the entry it was computed for and takes the square of the entry from the triangle
above the diagonal; the sum of all squares stays what it was.
-/

namespace StandardTools.Analysis
open StandardTools.Core Lib

variable {n : ℕ}

/-! ### The angle -/

/-- The smaller root of `t² + 2θt - 1`, whatever the sign of `θ`. -/
theorem jacobiTangent_eq (theta : ℝ) :
    let t := (if 0 ≤ theta then 1 else -1) / (|theta| + Real.sqrt (theta * theta + 1))
    t * t + 2 * theta * t - 1 = 0 := by
  have hpos : 0 < theta * theta + 1 := add_pos_of_nonneg_of_pos (mul_self_nonneg theta) one_pos
  have hroot := Real.mul_self_sqrt hpos.le
  have hrootPos := Real.sqrt_pos.mpr hpos
  generalize Real.sqrt (theta * theta + 1) = r at hroot hrootPos
  dsimp only
  split_ifs with hsign
  · have hden : theta + r ≠ 0 := (add_pos_of_nonneg_of_pos hsign hrootPos).ne'
    rw [abs_of_nonneg hsign]
    field_simp
    linear_combination -hroot
  · have hden : -theta + r ≠ 0 := (add_pos (neg_pos.mpr (not_le.mp hsign)) hrootPos).ne'
    rw [abs_of_neg (not_le.mp hsign)]
    field_simp
    linear_combination -hroot

theorem jacobiRotation_zeroes (app aqq : ℝ) {apq : ℝ} (hapq : apq ≠ 0) :
    let cs := jacobiRotation app aqq apq
    cs.1 * cs.2 * (app - aqq) + cs.1 * cs.1 * apq - cs.2 * cs.2 * apq = 0 := by
  have htangent := jacobiTangent_eq ((aqq - app) / (((2 : ℕ) : ℝ) * apq))
  have htheta : app - aqq = -(2 * ((aqq - app) / (((2 : ℕ) : ℝ) * apq)) * apq) := by
    push_cast
    field_simp
    ring
  simp only [jacobiRotation, abs_real, sqrt_real]
  dsimp only at htangent
  generalize (aqq - app) / (((2 : ℕ) : ℝ) * apq) = theta at htangent htheta
  generalize (if 0 ≤ theta then (1 : ℝ) else -1) / (|theta| + Real.sqrt (theta * theta + 1)) = t
    at htangent
  rw [htheta]
  linear_combination -(1 / Real.sqrt (t * t + 1)) ^ 2 * apq * htangent

/-! ### One rotation -/

theorem sum_map_filter {α : Type} (l : List α) (P : α → Bool) (f : α → ℝ) :
    ((l.filter P).map f).sum = (l.map fun x => if P x then f x else 0).sum := by
  induction l with
  | nil => rfl
  | cons x l ih =>
    by_cases hx : P x
    · simp [hx, ih]
    · simp [hx, ih]

theorem offDiagonal_eq (a : SquareMatrix ℝ n) : offDiagonal a = upperSquares (Matrix.of a) := by
  have hrow : ∀ p : Fin n, (((List.finRange n).filter (p < ·)).map fun q => a p q * a p q).sum =
      ∑ q, if p < q then a p q ^ 2 else 0 := by
    intro p
    rw [sum_map_filter, ← Fin.sum_univ_def]
    simp only [decide_eq_true_eq, sq]
  have hrows : offDiagonal a = ((List.finRange n).map fun p =>
      (((List.finRange n).filter (p < ·)).map fun q => a p q * a p q).sum).sum := by
    rw [offDiagonal, sumOver_eq_sum, pairsAbove, List.map_flatMap, List.flatMap_def, List.sum_flatten,
      List.map_map]
    simp only [Function.comp_def, List.map_map]
  rw [hrows, ← Fin.sum_univ_def]
  exact Finset.sum_congr rfl fun p _ => hrow p

theorem decimal_one_le (places : ℕ) : (decimal 1 places : ℝ) ≤ 1 := by
  rw [decimal, Int.cast_one]
  exact div_le_self zero_le_one (Nat.one_le_cast.mpr (Nat.one_le_pow places 10 (by decide)))

theorem jacobiRotate_small {state : JacobiState ℝ n} {p q : Fin n}
    (hsmall : |state.1 p q| < decimal 1 300) : jacobiRotate state (p, q) = state := by
  simp only [jacobiRotate, abs_real]
  rw [if_pos hsmall]

/-- What one rotation of a symmetric matrix does. -/
theorem jacobiRotate_progress {state : JacobiState ℝ n} {p q : Fin n}
    (hsymm : (Matrix.of state.1).IsSymm) (hpq : p ≠ q)
    (hrotated : ¬|state.1 p q| < decimal 1 300) :
    (jacobiRotate state (p, q)).1 p q = 0 ∧
      offDiagonal (jacobiRotate state (p, q)).1 =
        offDiagonal state.1 - state.1 p q * state.1 p q ∧
      sumSquares (Matrix.of (jacobiRotate state (p, q)).1) =
        sumSquares (Matrix.of state.1) := by
  obtain ⟨a, v⟩ := state
  dsimp only at hsymm hrotated ⊢
  have hapq : a p q ≠ 0 := by
    intro hzero
    rw [hzero, abs_zero] at hrotated
    exact hrotated (decimal_pos 300 one_pos)
  have hunit := jacobiRotation_unit (a p p) (a q q) (a p q)
  have hzeroes := jacobiRotation_zeroes (a p p) (a q q) hapq
  dsimp only at hzeroes
  have hconj : Matrix.of (jacobiRotate (a, v) (p, q)).1 =
      (planeRotation p q (jacobiRotation (a p p) (a q q) (a p q)).1
        (jacobiRotation (a p p) (a q q) (a p q)).2).transpose * Matrix.of a *
      planeRotation p q (jacobiRotation (a p p) (a q q) (a p q)).1
        (jacobiRotation (a p p) (a q q) (a p q)).2 := by
    simp only [jacobiRotate, abs_real]
    rw [if_neg hrotated]
    dsimp only
    rw [rotateRows_eq hpq, rotateColumns_eq hpq, Matrix.mul_assoc]
    rfl
  generalize (jacobiRotation (a p p) (a q q) (a p q)).1 = c at *
  generalize (jacobiRotation (a p p) (a q q) (a p q)).2 = s at *
  have hentry : Matrix.of (jacobiRotate (a, v) (p, q)).1 p q = 0 := by
    rw [hconj, (planeRotation_conj_apply hpq (Matrix.of a)).2.1, hsymm.apply p q]
    exact hzeroes
  refine ⟨hentry, ?_, ?_⟩
  · rw [hconj] at hentry
    rw [offDiagonal_eq, offDiagonal_eq, hconj, upperSquares_conj hpq hunit hsymm hentry, sq]
    rfl
  · rw [hconj, sumSquares_conj (planeRotation_orthogonal hpq hunit)]

/-! ### A run -/

/-- The loops have finished `sweeps` sweeps and `visited` pairs of the next one. -/
def jacobiRun {K : Type} [Cmath K] (m : SquareMatrix K n) (sweeps visited : ℕ) :
    JacobiState K n :=
  ((pairsAbove n).take visited).foldl jacobiRotate
    (jacobiSweeps sweeps (m, fun i j => if i = j then 1 else 0))

theorem jacobiEigen_eq_run (m : SquareMatrix ℝ n) :
    jacobiEigen m = (fun i => (jacobiRun m 100 0).1 i i, (jacobiRun m 100 0).2) := rfl

theorem jacobiRun_rotated (m : SquareMatrix ℝ n) (sweeps visited : ℕ) :
    Rotated m (jacobiRun m sweeps visited) := by
  have hstart : Rotated m (m, fun i j => if i = j then 1 else 0) :=
    Conjugated.refl (Matrix.of m)
  exact List.foldlRecOn _ _ (hstart.jacobiSweeps sweeps)
    fun state hstate pq hpq => hstate.jacobiRotate (List.mem_of_mem_take hpq)

theorem Rotated.isSymm {m : SquareMatrix ℝ n} (hm : (Matrix.of m).IsSymm) {state : JacobiState ℝ n}
    (h : Rotated m state) : (Matrix.of state.1).IsSymm := by
  rw [Matrix.IsSymm, h.eq, Matrix.transpose_mul, Matrix.transpose_mul, Matrix.transpose_transpose,
    hm.eq, Matrix.mul_assoc]

/-- After any number of rotations the state is a valid decomposition of the
symmetric matrix, and the next rotation makes exactly its own progress. -/
theorem jacobi_invariants (m : SquareMatrix ℝ n) (hm : (Matrix.of m).IsSymm)
    (sweeps visited : ℕ) (a v : SquareMatrix ℝ n) (hrun : jacobiRun m sweeps visited = (a, v)) :
    (Matrix.of a).IsSymm ∧ (Matrix.of v).transpose * Matrix.of v = 1 ∧
      Matrix.of a = (Matrix.of v).transpose * Matrix.of m * Matrix.of v ∧
      ∀ p q, (p, q) ∈ pairsAbove n →
        (|a p q| < decimal 1 300 → jacobiRotate (a, v) (p, q) = (a, v)) ∧
        (¬|a p q| < decimal 1 300 → ∀ a' v', jacobiRotate (a, v) (p, q) = (a', v') →
          a' p q = 0 ∧ a' q p = 0 ∧ offDiagonal a' = offDiagonal a - a p q * a p q ∧
            sumSquares (Matrix.of a') = sumSquares (Matrix.of a)) := by
  have hrotated := jacobiRun_rotated m sweeps visited
  rw [hrun] at hrotated
  have hsymm := hrotated.isSymm hm
  refine ⟨hsymm, hrotated.orthogonal, hrotated.eq, fun p q hpq =>
    ⟨fun hsmall => jacobiRotate_small hsmall, ?_⟩⟩
  intro hlarge a' v' hnext
  have hne : p ≠ q := (mem_pairsAbove.mp hpq).ne
  have hsymm' := (hrotated.jacobiRotate hpq).isSymm hm
  obtain ⟨hentry, hoff, hsquares⟩ := jacobiRotate_progress hsymm hne hlarge
  rw [hnext] at hsymm' hentry hoff hsquares
  exact ⟨hentry, (hsymm'.apply p q).trans hentry, hoff, hsquares⟩

/-- The first rotation of the matrix which exchanges two coordinates. -/
theorem jacobi_invariants_exchange : ∃ a' : SquareMatrix ℝ 2,
    a' 0 1 = 0 ∧ a' 1 0 = 0 ∧
      offDiagonal a' = offDiagonal (fun i j : Fin 2 => if i = j then (0 : ℝ) else 1) - 1 * 1 := by
  have hsymm : (Matrix.of fun i j : Fin 2 => if i = j then (0 : ℝ) else 1).IsSymm := by
    ext i j
    simp only [Matrix.transpose_apply, Matrix.of_apply, eq_comm]
  have hlarge : ¬|(1 : ℝ)| < decimal 1 300 := by
    rw [abs_one, not_lt]
    exact decimal_one_le 300
  obtain ⟨h0, h1, hoff, -⟩ := ((jacobi_invariants _ hsymm 0 0 _ _ rfl).2.2.2 0 1
    (mem_pairsAbove.mpr (by decide))).2 hlarge _ _ rfl
  exact ⟨_, h0, h1, hoff⟩

end StandardTools.Analysis
