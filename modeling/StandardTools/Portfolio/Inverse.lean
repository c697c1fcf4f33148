import Mathlib.Tactic.Linarith
import StandardTools.Lib.Except
import StandardTools.Lib.GaussJordan
import StandardTools.Lib.StdAlgorithm
import StandardTools.Portfolio.Matrices

/-!
# The loops in exact arithmetic

The running sums are sums, and `matInverse` returns the inverse: a round of the
elimination swaps, scales and subtracts rows, it turns its column into a unit
column, and it leaves the columns before it alone.
-/

namespace StandardTools.Portfolio
open StandardTools.Core StandardTools.Lib

variable {n : ℕ}

/-! ### Sums -/

theorem sumLoop_eq (f : Fin n → ℝ) : sumLoop f = ∑ i, f i := by
  have h := foldl_add_eq (List.finRange n) f 0
  rw [zero_add, ← Fin.sum_univ_def] at h
  exact h

theorem vecDot_eq (a b : Fin n → ℝ) : vecDot a b = a ⬝ᵥ b := sumLoop_eq _

theorem vecDotMat_eq (a : SquareMatrix ℝ n) (x : Fin n → ℝ) :
    vecDotMat a x = (Matrix.of a).mulVec x :=
  funext fun _ => sumLoop_eq _

theorem quadraticForm_eq (x : Fin n → ℝ) (a : SquareMatrix ℝ n) :
    quadraticForm x a = x ⬝ᵥ (Matrix.of a).mulVec x := by
  have hinner : ∀ (result : ℝ) (i : Fin n),
      (List.finRange n).foldl (fun result j => result + x i * a i j * x j) result =
        result + x i * (Matrix.of a).mulVec x i := by
    intro result i
    rw [foldl_add_eq, ← Fin.sum_univ_def, Matrix.mulVec, dotProduct, Finset.mul_sum]
    simp only [mul_assoc, Matrix.of_apply]
  have houter := foldl_add_eq (List.finRange n) (fun i => x i * (Matrix.of a).mulVec x i) 0
  rw [zero_add, ← Fin.sum_univ_def] at houter
  unfold quadraticForm
  simp only [hinner]
  exact houter

/-! ### One round of the elimination -/

variable {M : Matrix (Fin n) (Fin n) ℝ} {aug : Augmented ℝ n} {col : Fin n}

theorem pivotSearch_spec (aug : Augmented ℝ n) (col : Fin n) :
    col ≤ (pivotSearch aug col).1 ∧
      (pivotSearch aug col).2 = |aug (pivotSearch aug col).1 (.inl col)| := by
  have hfold : ∀ (rows : List (Fin n)) (best : Fin n × ℝ), (∀ row ∈ rows, col < row) →
      col ≤ best.1 ∧ best.2 = |aug best.1 (.inl col)| →
      let final := rows.foldl (fun best row =>
        let v := Double.abs (aug row (.inl col))
        if best.2 < v then (row, v) else best) best
      col ≤ final.1 ∧ final.2 = |aug final.1 (.inl col)| := by
    intro rows
    induction rows with
    | nil => exact fun best _ hbest => hbest
    | cons row rows ih =>
      intro best hrows hbest
      refine ih _ (fun r hr => hrows r (List.mem_cons_of_mem _ hr)) ?_
      simp only [abs_real]
      split_ifs with hlt
      · exact ⟨(hrows row List.mem_cons_self).le, rfl⟩
      · exact hbest
  refine hfold _ _ ?_ ⟨le_refl _, rfl⟩
  intro row hrow
  exact of_decide_eq_true (List.mem_filter.mp hrow).2

theorem swapRows_tracks (h : ∀ i, Tracks M (aug i)) (a b : Fin n) (i : Fin n) :
    Tracks M (swapRows aug a b i) := by
  unfold swapRows
  split_ifs
  · exact h b
  · exact h a
  · exact h i

theorem swapRows_unitColumn {j a b : Fin n} (h : UnitColumn aug j) (ha : a ≠ j) (hb : b ≠ j) :
    UnitColumn (swapRows aug a b) j := by
  intro i
  unfold swapRows
  split_ifs with hia hij hib hij hij
  · exact absurd (hia.symm.trans hij) ha
  · rw [h b, if_neg hb]
  · exact absurd (hib.symm.trans hij) hb
  · rw [h a, if_neg ha]
  · rw [h i, if_pos hij]
  · rw [h i, if_neg hij]

theorem normalizeRow_tracks (h : ∀ i, Tracks M (aug i)) (i : Fin n) :
    Tracks M (normalizeRow aug col i) := by
  unfold normalizeRow
  split_ifs
  · exact (h col).div _
  · exact h i

theorem normalizeRow_unitColumn {j : Fin n} (h : UnitColumn aug j) (hj : col ≠ j) :
    UnitColumn (normalizeRow aug col) j := by
  intro i
  unfold normalizeRow
  by_cases hi : i = col
  · have hij : i ≠ j := fun heq => hj (hi.symm.trans heq)
    rw [if_pos hi, if_neg hij, h col, if_neg hj, zero_div]
  · rw [if_neg hi]
    exact h i

theorem eliminate_tracks (h : ∀ i, Tracks M (aug i)) (i : Fin n) :
    Tracks M (eliminate aug col i) := by
  unfold eliminate
  split_ifs
  · exact h i
  · exact h i
  · exact (h i).sub_mul (h col) _

theorem eliminate_unitColumn {j : Fin n} (h : UnitColumn aug j) (hj : col ≠ j) :
    UnitColumn (eliminate aug col) j := by
  have hpivot : aug col (.inl j) = 0 := (h col).trans (if_neg hj)
  intro i
  unfold eliminate
  by_cases hi : i = col
  · rw [if_pos hi]
    exact h i
  · rw [if_neg hi]
    by_cases hzero : (aug i (.inl col) == 0) = true
    · rw [if_pos hzero]
      exact h i
    · rw [if_neg hzero, hpivot, mul_zero, sub_zero]
      exact h i

/-- The pivot row has been scaled, so subtracting it clears the column. -/
theorem eliminate_unitColumn_self (h : aug col (.inl col) = 1) :
    UnitColumn (eliminate aug col) col := by
  intro i
  unfold eliminate
  by_cases hi : i = col
  · rw [if_pos hi, if_pos hi, hi, h]
  · rw [if_neg hi, if_neg hi]
    by_cases hzero : aug i (.inl col) = 0
    · have hbeq : (aug i (.inl col) == 0) = true := beq_iff_eq.mpr hzero
      rw [if_pos hbeq, hzero]
    · have hbeq : ¬(aug i (.inl col) == 0) = true := fun hb => hzero (beq_iff_eq.mp hb)
      rw [if_neg hbeq, h]
      ring

theorem inversePivotEps_le_one : (inversePivotEps : ℝ) ≤ 1 := by
  rw [inversePivotEps]
  exact div_le_self zero_le_one (Nat.one_le_cast.mpr (by norm_num))

theorem inversePivotEps_pos : 0 < (inversePivotEps : ℝ) := by
  unfold inversePivotEps
  positivity

/-- After the rounds up to `k` the first `k` columns are unit columns. -/
def Reduced (M : Matrix (Fin n) (Fin n) ℝ) (k : ℕ) (aug : Augmented ℝ n) : Prop :=
  (∀ i, Tracks M (aug i)) ∧ ∀ j : Fin n, j.val < k → UnitColumn aug j

theorem swapRows_self (aug : Augmented ℝ n) (a : Fin n) : swapRows aug a a = aug := by
  funext i
  unfold swapRows
  split_ifs with hi
  · rw [hi]
  · rfl

/-- A round goes on where the pivot is not negligible; swapping a row with itself
is the case in which the source does not swap. -/
theorem inverseStep_eq_ok {aug' : Augmented ℝ n} :
    inverseStep aug col = .ok aug' ↔ inversePivotEps ≤ (pivotSearch aug col).2 ∧
      eliminate (normalizeRow (swapRows aug col (pivotSearch aug col).1) col) col = aug' := by
  have hswap : (if (pivotSearch aug col).1 ≠ col then swapRows aug col (pivotSearch aug col).1
      else aug) = swapRows aug col (pivotSearch aug col).1 := by
    by_cases hpivot : (pivotSearch aug col).1 = col
    · rw [if_neg (not_not_intro hpivot), hpivot, swapRows_self]
    · rw [if_pos hpivot]
  unfold inverseStep
  simp only [hswap]
  split_ifs with hsmall
  · simp [hsmall]
  · simp [not_lt.mp hsmall]

theorem swapRows_pivot (hpivot : inversePivotEps ≤ (pivotSearch aug col).2) :
    swapRows aug col (pivotSearch aug col).1 col (.inl col) ≠ 0 := by
  obtain ⟨-, hvalue⟩ := pivotSearch_spec aug col
  intro hzero
  unfold swapRows at hzero
  rw [if_pos rfl] at hzero
  rw [hvalue, hzero, abs_zero] at hpivot
  exact absurd inversePivotEps_pos (not_lt.mpr hpivot)

theorem inverseStep_reduced {aug' : Augmented ℝ n} (h : Reduced M col.val aug)
    (hstep : inverseStep aug col = .ok aug') : Reduced M (col.val + 1) aug' := by
  obtain ⟨htracks, hunit⟩ := h
  obtain ⟨hle, -⟩ := pivotSearch_spec aug col
  obtain ⟨hpivot, rfl⟩ := inverseStep_eq_ok.mp hstep
  have hentry := swapRows_pivot hpivot
  generalize (pivotSearch aug col).1 = best at *
  refine ⟨eliminate_tracks (normalizeRow_tracks (swapRows_tracks htracks col best)), ?_⟩
  intro j hj
  by_cases hjcol : col = j
  · subst hjcol
    apply eliminate_unitColumn_self
    unfold normalizeRow
    rw [if_pos rfl]
    exact div_self hentry
  · have hlt : j.val < col.val := by omega
    have hbest : best ≠ j := fun heq => by omega
    exact eliminate_unitColumn
      (normalizeRow_unitColumn (swapRows_unitColumn (hunit j hlt) hjcol hbest) hjcol) hjcol

theorem matInverse_mul {m inv : SquareMatrix ℝ n} (h : matInverse m = .ok inv) :
    Matrix.of inv * Matrix.of m = 1 := by
  unfold matInverse at h
  by_cases hn : n = 0
  · rw [if_pos hn] at h
    cases h
  rw [if_neg hn] at h
  obtain ⟨aug, hrun, h⟩ := bind_eq_ok.mp h
  cases h
  have hstart : Reduced (Matrix.of m) 0 (augment m) :=
    ⟨tracks_identity (fun _ _ => rfl) (fun _ _ => rfl), fun j hj => absurd hj (Nat.not_lt_zero _)⟩
  have hround : ∀ i (hi : i < (List.finRange n).length) (a b : Augmented ℝ n),
      Reduced (Matrix.of m) i a → inverseStep a (List.finRange n)[i] = .ok b →
        Reduced (Matrix.of m) (i + 1) b := by
    intro i hi a b ha hb
    have hcol : (List.finRange n)[i].val = i := by simp
    have hstep := inverseStep_reduced (hcol.symm ▸ ha) hb
    rw [hcol] at hstep
    exact hstep
  have hend := foldlM_invariant hround hrun hstart
  rw [List.length_finRange] at hend
  exact right_mul_eq_one hend.1 (fun j => hend.2 j j.isLt)

theorem inverseStep_error {e : Error} (h : inverseStep aug col = .error e) :
    e = .internal "matrix is singular or near-singular" := by
  unfold inverseStep at h
  simp only at h
  split_ifs at h
  all_goals exact (Except.error.inj h).symm

theorem matInverse_error {m : SquareMatrix ℝ n} (hn : n ≠ 0) {e : Error}
    (h : matInverse m = .error e) : e = .internal "matrix is singular or near-singular" := by
  unfold matInverse at h
  rw [if_neg hn] at h
  rcases bind_eq_error.mp h with hrun | ⟨aug, -, h⟩
  · obtain ⟨aug, col, -, hstep⟩ := foldlM_error hrun
    exact inverseStep_error hstep
  · cases h

/-- What `MatInverse` returns is the inverse on both sides, and it throws on every
matrix which has none. -/
theorem matInverse_inverts (m : SquareMatrix ℝ n) :
    (∀ inv, matInverse m = .ok inv →
      Matrix.of m * Matrix.of inv = 1 ∧ Matrix.of inv * Matrix.of m = 1) ∧
    ((Matrix.of m).det = 0 →
      matInverse m = .error (.internal "matrix is singular or near-singular")) := by
  constructor
  · intro inv h
    have hleft := matInverse_mul h
    exact ⟨mul_eq_one_comm.mp hleft, hleft⟩
  · intro hdet
    have hn : n ≠ 0 := by
      rintro rfl
      rw [Matrix.det_fin_zero] at hdet
      exact one_ne_zero hdet
    cases h : matInverse m with
    | error e => rw [matInverse_error hn h]
    | ok inv =>
      have hprod := congrArg Matrix.det (matInverse_mul h)
      rw [Matrix.det_mul, hdet, mul_zero, Matrix.det_one] at hprod
      exact absurd hprod zero_ne_one

/-- The first pivot stands in the second row, and behind the swap an entry is cleared. -/
theorem matInverse_inverts_swapped :
    (∃ inv, matInverse ![![1, 1], ![2, (1 : ℝ)]] = .ok inv ∧
      Matrix.of ![![1, 1], ![2, (1 : ℝ)]] * Matrix.of inv = 1) ∧
    matInverse ![![1, 1], ![1, (1 : ℝ)]] =
      .error (.internal "matrix is singular or near-singular") := by
  obtain ⟨inv, hinv⟩ : ∃ inv, matInverse ![![1, 1], ![2, (1 : ℝ)]] = .ok inv := by
    have hfirst : pivotSearch (augment ![![1, 1], ![2, (1 : ℝ)]]) 0 = (1, 2) := by
      have hrows : (List.finRange 2).filter ((0 : Fin 2) < ·) = [1] := by decide
      unfold pivotSearch
      rw [hrows]
      norm_num [augment]
    have hsecond : (pivotSearch (eliminate (normalizeRow (swapRows
        (augment ![![1, 1], ![2, (1 : ℝ)]]) 0 1) 0) 0) 1).2 = 1 / 2 := by
      have hrows : (List.finRange 2).filter ((1 : Fin 2) < ·) = [] := by decide
      unfold pivotSearch
      rw [hrows]
      norm_num [eliminate, normalizeRow, swapRows, augment, abs_of_pos]
    have hstep : inverseStep (augment ![![1, 1], ![2, (1 : ℝ)]]) 0 =
        .ok (eliminate (normalizeRow (swapRows (augment ![![1, 1], ![2, (1 : ℝ)]]) 0 1) 0) 0) :=
      inverseStep_eq_ok.mpr ⟨by rw [hfirst]; linarith [inversePivotEps_le_one], by rw [hfirst]⟩
    have hpivot : (inversePivotEps : ℝ) ≤ 1 / 2 := by
      unfold inversePivotEps
      norm_num
    exact ⟨_, bind_eq_ok.mpr ⟨_, bind_eq_ok.mpr ⟨_, hstep, bind_eq_ok.mpr ⟨_,
      inverseStep_eq_ok.mpr ⟨hsecond ▸ hpivot, rfl⟩, rfl⟩⟩, rfl⟩⟩
  exact ⟨⟨inv, hinv, ((matInverse_inverts _).1 inv hinv).1⟩,
    (matInverse_inverts _).2 (by simp [Matrix.det_fin_two])⟩

end StandardTools.Portfolio
