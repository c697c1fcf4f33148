import StandardTools.Portfolio.Funds

/-!
# The covariance is never near-singular (`portfolio/optimizer.cpp:108-172`)

The ridge bounds the quadratic form of the covariance from below. A round keeps
the equations of the rows, and the rows which have not been pivots stay
untouched; so every column still has an entry far above the tolerance of the
pivot, in whatever order the rows were taken, and `matInverse` does not throw.
-/

namespace StandardTools.Portfolio
open Matrix StandardTools.Core StandardTools.Lib

variable {n : ℕ} {M : Matrix (Fin n) (Fin n) ℝ} {aug : Augmented ℝ n} {col : Fin n}

/-! ### What a round keeps -/

theorem swapRows_eq (aug : Augmented ℝ n) (a b i : Fin n) :
    swapRows aug a b i = aug (Equiv.swap a b i) := by
  rw [Equiv.swap_apply_def]
  unfold swapRows
  split_ifs <;> rfl

theorem swapRows_determines (h : Determines M aug) (a b : Fin n) :
    Determines M (swapRows aug a b) := by
  intro x y hxy
  refine h x y fun i => ?_
  have hrow := hxy (Equiv.swap a b i)
  rwa [swapRows_eq, Equiv.swap_apply_self] at hrow

theorem normalizeRow_determines (h : Determines M aug) (hpivot : aug col (.inl col) ≠ 0) :
    Determines M (normalizeRow aug col) := by
  intro x y hxy
  refine h x y fun i => ?_
  have hrow := hxy i
  unfold normalizeRow at hrow
  by_cases hi : i = col
  · rw [if_pos hi, balance_div, div_eq_zero_iff] at hrow
    rw [hi]
    exact hrow.resolve_right hpivot
  · rwa [if_neg hi] at hrow

theorem eliminate_determines (h : Determines M aug) : Determines M (eliminate aug col) := by
  intro x y hxy
  have hcol : balance (aug col) x y = 0 := by
    have hrow := hxy col
    unfold eliminate at hrow
    rwa [if_pos rfl] at hrow
  refine h x y fun i => ?_
  have hrow := hxy i
  unfold eliminate at hrow
  split_ifs at hrow
  · exact hrow
  · exact hrow
  · rwa [balance_sub_mul, hcol, mul_zero, sub_zero] at hrow

theorem swapRows_untouched {a b i : Fin n} (h : Untouched aug (Equiv.swap a b i)) :
    Untouched (swapRows aug a b) i := by
  obtain ⟨r, hr⟩ := h
  refine ⟨r, fun i' => ?_⟩
  rw [swapRows_eq, hr]
  simp only [EmbeddingLike.apply_eq_iff_eq]

theorem normalizeRow_untouched {i : Fin n} (h : Untouched aug i) (hi : i ≠ col) :
    Untouched (normalizeRow aug col) i := by
  obtain ⟨r, hr⟩ := h
  refine ⟨r, fun i' => ?_⟩
  unfold normalizeRow
  by_cases hi' : i' = col
  · rw [if_pos hi', hr, if_neg hi.symm, zero_div, hi', if_neg hi.symm]
  · rw [if_neg hi']
    exact hr i'

theorem eliminate_untouched {i : Fin n} (h : Untouched aug i) (hi : i ≠ col) :
    Untouched (eliminate aug col) i := by
  obtain ⟨r, hr⟩ := h
  have hcol : aug col (.inr r) = 0 := (hr col).trans (if_neg hi.symm)
  refine ⟨r, fun i' => ?_⟩
  rw [← hr i']
  unfold eliminate
  by_cases hi' : i' = col
  · rw [if_pos hi']
  · rw [if_neg hi']
    by_cases hzero : (aug i' (.inl col) == 0) = true
    · rw [if_pos hzero]
    · rw [if_neg hzero, hcol, mul_zero, sub_zero]

/-- The equations of `M` beside the rows which are to come. -/
structure Pending (M : Matrix (Fin n) (Fin n) ℝ) (k : ℕ) (aug : Augmented ℝ n) : Prop where
  reduced : Reduced M k aug
  determines : Determines M aug
  untouched : ∀ i : Fin n, k ≤ i.val → Untouched aug i

theorem inverseStep_pending {aug' : Augmented ℝ n} (h : Pending M col.val aug)
    (hstep : inverseStep aug col = .ok aug') : Pending M (col.val + 1) aug' := by
  have hreduced := inverseStep_reduced h.reduced hstep
  obtain ⟨hle, -⟩ := pivotSearch_spec aug col
  obtain ⟨hpivot, rfl⟩ := inverseStep_eq_ok.mp hstep
  have hentry := swapRows_pivot hpivot
  generalize (pivotSearch aug col).1 = best at *
  refine ⟨hreduced, eliminate_determines
    (normalizeRow_determines (swapRows_determines h.determines col best) hentry), ?_⟩
  intro i hi
  have hne : i ≠ col := fun heq => by omega
  refine eliminate_untouched (normalizeRow_untouched (swapRows_untouched ?_) hne) hne
  -- the rows which change places are both still to come
  apply h.untouched
  rw [Equiv.swap_apply_def, if_neg hne]
  split_ifs <;> omega

/-! ### The pivots -/

theorem pivotSearch_max (aug : Augmented ℝ n) (col : Fin n) {row : Fin n} (hrow : col ≤ row) :
    |aug row (.inl col)| ≤ (pivotSearch aug col).2 := by
  have hfold : ∀ (rows : List (Fin n)) (best : Fin n × ℝ),
      let final := rows.foldl (fun best row =>
        let v := Double.abs (aug row (.inl col))
        if best.2 < v then (row, v) else best) best
      best.2 ≤ final.2 ∧ ∀ row ∈ rows, |aug row (.inl col)| ≤ final.2 := by
    intro rows
    induction rows with
    | nil => exact fun best => ⟨le_refl _, fun row hmem => absurd hmem List.not_mem_nil⟩
    | cons row rows ih =>
      intro best
      obtain ⟨hbest, hrows⟩ := ih (if best.2 < |aug row (.inl col)| then
        (row, |aug row (.inl col)|) else best)
      have hstep : best.2 ≤ (if best.2 < |aug row (.inl col)| then
            (row, |aug row (.inl col)|) else best).2 ∧
          |aug row (.inl col)| ≤ (if best.2 < |aug row (.inl col)| then
            (row, |aug row (.inl col)|) else best).2 := by
        split_ifs with hlt
        · exact ⟨hlt.le, le_refl _⟩
        · exact ⟨le_refl _, not_lt.mp hlt⟩
      refine ⟨hstep.1.trans hbest, fun r hr => ?_⟩
      rcases List.mem_cons.mp hr with rfl | hr
      · exact hstep.2.trans hbest
      · exact hrows r hr
  obtain ⟨hfirst, hrest⟩ := hfold ((List.finRange n).filter (col < ·))
    (col, |aug col (.inl col)|)
  rcases hrow.lt_or_eq with hlt | heq
  · exact hrest row (List.mem_filter.mpr ⟨List.mem_finRange row, decide_eq_true hlt⟩)
  · rw [← heq]
    exact hfirst

theorem pivotSearch_large (h : Pending M col.val aug) {c : ℝ} (hc : 0 < c)
    (hM : ∀ x, c * (x ⬝ᵥ x) ≤ x ⬝ᵥ M *ᵥ x) : c ^ 2 ≤ n * (pivotSearch aug col).2 ^ 2 := by
  have hpivots : ∀ i ∉ Finset.Iio col, |aug i (.inl col)| ≤ (pivotSearch aug col).2 :=
    fun i hi => pivotSearch_max aug col (not_lt.mp (mt Finset.mem_Iio.mpr hi))
  have hdone : ∀ i : Fin n, i ∉ Finset.Iio col → col.val ≤ i.val :=
    fun i hi => Fin.le_def.mp (not_lt.mp (mt Finset.mem_Iio.mpr hi))
  have hcol : col ∉ Finset.Iio col := mt Finset.mem_Iio.mp (lt_irrefl col)
  have hbound := sq_le_of_pivots_le hcol h.determines
    (fun j hj => h.reduced.2 j (Fin.lt_def.mp (Finset.mem_Iio.mp hj)))
    (fun i hi => h.untouched i (hdone i hi)) hc hM hpivots
  rwa [Fintype.card_fin] at hbound

/-! ### Inversion -/

/-- What keeps every pivot above the tolerance: a bound `c` on the quadratic form
which even `n` entries at the tolerance do not reach. -/
structure WellConditioned (m : SquareMatrix ℝ n) (c : ℝ) : Prop where
  pos : 0 < c
  bound : ∀ x, c * (x ⬝ᵥ x) ≤ x ⬝ᵥ Matrix.of m *ᵥ x
  size : (n : ℝ) * inversePivotEps ^ 2 < c ^ 2

variable {m : SquareMatrix ℝ n} {c : ℝ}

theorem WellConditioned.pivot (hm : WellConditioned m c)
    (h : Pending (Matrix.of m) col.val aug) : inversePivotEps ≤ (pivotSearch aug col).2 := by
  by_contra hsmall
  have hnonneg : 0 ≤ (pivotSearch aug col).2 :=
    (abs_nonneg _).trans (pivotSearch_max aug col (le_refl col))
  have hsq : (pivotSearch aug col).2 ^ 2 ≤ inversePivotEps ^ 2 :=
    pow_le_pow_left₀ hnonneg (not_le.mp hsmall).le 2
  have hlarge := pivotSearch_large h hm.pos hm.bound
  exact absurd (hlarge.trans (mul_le_mul_of_nonneg_left hsq (Nat.cast_nonneg n)))
    (not_le.mpr hm.size)

theorem augment_pending (m : SquareMatrix ℝ n) : Pending (Matrix.of m) 0 (augment m) := by
  refine ⟨⟨tracks_identity (fun _ _ => rfl) (fun _ _ => rfl),
    fun j hj => absurd hj (Nat.not_lt_zero _)⟩,
    determines_identity (fun _ _ => rfl) (fun _ _ => rfl), fun i _ => ⟨i, fun i' => ?_⟩⟩
  rw [augment]
  simp only [eq_comm]

/-- Every number of rounds is reached. -/
theorem WellConditioned.rounds (hm : WellConditioned m c) {k : ℕ} (hk : k ≤ n) :
    ∃ aug, ((List.finRange n).take k).foldlM inverseStep (augment m) = .ok aug ∧
      Pending (Matrix.of m) k aug := by
  refine foldlM_take (fun i hi a ha => ?_) (augment_pending m) (by rw [List.length_finRange]; exact hk)
  have hcol : (List.finRange n)[i].val = i := by simp
  generalize (List.finRange n)[i] = col at hcol
  subst hcol
  have hstep := inverseStep_eq_ok.mpr ⟨hm.pivot ha, rfl⟩
  exact ⟨_, hstep, inverseStep_pending ha hstep⟩

theorem WellConditioned.matInverse (hm : WellConditioned m c) (hn : n ≠ 0) :
    ∃ inv, matInverse m = .ok inv := by
  obtain ⟨aug, haug, -⟩ := hm.rounds (le_refl n)
  rw [List.take_of_length_le (List.length_finRange).le] at haug
  unfold Portfolio.matInverse
  rw [if_neg hn]
  exact ⟨_, bind_eq_ok.mpr ⟨aug, haug, rfl⟩⟩

theorem pivots_small (hn : n ≤ maxAssets) :
    (n : ℝ) * inversePivotEps ^ 2 < (covRidge : ℝ) ^ 2 := by
  calc (n : ℝ) * inversePivotEps ^ 2
      ≤ maxAssets * inversePivotEps ^ 2 :=
        mul_le_mul_of_nonneg_right (Nat.cast_le.mpr hn) (sq_nonneg _)
    _ < covRidge ^ 2 := by norm_num [maxAssets, inversePivotEps, covRidge]

theorem ReturnMatrix.covariance_bound (m : ReturnMatrix ℝ) (x : Fin m.assets → ℝ) :
    covRidge * (x ⬝ᵥ x) ≤ x ⬝ᵥ Matrix.of m.covariance *ᵥ x := by
  have hsample := m.sampleCovariance_posSemidef.dotProduct_mulVec_nonneg x
  rw [star_trivial] at hsample
  rw [m.covariance_eq, add_mulVec, smul_mulVec, one_mulVec, dotProduct_add, dotProduct_smul,
    smul_eq_mul]
  exact le_add_of_nonneg_left hsample

theorem ReturnMatrix.covariance_wellConditioned (m : ReturnMatrix ℝ) :
    WellConditioned m.covariance covRidge :=
  ⟨ReturnMatrix.covRidge_pos, m.covariance_bound, pivots_small m.assets_le⟩

/-- The error `matrix is singular or near-singular` cannot be reached. -/
theorem matInverse_covariance (m : ReturnMatrix ℝ) : ∃ inv, matInverse m.covariance = .ok inv :=
  m.covariance_wellConditioned.matInverse m.assets_pos.ne'

/-! ### Diagonal matrices -/

theorem of_diagonal (d : Fin n → ℝ) :
    Matrix.of (fun i j => if i = j then d i else 0) = Matrix.diagonal d := rfl

theorem matInverse_diagonal_eq {d : Fin n → ℝ} (hn : n ≠ 0) (hmax : n ≤ maxAssets)
    (hd : ∀ i, covRidge ≤ d i) :
    matInverse (fun i j => if i = j then d i else 0) =
      .ok fun i j => if i = j then 1 / d i else 0 := by
  have hpos : ∀ i, 0 < d i := fun i => ReturnMatrix.covRidge_pos.trans_le (hd i)
  have hbound : ∀ x, covRidge * (x ⬝ᵥ x) ≤
      x ⬝ᵥ Matrix.of (fun i j => if i = j then d i else 0) *ᵥ x := by
    intro x
    simp only [of_diagonal, dotProduct, mulVec_diagonal, Finset.mul_sum]
    refine Finset.sum_le_sum fun i _ => ?_
    rw [mul_left_comm (x i)]
    exact mul_le_mul_of_nonneg_right (hd i) (mul_self_nonneg (x i))
  have hconditioned : WellConditioned (fun i j => if i = j then d i else 0) covRidge :=
    ⟨ReturnMatrix.covRidge_pos, hbound, pivots_small hmax⟩
  obtain ⟨inv, hinv⟩ := hconditioned.matInverse hn
  have hright : Matrix.diagonal d * Matrix.diagonal (fun i => 1 / d i) = 1 := by
    rw [diagonal_mul_diagonal, ← diagonal_one]
    congr 1
    funext i
    exact mul_one_div_cancel (hpos i).ne'
  rw [hinv]
  exact congrArg Except.ok (Matrix.of.injective
    (left_inv_eq_right_inv (matInverse_mul hinv) hright))

theorem matInverse_diagonal {d : Fin n → ℝ} (hn : n ≠ 0) (hmax : n ≤ maxAssets)
    (hd : ∀ i, covRidge ≤ d i) :
    ∃ inv, matInverse (fun i j => if i = j then d i else 0) = .ok inv ∧
      ∀ x i, vecDotMat inv x i = x i / d i := by
  refine ⟨_, matInverse_diagonal_eq hn hmax hd, fun x i => ?_⟩
  rw [vecDotMat_eq, of_diagonal, mulVec_diagonal, one_div_mul_eq_div]

end StandardTools.Portfolio
