import Mathlib.Algebra.BigOperators.Field
import Mathlib.Algebra.BigOperators.Ring.List
import StandardTools.Analysis.Observations
import StandardTools.Lib.Except
import StandardTools.Lib.PlaneRotation

/-!
# Principal components (`analysis/calculator.cpp:206-267`, `476-588`)

Whatever the sweeps have reached when they stop, the eigenvectors are
orthonormal and the rotated matrix is the covariance matrix seen in them. Its
diagonal therefore holds the sample variances of the factors, and its trace is
the sum of the sample variances of the series.
-/

namespace StandardTools.Analysis
open StandardTools.Core Lib Finset

/-! ### Jacobi's method -/

section Jacobi
variable {n : ℕ} {p q : Fin n}

theorem rotateColumns_eq (hpq : p ≠ q) (m : SquareMatrix ℝ n) (c s : ℝ) :
    rotateColumns m p q c s = Matrix.of m * planeRotation p q c s := by
  funext k j
  exact (mul_planeRotation hpq (Matrix.of m) k j).symm

theorem rotateRows_eq (hpq : p ≠ q) (m : SquareMatrix ℝ n) (c s : ℝ) :
    rotateRows m p q c s = (planeRotation p q c s).transpose * Matrix.of m := by
  funext j k
  exact (planeRotation_transpose_mul_apply hpq (Matrix.of m) j k).symm

/-- The two numbers are the cosine and the sine of an angle. -/
theorem jacobiRotation_unit (app aqq apq : ℝ) :
    (jacobiRotation app aqq apq).1 * (jacobiRotation app aqq apq).1 +
      (jacobiRotation app aqq apq).2 * (jacobiRotation app aqq apq).2 = 1 := by
  have hunit (t : ℝ) : 1 / Real.sqrt (t * t + 1) * (1 / Real.sqrt (t * t + 1)) +
      t * (1 / Real.sqrt (t * t + 1)) * (t * (1 / Real.sqrt (t * t + 1))) = 1 := by
    have hpos : 0 < t * t + 1 := add_pos_of_nonneg_of_pos (mul_self_nonneg t) one_pos
    have hroot := Real.mul_self_sqrt hpos.le
    have hne : Real.sqrt (t * t + 1) ≠ 0 := (Real.sqrt_pos.mpr hpos).ne'
    generalize Real.sqrt (t * t + 1) = r at hroot hne
    field_simp
    linear_combination -hroot
  exact hunit _

/-- A matrix and its eigenvectors along the method. -/
abbrev Rotated (m : SquareMatrix ℝ n) (state : JacobiState ℝ n) : Prop :=
  Conjugated (Matrix.of m) (Matrix.of state.1) (Matrix.of state.2)

theorem Rotated.jacobiRotate {m : SquareMatrix ℝ n} {state : JacobiState ℝ n}
    {pq : Fin n × Fin n} (h : Rotated m state) (hpq : pq ∈ pairsAbove n) :
    Rotated m (jacobiRotate state pq) := by
  obtain ⟨p, q⟩ := pq
  have hne : p ≠ q := (mem_pairsAbove.mp hpq).ne
  unfold Analysis.jacobiRotate
  dsimp only
  split_ifs with hsmall
  · exact h
  · have hrotation := planeRotation_orthogonal hne
      (jacobiRotation_unit (state.1 p p) (state.1 q q) (state.1 p q))
    rw [Rotated, rotateRows_eq hne, rotateColumns_eq hne, rotateColumns_eq hne]
    have hmul := h.mul hrotation
    rwa [Matrix.mul_assoc] at hmul

theorem Rotated.jacobiSweeps {m : SquareMatrix ℝ n} {state : JacobiState ℝ n}
    (h : Rotated m state) (sweeps : ℕ) : Rotated m (jacobiSweeps sweeps state) := by
  induction sweeps generalizing state with
  | zero => exact h
  | succ sweeps ih =>
    unfold Analysis.jacobiSweeps
    split_ifs with hoff
    · exact h
    · refine ih ?_
      exact List.foldlRecOn _ _ h fun state hstate pq hpq => hstate.jacobiRotate hpq

theorem jacobiEigen_rotated (m : SquareMatrix ℝ n) :
    ∃ a, Rotated m (a, (jacobiEigen m).2) ∧ ∀ i, (jacobiEigen m).1 i = a i i := by
  have hstart : Rotated m (m, fun i j => if i = j then 1 else 0) :=
    Conjugated.refl (Matrix.of m)
  exact ⟨_, hstart.jacobiSweeps 100, fun _ => rfl⟩

theorem eigenvectors_orthonormal (m : SquareMatrix ℝ n) (i j : Fin n) :
    ∑ k, (jacobiEigen m).2 k i * (jacobiEigen m).2 k j = if i = j then 1 else 0 := by
  obtain ⟨a, ha, -⟩ := jacobiEigen_rotated m
  exact ha.sum_mul i j

theorem eigenvalue_eq (m : SquareMatrix ℝ n) (idx : Fin n) : (jacobiEigen m).1 idx =
    ∑ i, ∑ j, (jacobiEigen m).2 i idx * (jacobiEigen m).2 j idx * m i j := by
  obtain ⟨a, ha, hdiag⟩ := jacobiEigen_rotated m
  exact (hdiag idx).trans (ha.diag_eq idx)

theorem sum_eigenvalues (m : SquareMatrix ℝ n) : ∑ i, (jacobiEigen m).1 i = ∑ i, m i i := by
  obtain ⟨a, ha, hdiag⟩ := jacobiEigen_rotated m
  simp only [hdiag]
  exact ha.trace_eq

end Jacobi

/-! ### Sample variances -/

/-- The sample variance of a series. -/
noncomputable def sampleVariance (series : List ℝ) : ℝ :=
  (series.map fun x => (x - mean series) ^ 2).sum / ((series.length : ℝ) - 1)

theorem sampleVariance_eq {series : List ℝ} {nObs : ℕ} (h : series.length = nObs) :
    sampleVariance series =
      scatter (observed series nObs) (observed series nObs) / ((nObs : ℝ) - 1) := by
  have hmean := mean_observed h
  subst h
  have hterm (t : Fin series.length) : (series[t] - mean series) ^ 2 =
      deviation (observed series series.length) t *
        deviation (observed series series.length) t := by
    rw [hmean, deviation_apply, sq]
    simp [observed]
  rw [sampleVariance, ← sumOver_eq_sum, sumOver_eq, scatter]
  simp only [hterm]

section Components
variable {n nObs : ℕ} (x : Fin n → Fin nObs → ℝ)

theorem sampleVariance_ofFn (f : Fin nObs → ℝ) :
    sampleVariance (List.ofFn f) = scatter f f / ((nObs : ℝ) - 1) := by
  have hobserved : observed (List.ofFn f) nObs = f := by
    funext t
    simp [observed]
  rw [sampleVariance_eq (List.length_ofFn), hobserved]

theorem sampleCovariance_deviation : sampleCovariance (fun i => deviation (x i)) =
    fun i j => scatter (x i) (x j) / ((nObs : ℝ) - 1) := by
  unfold sampleCovariance
  simp only [sumOver_finRange, mul_one_div]
  exact mirrored_eq fun i j => by
    rw [← scatter, ← scatter, scatter_comm]

theorem factorReturn_deviation (w : Fin n → ℝ) :
    factorReturn (fun i => deviation (x i)) w = fun t => ∑ i, w i * deviation (x i) t := by
  funext t
  exact sumOver_finRange _

/-- The sign of a loading changes neither its length nor its right angles. -/
theorem signedLoading_cases (v : SquareMatrix ℝ n) (idx : Fin n) :
    ∃ e : ℝ, e * e = 1 ∧ ∀ i, signedLoading v idx i = e * v i idx := by
  unfold signedLoading
  dsimp only
  split_ifs with hneg
  · exact ⟨-1, by ring, fun i => (neg_one_mul _).symm⟩
  · exact ⟨1, one_mul 1, fun i => (one_mul _).symm⟩

theorem signedLoading_orthonormal (m : SquareMatrix ℝ n) (a b : Fin n) :
    ∑ i, signedLoading (jacobiEigen m).2 a i * signedLoading (jacobiEigen m).2 b i =
      if a = b then 1 else 0 := by
  choose e he hsigned using signedLoading_cases (jacobiEigen m).2
  have hterm (i : Fin n) : signedLoading (jacobiEigen m).2 a i *
      signedLoading (jacobiEigen m).2 b i =
      e a * e b * ((jacobiEigen m).2 i a * (jacobiEigen m).2 i b) := by
    rw [hsigned, hsigned]
    ring
  simp only [hterm, ← mul_sum, eigenvectors_orthonormal]
  split_ifs with hab
  · rw [← hab, he, one_mul]
  · rw [mul_zero]

theorem eigenvalue_signedLoading (m : SquareMatrix ℝ n) (idx : Fin n) : (jacobiEigen m).1 idx =
    ∑ i, ∑ j, signedLoading (jacobiEigen m).2 idx i * signedLoading (jacobiEigen m).2 idx j *
      m i j := by
  obtain ⟨e, he, hsigned⟩ := signedLoading_cases (jacobiEigen m).2 idx
  rw [eigenvalue_eq]
  refine sum_congr rfl fun i _ => sum_congr rfl fun j _ => ?_
  rw [hsigned, hsigned]
  linear_combination -((jacobiEigen m).2 i idx * (jacobiEigen m).2 j idx * m i j) * he

/-- The diagonal entry is the sample variance of the factor. -/
theorem eigenvalue_variance (idx : Fin n) :
    (jacobiEigen (sampleCovariance fun i => deviation (x i))).1 idx =
      sampleVariance (List.ofFn (factorReturn (fun i => deviation (x i))
        (signedLoading (jacobiEigen (sampleCovariance fun i => deviation (x i))).2 idx))) := by
  rw [eigenvalue_signedLoading, sampleVariance_ofFn, factorReturn_deviation, scatter_combination]
  generalize signedLoading (jacobiEigen (sampleCovariance fun i => deviation (x i))).2 idx = w
  rw [sampleCovariance_deviation]
  simp only [sum_div, mul_div_assoc]

theorem sum_eigenvalues_variance :
    ∑ i, (jacobiEigen (sampleCovariance fun i => deviation (x i))).1 i =
      ∑ i, scatter (x i) (x i) / ((nObs : ℝ) - 1) := by
  rw [sum_eigenvalues]
  simp only [sampleCovariance_deviation]

end Components

/-! ### The order of the components -/

section Order
variable (sort : IndexSort ℝ) {n : ℕ} (key : Fin n → ℝ) (k : ℕ)

/-- The indices of the `k` largest keys. -/
def largest : List (Fin n) := ((sort n key).run (List.finRange n)).take k

theorem largest_nodup : (largest sort key k).Nodup :=
  (((sort n key).perm _).nodup_iff.mpr (List.nodup_finRange n)).sublist (List.take_sublist k _)

theorem largest_pairwise : (largest sort key k).Pairwise fun a b => key b ≤ key a :=
  (((sort n key).sorted _).imp not_lt.mp).sublist (List.take_sublist k _)

theorem length_largest (hk : k ≤ n) : (largest sort key k).length = k := by
  rw [largest, List.length_take, ((sort n key).perm _).length_eq, List.length_finRange,
    min_eq_left hk]

theorem sum_largest_add : ((largest sort key k).map key).sum +
    ((((sort n key).run (List.finRange n)).drop k).map key).sum = ∑ i, key i := by
  rw [largest, List.map_take, List.map_drop, List.sum_take_add_sum_drop,
    (((sort n key).perm _).map key).sum_eq, ← Fin.sum_univ_def]

theorem sum_largest_le (hkey : ∀ i, 0 ≤ key i) : ((largest sort key k).map key).sum ≤ ∑ i, key i := by
  rw [← sum_largest_add sort key k]
  refine le_add_of_nonneg_right (List.sum_nonneg fun v hv => ?_)
  obtain ⟨i, -, rfl⟩ := List.mem_map.mp hv
  exact hkey i

theorem sum_largest_all : ((largest sort key n).map key).sum = ∑ i, key i := by
  have hdrop : ((sort n key).run (List.finRange n)).drop n = [] := by
    rw [List.drop_eq_nil_iff, ((sort n key).perm _).length_eq, List.length_finRange]
  have hsum := sum_largest_add sort key n
  rwa [hdrop, List.map_nil, List.sum_nil, add_zero] at hsum

end Order

/-! ### The request -/

theorem checkReturnsMatrix_iff {returnsMatrix : List (List ℝ)} {nComponents : ℤ} :
    checkReturnsMatrix returnsMatrix nComponents = .ok () ↔ returnsMatrix ≠ [] ∧
      (0 < nComponents ∧ nComponents ≤ returnsMatrix.length) ∧
      2 ≤ (returnsMatrix.headD []).length ∧
      ∀ row ∈ returnsMatrix, row.length = (returnsMatrix.headD []).length := by
  have hfinite : (returnsMatrix.zipIdx.forM fun row =>
      validateFinite row.1 ("returns matrix series " ++ toString row.2)) = .ok () :=
    forM_eq_ok.mpr fun row _ => validateFinite_real _ _
  unfold checkReturnsMatrix
  dsimp only
  rw [ite_error_eq_ok, ite_error_eq_ok, ite_error_eq_ok, hfinite, List.isEmpty_iff, not_or, not_le,
    not_lt, not_lt]
  refine and_congr_right fun _ => and_congr_right fun _ => and_congr_right fun _ => ?_
  change returnsMatrix.zipIdx.forM _ = _ ↔ _
  rw [forM_eq_ok, List.forall_mem_zipIdx', List.forall_mem_iff_getElem]
  refine forall₂_congr fun i hi => ?_
  rw [ite_error_eq_ok, not_not]
  exact and_iff_left rfl

theorem centered_eq {returnsMatrix : List (List ℝ)} {nObs : ℕ}
    (hlen : ∀ row ∈ returnsMatrix, row.length = nObs) :
    centered returnsMatrix nObs = fun i => deviation (observed (returnsMatrix.get i) nObs) := by
  funext i t
  rw [centered, mean_observed (hlen _ (List.get_mem _ i))]
  rfl

/-- The inner product of two loading vectors. -/
noncomputable def innerProduct (u v : List ℝ) : ℝ := (u.zipWith (· * ·) v).sum

theorem innerProduct_ofFn {n : ℕ} (f g : Fin n → ℝ) :
    innerProduct (List.ofFn f) (List.ofFn g) = ∑ i, f i * g i := by
  have hzip : (List.ofFn f).zipWith (· * ·) (List.ofFn g) = List.ofFn fun i => f i * g i :=
    List.ext_getElem (by simp) fun i hi _ => by simp
  rw [innerProduct, hzip, List.sum_ofFn]

section Request
variable (returnsMatrix : List (List ℝ))

/-- The number of observations, which is that of the first series. -/
def observations : ℕ := (returnsMatrix.headD []).length

noncomputable def covarianceOf : SquareMatrix ℝ returnsMatrix.length :=
  sampleCovariance (centered returnsMatrix (observations returnsMatrix))

noncomputable def eigenvalueOf : Fin returnsMatrix.length → ℝ :=
  (jacobiEigen (covarianceOf returnsMatrix)).1

noncomputable def loadingOf (idx : Fin returnsMatrix.length) : Fin returnsMatrix.length → ℝ :=
  signedLoading (jacobiEigen (covarianceOf returnsMatrix)).2 idx

noncomputable def factorOf (idx : Fin returnsMatrix.length) : List ℝ :=
  List.ofFn (factorReturn (centered returnsMatrix (observations returnsMatrix))
    (loadingOf returnsMatrix idx))

variable {returnsMatrix}

theorem eigenvalueOf_eq (hlen : ∀ row ∈ returnsMatrix, row.length = observations returnsMatrix)
    (idx : Fin returnsMatrix.length) :
    eigenvalueOf returnsMatrix idx = sampleVariance (factorOf returnsMatrix idx) := by
  unfold eigenvalueOf factorOf loadingOf covarianceOf
  rw [centered_eq hlen]
  exact eigenvalue_variance _ idx

theorem eigenvalueOf_nonneg (hlen : ∀ row ∈ returnsMatrix, row.length = observations returnsMatrix)
    (htwo : 2 ≤ observations returnsMatrix) (idx : Fin returnsMatrix.length) :
    0 ≤ eigenvalueOf returnsMatrix idx := by
  have hone : (1 : ℝ) ≤ (observations returnsMatrix : ℝ) := Nat.one_le_cast.mpr (by omega)
  rw [eigenvalueOf_eq hlen, factorOf, sampleVariance_ofFn]
  exact div_nonneg (scatter_self_nonneg _) (sub_nonneg.mpr hone)

theorem sum_eigenvalueOf (hlen : ∀ row ∈ returnsMatrix, row.length = observations returnsMatrix) :
    ∑ i, eigenvalueOf returnsMatrix i = (returnsMatrix.map sampleVariance).sum := by
  unfold eigenvalueOf covarianceOf
  rw [centered_eq hlen, sum_eigenvalues_variance, ← sumOver_eq_sum, sumOver_eq]
  exact sum_congr rfl fun i _ => (sampleVariance_eq (hlen _ (List.get_mem _ i))).symm

theorem pca_eq_ok {sort : IndexSort ℝ} {nComponents : ℤ} {result : PCAResult ℝ}
    (h : pca sort returnsMatrix nComponents = .ok result)
    (htotal : 0 < (returnsMatrix.map sampleVariance).sum) :
    checkReturnsMatrix returnsMatrix nComponents = .ok () ∧
    result.explainedVarianceRatio = (largest sort (eigenvalueOf returnsMatrix)
      nComponents.toNat).map (fun idx =>
        eigenvalueOf returnsMatrix idx / (returnsMatrix.map sampleVariance).sum) ∧
    result.loadings = (largest sort (eigenvalueOf returnsMatrix)
      nComponents.toNat).map (fun idx => List.ofFn (loadingOf returnsMatrix idx)) ∧
    result.factorReturns = (largest sort (eigenvalueOf returnsMatrix)
      nComponents.toNat).map (factorOf returnsMatrix) := by
  obtain ⟨⟨⟩, hcheck, hresult⟩ := bind_eq_ok.mp h
  obtain ⟨-, -, htwo, hlen⟩ := checkReturnsMatrix_iff.mp hcheck
  cases hresult
  refine ⟨hcheck, ?_, rfl, rfl⟩
  have hsum : sumOver (eigenvalueOf returnsMatrix) (List.finRange returnsMatrix.length) =
      (returnsMatrix.map sampleVariance).sum :=
    (sumOver_finRange _).trans (sum_eigenvalueOf hlen)
  have hmax (idx : Fin returnsMatrix.length) :
      stdMax 0 (eigenvalueOf returnsMatrix idx) = eigenvalueOf returnsMatrix idx := by
    rw [stdMax_real, max_eq_right (eigenvalueOf_nonneg hlen htwo idx)]
  refine List.map_congr_left fun idx _ => ?_
  change (if 0 < sumOver (eigenvalueOf returnsMatrix) _ then
    stdMax 0 (eigenvalueOf returnsMatrix idx) / sumOver (eigenvalueOf returnsMatrix) _ else 0) = _
  rw [hsum, if_pos htotal, hmax]

end Request

/-- The ratios are shares of the sample variance, converged or not. -/
theorem pca_explains_variance (sort : IndexSort ℝ) (returnsMatrix : List (List ℝ))
    (nComponents : ℤ) (result : PCAResult ℝ)
    (hresult : pca sort returnsMatrix nComponents = .ok result)
    (htotal : 0 < (returnsMatrix.map sampleVariance).sum) :
    (result.loadings.length : ℤ) = nComponents ∧
    (result.factorReturns.length : ℤ) = nComponents ∧
    (∀ loading ∈ result.loadings, loading.length = returnsMatrix.length) ∧
    (∀ (j k : ℕ) (hj : j < result.loadings.length) (hk : k < result.loadings.length),
      innerProduct result.loadings[j] result.loadings[k] = if j = k then 1 else 0) ∧
    result.explainedVarianceRatio = result.factorReturns.map (fun factor =>
      sampleVariance factor / (returnsMatrix.map sampleVariance).sum) ∧
    (∀ ratio ∈ result.explainedVarianceRatio, 0 ≤ ratio) ∧
    result.explainedVarianceRatio.Pairwise (fun a b => b ≤ a) ∧
    result.explainedVarianceRatio.sum ≤ 1 ∧
    (nComponents = returnsMatrix.length → result.explainedVarianceRatio.sum = 1) := by
  obtain ⟨hcheck, hratio, hloadings, hfactors⟩ := pca_eq_ok hresult htotal
  obtain ⟨-, ⟨hpos, hle⟩, htwo, hlen⟩ := checkReturnsMatrix_iff.mp hcheck
  have hlength := length_largest sort (eigenvalueOf returnsMatrix) nComponents.toNat (by omega)
  have hnonneg := eigenvalueOf_nonneg hlen htwo
  have hsum : result.explainedVarianceRatio.sum =
      ((largest sort (eigenvalueOf returnsMatrix) nComponents.toNat).map
        (eigenvalueOf returnsMatrix)).sum / (returnsMatrix.map sampleVariance).sum := by
    rw [hratio]
    simp only [div_eq_mul_inv, List.sum_map_mul_right]
  refine ⟨?_, ?_, ?_, ?_, ?_, ?_, ?_, ?_, ?_⟩
  · rw [hloadings, List.length_map, hlength, Int.toNat_of_nonneg hpos.le]
  · rw [hfactors, List.length_map, hlength, Int.toNat_of_nonneg hpos.le]
  · rw [hloadings]
    intro loading hloading
    obtain ⟨idx, -, rfl⟩ := List.mem_map.mp hloading
    exact List.length_ofFn
  · simp only [hloadings]
    intro j k hj hk
    rw [List.getElem_map, List.getElem_map, innerProduct_ofFn]
    refine (signedLoading_orthonormal (covarianceOf returnsMatrix) _ _).trans ?_
    exact if_congr (largest_nodup sort _ _).getElem_inj_iff rfl rfl
  · rw [hratio, hfactors, List.map_map]
    exact List.map_congr_left fun idx _ => by rw [eigenvalueOf_eq hlen, Function.comp_apply]
  · rw [hratio]
    intro ratio hmem
    obtain ⟨idx, -, rfl⟩ := List.mem_map.mp hmem
    exact div_nonneg (hnonneg idx) htotal.le
  · rw [hratio, List.pairwise_map]
    exact (largest_pairwise sort _ _).imp fun h => div_le_div_of_nonneg_right h htotal.le
  · rw [hsum, div_le_one htotal, ← sum_eigenvalueOf hlen]
    exact sum_largest_le sort _ _ hnonneg
  · intro hall
    rw [hsum, hall, Int.toNat_natCast, sum_largest_all, sum_eigenvalueOf hlen,
      div_self htotal.ne']

/-! ### A request -/

/-- The merge sort by falling key. -/
noncomputable def fallingSort : IndexSort ℝ := fun _ key =>
  StdSort.mergeBy fun i => OrderDual.toDual (key i)

/-- Two assets which move against each other. -/
theorem pca_explains_variance_opposed :
    ∃ result, pca fallingSort [[0, 1], [1, 0]] 2 = .ok result ∧
      result.explainedVarianceRatio.Pairwise (fun a b => b ≤ a) ∧
      result.explainedVarianceRatio.sum = 1 := by
  have hcheck : checkReturnsMatrix ([[0, 1], [1, 0]] : List (List ℝ)) 2 = .ok () :=
    checkReturnsMatrix_iff.mpr ⟨List.cons_ne_nil _ _, by decide, le_rfl, by simp⟩
  have htotal : 0 < (([[0, 1], [1, 0]] : List (List ℝ)).map sampleVariance).sum := by
    norm_num [sampleVariance, mean, sumOver]
  have hresult : ∃ result, pca fallingSort [[0, 1], [1, 0]] 2 = .ok result := by
    rw [pca, hcheck]
    exact ⟨_, rfl⟩
  obtain ⟨result, hresult⟩ := hresult
  obtain ⟨-, -, -, -, -, -, hfalling, -, hall⟩ :=
    pca_explains_variance fallingSort _ 2 result hresult htotal
  exact ⟨result, hresult, hfalling, hall rfl⟩

end StandardTools.Analysis
