import StandardTools.Analysis.Multivariate
import StandardTools.Analysis.Regression
import StandardTools.Lib.OrderStatistics

/-!
# Correlation (`analysis/calculator.cpp:590-683`)

The covariances are scatters over the number of degrees of freedom, which
cancels in the coefficients: the matrix is that of the correlation coefficients
of the series, in the order of their labels.
-/

namespace StandardTools.Analysis
open StandardTools.Core Lib Finset Fintype

/-! ### The matrices -/

theorem covariances_eq {n nObs : ℕ} {series : Fin n → List ℝ}
    (h : ∀ i, (series i).length = nObs) : covariances nObs series = fun i j =>
      scatter (observed (series i) nObs) (observed (series j) nObs) / ((nObs - 1 : ℕ) : ℝ) := by
  have hupper (i j : Fin n) : sumOver (fun t : Fin nObs => ((series i).getD t 0 - mean (series i)) *
      ((series j).getD t 0 - mean (series j))) (List.finRange nObs) =
      scatter (observed (series i) nObs) (observed (series j) nObs) := by
    rw [sumOver_finRange, mean_observed (h i), mean_observed (h j)]
    rfl
  rw [covariances]
  simp only [hupper]
  exact mirrored_eq fun i j => by rw [scatter_comm]

theorem sqrt_covariances (x y : ℝ) {d : ℝ} (hd : 0 < d) :
    Real.sqrt (x / d * (y / d)) = Real.sqrt (x * y) / d := by
  rw [div_mul_div_comm, ← sq, Real.sqrt_div' _ (sq_nonneg d), Real.sqrt_sq hd.le]

/-! ### What is accepted -/

/-- Two observations or more, as many of every series, and every series moves. -/
structure Accepted (returnsMap : StdMap (List ℝ)) (nObs : ℕ) : Prop where
  nonempty : returnsMap.keys ≠ []
  two_le : 2 ≤ nObs
  length_eq : ∀ label ∈ returnsMap.keys, (seriesOf returnsMap label).length = nObs
  varies : ∀ label ∈ returnsMap.keys,
    scatter (observed (seriesOf returnsMap label) nObs)
      (observed (seriesOf returnsMap label) nObs) ≠ 0

/-- The correlation coefficients in the order of the labels. -/
noncomputable def pearsonMatrix (returnsMap : StdMap (List ℝ)) (nObs : ℕ) :
    SquareMatrix ℝ returnsMap.keys.length := fun i j =>
  pearson (observed (seriesOf returnsMap (returnsMap.keys.get i)) nObs)
    (observed (seriesOf returnsMap (returnsMap.keys.get j)) nObs)

/-- The result which carries the matrix under the labels. -/
noncomputable def resultOf (labels : List String) (matrix : SquareMatrix ℝ labels.length) :
    CorrelationResult ℝ where
  labels := labels
  matrix := List.ofFn fun i => List.ofFn (matrix i)
  average :=
    if 0 < (aggregates matrix).count then (aggregates matrix).sum / ((aggregates matrix).count : ℝ)
    else 0
  min := (aggregates matrix).min
  max := (aggregates matrix).max

theorem checkReturnsMap_iff {returnsMap : StdMap (List ℝ)} {labels : List String} {nObs : ℕ} :
    checkReturnsMap returnsMap labels nObs = .ok () ↔
      2 ≤ nObs ∧ ∀ label ∈ labels, (seriesOf returnsMap label).length = nObs := by
  rw [checkReturnsMap, ite_error_eq_ok, not_lt, forM_eq_ok]
  refine and_congr_right fun _ => forall₂_congr fun label _ => ?_
  rw [validateFinite_real]
  change (if (seriesOf returnsMap label).length ≠ nObs then _ else _) = _ ↔ _
  rw [ite_error_eq_ok, not_not]
  exact and_iff_left rfl

theorem checkVariances_iff {n nObs : ℕ} {labels : Fin n → String} {x : Fin n → Fin nObs → ℝ}
    (htwo : 2 ≤ nObs) :
    checkVariances labels (fun i j => scatter (x i) (x j) / ((nObs - 1 : ℕ) : ℝ)) = .ok () ↔
      ∀ i, scatter (x i) (x i) ≠ 0 := by
  have hd : (0 : ℝ) < ((nObs - 1 : ℕ) : ℝ) := Nat.cast_pos.mpr (by omega)
  have hentry (i j : Fin n) : (if Real.sqrt (scatter (x i) (x i) / ((nObs - 1 : ℕ) : ℝ) *
      (scatter (x j) (x j) / ((nObs - 1 : ℕ) : ℝ))) == 0 then
        .error (.dataQuality
          ("series " ++ labels i ++ " and/or " ++ labels j ++ " have zero variance"))
      else .ok () : Except Error Unit) = .ok () ↔
      scatter (x i) (x i) ≠ 0 ∧ scatter (x j) (x j) ≠ 0 := by
    have hproduct : 0 ≤ scatter (x i) (x i) * scatter (x j) (x j) :=
      mul_nonneg (scatter_self_nonneg _) (scatter_self_nonneg _)
    rw [sqrt_covariances _ _ hd, ← mul_ne_zero_iff, ← not_iff_not, not_not,
      ← Real.sqrt_eq_zero hproduct]
    split_ifs with hzero
    · simpa [hd.ne'] using hzero
    · simpa [hd.ne'] using hzero
  unfold checkVariances
  simp only [forM_eq_ok, List.mem_finRange, forall_const]
  exact ⟨fun h i => ((hentry i i).mp (h i i)).1, fun h i j => (hentry i j).mpr ⟨h i, h j⟩⟩

theorem correlationMatrix_eq {n nObs : ℕ} (x : Fin n → Fin nObs → ℝ) (htwo : 2 ≤ nObs) :
    correlationMatrix (fun i j => scatter (x i) (x j) / ((nObs - 1 : ℕ) : ℝ)) =
      fun i j => pearson (x i) (x j) := by
  have hd : (0 : ℝ) < ((nObs - 1 : ℕ) : ℝ) := Nat.cast_pos.mpr (by omega)
  funext i j
  rw [correlationMatrix, sqrt_real, sqrt_covariances _ _ hd, div_div_div_cancel_right₀ hd.ne',
    pearson, ← div_eq_inv_mul]

theorem correlation_ok_iff (sort : StdSort String (· < ·)) {returnsMap : StdMap (List ℝ)}
    {r : CorrelationResult ℝ} : correlation sort returnsMap = .ok r ↔
      ∃ nObs, Accepted returnsMap nObs ∧
        r = resultOf returnsMap.keys (pearsonMatrix returnsMap nObs) := by
  have hlabels : sort.run returnsMap.keys = returnsMap.keys :=
    sort.run_eq_self (fun _ _ => lt_asymm) returnsMap.keys_sorted
  unfold correlation
  by_cases hempty : returnsMap.keys = []
  · rw [if_pos (List.isEmpty_iff.mpr hempty)]
    exact ⟨nofun, fun ⟨_, h, _⟩ => absurd hempty h.nonempty⟩
  rw [if_neg (mt List.isEmpty_iff.mp hempty), hlabels]
  have hhead : returnsMap.keys.headD "" ∈ returnsMap.keys := by
    rw [List.headD_eq_head?_getD, List.head?_eq_some_head hempty]
    exact List.head_mem hempty
  dsimp only
  generalize hnObs : (seriesOf returnsMap (returnsMap.keys.headD "")).length = nObs
  -- both checks in terms of the observations
  have hchecks (htwo : 2 ≤ nObs)
      (hlen : ∀ label ∈ returnsMap.keys, (seriesOf returnsMap label).length = nObs) :=
    @covariances_eq _ _ (fun i => seriesOf returnsMap (returnsMap.keys.get i))
      fun i => hlen _ (List.get_mem _ i)
  constructor
  · intro h
    obtain ⟨⟨⟩, hmap, h⟩ := bind_eq_ok.mp h
    obtain ⟨⟨⟩, hvariances, h⟩ := bind_eq_ok.mp h
    obtain ⟨htwo, hlen⟩ := checkReturnsMap_iff.mp hmap
    rw [hchecks htwo hlen] at hvariances h
    rw [correlationMatrix_eq _ htwo] at h
    have hvaries := (checkVariances_iff htwo).mp hvariances
    refine ⟨nObs, ⟨hempty, htwo, hlen, fun label hlabel => ?_⟩, (Except.ok.inj h).symm⟩
    obtain ⟨i, hi, rfl⟩ := List.getElem_of_mem hlabel
    exact hvaries ⟨i, hi⟩
  · rintro ⟨nObs', haccepted, rfl⟩
    obtain rfl : nObs' = nObs := (haccepted.length_eq _ hhead).symm.trans hnObs
    have hcov := hchecks haccepted.two_le haccepted.length_eq
    refine bind_eq_ok.mpr ⟨(), checkReturnsMap_iff.mpr ⟨haccepted.two_le, haccepted.length_eq⟩,
      bind_eq_ok.mpr ⟨(), ?_, ?_⟩⟩
    · rw [hcov, checkVariances_iff haccepted.two_le]
      exact fun i => haccepted.varies _ (List.get_mem _ i)
    · rw [hcov, correlationMatrix_eq _ haccepted.two_le]
      rfl

/-! ### Two requests -/

def labelSort : StdSort String (· < ·) := StdSort.mergeBy id

/-- One series which moves, and two of them. -/
def oneSeries : StdMap (List ℝ) := StdMap.empty.insert "A" [0, 1]

def twoSeries : StdMap (List ℝ) := oneSeries.insert "B" [1, 0]

theorem scatter_observed_pair {a b : ℝ} (h : a ≠ b) :
    scatter (observed [a, b] 2) (observed [a, b] 2) ≠ 0 :=
  fun hzero => h ((scatter_self_eq_zero_iff_const _).mp hzero 0 1)

theorem accepted_oneSeries : Accepted oneSeries 2 := by
  have hkeys : oneSeries.keys = ["A"] := rfl
  have hseries : seriesOf oneSeries "A" = [0, 1] := rfl
  refine ⟨by simp [hkeys], le_rfl, ?_, ?_⟩
  · simp [hkeys, hseries]
  · intro label hlabel
    rw [hkeys, List.mem_singleton] at hlabel
    rw [hlabel, hseries]
    exact scatter_observed_pair zero_ne_one

theorem accepted_twoSeries : Accepted twoSeries 2 := by
  have hkeys : twoSeries.keys = ["A", "B"] := rfl
  have hA : seriesOf twoSeries "A" = [0, 1] := rfl
  have hB : seriesOf twoSeries "B" = [1, 0] := rfl
  refine ⟨by simp [hkeys], le_rfl, ?_, ?_⟩
  · simp [hkeys, hA, hB]
  · simp only [hkeys, List.forall_mem_cons, hA, hB]
    exact ⟨scatter_observed_pair zero_ne_one, scatter_observed_pair one_ne_zero,
      fun _ h => absurd h List.not_mem_nil⟩

/-! ### The matrix -/

/-- Every series in another unit and from another origin. -/
def adjusted (c d : String → ℝ) (returnsMap : StdMap (List ℝ)) : StdMap (List ℝ) :=
  returnsMap.mapValues fun label series => series.map fun x => c label * x + d label

theorem seriesOf_adjusted (c d : String → ℝ) (returnsMap : StdMap (List ℝ)) (label : String) :
    seriesOf (adjusted c d returnsMap) label =
      (seriesOf returnsMap label).map fun x => c label * x + d label := by
  rw [seriesOf, seriesOf, adjusted, StdMap.find?_mapValues]
  cases returnsMap.find? label with
  | none => rfl
  | some series => rfl

theorem observed_adjusted (c d : String → ℝ) {returnsMap : StdMap (List ℝ)} {label : String}
    {nObs : ℕ} (h : (seriesOf returnsMap label).length = nObs) :
    observed (seriesOf (adjusted c d returnsMap) label) nObs =
      fun t => c label * observed (seriesOf returnsMap label) nObs t + d label := by
  subst h
  funext t
  simp [observed, seriesOf_adjusted]

theorem Accepted.adjusted {returnsMap : StdMap (List ℝ)} {nObs : ℕ}
    (h : Accepted returnsMap nObs) {c : String → ℝ} (hc : ∀ label, 0 < c label)
    (d : String → ℝ) : Accepted (adjusted c d returnsMap) nObs := by
  have hkeys : (Analysis.adjusted c d returnsMap).keys = returnsMap.keys := StdMap.keys_mapValues _ _
  constructor
  · rw [hkeys]
    exact h.nonempty
  · exact h.two_le
  · intro label hlabel
    rw [seriesOf_adjusted, List.length_map]
    exact h.length_eq label (hkeys ▸ hlabel)
  · intro label hlabel
    rw [observed_adjusted c d (h.length_eq label (hkeys ▸ hlabel)), scatter_affine]
    exact mul_ne_zero (mul_self_ne_zero.mpr (hc label).ne') (h.varies label (hkeys ▸ hlabel))

theorem resultOf_adjusted {returnsMap : StdMap (List ℝ)} {nObs : ℕ}
    (h : Accepted returnsMap nObs) {c : String → ℝ} (hc : ∀ label, 0 < c label)
    (d : String → ℝ) :
    resultOf (adjusted c d returnsMap).keys (pearsonMatrix (adjusted c d returnsMap) nObs) =
      resultOf returnsMap.keys (pearsonMatrix returnsMap nObs) := by
  have hkeys : (adjusted c d returnsMap).keys = returnsMap.keys := StdMap.keys_mapValues _ _
  have hmatrix : ∀ labels (_ : labels = returnsMap.keys) (i j : Fin labels.length),
      pearson (observed (seriesOf (adjusted c d returnsMap) (labels.get i)) nObs)
        (observed (seriesOf (adjusted c d returnsMap) (labels.get j)) nObs) =
      pearson (observed (seriesOf returnsMap (labels.get i)) nObs)
        (observed (seriesOf returnsMap (labels.get j)) nObs) := by
    rintro labels rfl i j
    rw [observed_adjusted c d (h.length_eq _ (List.get_mem _ i)),
      observed_adjusted c d (h.length_eq _ (List.get_mem _ j)),
      pearson_affine (hc _) (hc _)]
  unfold pearsonMatrix
  simp only [hmatrix _ hkeys]
  rw [hkeys]

/-- A correlation matrix, whatever the unit and the origin of each series. -/
theorem correlation_matrix (sort : StdSort String (· < ·)) (returnsMap : StdMap (List ℝ))
    (r : CorrelationResult ℝ) (hr : correlation sort returnsMap = .ok r) :
    r.labels = returnsMap.keys ∧ r.labels.Pairwise (· < ·) ∧
    (∃ m : SquareMatrix ℝ r.labels.length, r.matrix = (List.ofFn fun i => List.ofFn (m i)) ∧
      (∃ nObs, ∀ i j, m i j = pearson (observed (seriesOf returnsMap (r.labels.get i)) nObs)
        (observed (seriesOf returnsMap (r.labels.get j)) nObs)) ∧
      (∀ i j, m i j = m j i) ∧ (∀ i, m i i = 1) ∧ (∀ i j, -1 ≤ m i j ∧ m i j ≤ 1) ∧
      ∀ w : Fin r.labels.length → ℝ, 0 ≤ ∑ i, ∑ j, w i * w j * m i j) ∧
    ∀ c d : String → ℝ, (∀ label, 0 < c label) → correlation sort (adjusted c d returnsMap) = .ok r := by
  obtain ⟨nObs, haccepted, rfl⟩ := (correlation_ok_iff sort).mp hr
  refine ⟨rfl, returnsMap.keys_sorted, ⟨pearsonMatrix returnsMap nObs, rfl,
    ⟨nObs, fun i j => rfl⟩, fun i j => pearson_comm _ _, fun i => ?_,
    fun i j => abs_le.mp (abs_pearson_le_one _ _), sum_pearson_nonneg _⟩, fun c d hc => ?_⟩
  · exact pearson_self (haccepted.varies _ (List.get_mem _ i))
  · exact (correlation_ok_iff sort).mpr
      ⟨nObs, haccepted.adjusted hc d, (resultOf_adjusted haccepted hc d).symm⟩

theorem correlation_matrix_two :
    ∃ r, correlation labelSort twoSeries = .ok r ∧ r.labels = ["A", "B"] := by
  have hr := (correlation_ok_iff labelSort).mpr ⟨2, accepted_twoSeries, rfl⟩
  exact ⟨_, hr, (correlation_matrix labelSort twoSeries _ hr).1⟩

/-! ### The aggregates -/

/-- A coefficient among the values extended by the two infinities. -/
def extended (v : ℝ) : Extended ℝ := ((v : WithTop ℝ) : WithBot (WithTop ℝ))

theorem extended_le_iff {v w : ℝ} : extended v ≤ extended w ↔ v ≤ w := by
  rw [extended, extended, WithBot.coe_le_coe, WithTop.coe_le_coe]

/-- The aggregates over the pairs seen so far. -/
structure Aggregated {n : ℕ} (matrix : SquareMatrix ℝ n) (seen : List (Fin n × Fin n))
    (s : Aggregates ℝ) : Prop where
  sum_eq : s.sum = (seen.map fun p => matrix p.1 p.2).sum
  count_eq : s.count = seen.length
  min_le : ∀ p ∈ seen, s.min ≤ extended (matrix p.1 p.2)
  le_max : ∀ p ∈ seen, extended (matrix p.1 p.2) ≤ s.max
  min_mem : s.min = ⊤ ∧ seen = [] ∨ ∃ p ∈ seen, s.min = extended (matrix p.1 p.2)
  max_mem : s.max = ⊥ ∧ seen = [] ∨ ∃ p ∈ seen, s.max = extended (matrix p.1 p.2)

theorem Aggregated.step {n : ℕ} {matrix : SquareMatrix ℝ n} {seen : List (Fin n × Fin n)}
    {s : Aggregates ℝ} (pair : Fin n × Fin n) (h : Aggregated matrix seen s) :
    Aggregated matrix (seen ++ [pair]) (aggregateStep matrix s pair) := by
  have hmin : (aggregateStep matrix s pair).min = min (extended (matrix pair.1 pair.2)) s.min :=
    (min_def_lt _ _).symm
  have hmax : (aggregateStep matrix s pair).max = max s.max (extended (matrix pair.1 pair.2)) :=
    (max_def_lt _ _).symm
  have hlast : pair ∈ seen ++ [pair] := List.mem_append_right _ (List.mem_singleton_self pair)
  constructor
  · rw [List.map_append, List.sum_append, ← h.sum_eq, List.map_singleton, List.sum_singleton]
    rfl
  · rw [List.length_append, ← h.count_eq]
    rfl
  · intro p hp
    rw [hmin]
    rcases List.mem_append.mp hp with hp | hp
    · exact (min_le_right _ _).trans (h.min_le p hp)
    · rw [List.mem_singleton.mp hp]
      exact min_le_left _ _
  · intro p hp
    rw [hmax]
    rcases List.mem_append.mp hp with hp | hp
    · exact (h.le_max p hp).trans (le_max_left _ _)
    · rw [List.mem_singleton.mp hp]
      exact le_max_right _ _
  · refine Or.inr ?_
    rw [hmin]
    rcases min_choice (extended (matrix pair.1 pair.2)) s.min with hleft | hright
    · exact ⟨pair, hlast, hleft⟩
    · obtain ⟨htop, -⟩ | ⟨p, hp, heq⟩ := h.min_mem
      · exact ⟨pair, hlast, by rw [htop, min_top_right]⟩
      · exact ⟨p, List.mem_append_left _ hp, hright.trans heq⟩
  · refine Or.inr ?_
    rw [hmax]
    rcases max_choice s.max (extended (matrix pair.1 pair.2)) with hleft | hright
    · obtain ⟨hbot, -⟩ | ⟨p, hp, heq⟩ := h.max_mem
      · exact ⟨pair, hlast, by rw [hbot, max_bot_left]⟩
      · exact ⟨p, List.mem_append_left _ hp, hleft.trans heq⟩
    · exact ⟨pair, hlast, hright⟩

theorem aggregates_aggregated {n : ℕ} (matrix : SquareMatrix ℝ n) :
    Aggregated matrix (pairsAbove n) (aggregates matrix) := by
  have hnil : Aggregated matrix [] ⟨0, 0, ⊤, ⊥⟩ :=
    ⟨rfl, rfl, nofun, nofun, Or.inl ⟨rfl, rfl⟩, Or.inl ⟨rfl, rfl⟩⟩
  exact foldl_seen (fun seen s pair h => Aggregated.step pair h) hnil (pairsAbove n)

theorem pairsAbove_eq_nil_iff {n : ℕ} : pairsAbove n = [] ↔ n < 2 := by
  constructor
  · intro h
    by_contra hn
    have hmem : ((⟨0, by omega⟩, ⟨1, by omega⟩) : Fin n × Fin n) ∈ pairsAbove n :=
      mem_pairsAbove.mpr (by simp)
    rw [h] at hmem
    exact List.not_mem_nil hmem
  · intro h
    refine List.eq_nil_iff_forall_not_mem.mpr fun pair hpair => ?_
    have hlt := mem_pairsAbove.mp hpair
    omega

/-- The range of the aggregates. -/
def Sane (r : CorrelationResult ℝ) : Prop :=
  extended (-1) ≤ r.min ∧ r.min ≤ extended r.average ∧ extended r.average ≤ r.max ∧
    r.max ≤ extended 1

theorem sane_resultOf {labels : List String} {matrix : SquareMatrix ℝ labels.length}
    (hmatrix : ∀ i j, |matrix i j| ≤ 1) (hpairs : pairsAbove labels.length ≠ []) :
    Sane (resultOf labels matrix) := by
  have h := aggregates_aggregated matrix
  obtain ⟨p, -, hmin⟩ := h.min_mem.resolve_left fun hnil => hpairs hnil.2
  obtain ⟨q, -, hmax⟩ := h.max_mem.resolve_left fun hnil => hpairs hnil.2
  have hvalues : ((pairsAbove labels.length).map fun p => matrix p.1 p.2) ≠ [] :=
    mt List.map_eq_nil_iff.mp hpairs
  have hcount : 0 < (aggregates matrix).count := by
    rw [h.count_eq]
    exact List.length_pos_iff.mpr hpairs
  have haverage : (resultOf labels matrix).average =
      ((pairsAbove labels.length).map fun p => matrix p.1 p.2).sum /
        (((pairsAbove labels.length).map fun p => matrix p.1 p.2).length : ℝ) := by
    rw [resultOf, if_pos hcount, h.sum_eq, h.count_eq, List.length_map]
  refine ⟨?_, ?_, ?_, ?_⟩
  · change _ ≤ (aggregates matrix).min
    rw [hmin, extended_le_iff]
    exact (abs_le.mp (hmatrix _ _)).1
  · change (aggregates matrix).min ≤ _
    rw [hmin, extended_le_iff, haverage]
    refine le_mean hvalues fun v hv => ?_
    obtain ⟨pair, hpair, rfl⟩ := List.mem_map.mp hv
    exact extended_le_iff.mp (hmin ▸ h.min_le pair hpair)
  · change _ ≤ (aggregates matrix).max
    rw [hmax, extended_le_iff, haverage]
    refine mean_le hvalues fun v hv => ?_
    obtain ⟨pair, hpair, rfl⟩ := List.mem_map.mp hv
    exact extended_le_iff.mp (hmax ▸ h.le_max pair hpair)
  · change (aggregates matrix).max ≤ _
    rw [hmax, extended_le_iff]
    exact (abs_le.mp (hmatrix _ _)).2

theorem not_sane_of_min {r : CorrelationResult ℝ} (hmin : r.min = ⊤) : ¬Sane r := by
  intro hsane
  have htop := hsane.2.1
  rw [hmin, top_le_iff] at htop
  exact WithTop.coe_ne_top (WithBot.coe_injective htop)

/-- Of a single series there is no pair, and the infinities stay. -/
theorem resultOf_single {labels : List String} (matrix : SquareMatrix ℝ labels.length)
    (hpairs : pairsAbove labels.length = []) :
    (resultOf labels matrix).min = ⊤ ∧ (resultOf labels matrix).max = ⊥ := by
  change (aggregates matrix).min = ⊤ ∧ (aggregates matrix).max = ⊥
  rw [aggregates, hpairs]
  exact ⟨rfl, rfl⟩

/-- The aggregates of an accepted request are in order exactly from two series on. -/
theorem correlation_aggregates_iff (sort : StdSort String (· < ·))
    (returnsMap : StdMap (List ℝ)) (r : CorrelationResult ℝ)
    (hr : correlation sort returnsMap = .ok r) : Sane r ↔ 2 ≤ returnsMap.keys.length := by
  obtain ⟨nObs, haccepted, rfl⟩ := (correlation_ok_iff sort).mp hr
  rw [← not_lt, ← pairsAbove_eq_nil_iff]
  refine ⟨fun hsane hpairs => ?_, sane_resultOf fun i j => abs_pearson_le_one _ _⟩
  exact not_sane_of_min (resultOf_single (pearsonMatrix returnsMap nObs) hpairs).1 hsane

theorem correlation_aggregates_iff_two :
    ∃ r, correlation labelSort twoSeries = .ok r ∧ Sane r := by
  have hr := (correlation_ok_iff labelSort).mpr ⟨2, accepted_twoSeries, rfl⟩
  exact ⟨_, hr, (correlation_aggregates_iff labelSort twoSeries _ hr).mpr (by decide)⟩

/-- A request with one series returns, with the minimum above the maximum. -/
theorem single_series_aggregates : ∃ r, correlation labelSort oneSeries = .ok r ∧
    r.min = ⊤ ∧ r.max = ⊥ ∧ ¬Sane r := by
  have hr := (correlation_ok_iff labelSort).mpr ⟨2, accepted_oneSeries, rfl⟩
  obtain ⟨hmin, hmax⟩ := resultOf_single (pearsonMatrix oneSeries 2) (by decide)
  exact ⟨_, hr, hmin, hmax, not_sane_of_min hmin⟩

end StandardTools.Analysis
