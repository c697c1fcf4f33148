import Mathlib.GroupTheory.Perm.Basic
import StandardTools.Portfolio.Equivariance
import StandardTools.Portfolio.Validation

/-!
# The order of the assets (`portfolio/optimizer.cpp:340-423`, `portfolio/risk_parity.cpp:142-231`)

A request lists its assets in rows, a series beside a label. Whether it is
accepted depends on the rows and not on their order, and the checked matrices of
two orders differ by a renumbering. Both optimizers then return the same map
under the labels, and the same figures.
-/

namespace StandardTools.Portfolio
open Matrix StandardTools.Core StandardTools.Lib

variable {rows rows' : List (List ℝ × String)}

theorem Accepted.perm {obs : ℕ} (h : Accepted (rows.map Prod.fst) (rows.map Prod.snd) obs)
    (hperm : rows.Perm rows') : Accepted (rows'.map Prod.fst) (rows'.map Prod.snd) obs where
  ne_nil hnil := h.ne_nil (List.Perm.eq_nil (hnil ▸ hperm.map Prod.fst))
  length_le := (hperm.map Prod.fst).length_eq ▸ h.length_le
  labels_length := by rw [List.length_map, List.length_map]
  nodup := (hperm.map Prod.snd).nodup_iff.mp h.nodup
  obs_two := h.obs_two
  lengths series hseries := h.lengths series ((hperm.map Prod.fst).mem_iff.mpr hseries)

theorem rows_of_validate {m : ReturnMatrix ℝ}
    (h : validateReturnMatrix (rows.map Prod.fst) (rows.map Prod.snd) = .ok m) :
    List.ofFn (fun i => (List.ofFn (m.returns i), m.labels i)) = rows := by
  obtain ⟨-, hreturns, hlabels⟩ := validateReturnMatrix_inv h
  have hlength := congrArg List.length hlabels
  rw [List.length_ofFn, List.length_map] at hlength
  refine List.ext_getElem (by rw [List.length_ofFn, hlength]) fun i hi hi' => ?_
  have hfst := List.getElem_of_eq hreturns (i := i) (by rwa [List.length_ofFn, hlength])
  have hsnd := List.getElem_of_eq hlabels (i := i) (by rwa [List.length_ofFn, hlength])
  rw [List.getElem_ofFn, List.getElem_map] at hfst hsnd
  rw [List.getElem_ofFn]
  exact Prod.ext hfst hsnd

/-! ### Two orders of the same rows -/

namespace ReturnMatrix
variable (m : ReturnMatrix ℝ)

theorem means_eq_sum (i : Fin m.assets) :
    m.means i = (List.ofFn (m.returns i)).sum / (List.ofFn (m.returns i)).length := by
  rw [means, sumLoop_eq, List.length_ofFn, List.sum_ofFn]

theorem sampleCovariance_eq_sum (i j : Fin m.assets) :
    m.sampleCovariance i j = (List.zipWith (fun a b => (a - m.means i) * (b - m.means j))
      (List.ofFn (m.returns i)) (List.ofFn (m.returns j))).sum *
        (1 / (((List.ofFn (m.returns i)).length : ℝ) - 1)) := by
  have hproducts : List.zipWith (fun a b => (a - m.means i) * (b - m.means j))
      (List.ofFn (m.returns i)) (List.ofFn (m.returns j)) =
        List.ofFn fun t => m.centered i t * m.centered j t := by
    refine List.ext_getElem (by simp) fun t _ _ => ?_
    simp only [List.getElem_zipWith, List.getElem_ofFn]
    rfl
  rw [sampleCovariance_apply, hproducts, List.sum_ofFn, List.length_ofFn]

end ReturnMatrix

/-- The same assets, numbered otherwise. -/
structure Renumbered (m m' : ReturnMatrix ℝ) (e : Fin m.assets ≃ Fin m'.assets) : Prop where
  means : m.means = m'.means ∘ e
  sampleCovariance : m.sampleCovariance = reindexed e m'.sampleCovariance
  labels : m.labels = m'.labels ∘ e

theorem exists_renumbered {m m' : ReturnMatrix ℝ}
    (h : (List.ofFn fun i => (List.ofFn (m.returns i), m.labels i)).Perm
      (List.ofFn fun i => (List.ofFn (m'.returns i), m'.labels i))) :
    ∃ e, Renumbered m m' e := by
  have hrow : ∀ i, ∃ i', (List.ofFn (m'.returns i'), m'.labels i') =
      (List.ofFn (m.returns i), m.labels i) :=
    fun i => List.mem_ofFn.mp (h.mem_iff.mp (List.mem_ofFn.mpr ⟨i, rfl⟩))
  choose index hindex using hrow
  have hreturns : ∀ i, List.ofFn (m.returns i) = List.ofFn (m'.returns (index i)) :=
    fun i => (congrArg Prod.fst (hindex i)).symm
  have hlabels : ∀ i, m.labels i = m'.labels (index i) :=
    fun i => (congrArg Prod.snd (hindex i)).symm
  have hinjective : Function.Injective index := by
    intro i j hij
    apply m.labels_injective
    rw [hlabels, hlabels, hij]
  have hcard : Fintype.card (Fin m.assets) = Fintype.card (Fin m'.assets) := by
    have hlength := h.length_eq
    rwa [List.length_ofFn, List.length_ofFn, ← Fintype.card_fin m.assets,
      ← Fintype.card_fin m'.assets] at hlength
  have hmeans : ∀ i, m.means i = m'.means (index i) := fun i => by
    rw [m.means_eq_sum, m'.means_eq_sum, hreturns]
  refine ⟨Equiv.ofBijective index ((Fintype.bijective_iff_injective_and_card index).mpr
    ⟨hinjective, hcard⟩), funext hmeans, ?_, funext hlabels⟩
  funext i j
  rw [m.sampleCovariance_eq_sum, hmeans, hmeans, hreturns, hreturns]
  exact (m'.sampleCovariance_eq_sum (index i) (index j)).symm

theorem validate_perm (hperm : rows.Perm rows') {m : ReturnMatrix ℝ}
    (h : validateReturnMatrix (rows.map Prod.fst) (rows.map Prod.snd) = .ok m) :
    ∃ m' e, validateReturnMatrix (rows'.map Prod.fst) (rows'.map Prod.snd) = .ok m' ∧
      Renumbered m m' e := by
  obtain ⟨m', hm'⟩ := validateReturnMatrix_ok ((validateReturnMatrix_inv h).1.perm hperm)
  rw [← rows_of_validate h, ← rows_of_validate hm'] at hperm
  obtain ⟨e, he⟩ := exists_renumbered hperm
  exact ⟨m', e, hm', he⟩

/-! ### The optimizers -/

namespace Renumbered
variable {m m' : ReturnMatrix ℝ} {e : Fin m.assets ≃ Fin m'.assets}

theorem covariance (h : Renumbered m m' e) : m.covariance = reindexed e m'.covariance := by
  funext i j
  unfold ReturnMatrix.covariance reindexed
  rw [h.sampleCovariance]
  simp only [EmbeddingLike.apply_eq_iff_eq]
  rfl

theorem combine (h : Renumbered m m' e) (rf : ℝ) (wMv wMs : Fin m'.assets → ℝ)
    (objective : Objective ℝ) :
    m.combine rf (wMv ∘ e) (wMs ∘ e) objective = m'.combine rf wMv wMs objective ∘ e := by
  unfold ReturnMatrix.combine
  rw [h.means, h.covariance, portfolioMetrics_comp, portfolioMetrics_comp]
  cases objective with
  | maxSharpe => rfl
  | minVolatility => rfl
  | targetReturn target => rfl
  | targetVolatility target => exact targetVolatilityBlend_comp e _ _ _ _ _ _

theorem weights (h : Renumbered m m' e) (rf : ℝ) (objective : Objective ℝ) :
    m.weights rf objective = (m'.weights rf objective).map (· ∘ e) := by
  obtain ⟨inv, hinv⟩ := matInverse_covariance m
  obtain ⟨inv', hinv'⟩ := matInverse_covariance m'
  have hsame : inv = reindexed e inv' := by
    rw [h.covariance] at hinv
    exact matInverse_reindexed e hinv hinv'
  unfold ReturnMatrix.weights
  rw [hinv, hinv', hsame]
  simp only [bind, Except.bind, minVarianceFund_comp]
  cases minVarianceFund inv' with
  | error error => rfl
  | ok wMv =>
    simp only [Except.map, h.means, maxSharpeFund_comp, h.combine]
    rfl

theorem meanVariance_result (h : Renumbered m m' e) (rf : ℝ) (w : Fin m'.assets → ℝ) :
    buildResult (w ∘ e) m.labels (portfolioMetrics (w ∘ e) m.means m.covariance rf) =
      buildResult w m'.labels (portfolioMetrics w m'.means m'.covariance rf) := by
  rw [h.means, h.covariance, portfolioMetrics_comp, h.labels]
  exact buildResult_comp e m'.labels_injective w _

theorem parityWeights (h : Renumbered m m' e) : m.parityWeights = m'.parityWeights ∘ e := by
  unfold ReturnMatrix.parityWeights
  rw [h.sampleCovariance, equalWeights_comp e]
  exact riskParityLoop_comp e _ _ _

theorem parityResult (h : Renumbered m m' e) : m.parityResult = m'.parityResult := by
  unfold ReturnMatrix.parityResult
  rw [h.parityWeights, h.means, h.sampleCovariance, portfolioMetrics_comp, h.labels,
    assign_labels_comp e m'.labels_injective]

theorem totalVariance (h : Renumbered m m' e) :
    (sumLoop fun i => m.sampleCovariance i i) = sumLoop fun i => m'.sampleCovariance i i := by
  rw [h.sampleCovariance]
  exact sumLoop_comp e fun i => m'.sampleCovariance i i

end Renumbered

/-! ### Requests -/

section Requests
variable {n : ℕ}

/-- Asset `i` has the series `returns i` and the label `labels i`: every request
with as many labels as series is of this form. -/
def MeanVarianceRequest.withAssets (request : MeanVarianceRequest ℝ) (returns : Fin n → List ℝ)
    (labels : Fin n → String) : MeanVarianceRequest ℝ :=
  { request with returns := List.ofFn returns, labels := List.ofFn labels }

theorem validate_permuted (σ : Equiv.Perm (Fin n)) {returns : Fin n → List ℝ}
    {labels : Fin n → String} {m : ReturnMatrix ℝ}
    (h : validateReturnMatrix (List.ofFn returns) (List.ofFn labels) = .ok m) :
    ∃ m' e, validateReturnMatrix (List.ofFn (returns ∘ σ)) (List.ofFn (labels ∘ σ)) = .ok m' ∧
      Renumbered m m' e := by
  have hperm := validate_perm (m := m) (σ.ofFn_comp_perm fun i => (returns i, labels i)).symm
  simp only [List.map_ofFn] at hperm
  exact hperm h

theorem meanVariance_permuted (request : MeanVarianceRequest ℝ) (returns : Fin n → List ℝ)
    (labels : Fin n → String) (σ : Equiv.Perm (Fin n)) {result : PortfolioResult ℝ}
    (h : meanVariance (request.withAssets returns labels) = .ok result) :
    meanVariance (request.withAssets (returns ∘ σ) (labels ∘ σ)) = .ok result := by
  obtain ⟨m, hm, h⟩ := bind_eq_ok.mp h
  obtain ⟨objective, hobjective, h⟩ := bind_eq_ok.mp h
  obtain ⟨w, hw, h⟩ := bind_eq_ok.mp h
  obtain ⟨m', e, hm', hrenumbered⟩ := validate_permuted σ hm
  rw [hrenumbered.weights] at hw
  obtain ⟨w', hw', rfl⟩ := map_eq_ok.mp hw
  rw [hrenumbered.meanVariance_result] at h
  exact bind_eq_ok.mpr ⟨m', hm', bind_eq_ok.mpr ⟨objective, hobjective,
    bind_eq_ok.mpr ⟨w', hw', h⟩⟩⟩

theorem riskParity_permuted (returns : Fin n → List ℝ) (labels : Fin n → String)
    (σ : Equiv.Perm (Fin n)) {result : PortfolioResult ℝ}
    (h : riskParity ⟨List.ofFn returns, List.ofFn labels⟩ = .ok result) :
    riskParity ⟨List.ofFn (returns ∘ σ), List.ofFn (labels ∘ σ)⟩ = .ok result := by
  obtain ⟨m, hm, -⟩ := bind_eq_ok.mp h
  obtain ⟨hvariance, rfl⟩ := riskParity_inv hm h
  obtain ⟨m', e, hm', hrenumbered⟩ := validate_permuted σ hm
  rw [hrenumbered.parityResult]
  exact riskParity_eq_ok hm' (hrenumbered.totalVariance ▸ hvariance)

/-- Permuting the series together with their labels changes neither whether a
result is returned nor the result: its map of weights and its three figures. -/
theorem asset_order_irrelevant (returns : Fin n → List ℝ) (labels : Fin n → String)
    (σ : Equiv.Perm (Fin n)) :
    (∀ (request : MeanVarianceRequest ℝ) (result : PortfolioResult ℝ),
      meanVariance (request.withAssets returns labels) = .ok result ↔
        meanVariance (request.withAssets (returns ∘ σ) (labels ∘ σ)) = .ok result) ∧
    ∀ result : PortfolioResult ℝ, riskParity ⟨List.ofFn returns, List.ofFn labels⟩ = .ok result ↔
      riskParity ⟨List.ofFn (returns ∘ σ), List.ofFn (labels ∘ σ)⟩ = .ok result := by
  have hback : ∀ {α : Type} (f : Fin n → α), (f ∘ σ) ∘ σ.symm = f := fun f => by
    rw [Function.comp_assoc, Equiv.self_comp_symm, Function.comp_id]
  refine ⟨fun request result => ⟨meanVariance_permuted request returns labels σ, fun h => ?_⟩,
    fun result => ⟨riskParity_permuted returns labels σ, fun h => ?_⟩⟩
  · have h' := meanVariance_permuted request (returns ∘ σ) (labels ∘ σ) σ.symm h
    rwa [hback, hback] at h'
  · have h' := riskParity_permuted (returns ∘ σ) (labels ∘ σ) σ.symm h
    rwa [hback, hback] at h'

end Requests

end StandardTools.Portfolio
