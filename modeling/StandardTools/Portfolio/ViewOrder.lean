import StandardTools.Portfolio.ExpertViews

/-!
# Views in another order of the assets (`portfolio/black_litterman.cpp:413-467`)

Caps and views are found under the labels, so the rows of the request may be
permuted. The elimination may take other pivots then and give up in one order
where it succeeds in another; where both succeed they agree.
-/

namespace StandardTools.Portfolio
open Matrix StandardTools.Core StandardTools.Lib

/-- The same assets and the same views, both numbered otherwise. -/
structure SameViews (p p' : ViewedMarket ℝ) (e : Fin p.market.assets ≃ Fin p'.market.assets)
    (v : Fin p.views ≃ Fin p'.views) : Prop where
  market : Renumbered p.market p'.market e
  marketCaps : p.marketCaps = p'.marketCaps ∘ e
  row : ∀ i, p.pMatrix i = p'.pMatrix (v i) ∘ e
  qVector : p.qVector = p'.qVector ∘ v
  tau : p.tau = p'.tau
  riskAversion : p.riskAversion = p'.riskAversion

namespace SameViews
variable {p p' : ViewedMarket ℝ} {e : Fin p.market.assets ≃ Fin p'.market.assets}
  {v : Fin p.views ≃ Fin p'.views}

theorem priorMean (h : SameViews p p' e v) : p.priorMean = p'.priorMean ∘ e := by
  have hweights : p.marketWeights = p'.marketWeights ∘ e := by
    unfold ViewedMarket.marketWeights
    rw [h.marketCaps, sumLoop_comp]
    rfl
  unfold ViewedMarket.priorMean
  rw [hweights, h.market.covariance, vecDotMat_comp, h.riskAversion]
  rfl

theorem tauSigma (h : SameViews p p' e v) : p.tauSigma = reindexed e p'.tauSigma := by
  unfold ViewedMarket.tauSigma
  rw [h.market.covariance, h.tau]
  rfl

theorem omega (h : SameViews p p' e v) : p.omega = p'.omega ∘ v := by
  funext i
  show vecDot (p.pMatrix i) (vecDotMat p.tauSigma (p.pMatrix i)) = p'.omega (v i)
  rw [h.row, h.tauSigma, vecDotMat_comp, vecDot_comp]
  rfl

theorem ptOp (h : SameViews p p' e v) (d : Fin p'.views → ℝ) :
    p.ptOp (d ∘ v) = reindexed e (p'.ptOp d) := by
  funext a b
  unfold ViewedMarket.ptOp
  simp only [h.row]
  exact sumLoop_comp v fun i => d i * p'.pMatrix i (e a) * p'.pMatrix i (e b)

theorem ptOq (h : SameViews p p' e v) (d : Fin p'.views → ℝ) : p.ptOq (d ∘ v) = p'.ptOq d ∘ e := by
  funext a
  unfold ViewedMarket.ptOq
  simp only [h.row, h.qVector]
  exact sumLoop_comp v fun i => d i * p'.qVector i * p'.pMatrix i (e a)

theorem posterior (h : SameViews p p' e v) {b : Posterior ℝ p.market.assets}
    {b' : Posterior ℝ p'.market.assets} (hb : p.posterior = .ok b) (hb' : p'.posterior = .ok b') :
    b.mean = b'.mean ∘ e ∧ b.covariance = reindexed e b'.covariance := by
  obtain ⟨d, hd, hb⟩ := bind_eq_ok.mp hb
  obtain ⟨inv, hinv, hb⟩ := bind_eq_ok.mp hb
  obtain ⟨m1Inv, hm1, hb⟩ := bind_eq_ok.mp hb
  obtain ⟨d', hd', hb'⟩ := bind_eq_ok.mp hb'
  obtain ⟨inv', hinv', hb'⟩ := bind_eq_ok.mp hb'
  obtain ⟨m1Inv', hm1', hb'⟩ := bind_eq_ok.mp hb'
  cases hb
  cases hb'
  have hconfidence : d = d' ∘ v := by
    rw [(p.omegaInv_eq_ok hd).2, (p'.omegaInv_eq_ok hd').2, h.omega]
    rfl
  subst hconfidence
  rw [h.tauSigma] at hinv
  obtain rfl := matInverse_reindexed e hinv hinv'
  rw [h.ptOp] at hm1
  obtain rfl := matInverse_reindexed e (a := matAdd inv' (p'.ptOp d')) hm1 hm1'
  refine ⟨?_, ?_⟩
  · show vecDotMat (reindexed e m1Inv') (fun i => vecDotMat (reindexed e inv') p.priorMean i +
      p.ptOq (d' ∘ v) i) = _
    rw [h.priorMean, vecDotMat_comp, h.ptOq]
    exact vecDotMat_comp e m1Inv' fun i => vecDotMat inv' p'.priorMean i + p'.ptOq d' i
  · show matAdd p.market.covariance (reindexed e m1Inv') = _
    rw [h.market.covariance]
    rfl

end SameViews

theorem optimizedWeights_comp {n n' : ℕ} (e : Fin n ≃ Fin n') {riskAversion : ℝ}
    {b : Posterior ℝ n} {b' : Posterior ℝ n'} (hmean : b.mean = b'.mean ∘ e)
    (hcov : b.covariance = reindexed e b'.covariance) {w : Fin n → ℝ} {w' : Fin n' → ℝ}
    (hw : optimizedWeights riskAversion b = .ok w)
    (hw' : optimizedWeights riskAversion b' = .ok w') : w = w' ∘ e := by
  obtain ⟨inv, hinv, hw⟩ := bind_eq_ok.mp hw
  obtain ⟨inv', hinv', hw'⟩ := bind_eq_ok.mp hw'
  rw [hcov] at hinv
  obtain rfl := matInverse_reindexed e (a := matScale b'.covariance riskAversion) hinv hinv'
  simp only [hmean, vecDotMat_comp, sumLoop_comp] at hw
  have h := (ite_error_eq_ok.mp hw).2
  have h' := (ite_error_eq_ok.mp hw').2
  cases h
  cases h'
  rfl

/-! ### Requests -/

section Requests
variable {n : ℕ}

def BlackLittermanSimplifiedRequest.withAssets (request : BlackLittermanSimplifiedRequest ℝ)
    (returns : Fin n → List ℝ) (labels : Fin n → String) : BlackLittermanSimplifiedRequest ℝ :=
  { request with returns := List.ofFn returns, labels := List.ofFn labels }

theorem sameViews_of_expands {request request' : BlackLittermanSimplifiedRequest ℝ}
    {p p' : ViewedMarket ℝ} {asset : Fin p.views → Fin p.market.assets}
    {asset' : Fin p'.views → Fin p'.market.assets} (h : Expands request p asset)
    (h' : Expands request' p' asset') (hcaps : request.marketCaps = request'.marketCaps)
    (hviews : request.views = request'.views) (htau : request.tau = request'.tau)
    (hrisk : request.riskAversion = request'.riskAversion)
    {e : Fin p.market.assets ≃ Fin p'.market.assets} (he : Renumbered p.market p'.market e) : ∃ v, SameViews p p' e v := by
  have hlists := h.views.trans ((congrArg StdMap.entries hviews).trans h'.views.symm)
  have hcount : p.views = p'.views := by
    have hlength := congrArg List.length hlists
    rwa [List.length_ofFn, List.length_ofFn] at hlength
  have hentry : ∀ i, (p.market.labels (asset i), p.qVector i) =
      (p'.market.labels (asset' (finCongr hcount i)), p'.qVector (finCongr hcount i)) := by
    intro i
    have hi := congrArg (fun l : List (String × ℝ) => l[i.val]?) hlists
    simp only [List.getElem?_ofFn] at hi
    rw [dif_pos i.isLt, dif_pos (i.isLt.trans_eq hcount)] at hi
    exact Option.some.inj hi
  have hasset : ∀ i, asset' (finCongr hcount i) = e (asset i) := by
    intro i
    apply p'.market.labels_injective
    rw [← (Prod.mk.inj (hentry i)).1, he.labels]
    rfl
  refine ⟨finCongr hcount, he, ?_, ?_, ?_, ?_, ?_⟩
  · funext a
    have ha := h.caps a
    rw [hcaps, he.labels, Function.comp_apply, h'.caps] at ha
    exact (Option.some.inj ha).symm
  · intro i
    funext a
    rw [h.row, h'.row, hasset, Function.comp_apply, Pi.single_apply, Pi.single_apply]
    simp only [EmbeddingLike.apply_eq_iff_eq]
  · funext i
    exact (Prod.mk.inj (hentry i)).2
  · rw [h.tau, h'.tau, htau]
  · rw [h.riskAversion, h'.riskAversion, hrisk]

def BlackLittermanResult.covarianceAt (result : BlackLittermanResult ℝ) (i j : ℕ) : Option ℝ := do
  (← result.covariance[i]?)[j]?

theorem covarianceAt_resultOf {p : ViewedMarket ℝ} (b : Posterior ℝ p.market.assets)
    (w : Fin p.market.assets → ℝ) (i j : Fin p.market.assets) :
    (p.resultOf b w).covarianceAt i j = some (b.covariance i j) := by
  unfold BlackLittermanResult.covarianceAt ViewedMarket.resultOf
  simp

theorem label_of_validate {returns : Fin n → List ℝ} {labels : Fin n → String}
    {m : ReturnMatrix ℝ}
    (h : validateReturnMatrix (List.ofFn returns) (List.ofFn labels) = .ok m) (i : Fin n) :
    ∃ a, a.val = i.val ∧ m.labels a = labels i := by
  obtain ⟨-, -, hlabels⟩ := validateReturnMatrix_inv h
  have hassets : m.assets = n := by
    have hlength := congrArg List.length hlabels
    rwa [List.length_ofFn, List.length_ofFn] at hlength
  have hi := congrArg (fun l : List String => l[i.val]?) hlabels
  simp only [List.getElem?_ofFn] at hi
  rw [dif_pos (i.isLt.trans_eq hassets.symm), dif_pos i.isLt] at hi
  exact ⟨⟨i, i.isLt.trans_eq hassets.symm⟩, rfl, Option.some.inj hi⟩

theorem SameViews.resultOf {p p' : ViewedMarket ℝ} {e : Fin p.market.assets ≃ Fin p'.market.assets}
    {v : Fin p.views ≃ Fin p'.views} (h : SameViews p p' e v) {b : Posterior ℝ p.market.assets}
    {b' : Posterior ℝ p'.market.assets} (hmean : b.mean = b'.mean ∘ e)
    (hcov : b.covariance = reindexed e b'.covariance) (w' : Fin p'.market.assets → ℝ) :
    (p.resultOf b (w' ∘ e)).portfolio = (p'.resultOf b' w').portfolio ∧
      (p.resultOf b (w' ∘ e)).expectedReturns = (p'.resultOf b' w').expectedReturns := by
  unfold ViewedMarket.resultOf
  simp only [hmean, hcov, h.market.labels, portfolioMetrics_comp,
    assign_labels_comp e p'.market.labels_injective, and_self]

/-- Where both orders of the assets are answered, the portfolio and the expected
returns are the same and the rows and columns of the covariances are permuted. -/
theorem expert_views_order_irrelevant (request : BlackLittermanSimplifiedRequest ℝ)
    (returns : Fin n → List ℝ) (labels : Fin n → String) (σ : Equiv.Perm (Fin n))
    {result result' : BlackLittermanResult ℝ}
    (h : blackLittermanSimplified (request.withAssets returns labels) = .ok result)
    (h' : blackLittermanSimplified (request.withAssets (returns ∘ σ) (labels ∘ σ)) = .ok result') :
    result'.portfolio = result.portfolio ∧ result'.expectedReturns = result.expectedReturns ∧
      ∀ i j : Fin n, result'.covarianceAt i j = result.covarianceAt (σ i) (σ j) := by
  obtain ⟨p, asset, b, w, hexpands, hb, hw, rfl⟩ := blackLittermanSimplified_eq_ok h
  obtain ⟨p', asset', b', w', hexpands', hb', hw', rfl⟩ := blackLittermanSimplified_eq_ok h'
  obtain ⟨market', e, hmarket', he⟩ := validate_permuted σ hexpands.market
  obtain rfl := Except.ok.inj (hmarket'.symm.trans hexpands'.market)
  obtain ⟨v, hsame⟩ := sameViews_of_expands hexpands hexpands' rfl rfl rfl rfl he
  obtain ⟨hmean, hcov⟩ := hsame.posterior hb hb'
  rw [hsame.riskAversion] at hw
  obtain rfl := optimizedWeights_comp e hmean hcov hw hw'
  obtain ⟨hportfolio, hreturns⟩ := hsame.resultOf hmean hcov w'
  refine ⟨hportfolio.symm, hreturns.symm, ?_⟩
  have hindex : ∀ i : Fin n, ∃ a, a.val = (σ i).val ∧ (e a).val = i.val := by
    intro i
    obtain ⟨a, ha, hlabel⟩ := label_of_validate hexpands.market (σ i)
    obtain ⟨a', ha', hlabel'⟩ := label_of_validate hexpands'.market i
    refine ⟨a, ha, ?_⟩
    have hsame : e a = a' := by
      apply p'.market.labels_injective
      rw [hlabel', Function.comp_apply, ← hlabel, he.labels]
      rfl
    rw [hsame, ha']
  intro i j
  obtain ⟨a, hai, hei⟩ := hindex i
  obtain ⟨c, hcj, hej⟩ := hindex j
  rw [← hai, ← hcj, ← hei, ← hej, covarianceAt_resultOf, covarianceAt_resultOf, hcov]
  rfl

end Requests

/-! ### Both orders of two assets are answered -/

theorem reindexed_diagonal {n n' : ℕ} (e : Fin n ≃ Fin n') (d : Fin n' → ℝ) :
    reindexed e (fun i j => if i = j then d i else 0) =
      fun i j => if i = j then (d ∘ e) i else 0 := by
  funext i j
  simp only [reindexed, EmbeddingLike.apply_eq_iff_eq, Function.comp_apply]

namespace SameViews
variable {p : ViewedMarket ℝ} {e : Fin p.market.assets ≃ Fin 2} {v : Fin p.views ≃ Fin 1}

theorem posterior_view (h : SameViews p (viewMarket 1) e v) :
    ∃ b, p.posterior = .ok b ∧ b.mean = (viewPosterior 1).mean ∘ e ∧
      b.covariance = reindexed e (viewPosterior 1).covariance := by
  have homega : p.omegaInv = .ok ((fun _ => 1 / stillVariance 0) ∘ v) := by
    have hone : ∀ i, p.omega i = stillVariance 0 :=
      fun i => (congrFun h.omega i).trans (omega_viewMarket 1 (v i))
    rw [ViewedMarket.omegaInv_ok]
    · simp only [hone]
      rfl
    · intro i
      rw [hone, stillVariance_zero]
      unfold degeneracyEps
      norm_num [abs_of_pos]
  have htau : p.tauSigma = fun i j => if i = j then (stillVariance ∘ e) i else 0 := by
    rw [h.tauSigma, tauSigma_viewMarket, reindexed_diagonal]
  have hsum : matAdd (fun i j => if i = j then 1 / (stillVariance ∘ e) i else 0)
      (p.ptOp ((fun _ => 1 / stillVariance 0) ∘ v)) =
      fun i j => if i = j then (viewDiagonal ∘ e) i else 0 := by
    rw [h.ptOp, ← reindexed_diagonal, ← precision_viewMarket 1]
    exact congrArg (matAdd · _) (reindexed_diagonal e fun i => 1 / stillVariance i).symm
  have hb := ViewedMarket.posterior_diagonal homega htau (fun i => covRidge_le_stillVariance (e i))
    hsum (fun i => covRidge_le_viewDiagonal (e i))
  exact ⟨_, hb, h.posterior hb (posterior_viewMarket 1)⟩

theorem optimizedWeights_view (h : SameViews p (viewMarket 1) e v) {b : Posterior ℝ p.market.assets}
    (hmean : b.mean = (viewPosterior 1).mean ∘ e)
    (hcov : b.covariance = reindexed e (viewPosterior 1).covariance) :
    ∃ w, optimizedWeights p.riskAversion b = .ok w := by
  have hdiagonal : b.covariance = fun i j => if i = j then (viewVariance ∘ e) i else 0 :=
    hcov.trans (reindexed_diagonal e viewVariance)
  have hraw : ∑ i, b.mean i / (viewVariance ∘ e) i = ∑ i, viewRaw 1 i := by
    rw [hmean]
    exact e.sum_comp (viewRaw 1)
  rw [h.riskAversion]
  exact ⟨_, optimizedWeights_diagonal p.market.assets_pos.ne' p.market.assets_le hdiagonal
    (fun i => covRidge_le_viewVariance (e i)) (by rw [hraw]; exact viewRaw_bullish)⟩

end SameViews

theorem swappedLabels_injective :
    Function.Injective fun i : Fin ["B", "A"].length => ["B", "A"].get i := by decide

/-- The assets of `stillMarket` in the other order. -/
abbrev swappedMarket : ReturnMatrix ℝ where
  assets := 2
  obs := 2
  returns := fun i t => ([[0, 0], [1, 0]].get i).getD t 0
  labels := fun i => ["B", "A"].get i
  assets_pos := stillMarket.assets_pos
  assets_le := stillMarket.assets_le
  obs_two := stillMarket.obs_two
  labels_injective := swappedLabels_injective

theorem swapped_renumbered : ∃ e, Renumbered swappedMarket stillMarket e := by
  obtain ⟨m, e, hm, he⟩ :=
    @validate_permuted 2 (Equiv.swap 0 1) ![[0, 0], [1, 0]] !["B", "A"] swappedMarket rfl
  obtain rfl := Except.ok.inj (validateReturnMatrix_still.symm.trans hm)
  exact ⟨e, he⟩

theorem bullishExpert_swapped : ∃ result,
    blackLittermanSimplified (bullishExpert.withAssets ![[0, 0], [1, 0]] !["B", "A"]) =
      .ok result := by
  have hexpand := @bullishExpert_expand [[0, 0], [1, 0]] ["B", "A"] [0, 1]
    (List.cons_ne_nil _ _) (fun _ hlabel => bullishExpert_caps (List.mem_pair.mp hlabel).symm) rfl
  have hvalid := @validate_singleView swappedMarket [[0, 0], [1, 0]] ["B", "A"] [0, 1] 1 rfl rfl
    (by simp [checkViewRow])
  obtain ⟨asset, hswapped⟩ := expand_eq_ok hexpand hvalid
  obtain ⟨asset', hstill⟩ := expand_eq_ok (bullishExpert_expand (List.cons_ne_nil _ _)
    (fun _ hlabel => bullishExpert_caps (List.mem_pair.mp hlabel)) rfl) (validate_viewRequest 1)
  obtain ⟨e, he⟩ := swapped_renumbered
  obtain ⟨v, hsame⟩ := sameViews_of_expands hswapped hstill rfl rfl rfl rfl he
  obtain ⟨b, hb, hmean, hcov⟩ := hsame.posterior_view
  obtain ⟨w, hw⟩ := hsame.optimizedWeights_view hmean hcov
  exact ⟨_, bind_eq_ok.mpr ⟨_, hexpand, blackLitterman_eq_ok.mpr ⟨_, b, w, hvalid, hb, hw, rfl⟩⟩⟩

theorem expert_views_order_bullish : ∃ result result',
    blackLittermanSimplified (bullishExpert.withAssets ![[1, 0], [0, 0]] !["A", "B"]) =
      .ok result ∧
    blackLittermanSimplified (bullishExpert.withAssets ![[0, 0], [1, 0]] !["B", "A"]) =
      .ok result' ∧ result'.portfolio = result.portfolio ∧
    result'.covarianceAt 0 1 = result.covarianceAt 1 0 ∧
    result'.covarianceAt 0 0 = result.covarianceAt 1 1 := by
  obtain ⟨result, hresult⟩ := bullishExpert_ok
  obtain ⟨result', hresult'⟩ := bullishExpert_swapped
  obtain ⟨hportfolio, -, hcov⟩ := expert_views_order_irrelevant bullishExpert ![[1, 0], [0, 0]]
    !["A", "B"] (Equiv.swap 0 1) hresult hresult'
  exact ⟨result, result', hresult, hresult', hportfolio, hcov 0 1, hcov 0 0⟩

end StandardTools.Portfolio
