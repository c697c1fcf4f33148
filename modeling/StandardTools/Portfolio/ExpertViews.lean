import Mathlib.Data.List.Forall2
import StandardTools.Portfolio.AssetOrder
import StandardTools.Portfolio.MasterFormula

/-!
# Views of experts (`portfolio/black_litterman.cpp:413-467`)

The simplified request keys market caps and views by the labels. It is expanded
into a request with a row of `P` for each view, which picks out one asset, and
goes the way of all requests.
-/

namespace StandardTools.Portfolio
open Matrix StandardTools.Core StandardTools.Lib

section Source
variable {K : Type} [Double K]

/-- Caps and views under the labels of the assets (`black_litterman.hpp:40-58`). -/
structure BlackLittermanSimplifiedRequest (K : Type) where
  returns : List (List K)
  labels : List String
  marketCaps : StdMap K
  views : StdMap K
  tau : K
  riskAversion : K

/-- The cap of one label; a map finds it in any order. -/
def orderedCap (marketCaps : StdMap K) (label : String) : Except Error K :=
  match marketCaps.find? label with
  | none => .error (.invalidCommand ("missing market cap for asset " ++ label))
  | some cap =>
    if cap ≤ 0 ∨ !Double.isFinite cap then
      .error (.invalidCommand ("market cap for " ++ label ++ " must be positive and finite"))
    else .ok cap

/-- A view on one asset is a unit row of `P`. -/
def viewRow (labels : List String) (view : String × K) : Except Error (List K) :=
  match labels.idxOf? view.1 with
  | none => .error (.invalidCommand ("unknown view asset " ++ view.1))
  | some idx => .ok ((List.replicate labels.length 0).set idx 1)

def BlackLittermanSimplifiedRequest.expand (req : BlackLittermanSimplifiedRequest K) :
    Except Error (BlackLittermanRequest K) :=
  if req.labels = [] then .error (.dataQuality "labels must not be empty")
  else if req.views.entries = [] then
    .error (.invalidCommand "at least one expert view is required")
  else if req.tau ≤ 0 ∨ !Double.isFinite req.tau then
    .error (.invalidCommand "tau must be a positive finite number")
  else if req.riskAversion ≤ 0 ∨ !Double.isFinite req.riskAversion then
    .error (.invalidCommand "risk_aversion must be a positive finite number")
  else do
    let orderedCaps ← req.labels.mapM (orderedCap req.marketCaps)
    let pRows ← req.views.entries.mapM (viewRow req.labels)
    return {
      returns := req.returns
      labels := req.labels
      marketCaps := orderedCaps
      pMatrix := pRows
      qVector := req.views.entries.map (·.2)
      tau := req.tau
      riskAversion := req.riskAversion }

def blackLittermanSimplified (req : BlackLittermanSimplifiedRequest K) :
    Except Error (BlackLittermanResult K) := do
  blackLitterman (← req.expand)

end Source

/-! ### The checked request of the expansion -/

theorem checkViewRow_eq_ok {n : ℕ} {row : List ℝ × ℕ} (h : checkViewRow n row = .ok ()) :
    row.1.length = n := by
  unfold checkViewRow at h
  split at h
  · cases h
  · exact not_not.mp ‹_›

theorem ofFn_get_getD {rows : List (List ℝ)} {n : ℕ} (h : ∀ row ∈ rows, row.length = n) :
    (List.ofFn fun i => List.ofFn fun a : Fin n => (rows.get i).getD a 0) = rows := by
  refine List.ext_getElem (by simp) fun i hi hi' => ?_
  rw [List.getElem_ofFn]
  exact ofFn_getD (h _ (List.getElem_mem hi'))

theorem validateBlackLittermanRequest_inv {full : BlackLittermanRequest ℝ} {p : ViewedMarket ℝ}
    (h : validateBlackLittermanRequest full = .ok p) :
    validateReturnMatrix full.returns full.labels = .ok p.market ∧
      List.ofFn p.marketCaps = full.marketCaps ∧
      (List.ofFn fun i => List.ofFn (p.pMatrix i)) = full.pMatrix ∧
      List.ofFn p.qVector = full.qVector ∧ p.tau = full.tau ∧
      p.riskAversion = full.riskAversion := by
  unfold validateBlackLittermanRequest at h
  split at h
  · cases h
  split at h
  · cases h
  obtain ⟨market, hmarket, h⟩ := bind_eq_ok.mp h
  by_cases hcaps : full.marketCaps.length ≠ market.assets
  · rw [if_pos hcaps] at h
    cases h
  rw [if_neg hcaps] at h
  cases hfind : full.marketCaps.findIdx? fun cap => decide (cap ≤ 0) || !Double.isFinite cap with
  | some i =>
    rw [hfind] at h
    cases h
  | none =>
    rw [hfind] at h
    simp only at h
    split at h
    · cases h
    split at h
    · cases h
    case isFalse hviews hlength =>
      obtain ⟨u, hrows, h⟩ := bind_eq_ok.mp h
      cases h
      have hwidth : ∀ row ∈ full.pMatrix, row.length = market.assets := by
        intro row hrow
        obtain ⟨i, hi⟩ := List.mem_iff_getElem?.mp hrow
        exact checkViewRow_eq_ok
          (forM_eq_ok.mp hrows (row, i) (List.mem_zipIdx_iff_getElem?.mpr hi))
      exact ⟨hmarket, ofFn_getD (not_not.mp hcaps), ofFn_get_getD hwidth,
        ofFn_getD (not_not.mp hlength).symm, rfl, rfl⟩

/-- The checked request as the labels tell it: a cap for every asset, and for every
view the asset and the return it expects. -/
structure Expands (request : BlackLittermanSimplifiedRequest ℝ) (p : ViewedMarket ℝ)
    (asset : Fin p.views → Fin p.market.assets) : Prop where
  market : validateReturnMatrix request.returns request.labels = .ok p.market
  tau : p.tau = request.tau
  riskAversion : p.riskAversion = request.riskAversion
  caps : ∀ a, request.marketCaps.find? (p.market.labels a) = some (p.marketCaps a)
  views : List.ofFn (fun i => (p.market.labels (asset i), p.qVector i)) = request.views.entries
  row : ∀ i, p.pMatrix i = Pi.single (asset i) 1

theorem forall₂_ofFn {α β : Type} {R : α → β → Prop} {n : ℕ} {f : Fin n → α} {g : Fin n → β} :
    List.Forall₂ R (List.ofFn f) (List.ofFn g) ↔ ∀ i, R (f i) (g i) := by
  rw [List.forall₂_iff_get]
  simp only [List.length_ofFn, List.get_ofFn, true_and]
  constructor
  · intro h i
    exact h i i.isLt i.isLt
  · intro h i hi _
    exact h ⟨i, hi⟩

theorem orderedCap_eq_ok {marketCaps : StdMap ℝ} {label : String} {cap : ℝ}
    (h : orderedCap marketCaps label = .ok cap) : marketCaps.find? label = some cap := by
  unfold orderedCap at h
  cases hfind : marketCaps.find? label with
  | none =>
    rw [hfind] at h
    cases h
  | some cap' =>
    rw [hfind] at h
    exact congrArg some (Except.ok.inj (ite_error_eq_ok.mp h).2)

theorem viewRow_eq_ok {labels : List String} {view : String × ℝ} {row : List ℝ}
    (h : viewRow labels view = .ok row) :
    ∃ idx, labels[idx]? = some view.1 ∧ row = (List.replicate labels.length 0).set idx 1 := by
  unfold viewRow at h
  cases hidx : labels.idxOf? view.1 with
  | none =>
    rw [hidx] at h
    cases h
  | some idx =>
    rw [hidx] at h
    obtain ⟨hlt, hlabel, -⟩ := List.idxOf?_eq_some_iff.mp hidx
    exact ⟨idx, List.getElem?_eq_some_iff.mpr ⟨hlt, hlabel⟩, (Except.ok.inj h).symm⟩

theorem exists_ofFn {α : Type} {l : List α} {n : ℕ} (h : l.length = n) :
    ∃ f : Fin n → α, List.ofFn f = l := by
  subst h
  exact ⟨l.get, List.ofFn_get l⟩

theorem viewRow_single {n : ℕ} {label : Fin n → String} {labels : List String}
    (hlabels : List.ofFn label = labels) {view : String × ℝ} {row : Fin n → ℝ}
    (h : viewRow labels view = .ok (List.ofFn row)) :
    ∃ a, label a = view.1 ∧ row = Pi.single a 1 := by
  subst hlabels
  obtain ⟨idx, hidx, hrow⟩ := viewRow_eq_ok h
  obtain ⟨hlt, hlabel⟩ := List.getElem?_eq_some_iff.mp hidx
  rw [List.getElem_ofFn] at hlabel
  rw [List.length_ofFn] at hlt hrow
  refine ⟨⟨idx, hlt⟩, hlabel, funext fun a => ?_⟩
  have ha := congrArg (fun l : List ℝ => l[a.val]?) hrow
  simp only [List.getElem?_ofFn, a.isLt, dif_pos, List.getElem?_set] at ha
  rw [List.getElem?_replicate, if_pos a.isLt] at ha
  rw [Pi.single_apply]
  by_cases hsame : a = ⟨idx, hlt⟩
  · rw [if_pos (congrArg Fin.val hsame).symm, List.length_replicate, if_pos hlt] at ha
    rw [if_pos hsame]
    exact Option.some.inj ha
  · rw [if_neg fun hidx => hsame (Fin.ext hidx.symm)] at ha
    rw [if_neg hsame]
    exact Option.some.inj ha

theorem expand_eq_ok {request : BlackLittermanSimplifiedRequest ℝ} {full : BlackLittermanRequest ℝ}
    {p : ViewedMarket ℝ} (hexpand : request.expand = .ok full)
    (hp : validateBlackLittermanRequest full = .ok p) :
    ∃ asset, Expands request p asset := by
  have h := (ite_error_eq_ok.mp (ite_error_eq_ok.mp (ite_error_eq_ok.mp (ite_error_eq_ok.mp
    hexpand).2).2).2).2
  obtain ⟨caps, hcaps, h⟩ := bind_eq_ok.mp h
  obtain ⟨rows, hrows, h⟩ := bind_eq_ok.mp h
  cases h
  obtain ⟨hmarket, hpcaps, hprows, hq, htau, hrisk⟩ := validateBlackLittermanRequest_inv hp
  simp only at hmarket hpcaps hprows hq
  obtain ⟨-, -, hlabels⟩ := validateReturnMatrix_inv hmarket
  have hlength : request.views.entries.length = p.views := by
    have h := congrArg List.length hq
    rw [List.length_ofFn, List.length_map] at h
    exact h.symm
  obtain ⟨entry, hentry⟩ := exists_ofFn hlength
  have hasset : ∀ i, ∃ a, p.market.labels a = (entry i).1 ∧ p.pMatrix i = Pi.single a 1 := by
    have hall := mapM_eq_ok.mp hrows
    rw [← hprows, ← hentry, forall₂_ofFn] at hall
    intro i
    exact viewRow_single hlabels (hall i)
  choose asset hasset using hasset
  refine ⟨asset, hmarket, htau, hrisk, ?_, ?_, fun i => (hasset i).2⟩
  · have hall := mapM_eq_ok.mp hcaps
    rw [← hpcaps, ← hlabels, forall₂_ofFn] at hall
    exact fun a => orderedCap_eq_ok (hall a)
  · rw [← hentry, List.map_ofFn] at hq
    rw [← hentry]
    refine congrArg List.ofFn (funext fun i => ?_)
    exact Prod.ext (hasset i).1 (congrFun (List.ofFn_injective hq) i)

/-! ### Views that agree with the market -/

section Expanded
variable {request : BlackLittermanSimplifiedRequest ℝ} {result : BlackLittermanResult ℝ}
  {p : ViewedMarket ℝ} {asset : Fin p.views → Fin p.market.assets}

theorem blackLittermanSimplified_eq_ok (h : blackLittermanSimplified request = .ok result) :
    ∃ p asset b w, Expands request p asset ∧ p.posterior = .ok b ∧
      optimizedWeights p.riskAversion b = .ok w ∧ result = p.resultOf b w := by
  obtain ⟨full, hexpand, h⟩ := bind_eq_ok.mp h
  obtain ⟨p, b, w, hp, hb, hw, hresult⟩ := blackLitterman_eq_ok.mp h
  obtain ⟨asset, hexpands⟩ := expand_eq_ok hexpand hp
  exact ⟨p, asset, b, w, hexpands, hb, hw, hresult⟩

theorem Expands.injective (h : Expands request p asset) : Function.Injective asset := by
  have hkeys : (request.views.entries.map Prod.fst).Nodup :=
    List.pairwise_map.mpr (request.views.sorted.imp fun hlt => ne_of_lt hlt)
  rw [← h.views, List.map_ofFn, List.nodup_ofFn] at hkeys
  intro i j hij
  apply hkeys
  exact congrArg p.market.labels hij

theorem Expands.mem_views_iff (h : Expands request p asset) {a : Fin p.market.assets} {q : ℝ} :
    (p.market.labels a, q) ∈ request.views.entries ↔ ∃ i, asset i = a ∧ p.qVector i = q := by
  rw [← h.views, List.mem_ofFn]
  constructor
  · rintro ⟨i, hi⟩
    exact ⟨i, p.market.labels_injective (congrArg Prod.fst hi), congrArg Prod.snd hi⟩
  · rintro ⟨i, rfl, rfl⟩
    exact ⟨i, rfl⟩

theorem Expands.pMatrix_mulVec (h : Expands request p asset) (x : Fin p.market.assets → ℝ) :
    Matrix.of p.pMatrix *ᵥ x = x ∘ asset := by
  funext i
  show p.pMatrix i ⬝ᵥ x = x (asset i)
  rw [h.row, single_one_dotProduct]

theorem Expands.transpose_injective (h : Expands request p asset) (y : Fin p.views → ℝ)
    (hy : (Matrix.of p.pMatrix)ᵀ *ᵥ y = 0) : y = 0 := by
  funext i
  have hi := congrFun hy (asset i)
  rw [mulVec, dotProduct, Finset.sum_eq_single i] at hi
  · simpa [h.row] using hi
  · intro j _ hj
    have hne : asset i ≠ asset j := fun heq => hj (h.injective heq).symm
    simp [h.row, hne]
  · exact fun hi => absurd (Finset.mem_univ i) hi

theorem mem_expectedReturns_iff {b : Posterior ℝ p.market.assets} {w : Fin p.market.assets → ℝ}
    {a : Fin p.market.assets} {x : ℝ} :
    (p.market.labels a, x) ∈ (p.resultOf b w).expectedReturns.entries ↔ x = b.mean a := by
  have hperm := assign_labels_perm p.market.labels_injective b.mean
  have hmem : (p.market.labels a, b.mean a) ∈ (p.resultOf b w).expectedReturns.entries :=
    hperm.mem_iff.mpr (List.mem_map.mpr ⟨a, List.mem_finRange a, rfl⟩)
  constructor
  · intro h
    exact StdMap.eq_of_mem _ h hmem
  · rintro rfl
    exact hmem

end Expanded

/-- The returned means are those that the caps imply exactly when every view expects
what they imply of its asset; the asset of a single view ends up half way between. -/
theorem expert_views_equilibrium_iff {request : BlackLittermanSimplifiedRequest ℝ}
    {result : BlackLittermanResult ℝ} (hresult : blackLittermanSimplified request = .ok result) :
    ∃ p : ViewedMarket ℝ, validateReturnMatrix request.returns request.labels = .ok p.market ∧
      p.riskAversion = request.riskAversion ∧
      (∀ a, request.marketCaps.find? (p.market.labels a) = some (p.marketCaps a)) ∧
      ((∀ a, (p.market.labels a, p.priorMean a) ∈ result.expectedReturns.entries) ↔
        ∀ a q, (p.market.labels a, q) ∈ request.views.entries → q = p.priorMean a) ∧
      ∀ a q, request.views.entries = [(p.market.labels a, q)] →
        (p.market.labels a, (p.priorMean a + q) / 2) ∈ result.expectedReturns.entries := by
  obtain ⟨p, asset, b, w, hexpands, hb, hw, rfl⟩ := blackLittermanSimplified_eq_ok hresult
  obtain ⟨homega, hmean, -⟩ := p.posterior_eq_ok hb
  refine ⟨p, hexpands.market, hexpands.riskAversion, hexpands.caps, ?_, ?_⟩
  · simp only [mem_expectedReturns_iff, hmean, hexpands.mem_views_iff]
    have hmoved := viewMean_eq_prior_iff p.tauSigma_posDef homega p.priorMean p.qVector
      hexpands.transpose_injective
    rw [hexpands.pMatrix_mulVec] at hmoved
    constructor
    · rintro h a q ⟨i, rfl, rfl⟩
      exact congrFun (hmoved.mp (funext fun a => (h a).symm)) i
    · intro h a
      have hq : p.qVector = p.priorMean ∘ asset := funext fun i => h _ _ ⟨i, rfl, rfl⟩
      exact (congrFun (hmoved.mpr hq) a).symm
  · intro a q hsingle
    obtain ⟨i, rfl, rfl⟩ := hexpands.mem_views_iff.mp (hsingle ▸ List.mem_singleton_self _)
    have hviews : p.views = 1 := by
      have h := congrArg List.length hexpands.views
      rwa [List.length_ofFn, hsingle] at h
    have hhalf := p.posteriorMean_single homega hviews i
    rw [hexpands.row, single_one_dotProduct, single_one_dotProduct, one_add_one_eq_two] at hhalf
    rw [mem_expectedReturns_iff, hmean]
    exact hhalf.symm

/-- `A` is expected to double. -/
def bullishExpert : BlackLittermanSimplifiedRequest ℝ where
  returns := [[1, 0], [0, 0]]
  labels := ["A", "B"]
  marketCaps := ⟨[("A", 1), ("B", 1)], List.pairwise_pair.mpr (by decide +kernel)⟩
  views := ⟨[("A", 1)], List.pairwise_singleton _ _⟩
  tau := 1
  riskAversion := 1

theorem bullishExpert_expand {returns : List (List ℝ)} {labels : List String} {row : List ℝ}
    (hne : labels ≠ [])
    (hcaps : ∀ label ∈ labels, bullishExpert.marketCaps.find? label = some 1)
    (hrow : viewRow labels ("A", (1 : ℝ)) = .ok row) :
    { bullishExpert with returns := returns, labels := labels }.expand =
      .ok ⟨returns, labels, labels.map fun _ => 1, [row], [1], 1, 1⟩ := by
  have hpos : ¬((1 : ℝ) ≤ 0 ∨ !Double.isFinite (1 : ℝ)) := by simp
  have hall : labels.mapM (orderedCap bullishExpert.marketCaps) = .ok (labels.map fun _ => 1) := by
    refine mapM_eq_ok.mpr (List.forall₂_map_right_iff.mpr (List.forall₂_same.mpr ?_))
    intro label hlabel
    unfold orderedCap
    rw [hcaps label hlabel]
    exact if_neg hpos
  have hrows : bullishExpert.views.entries.mapM (viewRow labels) = .ok [row] :=
    mapM_eq_ok.mpr (.cons hrow .nil)
  unfold BlackLittermanSimplifiedRequest.expand
  rw [if_neg hne,
    if_neg (show bullishExpert.views.entries ≠ [] from List.cons_ne_nil _ _)]
  refine (if_neg hpos).trans ((if_neg hpos).trans ?_)
  exact bind_eq_ok.mpr ⟨_, hall, bind_eq_ok.mpr ⟨_, hrows, rfl⟩⟩

theorem bullishExpert_caps {label : String} (h : label = "A" ∨ label = "B") :
    bullishExpert.marketCaps.find? label = some 1 := by
  obtain rfl | rfl := h
  · rfl
  · rfl

theorem bullishExpert_ok : ∃ result, blackLittermanSimplified bullishExpert = .ok result :=
  ⟨_, bind_eq_ok.mpr ⟨_, bullishExpert_expand (List.cons_ne_nil _ _)
    (fun _ hlabel => bullishExpert_caps (List.mem_pair.mp hlabel)) rfl,
    blackLitterman_view viewRaw_bullish⟩⟩

theorem expert_views_equilibrium_bullish : ∃ result,
    blackLittermanSimplified bullishExpert = .ok result ∧
      ∃ p : ViewedMarket ℝ, validateReturnMatrix bullishExpert.returns bullishExpert.labels =
        .ok p.market ∧ ∀ a, bullishExpert.views.entries = [(p.market.labels a, 1)] →
          (p.market.labels a, (p.priorMean a + 1) / 2) ∈ result.expectedReturns.entries := by
  obtain ⟨result, hresult⟩ := bullishExpert_ok
  obtain ⟨p, hmarket, -, -, -, hhalf⟩ := expert_views_equilibrium_iff hresult
  exact ⟨result, hresult, p, hmarket, fun a => hhalf a 1⟩

end StandardTools.Portfolio
