import Mathlib.Data.Multiset.Pi
import StandardTools.Backtest.Windows

/-!
# Grid search (`backtest/walk_forward.cpp:14-94`)

The combinations are built key by key, in the order of an `unordered_map`. What
comes out depends on that order as a list only: as a multiset it is the product
of the value lists. `Optimize` then keeps the best combination which runs.
-/

namespace StandardTools.Backtest
open StandardTools.Core StandardTools.Lib

variable {K : Type}

/-! ### The product of the value lists -/

def gridValues (grid : List (String × List K)) (key : String) : List K := (grid.lookup key).getD []

/-- The keys which have values. -/
def gridKeys (grid : List (String × List K)) : List String :=
  (grid.filter fun entry => !entry.2.isEmpty).map Prod.fst

def gridSize (grid : List (String × List K)) : ℕ :=
  ((grid.filter fun entry => !entry.2.isEmpty).map fun entry => entry.2.length).prod

def atPositions (keys : Multiset String) (values : String → List K)
    (position : ∀ key ∈ keys, ℕ) : ParamMap K :=
  fun key => if h : key ∈ keys then (values key)[position key h]? else none

/-- The assignments which choose one list position for every key. -/
def assignments (keys : Multiset String) (values : String → List K) : Multiset (ParamMap K) :=
  (keys.pi fun key => Multiset.range (values key).length).map (atPositions keys values)

/-- The entries of the first map before those of the second. -/
def overlay (upper base : ParamMap K) : ParamMap K := fun key => (upper key).or (base key)

/-- `set`, with what was found at a position. -/
def setFound (key : String) (found : Option K) (params : ParamMap K) : ParamMap K :=
  fun k => if k = key then found else params k

theorem bind_range {β : Type} (l : List K) (f : Option K → Multiset β) :
    ((Multiset.range l.length).bind fun i => f l[i]?) =
      (l : Multiset K).bind fun v => f (some v) := by
  induction l using List.reverseRecOn with
  | nil => rfl
  | append_singleton l v ih =>
    have hfront : ∀ i ∈ Multiset.range l.length, f (l ++ [v])[i]? = f l[i]? := by
      intro i hi
      rw [List.getElem?_append_left (Multiset.mem_range.mp hi)]
    rw [List.length_append, List.length_singleton, Multiset.range_succ, Multiset.cons_bind,
      Multiset.bind_congr hfront, ih, List.getElem?_concat_length, ← Multiset.coe_add,
      Multiset.add_bind, Multiset.coe_singleton, Multiset.singleton_bind, add_comm]

theorem assignments_zero (values : String → List K) :
    assignments 0 values = {ParamMap.empty} := rfl

/-- A position for one more key. -/
theorem atPositions_cons (keys : Multiset String) (key : String) (values : String → List K) (i : ℕ)
    (position : ∀ key ∈ keys, ℕ) :
    atPositions (key ::ₘ keys) values (Multiset.Pi.cons keys key i position) =
      setFound key (values key)[i]? (atPositions keys values position) := by
  funext k
  unfold atPositions setFound
  dsimp only
  by_cases hk : k = key
  · subst hk
    rw [dif_pos (Multiset.mem_cons_self k keys), Multiset.Pi.cons_same, if_pos rfl]
  · rw [if_neg hk]
    by_cases hmem : k ∈ keys
    · rw [dif_pos (Multiset.mem_cons_of_mem hmem), dif_pos hmem, Multiset.Pi.cons_ne _ hk]
    · rw [dif_neg (mt Multiset.mem_cons.mp (not_or.mpr ⟨hk, hmem⟩)), dif_neg hmem]

theorem assignments_cons (keys : Multiset String) (key : String) (values : String → List K) :
    assignments (key ::ₘ keys) values = (values key : Multiset K).bind fun v =>
      (assignments keys values).map fun params => params.set key v := by
  have hpositions : assignments (key ::ₘ keys) values =
      (Multiset.range (values key).length).bind fun i =>
        (assignments keys values).map (setFound key (values key)[i]?) := by
    unfold assignments
    rw [Multiset.pi_cons, Multiset.map_bind]
    refine Multiset.bind_congr fun i _ => ?_
    rw [Multiset.map_map, Multiset.map_map]
    exact Multiset.map_congr rfl fun position _ => atPositions_cons keys key values i position
  exact hpositions.trans
    (bind_range (values key) fun found => (assignments keys values).map (setFound key found))

theorem assignments_fresh {keys : Multiset String} {key : String} (h : key ∉ keys)
    {values : String → List K} {params : ParamMap K} (hparams : params ∈ assignments keys values) :
    params key = none := by
  obtain ⟨position, -, rfl⟩ := Multiset.mem_map.mp hparams
  exact dif_neg h

/-! ### Building the combinations -/

/-- A map which does not have the key is not told apart from one in which it is set. -/
theorem overlay_set {keys : Multiset String} {key : String} (h : key ∉ keys)
    {values : String → List K} {params : ParamMap K} (hparams : params ∈ assignments keys values)
    (base : ParamMap K) (v : K) :
    overlay params (base.set key v) = overlay (params.set key v) base := by
  funext k
  unfold overlay ParamMap.set
  by_cases hk : k = key
  · rw [if_pos hk, if_pos hk, hk, assignments_fresh h hparams, Option.none_or, Option.some_or]
  · rw [if_neg hk, if_neg hk]

theorem length_extended (bases : List (ParamMap K)) (entry : String × List K) :
    (bases.flatMap fun base => entry.2.map fun value => base.set entry.1 value).length =
      bases.length * entry.2.length := by
  simp [List.length_flatMap]

theorem extendCombinations_eq_ok {bases next : List (ParamMap K)} {entry : String × List K}
    (hne : entry.2 ≠ []) :
    extendCombinations bases entry = .ok next ↔
      bases.length * entry.2.length ≤ maxWalkForwardCombinations ∧
        (bases.flatMap fun base => entry.2.map fun value => base.set entry.1 value) = next := by
  unfold extendCombinations
  rw [if_neg hne]
  simp only [length_extended]
  split_ifs with hmax
  · simp [hmax]
  · simp [not_lt.mp hmax]

theorem gridKeys_cons (entry : String × List K) (grid : List (String × List K)) :
    gridKeys (entry :: grid) =
      if entry.2 = [] then gridKeys grid else entry.1 :: gridKeys grid := by
  unfold gridKeys
  rw [List.filter_cons]
  by_cases hempty : entry.2 = []
  · simp [hempty]
  · simp [hempty]

/-- By induction on the keys: what the loop makes of a list of bases. -/
theorem foldlM_extendCombinations {grid : List (String × List K)}
    (hkeys : (grid.map Prod.fst).Nodup) {values : String → List K}
    (hvalues : ∀ entry ∈ grid, values entry.1 = entry.2) {bases combinations : List (ParamMap K)}
    (h : grid.foldlM extendCombinations bases = .ok combinations) :
    (combinations : Multiset (ParamMap K)) = (bases : Multiset (ParamMap K)).bind fun base =>
      (assignments (gridKeys grid) values).map fun params => overlay params base := by
  induction grid generalizing bases with
  | nil =>
    cases h
    have hnone : ∀ base : ParamMap K, overlay ParamMap.empty base = base := fun base => by
      funext key
      exact Option.none_or
    show _ = Multiset.bind _ fun base =>
      (assignments 0 values).map fun params => overlay params base
    simp only [assignments_zero, Multiset.map_singleton, hnone]
    rw [Multiset.bind_singleton, Multiset.map_id']
  | cons entry grid ih =>
    obtain ⟨hfresh, hrest⟩ := List.nodup_cons.mp hkeys
    obtain ⟨next, hnext, h⟩ := bind_eq_ok.mp h
    have hih := ih hrest (fun e he => hvalues e (List.mem_cons_of_mem _ he)) h
    rw [gridKeys_cons]
    by_cases hempty : entry.2 = []
    · unfold extendCombinations at hnext
      rw [if_pos hempty] at hnext
      cases hnext
      rw [if_pos hempty]
      exact hih
    · obtain ⟨-, rfl⟩ := (extendCombinations_eq_ok hempty).mp hnext
      have hmem : entry.1 ∉ (gridKeys grid : Multiset String) := fun hmem => by
        refine hfresh (List.Sublist.subset ?_ hmem)
        exact List.filter_sublist.map Prod.fst
      rw [if_neg hempty, ← Multiset.cons_coe, assignments_cons, hvalues entry List.mem_cons_self,
        hih, ← Multiset.coe_bind, Multiset.bind_assoc]
      refine Multiset.bind_congr fun base _ => ?_
      rw [Multiset.map_bind, ← Multiset.map_coe, Multiset.bind_map]
      refine Multiset.bind_congr fun v _ => ?_
      rw [Multiset.map_map]
      exact Multiset.map_congr rfl fun params hparams => overlay_set hmem hparams base v

theorem gridSize_cons (entry : String × List K) (grid : List (String × List K)) :
    gridSize (entry :: grid) =
      if entry.2 = [] then gridSize grid else entry.2.length * gridSize grid := by
  unfold gridSize
  rw [List.filter_cons]
  by_cases hempty : entry.2 = []
  · simp [hempty]
  · simp [hempty]

theorem gridSize_pos (grid : List (String × List K)) : 0 < gridSize grid := by
  induction grid with
  | nil => exact Nat.one_pos
  | cons entry grid ih =>
    rw [gridSize_cons]
    split_ifs with hempty
    · exact ih
    · exact Nat.mul_pos (List.length_pos_iff.mpr hempty) ih

/-- Every factor is at least 1, so no partial product is past the cap before the
whole product is. -/
theorem foldlM_extendCombinations_ok {grid : List (String × List K)} {bases : List (ParamMap K)}
    (hne : bases ≠ []) (hmax : bases.length ≤ maxWalkForwardCombinations) :
    (∃ combinations, grid.foldlM extendCombinations bases = .ok combinations) ↔
      bases.length * gridSize grid ≤ maxWalkForwardCombinations := by
  induction grid generalizing bases with
  | nil =>
    have hsize : gridSize ([] : List (String × List K)) = 1 := rfl
    rw [hsize, Nat.mul_one]
    exact iff_of_true ⟨bases, rfl⟩ hmax
  | cons entry grid ih =>
    rw [gridSize_cons]
    by_cases hempty : entry.2 = []
    · have hskip : extendCombinations bases entry = .ok bases := if_pos hempty
      rw [if_pos hempty, ← ih hne hmax, List.foldlM_cons, hskip]
      rfl
    · rw [if_neg hempty, ← Nat.mul_assoc, ← length_extended]
      have hnext : (bases.flatMap fun base => entry.2.map fun value =>
          base.set entry.1 value) ≠ [] := by
        rw [ne_eq, ← List.length_eq_zero_iff, length_extended]
        exact (Nat.mul_pos (List.length_pos_iff.mpr hne) (List.length_pos_iff.mpr hempty)).ne'
      constructor
      · rintro ⟨combinations, h⟩
        obtain ⟨next, hstep, h⟩ := bind_eq_ok.mp h
        obtain ⟨hle, rfl⟩ := (extendCombinations_eq_ok hempty).mp hstep
        exact (ih hnext ((length_extended bases entry).trans_le hle)).mp ⟨combinations, h⟩
      · intro hle
        have hcap := (Nat.le_mul_of_pos_right _ (gridSize_pos grid)).trans hle
        obtain ⟨combinations, h⟩ := (ih hnext hcap).mpr hle
        have hstep := (extendCombinations_eq_ok hempty).mpr
          ⟨(length_extended bases entry).symm.trans_le hcap, rfl⟩
        exact ⟨combinations, bind_eq_ok.mpr ⟨_, hstep, h⟩⟩

theorem buildParamCombinations_ok {grid : List (String × List K)} :
    (∃ combinations, buildParamCombinations grid = .ok combinations) ↔
      gridSize grid ≤ maxWalkForwardCombinations := by
  have hone : [(ParamMap.empty : ParamMap K)].length ≤ maxWalkForwardCombinations := by
    rw [List.length_singleton]
    decide
  have hfold := @foldlM_extendCombinations_ok K grid [ParamMap.empty] (List.cons_ne_nil _ _) hone
  rwa [List.length_singleton, Nat.one_mul] at hfold

theorem buildParamCombinations_error {grid : List (String × List K)} :
    (∃ e, buildParamCombinations grid = .error e) ↔ maxWalkForwardCombinations < gridSize grid := by
  rw [← not_le, ← buildParamCombinations_ok]
  cases buildParamCombinations grid with
  | error e => simp
  | ok combinations => simp

theorem gridValues_of_mem {grid : List (String × List K)} (hkeys : (grid.map Prod.fst).Nodup)
    {entry : String × List K} (hentry : entry ∈ grid) : gridValues grid entry.1 = entry.2 := by
  unfold gridValues
  induction grid with
  | nil => exact absurd hentry List.not_mem_nil
  | cons first grid ih =>
    obtain ⟨hfresh, hrest⟩ := List.nodup_cons.mp hkeys
    rcases List.mem_cons.mp hentry with rfl | hmem
    · rw [List.lookup_cons_self, Option.getD_some]
    · have hne : (entry.1 == first.1) = false :=
        beq_eq_false_iff_ne.mpr fun heq => hfresh (heq ▸ List.mem_map_of_mem hmem)
      obtain ⟨key, values⟩ := first
      rw [List.lookup_cons, hne]
      exact ih hrest hmem

/-- Whatever the order of the keys. -/
theorem buildParamCombinations_eq {grid grid' : List (String × List K)}
    (hkeys : (grid.map Prod.fst).Nodup) (hperm : grid'.Perm grid)
    {combinations : List (ParamMap K)} (h : buildParamCombinations grid' = .ok combinations) :
    (combinations : Multiset (ParamMap K)) = assignments (gridKeys grid) (gridValues grid) := by
  have hall := foldlM_extendCombinations ((hperm.map Prod.fst).nodup_iff.mpr hkeys)
    (fun entry hentry => gridValues_of_mem hkeys (hperm.subset hentry)) h
  have hsame : (gridKeys grid' : Multiset String) = gridKeys grid :=
    Multiset.coe_eq_coe.mpr ((hperm.filter _).map _)
  have hnothing : ∀ params : ParamMap K, overlay params ParamMap.empty = params := fun params => by
    funext key
    exact Option.or_none
  rw [Multiset.coe_singleton, Multiset.singleton_bind, hsame] at hall
  simp only [hnothing, Multiset.map_id'] at hall
  exact hall

theorem gridSize_perm {grid grid' : List (String × List K)} (hperm : grid'.Perm grid) :
    gridSize grid' = gridSize grid :=
  ((hperm.filter _).map _).prod_eq

/-! ### The best combination -/

variable [Double K]

/-- What the loop of `Optimize` knows about the combinations that it has tried. -/
structure Tried (name : String) (train : List (OHLCV K)) (config : BacktestConfig K)
    (metric : OptimizationMetric) (tried : List (ParamMap K)) (best : Option (K × ParamMap K)) :
    Prop where
  none : best = none → ∀ params ∈ tried, ∃ e, runNamed name config train params = .error e
  some : ∀ b ∈ best, b.2 ∈ tried ∧
    ∃ r, runNamed name config train b.2 = .ok r ∧ scoreResult r metric = b.1

variable {name : String} {train : List (OHLCV K)} {config : BacktestConfig K}
  {metric : OptimizationMetric} {tried : List (ParamMap K)} {best : Option (K × ParamMap K)}

theorem Tried.step (h : Tried name train config metric tried best) (params : ParamMap K) :
    Tried name train config metric (tried ++ [params])
      (optimizeStep name train config metric best params) := by
  have hkeep : ∀ b ∈ best, b.2 ∈ tried ++ [params] ∧
      ∃ r, runNamed name config train b.2 = .ok r ∧ scoreResult r metric = b.1 :=
    fun b hb => ⟨List.mem_append_left _ (h.some b hb).1, (h.some b hb).2⟩
  unfold optimizeStep
  cases hrun : runNamed name config train params with
  | error e =>
    refine ⟨fun hnone other hother => ?_, hkeep⟩
    rcases List.mem_append.mp hother with hother | hother
    · exact h.none hnone other hother
    · rw [List.mem_singleton.mp hother]
      exact ⟨e, hrun⟩
  | ok result =>
    have hnew : ∀ b ∈ Option.some (scoreResult result metric, params), b.2 ∈ tried ++ [params] ∧
        ∃ r, runNamed name config train b.2 = .ok r ∧ scoreResult r metric = b.1 := by
      intro b hb
      obtain rfl := Option.some.inj hb
      exact ⟨List.mem_append_right _ List.mem_cons_self, result, hrun, rfl⟩
    cases best with
    | none => exact ⟨fun hnone => (by cases hnone), hnew⟩
    | some b =>
      simp only
      split_ifs
      · exact ⟨fun hnone => (by cases hnone), hnew⟩
      · exact ⟨fun hnone => (by cases hnone), hkeep⟩

theorem tried_all (name : String) (train : List (OHLCV K)) (combinations : List (ParamMap K))
    (config : BacktestConfig K) (metric : OptimizationMetric) :
    Tried name train config metric combinations
      (combinations.foldl (optimizeStep name train config metric) none) :=
  foldl_seen (P := Tried name train config metric) (fun _ _ params h => h.step params)
    ⟨fun _ params hparams => absurd hparams List.not_mem_nil, fun b hb => by cases hb⟩ combinations

theorem optimize_eq_error {combinations : List (ParamMap K)} {e : Error} :
    optimize name train combinations config metric = .error e ↔
      (∀ params ∈ combinations, ∃ e, runNamed name config train params = .error e) ∧
        e = .dataQuality "no parameter combination produced a result" := by
  have htried := tried_all name train combinations config metric
  unfold optimize
  cases hbest : combinations.foldl (optimizeStep name train config metric) none with
  | none =>
    rw [hbest] at htried
    exact ⟨fun h => ⟨htried.none rfl, (Except.error.inj h).symm⟩, fun h => congrArg _ h.2.symm⟩
  | some b =>
    rw [hbest] at htried
    obtain ⟨hmem, r, hrun, -⟩ := htried.some b rfl
    refine iff_of_false (fun h => by cases h) fun h => ?_
    obtain ⟨e', he'⟩ := h.1 b.2 hmem
    rw [hrun] at he'
    cases he'

theorem optimize_mem {combinations : List (ParamMap K)} {params : ParamMap K}
    (h : optimize name train combinations config metric = .ok params) :
    params ∈ combinations ∧ ∃ r, runNamed name config train params = .ok r := by
  have htried := tried_all name train combinations config metric
  unfold optimize at h
  cases hbest : combinations.foldl (optimizeStep name train config metric) none with
  | none =>
    rw [hbest] at h
    cases h
  | some b =>
    rw [hbest] at h htried
    cases h
    obtain ⟨hmem, r, hrun, -⟩ := htried.some b rfl
    exact ⟨hmem, r, hrun⟩

/-- Over the reals nothing that was tried is better than the best so far. -/
def Unbeaten (name : String) (train : List (OHLCV ℝ)) (config : BacktestConfig ℝ)
    (metric : OptimizationMetric) (tried : List (ParamMap ℝ)) (best : Option (ℝ × ParamMap ℝ)) :
    Prop :=
  ∀ params ∈ tried, ∀ r, runNamed name config train params = .ok r →
    ∃ b ∈ best, scoreResult r metric ≤ b.1

theorem Unbeaten.step {train : List (OHLCV ℝ)} {config : BacktestConfig ℝ}
    {tried : List (ParamMap ℝ)} {best : Option (ℝ × ParamMap ℝ)}
    (h : Unbeaten name train config metric tried best) (params : ParamMap ℝ) :
    Unbeaten name train config metric (tried ++ [params])
      (optimizeStep name train config metric best params) := by
  have hraise : (∀ b ∈ best, ∃ b' ∈ optimizeStep name train config metric best params, b.1 ≤ b'.1) ∧
      ∀ r, runNamed name config train params = .ok r →
        ∃ b' ∈ optimizeStep name train config metric best params, scoreResult r metric ≤ b'.1 := by
    unfold optimizeStep
    cases hrun : runNamed name config train params with
    | error e => exact ⟨fun b hb => ⟨b, hb, le_refl _⟩, fun r hr => by cases hr⟩
    | ok result =>
      cases best with
      | none =>
        refine ⟨fun b hb => (by cases hb), fun r hr => ?_⟩
        cases hr
        exact ⟨_, rfl, le_refl _⟩
      | some b =>
        simp only
        split_ifs with hbetter
        · refine ⟨fun b' hb' => ⟨_, rfl, ?_⟩, fun r hr => ?_⟩
          · rw [← Option.some.inj hb']
            exact hbetter.le
          · cases hr
            exact ⟨_, rfl, le_refl _⟩
        · refine ⟨fun b' hb' => ⟨b', hb', le_refl _⟩, fun r hr => ?_⟩
          cases hr
          exact ⟨_, rfl, not_lt.mp hbetter⟩
  intro other hother r hr
  rcases List.mem_append.mp hother with hother | hother
  · obtain ⟨b, hb, hle⟩ := h other hother r hr
    obtain ⟨b', hb', hle'⟩ := hraise.1 b hb
    exact ⟨b', hb', hle.trans hle'⟩
  · rw [List.mem_singleton.mp hother] at hr
    exact hraise.2 r hr

theorem unbeaten_all {train : List (OHLCV ℝ)} {config : BacktestConfig ℝ}
    (combinations : List (ParamMap ℝ)) :
    Unbeaten name train config metric combinations
      (combinations.foldl (optimizeStep name train config metric) none) :=
  foldl_seen (P := Unbeaten name train config metric) (fun _ _ params h => h.step params)
    (fun _ hparams => absurd hparams List.not_mem_nil) combinations

theorem optimize_best {train : List (OHLCV ℝ)} {config : BacktestConfig ℝ}
    {combinations : List (ParamMap ℝ)} {params : ParamMap ℝ}
    (h : optimize name train combinations config metric = .ok params) :
    ∃ result, runNamed name config train params = .ok result ∧
      ∀ other ∈ combinations, ∀ r, runNamed name config train other = .ok r →
        scoreResult r metric ≤ scoreResult result metric := by
  have htried := tried_all name train combinations config metric
  have hunbeaten := @unbeaten_all name metric train config combinations
  unfold optimize at h
  cases hbest : combinations.foldl (optimizeStep name train config metric) none with
  | none =>
    rw [hbest] at h
    cases h
  | some b =>
    rw [hbest] at h htried hunbeaten
    cases h
    obtain ⟨-, result, hrun, hscore⟩ := htried.some b rfl
    refine ⟨result, hrun, fun other hother r hr => ?_⟩
    obtain ⟨b', hb', hle⟩ := hunbeaten other hother r hr
    rw [hscore, Option.some.inj hb']
    exact hle

/-! ### The search -/

theorem grid_search_optimal {grid : List (String × List ℝ)} (hkeys : (grid.map Prod.fst).Nodup) :
    ((∃ e, buildParamCombinations grid = .error e) ↔ maxWalkForwardCombinations < gridSize grid) ∧
    (∀ combinations, buildParamCombinations grid = .ok combinations →
      (combinations : Multiset (ParamMap ℝ)) = assignments (gridKeys grid) (gridValues grid) ∧
      ∀ grid', grid'.Perm grid → ∃ combinations', buildParamCombinations grid' = .ok combinations' ∧
        combinations'.Perm combinations) ∧
    ∀ (strategyName : String) (train : List (OHLCV ℝ)) (combinations : List (ParamMap ℝ))
      (config : BacktestConfig ℝ) (metric : OptimizationMetric) (params : ParamMap ℝ),
      optimize strategyName train combinations config metric = .ok params →
      params ∈ combinations ∧ ∃ result, runNamed strategyName config train params = .ok result ∧
        ∀ other ∈ combinations, ∀ r, runNamed strategyName config train other = .ok r →
          scoreResult r metric ≤ scoreResult result metric := by
  refine ⟨buildParamCombinations_error, fun combinations hbuild => ?_,
    fun strategyName train combinations config metric params h =>
      ⟨(optimize_mem h).1, optimize_best h⟩⟩
  have hproduct := buildParamCombinations_eq hkeys (List.Perm.refl grid) hbuild
  refine ⟨hproduct, fun grid' hperm => ?_⟩
  have hsize := buildParamCombinations_ok.mp ⟨combinations, hbuild⟩
  obtain ⟨combinations', hbuild'⟩ := buildParamCombinations_ok.mpr
    ((gridSize_perm hperm).trans_le hsize)
  refine ⟨combinations', hbuild', Multiset.coe_eq_coe.mp ?_⟩
  rw [hproduct]
  exact buildParamCombinations_eq hkeys hperm hbuild'

theorem grid_search_optimal_pair :
    ∃ combinations : List (ParamMap ℝ),
      buildParamCombinations [("fast", [1, 1 + 1]), ("slow", [])] = .ok combinations ∧
      (combinations : Multiset (ParamMap ℝ)) =
        assignments (gridKeys [("fast", [(1 : ℝ), 1 + 1]), ("slow", [])])
          (gridValues [("fast", [1, 1 + 1]), ("slow", [])]) := by
  obtain ⟨combinations, hbuild⟩ := (@buildParamCombinations_ok ℝ
    [("fast", [1, 1 + 1]), ("slow", [])]).mpr (by decide)
  exact ⟨combinations, hbuild, ((grid_search_optimal (by decide)).2.1 combinations hbuild).1⟩

end StandardTools.Backtest
