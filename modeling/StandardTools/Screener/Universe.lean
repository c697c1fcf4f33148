import StandardTools.Lib.Except
import StandardTools.Lib.Partition
import StandardTools.Screener.Service

/-!
# A screened universe (`screener/service.cpp:20-42`, `criteria.hpp:9-32`)

A screening sorts every position of the list to the matches or to the failures.
The bounds of a metric are looked at one by one, and with them whether it is
finite, so that a metric without bounds may be anything.
-/

namespace StandardTools.Screener
open StandardTools.Core StandardTools.Lib MarketData

variable {K : Type} [Double K]

/-! ### Filters -/

/-- A metric with the bounds configured on it. -/
structure Filter (K : Type) where
  max : Option K
  min : Option K
  value : K

namespace Filter
variable (f : Filter K)

def Within : Prop := (∀ limit ∈ f.max, f.value ≤ limit) ∧ ∀ limit ∈ f.min, limit ≤ f.value

def Finite : Prop := Double.isFinite f.value = true

def Bounded : Prop := f.max.isSome = true ∨ f.min.isSome = true

variable {f} in
theorem within_of_not_bounded (h : ¬f.Bounded) : f.Within := by
  have hlimits : f.max = none ∧ f.min = none := by simpa [Bounded] using h
  simp [Within, hlimits]

end Filter

theorem applyLimit_iff {compare : K → K → Bool} {limit : Option K} {value : K} :
    applyLimit compare limit value = true ↔
      (∀ bound ∈ limit, compare value bound = true) ∧
        (limit.isSome = true → Double.isFinite value = true) := by
  unfold applyLimit
  cases limit with
  | none => simp
  | some bound =>
    cases hfinite : Double.isFinite value with
    | true => simp
    | false => simp

/-- `ApplyMax` and `ApplyMin` of one metric. -/
theorem applyLimits_iff (f : Filter K) :
    (applyMax f.max f.value = true ∧ applyMin f.min f.value = true) ↔
      (f.Bounded → f.Finite ∧ f.Within) := by
  have hwithin : ¬f.Bounded → f.Within := Filter.within_of_not_bounded
  have hlimits : (applyMax f.max f.value = true ∧ applyMin f.min f.value = true) ↔
      f.Within ∧ (f.Bounded → f.Finite) := by
    rw [applyMax, applyMin, applyLimit_iff, applyLimit_iff]
    simp only [decide_eq_true_iff, Filter.Within, Filter.Bounded, Filter.Finite, or_imp]
    exact and_and_and_comm
  rw [hlimits]
  tauto

/-- The seven metrics in the order of `Apply`. -/
def ScreenCriteria.filters (criteria : ScreenCriteria K) (data : FundamentalData K) :
    List (Filter K) :=
  [⟨criteria.peRatioMax, criteria.peRatioMin, data.peRatio⟩,
    ⟨criteria.pbRatioMax, criteria.pbRatioMin, data.pbRatio⟩,
    ⟨criteria.marketCapMax, criteria.marketCapMin, data.marketCap⟩,
    ⟨criteria.dividendYieldMax, criteria.dividendYieldMin, data.dividendYield⟩,
    ⟨criteria.epsGrowthMax, criteria.epsGrowthMin, data.epsGrowth⟩,
    ⟨criteria.debtToEquityMax, criteria.debtToEquityMin, data.debtToEquity⟩,
    ⟨criteria.roeMax, criteria.roeMin, data.roe⟩]

theorem ScreenCriteria.apply_iff (criteria : ScreenCriteria K) (data : FundamentalData K) :
    criteria.apply data = true ↔
      ∀ f ∈ criteria.filters data, f.Bounded → f.Finite ∧ f.Within := by
  simp only [← applyLimits_iff, filters, List.forall_mem_cons, apply, Bool.and_eq_true, and_assoc,
    List.not_mem_nil, false_imp_iff, implies_true, and_true]

/-- The documented criterion: a metric that is NaN or infinite causes the security to
fail, and so does one outside its bounds. -/
def ScreenCriteria.Meets (criteria : ScreenCriteria K) (data : FundamentalData K) : Prop :=
  ∀ f ∈ criteria.filters data, f.Finite ∧ f.Within

theorem ScreenCriteria.Meets.apply {criteria : ScreenCriteria K} {data : FundamentalData K}
    (h : criteria.Meets data) : criteria.apply data = true :=
  (criteria.apply_iff data).mpr fun f hf _ => h f hf

/-! ### The run -/

section Run
variable (provider : FundamentalProvider K)

/-- The ticker is fetched and its data satisfies `P`. -/
def Selected (P : FundamentalData K → Prop) (ticker : String) (data : FundamentalData K) : Prop :=
  provider ticker = .ok data ∧ P data

/-- The ticker is not found, or its data does not satisfy `P`. -/
def Rejected (P : FundamentalData K → Prop) (ticker : String) : Prop :=
  provider ticker = .error (.domain .notFound) ∨ ∃ data, provider ticker = .ok data ∧ ¬P data

/-- The matches and the failures partition the tickers. -/
def Screened (P : FundamentalData K → Prop) (tickers : List String) (result : ScreenResult K) :
    Prop :=
  Partition (Selected provider P) (Rejected provider P) tickers result.matches_ result.failed

variable {provider} {criteria : ScreenCriteria K} {tickers : List String}
  {result result' : ScreenResult K} {ticker : String} {e : FetchError}

theorem screenStep_error :
    screenStep provider criteria result ticker = .error e ↔
      provider ticker = .error e ∧ e ≠ .domain .notFound := by
  unfold screenStep
  split
  · next data hdata => split_ifs <;> simp [hdata]
  · next hnotFound => simp [hnotFound, eq_comm]
  · next e' hother he => simp [he]; grind

theorem screenStep_screened (h : Screened provider (criteria.apply · = true) tickers result)
    (hstep : screenStep provider criteria result ticker = .ok result') :
    Screened provider (criteria.apply · = true) (tickers ++ [ticker]) result' := by
  unfold screenStep at hstep
  split at hstep
  · next data hdata =>
    split_ifs at hstep with happly
    · cases hstep
      exact h.concat_kept ⟨hdata, happly⟩
    · cases hstep
      exact h.concat_dropped (Or.inr ⟨data, hdata, happly⟩)
  · next hnotFound =>
    cases hstep
    exact h.concat_dropped (Or.inl hnotFound)
  · cases hstep

theorem screen_eq (hlen : tickers.length ≤ 500) :
    screen provider tickers criteria = tickers.foldlM (screenStep provider criteria) ⟨[], []⟩ :=
  if_neg (not_lt.mpr hlen)

theorem screen_screened (hlen : tickers.length ≤ 500)
    (h : screen provider tickers criteria = .ok result) :
    Screened provider (criteria.apply · = true) tickers result := by
  rw [screen_eq hlen] at h
  have hrun := foldlM_invariant (P := fun i s =>
    Screened provider (criteria.apply · = true) (tickers.take i) s) ?_ h .nil
  · rwa [List.take_length] at hrun
  · intro i hi s s' hs hstep
    rw [List.take_succ_eq_append_getElem hi]
    exact screenStep_screened hs hstep

/-- What the provider throws, `NotFoundError` apart, ends the screening. -/
theorem screen_throws_iff (hlen : tickers.length ≤ 500) :
    (∃ e, screen provider tickers criteria = .error e) ↔
      ∃ ticker ∈ tickers, ∃ e, provider ticker = .error e ∧ e ≠ .domain .notFound := by
  constructor
  · rintro ⟨e, he⟩
    rw [screen_eq hlen] at he
    obtain ⟨s, ticker, hmem, hstep⟩ := foldlM_error he
    exact ⟨ticker, hmem, e, screenStep_error.mp hstep⟩
  · rintro ⟨ticker, hmem, e, he, hother⟩
    cases hscreen : screen provider tickers criteria with
    | error e' => exact ⟨e', rfl⟩
    | ok result =>
      rcases (screen_screened hlen hscreen).kept_or_drop hmem with ⟨data, -, hdata, -⟩ | hdrop
      · cases hdata.symm.trans he
      · rcases hdrop with hnotFound | ⟨data, hdata, -⟩
        · cases hnotFound.symm.trans he
          exact absurd rfl hother
        · cases hdata.symm.trans he

end Run

/-! ### The purpose of a screening -/

/-- An error other than `NotFoundError` is passed on. Otherwise the matches are the
fetched securities which meet the criteria, and every other ticker has failed. -/
structure ScreensUniverse (provider : FundamentalProvider K) (criteria : ScreenCriteria K)
    (tickers : List String) : Prop where
  throws : (∃ e, screen provider tickers criteria = .error e) ↔
    ∃ ticker ∈ tickers, ∃ e, provider ticker = .error e ∧ e ≠ .domain .notFound
  partition : ∀ result, screen provider tickers criteria = .ok result →
    Screened provider criteria.Meets tickers result

/-- A screening is right unless a metric without bounds is not finite in a security
which passes all the bounds there are. -/
theorem screensUniverse_iff (provider : FundamentalProvider K) (criteria : ScreenCriteria K)
    {tickers : List String} (hlen : tickers.length ≤ 500) :
    ScreensUniverse provider criteria tickers ↔
      (∃ ticker ∈ tickers, ∃ e, provider ticker = .error e ∧ e ≠ .domain .notFound) ∨
      ∀ ticker ∈ tickers, ∀ data, provider ticker = .ok data →
        (∀ f ∈ criteria.filters data, f.Bounded → f.Finite ∧ f.Within) →
          ∀ f ∈ criteria.filters data, ¬f.Bounded → f.Finite := by
  constructor
  · intro h
    by_cases hother : ∃ ticker ∈ tickers, ∃ e, provider ticker = .error e ∧ e ≠ .domain .notFound
    · exact Or.inl hother
    · refine Or.inr fun ticker hticker data hdata hbounded f hf _ => ?_
      cases hscreen : screen provider tickers criteria with
      | error e => exact absurd (h.throws.mp ⟨e, hscreen⟩) hother
      | ok result =>
        -- the security passes, so it is a match
        rcases (screen_screened hlen hscreen).kept_or_drop hticker with
          ⟨data', hmem, hdata', -⟩ | hdrop
        · cases hdata.symm.trans hdata'
          obtain ⟨_, _, _, hmeets⟩ := (h.partition result hscreen).exists_of_mem_kept hmem
          exact (hmeets f hf).1
        · rcases hdrop with hnotFound | ⟨data', hdata', happly⟩
          · cases hdata.symm.trans hnotFound
          · cases hdata.symm.trans hdata'
            exact absurd ((criteria.apply_iff data).mpr hbounded) happly
  · intro h
    refine ⟨screen_throws_iff hlen, fun result hscreen => ?_⟩
    rcases h with hother | hfinite
    · have hthrows : ∃ e, screen provider tickers criteria = .error e :=
        (screen_throws_iff hlen).mpr hother
      obtain ⟨e, he⟩ := hthrows
      cases hscreen.symm.trans he
    · have hmeets : ∀ ticker ∈ tickers, ∀ data, provider ticker = .ok data →
          criteria.apply data = true → criteria.Meets data := by
        intro ticker hticker data hdata happly f hf
        have hbounded := (criteria.apply_iff data).mp happly
        by_cases hf' : f.Bounded
        · exact hbounded f hf hf'
        · exact ⟨hfinite ticker hticker data hdata hbounded f hf hf',
            Filter.within_of_not_bounded hf'⟩
      refine (screen_screened hlen hscreen).mono ?_ ?_
      · rintro ticker hticker data ⟨hdata, happly⟩
        exact ⟨hdata, hmeets ticker hticker data hdata happly⟩
      · rintro ticker - (hnotFound | ⟨data, hdata, happly⟩)
        · exact Or.inl hnotFound
        · exact Or.inr ⟨data, hdata, fun h => happly h.apply⟩

/-- A security with the given price-earnings ratio. -/
def apple (peRatio : Float) : FundamentalData Float :=
  ⟨"AAPL", 3400000000000, peRatio, 8, 0, 0, 2, 0⟩

def onlyApple : FundamentalProvider Float := fun ticker =>
  if ticker = "AAPL" then .ok (apple 28) else .error (.domain .notFound)

def belowThirty : ScreenCriteria Float := { ScreenCriteria.unbounded with peRatioMax := some 30 }

theorem screensUniverse_iff_apple :
    screen onlyApple ["AAPL", "MSFT"] belowThirty = .ok ⟨[apple 28], ["MSFT"]⟩ ∧
      ScreensUniverse onlyApple belowThirty ["AAPL", "MSFT"] := by
  refine ⟨rfl, (screensUniverse_iff _ _ (by decide)).mpr (Or.inr ?_)⟩
  intro ticker _ data hdata _ f hf _
  have hfinite : ∀ f ∈ belowThirty.filters (apple 28), Double.isFinite f.value = true := by decide
  unfold onlyApple at hdata
  split at hdata
  · cases hdata
    exact hfinite f hf
  · cases hdata

/-- Without any bound a security matches even though one of its metrics is a NaN. -/
theorem nan_matches :
    screen (fun _ => .ok (apple (0 / 0))) ["AAPL"] .unbounded = .ok ⟨[apple (0 / 0)], []⟩ := rfl

theorem not_screensUniverse :
    ¬ScreensUniverse (fun _ => .ok (apple (0 / 0))) .unbounded ["AAPL"] := by
  intro h
  obtain ⟨_, _, _, hmeets⟩ :=
    (h.partition _ nan_matches).exists_of_mem_kept List.mem_cons_self
  have hfinite : Double.isFinite (0 / 0 : Float) = true :=
    (hmeets ⟨none, none, 0 / 0⟩ List.mem_cons_self).1
  exact absurd hfinite (by decide)

end StandardTools.Screener
