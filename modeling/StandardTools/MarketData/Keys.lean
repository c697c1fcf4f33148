import StandardTools.MarketData.Transparency

/-!
# What a cache key tells apart

Without colons in the names and the symbols, a key determines the provider name,
the symbol, the interval and the two days. So the cache is invisible to providers
which read no more than that, as long as nobody registers another provider under
a name which is taken.
-/

namespace StandardTools.MarketData
open StandardTools.Core StandardTools.Lib

variable {K : Type} {isoDay : Int → String}

/-- What the repository relies on in `date::format("%F")`. -/
structure Rendering (isoDay : Int → String) : Prop where
  injective : Function.Injective isoDay
  no_colon : ∀ day, ':' ∉ (isoDay day).toList

/-- A separator which the first parts do not contain tells where they end. -/
theorem append_cons_inj_iff {α : Type} {sep : α} {x₁ x₂ z₁ z₂ : List α} (h₁ : sep ∉ x₁)
    (h₂ : sep ∉ x₂) : x₁ ++ sep :: z₁ = x₂ ++ sep :: z₂ ↔ x₁ = x₂ ∧ z₁ = z₂ := by
  refine ⟨?_, fun h => by rw [h.1, h.2]⟩
  induction x₁ generalizing x₂ with
  | nil =>
    cases x₂ with
    | nil =>
      intro h
      exact ⟨rfl, (List.cons.inj h).2⟩
    | cons b x₂ =>
      intro h
      exact absurd ((List.cons.inj h).1 ▸ List.mem_cons_self) h₂
  | cons a x₁ ih =>
    cases x₂ with
    | nil =>
      intro h
      exact absurd ((List.cons.inj h).1 ▸ List.mem_cons_self) h₁
    | cons b x₂ =>
      intro h
      obtain ⟨rfl, htail⟩ := List.cons.inj h
      obtain ⟨rfl, hz⟩ :=
        ih (List.not_mem_of_not_mem_cons h₁) (List.not_mem_of_not_mem_cons h₂) htail
      exact ⟨rfl, hz⟩

theorem toString_no_colon (interval : BarInterval) : ':' ∉ interval.toString.toList := by
  cases interval <;> decide

theorem toString_injective : Function.Injective BarInterval.toString := by
  intro a b h
  cases a <;> cases b <;> first | rfl | exact absurd h (by decide)

theorem cacheKey_toList (provider : String) (ticker : Ticker) (interval : BarInterval)
    (range : DateRange) :
    (cacheKey isoDay provider ticker interval range).toList =
      provider.toList ++ ':' :: (ticker.symbol.toList ++ ':' :: (interval.toString.toList ++
        ':' :: ((formatDate isoDay range.start).toList ++
          ':' :: (formatDate isoDay range.stop).toList))) := by
  simp [cacheKey, String.toList_append]

/-- What `CacheKey` shows of a provider name and the arguments of `Fetch`. -/
structure SameKey (a b : String) (q r : Request) : Prop where
  name : a = b
  symbol : q.ticker.symbol = r.ticker.symbol
  interval : q.interval = r.interval
  start : Audit.dayOf q.range.start = Audit.dayOf r.range.start
  stop : Audit.dayOf q.range.stop = Audit.dayOf r.range.stop

theorem cacheKey_eq_iff (hiso : Rendering isoDay) {a b : String} {q r : Request}
    (ha : ':' ∉ a.toList) (hb : ':' ∉ b.toList) (hq : ':' ∉ q.ticker.symbol.toList)
    (hr : ':' ∉ r.ticker.symbol.toList) :
    cacheKey isoDay a q.ticker q.interval q.range =
        cacheKey isoDay b r.ticker r.interval r.range ↔ SameKey a b q r := by
  have hday : ∀ d, ':' ∉ (formatDate isoDay d).toList := fun d => hiso.no_colon _
  rw [← String.toList_inj, cacheKey_toList, cacheKey_toList,
    append_cons_inj_iff ha hb, append_cons_inj_iff hq hr,
    append_cons_inj_iff (toString_no_colon _) (toString_no_colon _),
    append_cons_inj_iff (hday _) (hday _)]
  simp only [String.toList_inj]
  constructor
  · rintro ⟨hname, hsymbol, hinterval, hstart, hstop⟩
    exact ⟨hname, hsymbol, toString_injective hinterval, hiso.injective hstart,
      hiso.injective hstop⟩
  · intro h
    exact ⟨h.name, h.symbol, congrArg _ h.interval, congrArg isoDay h.start,
      congrArg isoDay h.stop⟩

/-! ### Providers which read what the key shows -/

def Provider.ReadsKey (provider : Provider K) : Prop :=
  ∀ q r : Request, SameKey provider.name provider.name q r → provider.answer q = provider.answer r

/-- Every provider stands under its own name and was registered by one of the calls. -/
def Registered (calls : List (Call K)) (providers : StdMap (Provider K)) : Prop :=
  ∀ name provider, providers.find? name = some provider →
    provider.name = name ∧ .register provider ∈ calls

theorem registered_insert {calls : List (Call K)} {providers : StdMap (Provider K)}
    {provider : Provider K} (h : Registered calls providers) (hmem : .register provider ∈ calls) :
    Registered calls (providers.insert provider.name provider) := by
  intro name found hfound
  rw [StdMap.find?_insert, Function.update_apply] at hfound
  split_ifs at hfound with hname
  · cases hfound
    exact ⟨hname.symm, hmem⟩
  · exact h name found hfound

theorem mem_resolved {all calls : List (Call K)} {defaultProvider : String}
    {providers : StdMap (Provider K)} (hreg : Registered all providers) (hsub : calls ⊆ all)
    {a : Provider K × Request} (h : a ∈ resolved defaultProvider providers calls) :
    a.1.name = Service.requestedName defaultProvider a.2.providerName ∧
      .register a.1 ∈ all ∧ .fetch a.2 ∈ all := by
  induction calls generalizing providers with
  | nil => cases h
  | cons call calls ih =>
    obtain ⟨hcall, hrest⟩ := List.cons_subset.mp hsub
    cases call with
    | register provider => exact ih (registered_insert hreg hcall) hrest h
    | fetch request =>
      rw [resolved] at h
      cases hfind : providers.find?
          (Service.requestedName defaultProvider request.providerName) with
      | none =>
        rw [hfind] at h
        exact ih hreg hrest h
      | some provider =>
        rw [hfind] at h
        rcases List.mem_cons.mp h with rfl | h
        · obtain ⟨hname, hmem⟩ := hreg _ _ hfind
          exact ⟨hname, hmem, hcall⟩
        · exact ih hreg hrest h

theorem transparent_of_readsKey (hiso : Rendering isoDay) (defaultProvider : String)
    {calls : List (Call K)}
    (hname : ∀ q, .fetch q ∈ calls →
      ':' ∉ (Service.requestedName defaultProvider q.providerName).toList)
    (hsymbol : ∀ q, .fetch q ∈ calls → ':' ∉ q.ticker.symbol.toList)
    (hreads : ∀ p, .register p ∈ calls → p.ReadsKey)
    (honce : ∀ p p', .register p ∈ calls → .register p' ∈ calls → p.name = p'.name → p = p') :
    ∀ f ∈ (Service.new defaultProvider).fetches isoDay calls, Transparent isoDay f.1 f.2 := by
  rw [cache_transparent_iff]
  have hempty : Registered calls StdMap.empty := by
    intro name provider h
    cases h
  refine List.pairwise_of_forall_mem_list ?_
  intro a ha b hb hkey bars hbars
  obtain ⟨haname, hareg, hamem⟩ := mem_resolved hempty (List.Subset.refl _) ha
  obtain ⟨hbname, hbreg, hbmem⟩ := mem_resolved hempty (List.Subset.refl _) hb
  have hsame := (cacheKey_eq_iff hiso (hname _ hamem) (hname _ hbmem) (hsymbol _ hamem)
    (hsymbol _ hbmem)).mp hkey
  have hprovider : a.1 = b.1 :=
    honce a.1 b.1 hareg hbreg (haname.trans (hsame.name.trans hbname.symm))
  rw [← hprovider, ← hbars]
  exact (hreads a.1 hareg a.2 b.2 { hsame with name := rfl }).symm

end StandardTools.MarketData
