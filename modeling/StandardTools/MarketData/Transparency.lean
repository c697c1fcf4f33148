import StandardTools.Lib.Memo
import StandardTools.MarketData.Service

/-!
# When the cache is invisible

Every `Fetch` of a run answers as the provider registered at that moment would,
exactly when no two `Fetch` calls of the run share a cache key and are answered
differently by the providers they meet.
-/

namespace StandardTools.MarketData
open StandardTools.Core StandardTools.Lib

variable {K : Type} (isoDay : Int → String)

/-- If the provider name resolves, `Fetch` does what the provider does. -/
def Transparent (service : Service K) (request : Request) : Prop :=
  ∀ provider,
    service.resolveProvider (Service.requestedName service.defaultProvider request.providerName) =
        .ok provider →
      (Service.serve isoDay request service).1 = provider.answer request

/-- The `Fetch` calls of a list of calls whose provider name resolves, each with
the provider which is registered under that name then. -/
def resolved (defaultProvider : String) :
    StdMap (Provider K) → List (Call K) → List (Provider K × Request)
  | _, [] => []
  | providers, .register provider :: calls =>
    resolved defaultProvider (providers.insert provider.name provider) calls
  | providers, .fetch request :: calls =>
    match providers.find? (Service.requestedName defaultProvider request.providerName) with
    | none => resolved defaultProvider providers calls
    | some provider => (provider, request) :: resolved defaultProvider providers calls

def requestKey (defaultProvider : String) (request : Request) : String :=
  cacheKey isoDay (Service.requestedName defaultProvider request.providerName) request.ticker
    request.interval request.range

/-- Under one cache key, the bars of the earlier request are those of the later. -/
def SameBars (defaultProvider : String) (a b : Provider K × Request) : Prop :=
  requestKey isoDay defaultProvider a.2 = requestKey isoDay defaultProvider b.2 →
    ∀ bars, a.1.answer a.2 = .ok bars → b.1.answer b.2 = .ok bars

/-- A request as the cache sees it. -/
def question (defaultProvider : String) (a : Provider K × Request) :
    String × Except FetchError (List (OHLCV K)) :=
  (requestKey isoDay defaultProvider a.2, a.1.answer a.2)

variable {service : Service K} {request : Request} {provider : Provider K}

theorem resolveProvider_eq_ok {name : String} :
    service.resolveProvider name = .ok provider ↔ service.providers.find? name = some provider := by
  unfold Service.resolveProvider
  cases service.providers.find? name with
  | none =>
    constructor
    · intro h
      cases h
    · intro h
      cases h
  | some found =>
    rw [Except.ok.injEq, Option.some.injEq]

theorem serve_unresolved
    (h : service.providers.find?
      (Service.requestedName service.defaultProvider request.providerName) = none) :
    (Service.serve isoDay request service).2 = service := by
  simp only [Service.serve, Service.fetch, Service.resolveProvider, h]

/-- With a provider at hand, `Fetch` asks the cache, and only the cache changes. -/
theorem serve_resolved
    (h : service.providers.find?
      (Service.requestedName service.defaultProvider request.providerName) = some provider) :
    (Service.serve isoDay request service).1 =
        (Memo.ask service.cache.get
          (question isoDay service.defaultProvider (provider, request))).1 ∧
      (Service.serve isoDay request service).2.cache.get =
        (Memo.ask service.cache.get
          (question isoDay service.defaultProvider (provider, request))).2 ∧
      (Service.serve isoDay request service).2.providers = service.providers ∧
      (Service.serve isoDay request service).2.defaultProvider = service.defaultProvider := by
  simp only [Service.serve, Service.fetch, Service.resolveProvider, h, Memo.ask, question,
    requestKey, Provider.answer]
  cases hget : service.cache.get (cacheKey isoDay
      (Service.requestedName service.defaultProvider request.providerName) request.ticker
      request.interval request.range) with
  | some cached => exact ⟨rfl, rfl, rfl, rfl⟩
  | none =>
    cases hfetch : provider.fetch request.ticker request.interval request.range with
    | error e => exact ⟨rfl, rfl, rfl, rfl⟩
    | ok series => exact ⟨rfl, service.cache.get_put _ _, rfl, rfl⟩

/-- What is answered under a new key is answered again under the same key. -/
theorem serve_again {later : Request} {other : Provider K} {bars : List (OHLCV K)}
    (hfind : service.providers.find?
      (Service.requestedName service.defaultProvider request.providerName) = some provider)
    (hother : service.providers.find?
      (Service.requestedName service.defaultProvider later.providerName) = some other)
    (hnew : service.cache.get (requestKey isoDay service.defaultProvider request) = none)
    (hbars : provider.answer request = .ok bars)
    (hkey : requestKey isoDay service.defaultProvider later =
      requestKey isoDay service.defaultProvider request) :
    (Service.serve isoDay later (Service.serve isoDay request service).2).1 = .ok bars := by
  obtain ⟨-, hcache, hproviders, hdefault⟩ := serve_resolved isoDay hfind
  rw [← hproviders, ← hdefault] at hother
  rw [(serve_resolved isoDay hother).1, hcache, hdefault]
  exact Memo.ask_ask hnew hbars hkey

/-- The answers of a run are those of a memoised function. -/
theorem fetches_transparent_iff (service : Service K) (calls : List (Call K)) :
    (∀ f ∈ service.fetches isoDay calls, Transparent isoDay f.1 f.2) ↔
      Memo.answers service.cache.get
          ((resolved service.defaultProvider service.providers calls).map
            (question isoDay service.defaultProvider)) =
        ((resolved service.defaultProvider service.providers calls).map
          (question isoDay service.defaultProvider)).map Prod.snd := by
  induction calls generalizing service with
  | nil =>
    refine iff_of_true ?_ rfl
    intro f hf
    cases hf
  | cons call calls ih =>
    cases call with
    | register provider => exact ih (service.register provider)
    | fetch request =>
      rw [Service.fetches, List.forall_mem_cons, ih, resolved]
      cases hfind : service.providers.find?
          (Service.requestedName service.defaultProvider request.providerName) with
      | none =>
        rw [serve_unresolved isoDay hfind]
        refine and_iff_right ?_
        intro provider hprovider
        rw [resolveProvider_eq_ok, hfind] at hprovider
        cases hprovider
      | some provider =>
        obtain ⟨hfst, hcache, hproviders, hdefault⟩ := serve_resolved isoDay hfind
        rw [hcache, hproviders, hdefault, List.map_cons, List.map_cons, Memo.answers,
          List.cons.injEq]
        refine and_congr_left' ?_
        constructor
        · intro h
          rw [← hfst]
          exact h provider (resolveProvider_eq_ok.mpr hfind)
        · intro h provider' hprovider'
          rw [resolveProvider_eq_ok, hfind, Option.some.injEq] at hprovider'
          rw [hfst, h, ← hprovider']
          rfl

theorem cache_transparent_iff {K : Type} (isoDay : Int → String) (defaultProvider : String)
    (calls : List (Call K)) :
    (∀ f ∈ (Service.new defaultProvider).fetches isoDay calls, Transparent isoDay f.1 f.2) ↔
      (resolved defaultProvider StdMap.empty calls).Pairwise (SameBars isoDay defaultProvider) := by
  rw [fetches_transparent_iff]
  have hmemo := Memo.answers_empty_eq_iff
    ((resolved defaultProvider StdMap.empty calls).map (question isoDay defaultProvider))
  rw [List.pairwise_map] at hmemo
  exact hmemo

/-! ### Two ranges on one day -/

def sampleBar (date : Date) : OHLCV Int := ⟨date, 100, 102, 99, 101, 1000000⟩

/-- One bar, dated at the start of the range. -/
def sampleProvider : Provider Int := ⟨"synthetic", fun _ _ range => .ok [sampleBar range.start]⟩

/-- AAPL, daily, from a time of 1970-01-01 to the same time. -/
def sampleRequest (time : Date) : Request :=
  ⟨⟨"AAPL", "", by decide +kernel, by decide⟩, .daily, ⟨time, time, Int64.lt_irrefl⟩, ""⟩

def noon : Date := 43200000000000

def sampleDay (day : Int) : String := if day = 0 then "1970-01-01" else toString day

/-- The range at noon is answered with the bar of midnight. -/
theorem noon_answered_from_midnight :
    ∃ f ∈ (Service.new "synthetic").fetches sampleDay
        [.register sampleProvider, .fetch (sampleRequest 0), .fetch (sampleRequest noon)],
      f.1.resolveProvider "synthetic" = .ok sampleProvider ∧
        (Service.serve sampleDay f.2 f.1).1 = .ok [sampleBar 0] ∧
        sampleProvider.answer f.2 = .ok [sampleBar noon] ∧ ¬Transparent sampleDay f.1 f.2 := by
  have hfind (time : Date) : ((Service.new "synthetic").register sampleProvider).providers.find?
      (Service.requestedName "synthetic" (sampleRequest time).providerName) =
        some sampleProvider := by
    rw [Service.register, StdMap.find?_insert]
    exact Function.update_self _ _ _
  have hday : Audit.dayOf noon = Audit.dayOf 0 := by decide +kernel
  have hkey : requestKey sampleDay "synthetic" (sampleRequest noon) =
      requestKey sampleDay "synthetic" (sampleRequest 0) := by
    simp only [requestKey, cacheKey, sampleRequest, formatDate, hday]
  have hserved : (Service.serve sampleDay (sampleRequest noon)
      (Service.serve sampleDay (sampleRequest 0)
        ((Service.new "synthetic").register sampleProvider)).2).1 = .ok [sampleBar 0] :=
    serve_again sampleDay (hfind 0) (hfind noon) rfl rfl hkey
  obtain ⟨-, -, hproviders, hdefault⟩ := serve_resolved sampleDay (hfind 0)
  have hresolve : (Service.serve sampleDay (sampleRequest 0)
      ((Service.new "synthetic").register sampleProvider)).2.resolveProvider "synthetic" =
        .ok sampleProvider := by
    rw [resolveProvider_eq_ok, hproviders]
    exact hfind noon
  refine ⟨_, List.mem_cons_of_mem _ List.mem_cons_self, hresolve, hserved, rfl, ?_⟩
  intro h
  have hbars := h sampleProvider (by rw [hdefault]; exact hresolve)
  rw [hserved] at hbars
  have hdate : (0 : Date) = noon :=
    congrArg OHLCV.date (List.cons.inj (Except.ok.inj hbars)).1
  exact absurd hdate (by decide)

end StandardTools.MarketData
