import StandardTools.MarketData.Concurrent
import StandardTools.MarketData.Keys

/-!
# A service without new providers (`marketdata/service.cpp`)

The agent and the REST layer ask for tickers without an exchange and for whole days.
The key of such a request tells everything a provider is given, colons in the symbol
included, so that with fixed providers the answer does not depend on what has been asked
before or is being asked meanwhile.
-/

namespace StandardTools.MarketData
open StandardTools.Core StandardTools.Lib

variable {K : Type} {isoDay : Int → String}

/-! ### Keys of whole days -/

/-- A separator which the last parts do not contain tells where they begin. -/
theorem append_cons_inj_iff_right {α : Type} {sep : α} {x₁ x₂ z₁ z₂ : List α} (h₁ : sep ∉ z₁)
    (h₂ : sep ∉ z₂) : x₁ ++ sep :: z₁ = x₂ ++ sep :: z₂ ↔ x₁ = x₂ ∧ z₁ = z₂ := by
  have hreverse : z₁.reverse ++ sep :: x₁.reverse = z₂.reverse ++ sep :: x₂.reverse ↔
      z₁.reverse = z₂.reverse ∧ x₁.reverse = x₂.reverse :=
    append_cons_inj_iff (mt List.mem_reverse.mp h₁) (mt List.mem_reverse.mp h₂)
  rw [← List.reverse_inj]
  simp only [List.reverse_append, List.reverse_cons, List.append_assoc, List.singleton_append]
  rw [hreverse, List.reverse_inj, List.reverse_inj, and_comm]

theorem sameKey_of_cacheKey (hiso : Rendering isoDay) {a b : String} {q r : Request}
    (ha : ':' ∉ a.toList) (hb : ':' ∉ b.toList)
    (h : cacheKey isoDay a q.ticker q.interval q.range =
      cacheKey isoDay b r.ticker r.interval r.range) : SameKey a b q r := by
  have hday : ∀ d, ':' ∉ (formatDate isoDay d).toList := fun d => hiso.no_colon _
  rw [← String.toList_inj, cacheKey_toList, cacheKey_toList, append_cons_inj_iff ha hb] at h
  obtain ⟨hname, h⟩ := h
  simp only [← List.append_assoc, ← List.cons_append] at h
  rw [append_cons_inj_iff_right (hday _) (hday _),
    append_cons_inj_iff_right (hday _) (hday _),
    append_cons_inj_iff_right (toString_no_colon _) (toString_no_colon _)] at h
  obtain ⟨⟨⟨hsymbol, hinterval⟩, hstart⟩, hstop⟩ := h
  exact {
    name := String.toList_inj.mp hname
    symbol := String.toList_inj.mp hsymbol
    interval := toString_injective (String.toList_inj.mp hinterval)
    start := hiso.injective (String.toList_inj.mp hstart)
    stop := hiso.injective (String.toList_inj.mp hstop) }

/-- A ticker of no exchange and a range from the beginning of a day to that of a day. -/
structure Request.WholeDays (request : Request) : Prop where
  exchange : request.ticker.exchange = ""
  start : request.range.start.toInt = Audit.dayOf request.range.start * Audit.dayLength
  stop : request.range.stop.toInt = Audit.dayOf request.range.stop * Audit.dayLength

theorem Request.WholeDays.answer_eq {q r : Request} (hq : q.WholeDays) (hr : r.WholeDays)
    {a b : String} (h : SameKey a b q r) (provider : Provider K) :
    provider.answer q = provider.answer r := by
  have hticker : q.ticker = r.ticker := by
    have hexchange := hq.exchange.trans hr.exchange.symm
    have hsymbol := h.symbol
    cases hq' : q.ticker
    cases hr' : r.ticker
    rw [hq', hr'] at hexchange hsymbol
    cases hexchange
    cases hsymbol
    rfl
  have hrange : q.range = r.range := by
    have hstart : q.range.start = r.range.start := by
      rw [← Int64.toInt_inj, hq.start, hr.start, h.start]
    have hstop : q.range.stop = r.range.stop := by
      rw [← Int64.toInt_inj, hq.stop, hr.stop, h.stop]
    cases hq' : q.range
    cases hr' : r.range
    rw [hq', hr'] at hstart hstop
    cases hstart
    cases hstop
    rfl
  rw [Provider.answer, Provider.answer, hticker, h.interval, hrange]

/-! ### One step -/

/-- The providers which a service keeps. -/
structure Settled (K : Type) where
  isoDay : Int → String
  defaultProvider : String
  providers : StdMap (Provider K)
  rendering : Rendering isoDay
  no_colon : ∀ name provider, providers.find? name = some provider → ':' ∉ name.toList

namespace Settled
variable (settled : Settled K)

def start : Service K := ⟨settled.defaultProvider, settled.providers, .empty⟩

def nameOf (request : Request) : String :=
  Service.requestedName settled.defaultProvider request.providerName

/-- What a service without a past answers. -/
def answer (request : Request) : Except FetchError (List (OHLCV K)) :=
  (Service.serve settled.isoDay request settled.start).1

/-- In the cache is what the providers answer. -/
structure Sound (s : Service K) : Prop where
  default : s.defaultProvider = settled.defaultProvider
  providers : s.providers = settled.providers
  cached : ∀ key bars, s.cache.get key = some bars → ∃ q provider, q.WholeDays ∧
    settled.providers.find? (settled.nameOf q) = some provider ∧
    requestKey settled.isoDay settled.defaultProvider q = key ∧ provider.answer q = .ok bars

/-- What is known of a `Fetch`. -/
def Known (request : Request) : CallPhase K → Prop
  | .called => True
  | .unavailable e => settled.answer request = .error e
  | .resolved provider => settled.providers.find? (settled.nameOf request) = some provider
  | .missed provider => settled.providers.find? (settled.nameOf request) = some provider
  | .fetched provider series =>
    settled.providers.find? (settled.nameOf request) = some provider ∧
      provider.answer request = .ok series
  | .answered _ answer => answer = settled.answer request
  | .registered => False

variable {settled} {request : Request} {provider : Provider K} {s : Service K}

theorem answer_of_find (h : settled.providers.find? (settled.nameOf request) = some provider) :
    settled.answer request = provider.answer request := by
  have hfind : settled.start.providers.find?
    (Service.requestedName settled.start.defaultProvider request.providerName) = some provider := h
  refine (serve_resolved settled.isoDay hfind).1.trans (Memo.ask_eq_iff.mpr ?_)
  intro bars hbars
  cases hbars

theorem answer_of_error {e : FetchError} (h : settled.start.resolveProvider
      (Service.requestedName settled.start.defaultProvider request.providerName) = .error e) :
    settled.answer request = .error e := by
  simp only [answer, Service.serve, Service.fetch, h]

theorem known_advance (hdays : request.WholeDays) (hs : settled.Sound s) {phase : CallPhase K}
    (hphase : settled.Known request phase) :
    settled.Sound (request.advance settled.isoDay phase s).2 ∧
      settled.Known request (request.advance settled.isoDay phase s).1 := by
  cases phase with
  | called =>
    cases hresolve : s.resolveProvider
        (Service.requestedName s.defaultProvider request.providerName) with
    | error e =>
      rw [advance_unavailable hresolve]
      rw [Service.resolveProvider, hs.default, hs.providers] at hresolve
      exact ⟨hs, answer_of_error hresolve⟩
    | ok provider =>
      rw [advance_resolved hresolve]
      rw [resolveProvider_eq_ok, hs.default, hs.providers] at hresolve
      exact ⟨hs, hresolve⟩
  | resolved provider =>
    cases hget : s.cache.get (requestKey settled.isoDay s.defaultProvider request) with
    | some bars =>
      rw [advance_cached hget]
      rw [hs.default] at hget
      obtain ⟨q, found, hq, hfound, hkey, hbars⟩ := hs.cached _ bars hget
      have hsame := sameKey_of_cacheKey settled.rendering (settled.no_colon _ _ hfound)
        (settled.no_colon _ _ hphase) hkey
      have hprovider : found = provider := by
        have hname : settled.nameOf q = settled.nameOf request := hsame.name
        rw [hname] at hfound
        exact Option.some.inj (hfound.symm.trans hphase)
      refine ⟨hs, ?_⟩
      show Except.ok bars = settled.answer request
      rw [answer_of_find hphase, ← hbars, hprovider]
      exact hq.answer_eq hdays hsame provider
    | none =>
      rw [advance_missed hget]
      exact ⟨hs, hphase⟩
  | missed provider =>
    cases hanswer : provider.answer request with
    | error e =>
      rw [advance_threw hanswer]
      refine ⟨hs, ?_⟩
      show Except.error e = settled.answer request
      rw [answer_of_find hphase, hanswer]
    | ok series =>
      rw [advance_fetched hanswer]
      exact ⟨hs, hphase, hanswer⟩
  | fetched provider series =>
    obtain ⟨hfind, hanswer⟩ := hphase
    refine ⟨⟨hs.default, hs.providers, ?_⟩, ?_⟩
    · intro key bars hbars
      simp only [Request.advance, hs.default] at hbars
      rw [InMemoryCache.get_put, Function.update_apply] at hbars
      split_ifs at hbars with hkey
      · cases hbars
        exact ⟨request, provider, hdays, hfind, hkey.symm, hanswer⟩
      · exact hs.cached key bars hbars
    · exact hanswer.symm.trans (answer_of_find hfind).symm
  | answered | unavailable => exact ⟨hs, hphase⟩
  | registered => exact absurd hphase id

theorem sound_start : settled.Sound settled.start where
  default := rfl
  providers := rfl
  cached _ _ hbars := by cases hbars

theorem Known.outcome {phase : CallPhase K} (h : settled.Known request phase)
    {a : Except FetchError (List (OHLCV K))} (ha : phase.outcome = some a) :
    a = settled.answer request := by
  cases phase with
  | unavailable e => exact (Option.some.inj ha).symm.trans h.symm
  | answered provider answer => exact (Option.some.inj ha).symm.trans h
  | called | resolved | missed | fetched | registered => cases ha

/-! ### Fetches one after the other -/

theorem serve_sound (hdays : request.WholeDays) (hs : settled.Sound s) :
    settled.Sound (Service.serve settled.isoDay request s).2 ∧
      (Service.serve settled.isoDay request s).1 = settled.answer request := by
  obtain ⟨houtcome, hstate⟩ := fetch_alone settled.isoDay request s
  have hsteps : ∀ n, settled.Sound ((fun x : CallPhase K × Service K =>
      request.advance settled.isoDay x.1 x.2)^[n] (.called, s)).2 ∧
      settled.Known request ((fun x : CallPhase K × Service K =>
        request.advance settled.isoDay x.1 x.2)^[n] (.called, s)).1 := by
    intro n
    induction n with
    | zero => exact ⟨hs, trivial⟩
    | succ n ih =>
      rw [Function.iterate_succ_apply']
      exact known_advance hdays ih.1 ih.2
  obtain ⟨hsound, hknown⟩ := hsteps 4
  exact ⟨hstate ▸ hsound, hknown.outcome houtcome⟩

end Settled

end StandardTools.MarketData
