import StandardTools.Lib.Threads
import StandardTools.MarketData.Transparency

/-!
# One service for several threads (`marketdata/service.cpp:12-51`)

`Register` and `ResolveProvider` hold the mutex of the service, `Get` and `Put`
that of the cache, and each for itself only. So a provider can be replaced while a
`Fetch` is under way which has resolved the old one.
-/

namespace StandardTools.MarketData
open StandardTools.Core StandardTools.Lib

variable {K : Type}

/-- How far a call is. -/
inductive CallPhase (K : Type) where
  | called
  | registered
  | unavailable (e : FetchError)
  | resolved (provider : Provider K)
  | missed (provider : Provider K)
  | fetched (provider : Provider K) (series : List (OHLCV K))
  | answered (provider : Provider K) (answer : Except FetchError (List (OHLCV K)))

/-- The steps that a call has before it, at most. -/
def CallPhase.rank : CallPhase K → ℕ
  | .called => 4
  | .resolved _ => 3
  | .missed _ => 2
  | .fetched _ _ => 1
  | _ => 0

section Steps
variable (isoDay : Int → String)

/-- `Fetch`, from one lock to the next. -/
def Request.advance (request : Request) :
    CallPhase K → Service K → CallPhase K × Service K
  | .called, s =>
    match s.resolveProvider (Service.requestedName s.defaultProvider request.providerName) with
    | .error e => (.unavailable e, s)
    | .ok provider => (.resolved provider, s)
  | .resolved provider, s =>
    match s.cache.get (requestKey isoDay s.defaultProvider request) with
    | some cached => (.answered provider (.ok cached), s)
    | none => (.missed provider, s)
  | .missed provider, s =>
    match provider.answer request with
    | .error e => (.answered provider (.error e), s)
    | .ok series => (.fetched provider series, s)
  | .fetched provider series, s =>
    (.answered provider (.ok series),
      { s with cache := s.cache.put (requestKey isoDay s.defaultProvider request) series })
  | phase, s => (phase, s)

def Call.advance (call : Call K) (phase : CallPhase K) (s : Service K) :
    CallPhase K × Service K :=
  match call, phase with
  | .register provider, .called => (.registered, s.register provider)
  | .register _, _ => (.registered, s)
  | .fetch request, phase => request.advance isoDay phase s

variable {isoDay} {request : Request} {provider : Provider K} {s : Service K}

attribute [local simp] Request.advance

theorem advance_unavailable {e : FetchError}
    (h : s.resolveProvider (Service.requestedName s.defaultProvider request.providerName) =
      .error e) : request.advance isoDay .called s = (.unavailable e, s) := by
  simp [h]

theorem advance_resolved
    (h : s.resolveProvider (Service.requestedName s.defaultProvider request.providerName) =
      .ok provider) : request.advance isoDay .called s = (.resolved provider, s) := by
  simp [h]

theorem advance_cached {bars : List (OHLCV K)}
    (h : s.cache.get (requestKey isoDay s.defaultProvider request) = some bars) :
    request.advance isoDay (.resolved provider) s = (.answered provider (.ok bars), s) := by
  simp [h]

theorem advance_missed (h : s.cache.get (requestKey isoDay s.defaultProvider request) = none) :
    request.advance isoDay (.resolved provider) s = (.missed provider, s) := by
  simp [h]

theorem advance_threw {e : FetchError} (h : provider.answer request = .error e) :
    request.advance isoDay (.missed provider) s = (.answered provider (.error e), s) := by
  simp [h]

theorem advance_fetched {series : List (OHLCV K)} (h : provider.answer request = .ok series) :
    request.advance isoDay (.missed provider) s = (.fetched provider series, s) := by
  simp [h]

/-! ### One call alone -/

/-- What a caller of `Fetch` gets in the end. -/
def CallPhase.outcome : CallPhase K → Option (Except FetchError (List (OHLCV K)))
  | .unavailable e => some (.error e)
  | .answered _ answer => some answer
  | _ => none

theorem CallPhase.outcome_of_rank {phase : CallPhase K} (hrank : phase.rank = 0)
    (hphase : phase ≠ .registered) : ∃ answer, phase.outcome = some answer := by
  cases phase with
  | unavailable e => exact ⟨.error e, rfl⟩
  | answered provider answer => exact ⟨answer, rfl⟩
  | registered => exact absurd rfl hphase
  | called | resolved | missed | fetched => exact absurd hrank (Nat.succ_ne_zero _)

/-- Four steps with nobody in between are `Fetch`. -/
theorem fetch_alone (isoDay : Int → String) (request : Request) (s : Service K) :
    ((fun x : CallPhase K × Service K => request.advance isoDay x.1 x.2)^[4]
        (.called, s)).1.outcome = some (Service.serve isoDay request s).1 ∧
      ((fun x : CallPhase K × Service K => request.advance isoDay x.1 x.2)^[4]
        (.called, s)).2 = (Service.serve isoDay request s).2 := by
  simp only [Function.iterate_succ_apply, Function.iterate_zero_apply]
  cases hresolve : s.resolveProvider
      (Service.requestedName s.defaultProvider request.providerName) with
  | error e =>
    have hserve : Service.serve isoDay request s = (.error e, s) := by
      simp only [Service.serve, Service.fetch, hresolve]
    rw [hserve, advance_unavailable hresolve]
    exact ⟨rfl, rfl⟩
  | ok provider =>
    rw [advance_resolved hresolve]
    cases hget : s.cache.get (requestKey isoDay s.defaultProvider request) with
    | some cached =>
      have hserve : Service.serve isoDay request s = (.ok cached, s) := by
        rw [requestKey] at hget
        simp only [Service.serve, Service.fetch, hresolve, hget]
      rw [hserve, advance_cached hget]
      exact ⟨rfl, rfl⟩
    | none =>
      rw [advance_missed hget]
      rw [requestKey] at hget
      cases hanswer : provider.answer request with
      | error e =>
        have hserve : Service.serve isoDay request s = (.error e, s) := by
          rw [Provider.answer] at hanswer
          simp only [Service.serve, Service.fetch, hresolve, hget, hanswer]
        rw [hserve, advance_threw hanswer]
        exact ⟨rfl, rfl⟩
      | ok series =>
        have hserve : Service.serve isoDay request s = (.ok series,
            { s with cache := s.cache.put (requestKey isoDay s.defaultProvider request) series }) := by
          rw [Provider.answer] at hanswer
          simp only [Service.serve, Service.fetch, hresolve, hget, hanswer, requestKey]
        rw [hserve, advance_fetched hanswer]
        exact ⟨rfl, rfl⟩

theorem advance_forward (isoDay : Int → String) (request : Request) {phase : CallPhase K}
    (hphase : phase ≠ .registered) (s : Service K) :
    (request.advance isoDay phase s).1.rank ≤ phase.rank - 1 ∧
      (request.advance isoDay phase s).1 ≠ .registered := by
  cases phase with
  | called =>
    cases hresolve : s.resolveProvider
        (Service.requestedName s.defaultProvider request.providerName) with
    | error e =>
      rw [advance_unavailable hresolve]
      exact ⟨Nat.zero_le 3, nofun⟩
    | ok provider =>
      rw [advance_resolved hresolve]
      exact ⟨Nat.le_refl 3, nofun⟩
  | resolved provider =>
    cases hget : s.cache.get (requestKey isoDay s.defaultProvider request) with
    | some cached =>
      rw [advance_cached hget]
      exact ⟨Nat.zero_le 2, nofun⟩
    | none =>
      rw [advance_missed hget]
      exact ⟨Nat.le_refl 2, nofun⟩
  | missed provider =>
    cases hanswer : provider.answer request with
    | error e =>
      rw [advance_threw hanswer]
      exact ⟨Nat.zero_le 1, nofun⟩
    | ok series =>
      rw [advance_fetched hanswer]
      exact ⟨Nat.le_refl 1, nofun⟩
  | fetched => exact ⟨Nat.le_refl 0, nofun⟩
  | registered | unavailable | answered => exact ⟨Nat.le_refl 0, hphase⟩

end Steps

/-! ### Many calls -/

/-- The calls to come to a service with an empty cache, one thread each. -/
structure Workload (K W : Type) where
  isoDay : Int → String
  defaultProvider : String
  providers : StdMap (Provider K)
  calls : W → Call K

namespace Workload
variable {W : Type} (load : Workload K W)

def start : Service K := ⟨load.defaultProvider, load.providers, .empty⟩

def callEach (w : W) : CallPhase K → Service K → CallPhase K × Service K :=
  (load.calls w).advance load.isoDay

def nameOf (request : Request) : String :=
  Service.requestedName load.defaultProvider request.providerName

/-- The provider is registered under the name that is requested, at one time or
another: from the beginning, or by one of the calls. -/
def Meets (request : Request) (provider : Provider K) : Prop :=
  load.providers.find? (load.nameOf request) = some provider ∨
    ∃ u, load.calls u = .register provider ∧ provider.name = load.nameOf request

/-- No two calls share a key and may meet providers that answer them differently. -/
def Compatible : Prop :=
  ∀ v w, v ≠ w → ∀ q r, load.calls v = .fetch q → load.calls w = .fetch r →
    ∀ p p', load.Meets q p → load.Meets r p' →
      SameBars load.isoDay load.defaultProvider (p, q) (p', r)

/-! ### Whose bars are in the cache -/

/-- Every provider of the service may be met under its name. -/
structure Furnished (s : Service K) : Prop where
  default : s.defaultProvider = load.defaultProvider
  meets : ∀ request provider,
    s.providers.find? (load.nameOf request) = some provider → load.Meets request provider

/-- Whatever is in the cache comes from a call of somebody else. -/
def CachedByOthers (w : W) (s : Service K) : Prop :=
  ∀ key bars, s.cache.get key = some bars → ∃ v q p, v ≠ w ∧ load.calls v = .fetch q ∧
    load.Meets q p ∧ requestKey load.isoDay load.defaultProvider q = key ∧ p.answer q = .ok bars

/-- What is known of a `Fetch`: before it fills the cache, only others have done so,
and it answers as the provider does which it has met. -/
def Known (request : Request) (w : W) : CallPhase K → Service K → Prop
  | .called, s => load.CachedByOthers w s
  | .resolved provider, s => load.Meets request provider ∧ load.CachedByOthers w s
  | .missed provider, s => load.Meets request provider ∧ load.CachedByOthers w s
  | .fetched provider series, s => load.Meets request provider ∧
      provider.answer request = .ok series ∧ load.CachedByOthers w s
  | .answered provider answer, _ => answer = provider.answer request
  | _, _ => True

def Reached (w : W) (phase : CallPhase K) (s : Service K) : Prop :=
  ∀ request, load.calls w = .fetch request → load.Known request w phase s

variable {load} {request : Request} {s s' : Service K} {w : W} {phase : CallPhase K}

theorem Known.mono (h : load.Known request w phase s)
    (hcache : load.CachedByOthers w s → load.CachedByOthers w s') :
    load.Known request w phase s' := by
  cases phase with
  | called => exact hcache h
  | resolved provider => exact ⟨h.1, hcache h.2⟩
  | missed provider => exact ⟨h.1, hcache h.2⟩
  | fetched provider series => exact ⟨h.1, h.2.1, hcache h.2.2⟩
  | answered provider answer => exact h
  | registered | unavailable => trivial

theorem CachedByOthers.put {v : W} {provider : Provider K} {series : List (OHLCV K)}
    (h : load.CachedByOthers v s) (hv : w ≠ v)
    (hrequest : load.calls w = .fetch request) (hmeets : load.Meets request provider)
    (hseries : provider.answer request = .ok series) :
    load.CachedByOthers v
      { s with cache := s.cache.put (requestKey load.isoDay load.defaultProvider request) series } := by
  intro key bars hbars
  rw [InMemoryCache.get_put, Function.update_apply] at hbars
  split_ifs at hbars with hkey
  · cases hbars
    exact ⟨w, request, provider, hv, hrequest, hmeets, hkey.symm, hseries⟩
  · exact h key bars hbars

theorem Furnished.register {u : W} {provider : Provider K} (h : load.Furnished s)
    (hu : load.calls u = .register provider) : load.Furnished (s.register provider) := by
  refine ⟨h.default, fun request found hfound => ?_⟩
  rw [Service.register, StdMap.find?_insert, Function.update_apply] at hfound
  split_ifs at hfound with hname
  · cases hfound
    exact Or.inr ⟨u, hu, hname.symm⟩
  · exact h.meets request found hfound

/-- One step of a `Fetch`, where the bars of the others are right for it. -/
theorem known_advance (hcompatible : load.Compatible) (hcall : load.calls w = .fetch request)
    (hs : load.Furnished s) (hw : load.Known request w phase s) :
    load.Furnished (request.advance load.isoDay phase s).2 ∧
      load.Known request w (request.advance load.isoDay phase s).1
        (request.advance load.isoDay phase s).2 ∧
      ∀ v, w ≠ v → load.CachedByOthers v s →
        load.CachedByOthers v (request.advance load.isoDay phase s).2 := by
  cases phase with
  | called =>
    cases hresolve : s.resolveProvider
        (Service.requestedName s.defaultProvider request.providerName) with
    | error e =>
      rw [advance_unavailable hresolve]
      exact ⟨hs, trivial, fun v _ hv => hv⟩
    | ok provider =>
      rw [advance_resolved hresolve]
      rw [resolveProvider_eq_ok, hs.default] at hresolve
      exact ⟨hs, ⟨hs.meets request provider hresolve, hw⟩, fun v _ hv => hv⟩
  | resolved provider =>
    obtain ⟨hmeets, hcache⟩ := hw
    cases hget : s.cache.get (requestKey load.isoDay s.defaultProvider request) with
    | some bars =>
      rw [advance_cached hget]
      rw [hs.default] at hget
      obtain ⟨v, q, p, hv, hq, hp, hkey, hbars⟩ := hcache _ bars hget
      have hanswer : provider.answer request = .ok bars :=
        hcompatible v w hv q request hq hcall p provider hp hmeets hkey bars hbars
      exact ⟨hs, hanswer.symm, fun v _ hv => hv⟩
    | none =>
      rw [advance_missed hget]
      exact ⟨hs, ⟨hmeets, hcache⟩, fun v _ hv => hv⟩
  | missed provider =>
    obtain ⟨hmeets, hcache⟩ := hw
    cases hanswer : provider.answer request with
    | error e =>
      rw [advance_threw hanswer]
      exact ⟨hs, hanswer.symm, fun v _ hv => hv⟩
    | ok series =>
      rw [advance_fetched hanswer]
      exact ⟨hs, ⟨hmeets, hanswer, hcache⟩, fun v _ hv => hv⟩
  | fetched provider series =>
    obtain ⟨hmeets, hanswer, hcache⟩ := hw
    refine ⟨⟨hs.default, hs.meets⟩, hanswer.symm, fun v hv hother => ?_⟩
    simp only [Request.advance, hs.default]
    exact hother.put hv hcall hmeets hanswer
  | answered | registered | unavailable => exact ⟨hs, hw, fun v _ hv => hv⟩

theorem reached_callEach (hcompatible : load.Compatible) (w : W) (phase : CallPhase K)
    (s : Service K) (hs : load.Furnished s) (hw : load.Reached w phase s) :
    load.Furnished (load.callEach w phase s).2 ∧
      load.Reached w (load.callEach w phase s).1 (load.callEach w phase s).2 ∧
      ∀ v u, v ≠ w → load.Reached v u s → load.Reached v u (load.callEach w phase s).2 := by
  unfold callEach
  cases hcall : load.calls w with
  | register provider =>
    have hnone {u : CallPhase K} {s : Service K} : load.Reached w u s := by
      intro request hrequest
      cases hcall.symm.trans hrequest
    cases phase with
    | called =>
      refine ⟨hs.register hcall, hnone, fun v u _ hv request hrequest => ?_⟩
      exact (hv request hrequest).mono id
    | _ => exact ⟨hs, hnone, fun v u _ hv => hv⟩
  | fetch request =>
    obtain ⟨hs', hnext, hothers⟩ := known_advance hcompatible hcall hs (hw request hcall)
    refine ⟨hs', ?_, fun v u hvw hv r hr => (hv r hr).mono (hothers v hvw.symm)⟩
    intro r hr
    obtain rfl : request = r := Call.fetch.inj (hcall.symm.trans hr)
    exact hnext

theorem answered_right [DecidableEq W] (hcompatible : load.Compatible) (schedule : List W) {w : W}
    {provider : Provider K} {answer : Except FetchError (List (OHLCV K))}
    (hcall : load.calls w = .fetch request)
    (hanswered : (Threads.run load.callEach ⟨load.start, fun _ => .called⟩ schedule).own w =
      .answered provider answer) : answer = provider.answer request := by
  have hstart : Threads.Holds (fun s (_ : Unit) => load.Furnished s)
      (fun w phase s _ => load.Reached w phase s) ⟨load.start, fun _ => .called⟩ () := by
    refine ⟨⟨rfl, fun request provider hfind => Or.inl hfind⟩, fun w request _ key bars hbars => ?_⟩
    cases hbars
  have hreached := reached_callEach hcompatible
  obtain ⟨-, -, hown⟩ := Threads.run_holds
    (fun w phase s (_ : Unit) hs hw => ⟨(), hreached w phase s hs hw⟩) hstart schedule
  have hw := hown w request hcall
  rw [hanswered] at hw
  exact hw

/-! ### Bars of another provider -/

section Stale
variable [DecidableEq W] {c : Threads W (Service K) (CallPhase K)} {u v : W} {q r : Request}
  {p p' : Provider K} {bars : List (OHLCV K)}

theorem step_fetch {next : CallPhase K} (hq : load.calls v = .fetch q) (hv : c.own v = phase)
    (hadvance : q.advance load.isoDay phase c.shared = (next, s)) :
    Threads.step load.callEach c v = ⟨s, Function.update c.own v next⟩ := by
  simp only [Threads.step, callEach, hq, Call.advance, hv, hadvance]

theorem step_register (hu : load.calls u = .register p) (hcalled : c.own u = .called) :
    Threads.step load.callEach c u =
      ⟨c.shared.register p, Function.update c.own u .registered⟩ := by
  simp only [Threads.step, callEach, hu, hcalled, Call.advance]

omit [DecidableEq W] in
theorem ne_of_calls (hu : load.calls u = .register p) (hq : load.calls v = .fetch q) : u ≠ v := by
  rintro rfl
  cases hu.symm.trans hq

/-- Nothing has been put into the cache so far. -/
def Untouched (load : Workload K W) (s : Service K) : Prop :=
  s.defaultProvider = load.defaultProvider ∧ s.cache = .empty

theorem resolve_found (hs : load.Untouched c.shared) (hq : load.calls v = .fetch q)
    (hcalled : c.own v = .called) (hfind : c.shared.providers.find? (load.nameOf q) = some p) :
    Threads.run load.callEach c [v] = ⟨c.shared, Function.update c.own v (.resolved p)⟩ := by
  have hresolve : c.shared.resolveProvider
      (Service.requestedName c.shared.defaultProvider q.providerName) = .ok p := by
    rw [resolveProvider_eq_ok, hs.1]
    exact hfind
  exact step_fetch hq hcalled (advance_resolved hresolve)

theorem resolve_registered (hs : load.Untouched c.shared) (hu : load.calls u = .register p)
    (hname : p.name = load.nameOf q) (hucalled : c.own u = .called)
    (hq : load.calls v = .fetch q) (hcalled : c.own v = .called) :
    Threads.run load.callEach c [u, v] = ⟨c.shared.register p,
      Function.update (Function.update c.own u .registered) v (.resolved p)⟩ := by
  show Threads.run load.callEach (Threads.step load.callEach c u) [v] = _
  rw [step_register hu hucalled]
  refine resolve_found (c := ⟨_, _⟩) hs hq ?_ ?_
  · show Function.update c.own u .registered v = .called
    rw [Function.update_of_ne (ne_of_calls hu hq).symm, hcalled]
  · show (c.shared.providers.insert p.name p).find? (load.nameOf q) = some p
    rw [StdMap.find?_insert, hname, Function.update_self]

/-- Two calls can resolve any two providers that they may meet before either of them
looks into the cache. -/
theorem both_resolved (hvw : v ≠ w) (hq : load.calls v = .fetch q) (hr : load.calls w = .fetch r)
    (hp : load.Meets q p) (hp' : load.Meets r p') :
    ∃ schedule, load.Untouched
        (Threads.run load.callEach ⟨load.start, fun _ => .called⟩ schedule).shared ∧
      (Threads.run load.callEach ⟨load.start, fun _ => .called⟩ schedule).own v = .resolved p ∧
      (Threads.run load.callEach ⟨load.start, fun _ => .called⟩ schedule).own w = .resolved p' := by
  have hstart : load.Untouched load.start := ⟨rfl, rfl⟩
  rcases hp with hfind | ⟨u, hu, hname⟩
  · have hfirst := resolve_found (c := ⟨load.start, fun _ => .called⟩) hstart hq rfl hfind
    have hcalled : Function.update (fun _ => CallPhase.called) v (.resolved p) w = .called := by
      rw [Function.update_of_ne hvw.symm]
    rcases hp' with hfind' | ⟨u', hu', hname'⟩
    · have hsecond := resolve_found (c := ⟨load.start, Function.update (fun _ => .called) v
        (.resolved p)⟩) hstart hr hcalled hfind'
      refine ⟨[v] ++ [w], ?_⟩
      rw [Threads.run_append, hfirst, hsecond]
      exact ⟨hstart, by simp [hvw], by simp⟩
    · have huv : u' ≠ v := ne_of_calls hu' hq
      have hsecond := resolve_registered (c := ⟨load.start, Function.update (fun _ => .called) v
        (.resolved p)⟩) hstart hu' hname' (by simp [huv]) hr hcalled
      refine ⟨[v] ++ [u', w], ?_⟩
      rw [Threads.run_append, hfirst, hsecond]
      exact ⟨hstart, by simp [hvw, huv.symm], by simp⟩
  · have huv : u ≠ v := ne_of_calls hu hq
    have huw : u ≠ w := ne_of_calls hu hr
    rcases hp' with hfind' | ⟨u', hu', hname'⟩
    · -- The other one has to resolve before its provider can be replaced.
      have hfirst := resolve_found (c := ⟨load.start, fun _ => .called⟩) hstart hr rfl hfind'
      have hsecond := resolve_registered (c := ⟨load.start, Function.update (fun _ => .called) w
        (.resolved p')⟩) hstart hu hname (by simp [huw]) hq (by simp [hvw])
      refine ⟨[w] ++ [u, v], ?_⟩
      rw [Threads.run_append, hfirst, hsecond]
      exact ⟨hstart, by simp, by simp [hvw.symm, huw.symm]⟩
    · have hfirst := resolve_registered (c := ⟨load.start, fun _ => .called⟩) hstart hu hname rfl
        hq rfl
      have hcalled : Function.update (Function.update (fun _ => CallPhase.called) u .registered) v
          (.resolved p) w = .called := by
        simp [hvw.symm, huw.symm]
      by_cases huu : u' = u
      · subst huu
        obtain rfl : p' = p := Call.register.inj (hu'.symm.trans hu)
        have hsecond := resolve_found (c := ⟨load.start.register p', Function.update
          (Function.update (fun _ => .called) u' .registered) v (.resolved p')⟩) hstart hr hcalled
          (by rw [Service.register, StdMap.find?_insert, hname', Function.update_self])
        refine ⟨[u', v] ++ [w], ?_⟩
        rw [Threads.run_append, hfirst, hsecond]
        exact ⟨hstart, by simp [hvw], by simp⟩
      · have huv' : u' ≠ v := ne_of_calls hu' hq
        have hsecond := resolve_registered (c := ⟨load.start.register p, Function.update
          (Function.update (fun _ => .called) u .registered) v (.resolved p)⟩) hstart hu' hname'
          (by simp [huu, huv']) hr hcalled
        refine ⟨[u, v] ++ [u', w], ?_⟩
        rw [Threads.run_append, hfirst, hsecond]
        exact ⟨hstart, by simp [hvw, huv'.symm], by simp⟩

theorem answered_from_cache (hr : load.calls w = .fetch r) (hw : c.own w = .resolved p')
    (hget : c.shared.cache.get (requestKey load.isoDay c.shared.defaultProvider r) = some bars) :
    (Threads.step load.callEach c w).own w = .answered p' (.ok bars) := by
  rw [step_fetch hr hw (advance_cached hget)]
  exact Function.update_self ..

/-- Then one call fills the cache, and the other one is answered from there. -/
theorem answered_stale (hs : load.Untouched c.shared) (hvw : v ≠ w) (hq : load.calls v = .fetch q)
    (hr : load.calls w = .fetch r) (hv : c.own v = .resolved p) (hw : c.own w = .resolved p')
    (hkey : requestKey load.isoDay load.defaultProvider q =
      requestKey load.isoDay load.defaultProvider r) (hbars : p.answer q = .ok bars) :
    (Threads.run load.callEach c [v, v, v, w]).own w = .answered p' (.ok bars) := by
  obtain ⟨hdefault, hcache⟩ := hs
  have hget : c.shared.cache.get (requestKey load.isoDay c.shared.defaultProvider q) = none := by
    rw [hcache]
    rfl
  have hmissed := step_fetch hq hv (advance_missed hget)
  have hfetched := step_fetch (c := ⟨c.shared, Function.update c.own v (.missed p)⟩) hq
    (Function.update_self ..) (advance_fetched hbars)
  have hput := step_fetch (c := ⟨c.shared, Function.update (Function.update c.own v (.missed p)) v
    (.fetched p bars)⟩) hq (Function.update_self ..) rfl
  show (Threads.step load.callEach (Threads.step load.callEach (Threads.step load.callEach
    (Threads.step load.callEach c v) v) v) w).own w = _
  rw [hmissed, hfetched, hput]
  refine answered_from_cache hr ?_ ?_
  · simp [hvw.symm, hw]
  · show (c.shared.cache.put _ bars).get _ = _
    rw [InMemoryCache.get_put, hdefault, hkey, Function.update_self]

end Stale

/-! ### Progress -/

theorem outcome_of_count [DecidableEq W] (hcall : load.calls w = .fetch request)
    (schedule : List W) (hcount : 4 ≤ schedule.count w) :
    ∃ answer, ((Threads.run load.callEach ⟨load.start, fun _ => .called⟩ schedule).own w).outcome =
      some answer := by
  have hmove : ∀ phase s, phase ≠ .registered → (load.callEach w phase s).1.rank ≤ phase.rank - 1 ∧
      (load.callEach w phase s).1 ≠ .registered := by
    intro phase s hphase
    simp only [callEach, hcall, Call.advance]
    exact advance_forward load.isoDay request hphase s
  obtain ⟨hrank, hnot⟩ := Threads.run_rank (c := ⟨load.start, fun _ => .called⟩) w hmove nofun
    schedule
  have hstart : ((⟨load.start, fun _ => .called⟩ : Threads W (Service K) (CallPhase K)).own
      w).rank = 4 := rfl
  have hzero : ((Threads.run load.callEach ⟨load.start, fun _ => .called⟩ schedule).own w).rank =
      0 := by
    omega
  exact CallPhase.outcome_of_rank hzero hnot

end Workload

/-- Whatever the threads do in between one another, every `Fetch` is answered as the
provider answers that it has resolved, exactly when no two calls share a key and may
meet providers that answer them differently. A `Fetch` ends with its fourth step. -/
theorem concurrent_cache_transparent_iff {K W : Type} [DecidableEq W] (load : Workload K W) :
    ((∀ schedule w request, load.calls w = .fetch request → ∀ provider answer,
      (Threads.run load.callEach ⟨load.start, fun _ => .called⟩ schedule).own w =
        .answered provider answer → answer = provider.answer request) ↔ load.Compatible) ∧
    ∀ schedule w request, load.calls w = .fetch request → 4 ≤ schedule.count w → ∃ answer,
      ((Threads.run load.callEach ⟨load.start, fun _ => .called⟩ schedule).own w).outcome =
        some answer := by
  refine ⟨⟨?_, ?_⟩, fun schedule w request hcall => Workload.outcome_of_count hcall schedule⟩
  · intro h v w hvw q r hq hr p p' hp hp' hkey bars hbars
    obtain ⟨schedule, hs, hv, hw⟩ := Workload.both_resolved hvw hq hr hp hp'
    have hstale := Workload.answered_stale hs hvw hq hr hv hw hkey hbars
    rw [← Threads.run_append] at hstale
    exact (h _ w r hr p' _ hstale).symm
  · intro hcompatible schedule w request hcall provider answer hanswered
    exact Workload.answered_right hcompatible schedule hcall hanswered

end StandardTools.MarketData
