import StandardTools.Agent.Answers
import StandardTools.MarketData.Settled
import StandardTools.MarketData.Synthetic

/-!
# A dispatcher without a past (`agent/dispatcher.cpp`, `server/main.cpp:89-91`)

Providers are registered before the server starts. From then on every call is answered
as if it were the first, whatever is called at the same time, as long as the dates in
the arguments are within the range of the clock.
-/

namespace StandardTools.Agent
open StandardTools.Core StandardTools.Lib Api MarketData

/-! ### What arguments ask for -/

/-- Every date of the arguments is a number of nanoseconds that fits into 64 bits. -/
def DatesFit (parseDay : String → Option ℤ) (args : Json) : Prop :=
  ∀ key s day, args.field? key = some (.string s) → parseDay s = some day →
    -2 ^ 63 ≤ day * Audit.dayLength ∧ day * Audit.dayLength < 2 ^ 63

section Arguments
variable {parseDay : String → Option ℤ} {args : Json}

theorem parseDateParam_day (hfit : DatesFit parseDay args) {name : String} {t : Date}
    (h : parseDateParam parseDay name args = .ok t) :
    t.toInt = Audit.dayOf t * Audit.dayLength := by
  unfold parseDateParam at h
  split at h
  · next s hfield =>
    unfold Audit.parseDate at h
    cases hday : parseDay s with
    | none =>
      rw [hday] at h
      cases h
    | some day =>
      rw [hday] at h
      cases h
      obtain ⟨hlow, hhigh⟩ := hfit name s day hfield hday
      have hexact : (Int64.ofInt (day * Audit.dayLength)).toInt = day * Audit.dayLength :=
        Int64.toInt_ofInt_of_le hlow hhigh
      rw [Audit.dayOf, hexact, Int.mul_ediv_cancel _ dayLength_pos.ne']
  · cases h

theorem exchange_of_make {symbol : String} {ticker : Ticker} (h : Ticker.make symbol = .ok ticker) :
    ticker.exchange = "" := by
  unfold Ticker.make at h
  split_ifs at h
  cases h
  rfl

theorem days_of_make {start stop : Date} {range : DateRange}
    (h : DateRange.make start stop = .ok range) : range.start = start ∧ range.stop = stop := by
  unfold DateRange.make at h
  split_ifs at h
  cases h
  exact ⟨rfl, rfl⟩

theorem wholeDays_of_request (hfit : DatesFit parseDay args) {request : Request}
    (h : seriesRequest parseDay args = .ok request) : request.WholeDays := by
  obtain ⟨symbol, -, h⟩ := bind_eq_ok.mp h
  obtain ⟨ticker, hticker, h⟩ := bind_eq_ok.mp h
  obtain ⟨start, hstart, h⟩ := bind_eq_ok.mp h
  obtain ⟨stop, hstop, h⟩ := bind_eq_ok.mp h
  obtain ⟨range, hrange, h⟩ := bind_eq_ok.mp h
  obtain ⟨text, -, h⟩ := bind_eq_ok.mp h
  obtain ⟨interval, -, h⟩ := bind_eq_ok.mp h
  obtain ⟨provider, -, h⟩ := bind_eq_ok.mp h
  cases h
  obtain ⟨rfl, rfl⟩ := days_of_make (mapError_eq_ok.mp hrange)
  exact {
    exchange := exchange_of_make (mapError_eq_ok.mp hticker)
    start := parseDateParam_day hfit (mapError_eq_ok.mp hstart)
    stop := parseDateParam_day hfit (mapError_eq_ok.mp hstop) }

end Arguments

/-! ### One call, from lock to lock -/

namespace Plan
variable {isoDay : ℤ → String}

def advance (isoDay : ℤ → String) :
    Plan → CallPhase Binary64 → Service Binary64 → CallPhase Binary64 × Service Binary64
  | .done _, phase, s => (phase, s)
  | .fetch request _, phase, s => request.advance isoDay phase s

/-- What the call returns or throws, when it is that far. -/
def outcome : Plan → CallPhase Binary64 → Option (Except Stopped Json)
  | .done x, _ => some x
  | .fetch _ finish, phase =>
    phase.outcome.map fun answer => answer.mapError fetchError >>= finish

/-- Four steps with nobody in between are the call. -/
theorem run_alone (isoDay : ℤ → String) (plan : Plan) (s : Service Binary64) :
    plan.outcome ((fun x : CallPhase Binary64 × Service Binary64 =>
        plan.advance isoDay x.1 x.2)^[4] (.called, s)).1 = some (plan.run isoDay s).1 ∧
      ((fun x : CallPhase Binary64 × Service Binary64 =>
        plan.advance isoDay x.1 x.2)^[4] (.called, s)).2 = (plan.run isoDay s).2 := by
  cases plan with
  | done x => exact ⟨rfl, rfl⟩
  | fetch request finish =>
    obtain ⟨houtcome, hstate⟩ := fetch_alone isoDay request s
    rw [run_fetch]
    exact ⟨Option.map_eq_some_iff.mpr ⟨_, houtcome, rfl⟩, hstate⟩

end Plan

theorem Dispatcher.dispatch_alone (d : Dispatcher) (call : ToolCall) (s : Service Binary64) :
    (d.plan call).outcome ((fun x : CallPhase Binary64 × Service Binary64 =>
        (d.plan call).advance d.isoDay x.1 x.2)^[4] (.called, s)).1 =
          some (d.dispatch call s).1 ∧
      ((fun x : CallPhase Binary64 × Service Binary64 =>
        (d.plan call).advance d.isoDay x.1 x.2)^[4] (.called, s)).2 =
          (d.dispatch call s).2 := by
  rw [Dispatcher.dispatch_eq_plan]
  exact Plan.run_alone d.isoDay (d.plan call) s

/-! ### Any call among others -/

/-- A dispatcher and the providers which its service is started with. -/
structure Host extends Dispatcher where
  defaultProvider : String
  providers : StdMap (Provider Binary64)
  rendering : Rendering isoDay
  no_colon : ∀ name provider, providers.find? name = some provider → ':' ∉ name.toList

namespace Host
variable (host : Host)

def settled : Settled Binary64 where
  isoDay := host.isoDay
  defaultProvider := host.defaultProvider
  providers := host.providers
  rendering := host.rendering
  no_colon := host.no_colon

/-- What the first call is answered. -/
def answer (call : ToolCall) : Except Stopped Json := (host.dispatch call host.settled.start).1

/-- What is known of a call which is under way. -/
def Known (call : ToolCall) (phase : CallPhase Binary64) : Prop :=
  (host.plan call).Asks fun request => host.settled.Known request phase

variable {host} {call : ToolCall} {phase : CallPhase Binary64} {s : Service Binary64}

theorem known_called (call : ToolCall) : host.Known call .called := by
  unfold Known
  cases host.plan call with
  | done x => trivial
  | fetch request finish => trivial

theorem known_advance (hfit : DatesFit host.parseDay call.arguments) (hs : host.settled.Sound s)
    (hphase : host.Known call phase) :
    host.settled.Sound ((host.plan call).advance host.isoDay phase s).2 ∧
      host.Known call ((host.plan call).advance host.isoDay phase s).1 := by
  have hasks := host.toDispatcher.asks_plan call
  unfold Known at hphase ⊢
  cases hplan : host.plan call with
  | done x => exact ⟨hs, trivial⟩
  | fetch request finish =>
    rw [hplan] at hasks hphase
    exact Settled.known_advance (wholeDays_of_request hfit hasks) hs hphase

theorem outcome_eq_answer (hphase : host.Known call phase) {x : Except Stopped Json}
    (h : (host.plan call).outcome phase = some x) : x = host.answer call := by
  rw [answer, Dispatcher.dispatch_eq_plan]
  unfold Known at hphase
  cases hplan : host.plan call with
  | done y =>
    rw [hplan] at h
    exact (Option.some.inj h).symm
  | fetch request finish =>
    rw [hplan] at h hphase
    obtain ⟨a, ha, rfl⟩ := Option.map_eq_some_iff.mp h
    rw [Plan.run_fetch, hphase.outcome ha]
    rfl

/-- A step brings a call nearer to its outcome. -/
theorem rank_advance (hphase : host.Known call phase)
    (hnone : (host.plan call).outcome phase = none) (s : Service Binary64) :
    ((host.plan call).advance host.isoDay phase s).1.rank < phase.rank := by
  unfold Known at hphase
  cases hplan : host.plan call with
  | done x =>
    rw [hplan] at hnone
    cases hnone
  | fetch request finish =>
    rw [hplan] at hnone hphase
    have hfetch : phase ≠ .registered := by
      rintro rfl
      exact hphase
    have hrank : phase.rank ≠ 0 := by
      intro hzero
      obtain ⟨a, ha⟩ := CallPhase.outcome_of_rank hzero hfetch
      rw [Plan.outcome, ha] at hnone
      cases hnone
    have hless := (advance_forward host.isoDay request hfetch s).1
    show (request.advance host.isoDay phase s).1.rank < phase.rank
    omega

end Host

end StandardTools.Agent
