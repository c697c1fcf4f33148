import Mathlib.Tactic.FieldSimp
import Mathlib.Tactic.Linarith
import Mathlib.Tactic.Positivity
import Mathlib.Tactic.Ring
import StandardTools.Backtest.Run

/-!
# Solvency of a run

Nothing in the engine stops a short position whose price runs away: past twice
the entry price its equity is negative, and an account which is closed with
negative cash opens its next position with a negative quantity. `NoSqueeze`
reads off the signals and the prices whether that happens, and a run from
positive capital is solvent exactly then.
-/

namespace StandardTools.Backtest
open StandardTools.Core

/-- What a run is expected to keep: no negative quantity, no negative equity. -/
structure Solvent (config : BacktestConfig ℝ) (series : List (OHLCV ℝ))
    (signals : List SignalResult) (r : BacktestResult ℝ) : Prop where
  positions : ∀ k, ∀ pos ∈ (config.stateAfter series signals k).position, 0 ≤ pos.quantity
  trades : ∀ t ∈ r.trades, 0 ≤ t.quantity
  equity : ∀ p ∈ r.equityCurve, 0 ≤ p.equity
  drawdown : -1 ≤ r.metrics.maxDrawdown ∧ r.metrics.maxDrawdown ≤ 0

/-! ### The condition on signals and prices -/

/-- What closing at `price` brings in for each unit at stake: a unit of cash, a
share held, or a share owed together with its credited proceeds. -/
def unitValue (commission price : ℝ) : Option (TradeSide × ℝ) → ℝ
  | none => 1
  | some (.long, _) => (1 - commission) * price
  | some (.short, entry) => entry + entry - (1 + commission) * price

/-- No open short is ever worth less than nothing, neither when it is marked at
a close nor when it is bought back. A short bought back at exactly its worth in
cash ends the account at zero, and nothing that follows can matter. -/
def NoSqueeze (commission lastClose : ℝ) :
    Option (TradeSide × ℝ) → List (Option Signal × OHLCV ℝ) → Prop
  | held, [] => 0 ≤ unitValue commission lastClose held
  | held, (signal, bar) :: bars =>
    match wanted (held.map Prod.fst) signal with
    | none => 0 ≤ unitValue 0 bar.close held ∧ NoSqueeze commission lastClose held bars
    | some side =>
      unitValue commission bar.open_ held = 0 ∨
        (0 ≤ unitValue commission bar.open_ held ∧
          0 ≤ unitValue 0 bar.close (some (side, bar.open_)) ∧
          NoSqueeze commission lastClose (some (side, bar.open_)) bars)

namespace RunState

/-! ### What is at stake in a state -/

def held (s : RunState ℝ) : Option (TradeSide × ℝ) :=
  s.position.map fun pos => (pos.side, pos.entryPrice)

def stake (s : RunState ℝ) : ℝ :=
  match s.position with
  | none => s.cash
  | some pos => pos.quantity

/-- An open position took all the cash; a short one was credited its proceeds. -/
def Funded (s : RunState ℝ) : Prop :=
  ∀ pos ∈ s.position, s.cash =
    match pos.side with
    | .long => 0
    | .short => pos.quantity * (pos.entryPrice + pos.entryPrice)

def Owned (s : RunState ℝ) : Prop := ∀ pos ∈ s.position, 0 ≤ pos.quantity

variable {commission : ℝ} {s : RunState ℝ}

theorem owned_of_stake (h : 0 ≤ s.stake) : s.Owned := by
  intro pos hpos
  simpa only [stake, Option.mem_def.mp hpos] using h

theorem close_cash_eq (price : ℝ) (date : Date) :
    (s.close commission price date).cash =
      s.equityAt price - (s.position.map (·.quantity)).getD 0 * price * commission := by
  unfold close equityAt
  cases hpos : s.position with
  | none => simp only [Option.map_none, Option.getD_none, zero_mul, sub_zero]
  | some pos =>
    simp only [Option.map_some, Option.getD_some]
    cases hside : pos.side with
    | long => simp only [closePosition, positionMarketValue, hside]
    | short =>
      simp only [closePosition, positionMarketValue, hside]
      ring

theorem close_cash (hf : s.Funded) (price : ℝ) (date : Date) :
    (s.close commission price date).cash = s.stake * unitValue commission price s.held := by
  rw [close_cash_eq]
  unfold equityAt
  cases hpos : s.position with
  | none =>
    simp only [stake, held, hpos, unitValue, Option.map_none, Option.getD_none]
    ring
  | some pos =>
    have hcash := hf pos hpos
    simp only [stake, held, hpos, Option.map_some, Option.getD_some]
    cases hside : pos.side with
    | long | short =>
      simp only [hside] at hcash
      simp only [positionMarketValue, hside, unitValue, hcash]
      ring

theorem equityAt_eq (hf : s.Funded) (price : ℝ) :
    s.equityAt price = s.stake * unitValue 0 price s.held := by
  have hfree := @close_cash_eq 0 s price 0
  rw [mul_zero, sub_zero] at hfree
  rw [← hfree, close_cash hf]

theorem close_cash_le (hc : 0 ≤ commission) {price : ℝ} (hp : 0 ≤ price) (ho : s.Owned)
    (date : Date) : (s.close commission price date).cash ≤ s.equityAt price := by
  have hquantity : 0 ≤ (s.position.map (·.quantity)).getD 0 := by
    cases hpos : s.position with
    | none => exact le_refl _
    | some pos => exact ho pos hpos
  have hexit := mul_nonneg (mul_nonneg hquantity hp) hc
  rw [close_cash_eq]
  linarith

section openAt
variable (side : TradeSide) {price : ℝ} (date : Date)

@[simp] theorem openAt_held : (s.openAt side commission price date).held = some (side, price) := by
  cases side <;> rfl

theorem openAt_stake (hp : 0 < price) :
    (s.openAt side commission price date).stake = s.cash / (price * (1 + commission)) := by
  have hne : (price != 0) = true := bne_iff_ne.mpr hp.ne'
  simp only [openAt, stake, openPosition, hne, if_true]

theorem openAt_funded (hc : 0 ≤ commission) (hp : 0 < price) :
    (s.openAt side commission price date).Funded := by
  have hne : (price != 0) = true := bne_iff_ne.mpr hp.ne'
  have hc1 : 1 + commission ≠ 0 := by linarith
  have hp0 : price ≠ 0 := hp.ne'
  intro pos hpos
  cases side with
  | long | short =>
    simp only [openAt, openPosition, hne, if_true, Option.mem_def, Option.some.injEq] at hpos
    simp only [openAt, openPosition, hne, if_true, ← hpos]
    field_simp
    ring

end openAt

/-! ### One bar -/

variable {x : Option Signal × OHLCV ℝ}

theorem map_side_eq : s.position.map (·.side) = s.held.map Prod.fst := by
  unfold held
  cases s.position <;> rfl

theorem settle_of_hold (h : wanted (s.held.map Prod.fst) x.1 = none) :
    s.settle commission x = s := by
  refine settle_of_wanted_none commission s ?_
  rw [map_side_eq]
  exact h

theorem settle_of_flip {side : TradeSide} (h : wanted (s.held.map Prod.fst) x.1 = some side) :
    s.settle commission x =
      (s.close commission x.2.open_ x.2.date).openAt side commission x.2.open_ x.2.date := by
  refine settle_of_wanted commission s ?_
  rw [map_side_eq]
  exact h

theorem Funded.mark (hf : s.Funded) (bar : OHLCV ℝ) : (s.mark bar).Funded := hf

@[simp] theorem mark_stake (bar : OHLCV ℝ) : (s.mark bar).stake = s.stake := rfl
@[simp] theorem mark_held (bar : OHLCV ℝ) : (s.mark bar).held = s.held := rfl

theorem Funded.playBar (hf : s.Funded) (hc : 0 ≤ commission) (hopen : 0 < x.2.open_) :
    (s.playBar commission x).Funded := by
  apply Funded.mark
  cases hflip : wanted (s.held.map Prod.fst) x.1 with
  | none =>
    rw [settle_of_hold hflip]
    exact hf
  | some side =>
    rw [settle_of_flip hflip]
    exact openAt_funded side _ hc hopen

theorem playBar_stake_of_hold (h : wanted (s.held.map Prod.fst) x.1 = none) :
    (s.playBar commission x).stake = s.stake := by
  rw [playBar, settle_of_hold h, mark_stake]

theorem playBar_held_of_hold (h : wanted (s.held.map Prod.fst) x.1 = none) :
    (s.playBar commission x).held = s.held := by
  rw [playBar, settle_of_hold h, mark_held]

theorem playBar_stake_of_flip (hf : s.Funded) (hopen : 0 < x.2.open_) {side : TradeSide}
    (h : wanted (s.held.map Prod.fst) x.1 = some side) :
    (s.playBar commission x).stake =
      s.stake * unitValue commission x.2.open_ s.held / (x.2.open_ * (1 + commission)) := by
  rw [playBar, settle_of_flip h, mark_stake, openAt_stake side _ hopen, close_cash hf]

theorem playBar_held_of_flip {side : TradeSide} (h : wanted (s.held.map Prod.fst) x.1 = some side) :
    (s.playBar commission x).held = some (side, x.2.open_) := by
  rw [playBar, settle_of_flip h, mark_held, openAt_held]

/-! ### A whole run -/

/-- Solvency from a state on: of the positions, of the marks and of the cash
which is left when the last bar closes. -/
def StaysSolvent (commission : ℝ) (last : OHLCV ℝ) (s : RunState ℝ)
    (bars : List (Option Signal × OHLCV ℝ)) : Prop :=
  (∀ k, (s.play commission (bars.take k)).Owned) ∧
    (∀ i (h : i < bars.length),
      0 ≤ (s.play commission (bars.take (i + 1))).equityAt bars[i].2.close) ∧
    0 ≤ ((s.play commission bars).close commission last.close last.date).cash

variable {last : OHLCV ℝ} {bars : List (Option Signal × OHLCV ℝ)}

theorem staysSolvent_nil (ho : s.Owned) :
    StaysSolvent commission last s [] ↔ 0 ≤ (s.close commission last.close last.date).cash := by
  constructor
  · rintro ⟨-, -, hcash⟩
    exact hcash
  · intro hcash
    refine ⟨fun k => ?_, fun i h => absurd h (Nat.not_lt_zero i), hcash⟩
    rw [List.take_nil]
    exact ho

theorem staysSolvent_cons (ho : s.Owned) :
    StaysSolvent commission last s (x :: bars) ↔
      0 ≤ (s.playBar commission x).equityAt x.2.close ∧
        StaysSolvent commission last (s.playBar commission x) bars := by
  constructor
  · rintro ⟨howned, hmark, hcash⟩
    refine ⟨hmark 0 (Nat.succ_pos _), fun k => howned (k + 1), fun i h => ?_, hcash⟩
    exact hmark (i + 1) (Nat.succ_lt_succ h)
  · rintro ⟨hfirst, howned, hmark, hcash⟩
    refine ⟨fun k => ?_, fun i h => ?_, hcash⟩
    · cases k with
      | zero => exact ho
      | succ k => exact howned k
    · cases i with
      | zero => exact hfirst
      | succ i => exact hmark i (Nat.lt_of_succ_lt_succ h)

theorem StaysSolvent.owned (h : StaysSolvent commission last s bars) : s.Owned := h.1 0

theorem staysSolvent_of_stake_eq_zero (hc : 0 ≤ commission)
    (hprices : ∀ x ∈ bars, 0 < x.2.open_) (hf : s.Funded) (hzero : s.stake = 0) :
    StaysSolvent commission last s bars := by
  induction bars generalizing s with
  | nil =>
    rw [staysSolvent_nil (owned_of_stake hzero.ge), close_cash hf, hzero, zero_mul]
  | cons x bars ih =>
    have hopen := hprices x List.mem_cons_self
    have hf' : (s.playBar commission x).Funded := hf.playBar hc hopen
    have hzero' : (s.playBar commission x).stake = 0 := by
      cases hflip : wanted (s.held.map Prod.fst) x.1 with
      | none => rw [playBar_stake_of_hold hflip, hzero]
      | some side => rw [playBar_stake_of_flip hf hopen hflip, hzero, zero_mul, zero_div]
    rw [staysSolvent_cons (owned_of_stake hzero.ge), equityAt_eq hf', hzero', zero_mul]
    exact ⟨le_refl _, ih (fun y hy => hprices y (List.mem_cons_of_mem _ hy)) hf' hzero'⟩

theorem Owned.stake_nonneg (ho : s.Owned) {entry : TradeSide × ℝ} (hheld : s.held = some entry) :
    0 ≤ s.stake := by
  unfold held at hheld
  obtain ⟨pos, hp, -⟩ := Option.map_eq_some_iff.mp hheld
  unfold stake
  rw [hp]
  exact ho pos hp

/-- By induction on the bars; a flip multiplies the stake by the worth of a unit,
so its sign decides whether the rest of the run starts long of nothing. -/
theorem staysSolvent_iff (hc : 0 ≤ commission) (hprices : ∀ x ∈ bars, 0 < x.2.open_)
    (hf : s.Funded) (hpos : 0 < s.stake) :
    StaysSolvent commission last s bars ↔ NoSqueeze commission last.close s.held bars := by
  induction bars generalizing s with
  | nil =>
    rw [staysSolvent_nil (owned_of_stake hpos.le), close_cash hf, NoSqueeze]
    exact mul_nonneg_iff_of_pos_left hpos
  | cons x bars ih =>
    have hopen := hprices x List.mem_cons_self
    have hrest : ∀ y ∈ bars, 0 < y.2.open_ := fun y hy => hprices y (List.mem_cons_of_mem _ hy)
    have hf' : (s.playBar commission x).Funded := hf.playBar hc hopen
    rw [staysSolvent_cons (owned_of_stake hpos.le), equityAt_eq hf', NoSqueeze]
    cases hflip : wanted (s.held.map Prod.fst) x.1 with
    | none =>
      have hstake : (s.playBar commission x).stake = s.stake := playBar_stake_of_hold hflip
      have hpos' : 0 < (s.playBar commission x).stake := by
        rw [hstake]
        exact hpos
      have hih := ih hrest hf' hpos'
      rw [playBar_held_of_hold hflip] at hih
      rw [playBar_held_of_hold hflip, hih, mul_nonneg_iff_of_pos_left hpos']
    | some side =>
      have hheld : (s.playBar commission x).held = some (side, x.2.open_) :=
        playBar_held_of_flip hflip
      have hstake : (s.playBar commission x).stake =
          s.stake * unitValue commission x.2.open_ s.held / (x.2.open_ * (1 + commission)) :=
        playBar_stake_of_flip hf hopen hflip
      have hden : 0 < x.2.open_ * (1 + commission) := by positivity
      rcases lt_trichotomy (unitValue commission x.2.open_ s.held) 0 with hneg | hnull | hplus
      · have hstake' : (s.playBar commission x).stake < 0 := by
          rw [hstake]
          exact div_neg_of_neg_of_pos (mul_neg_of_pos_of_neg hpos hneg) hden
        constructor
        · rintro ⟨-, hsolvent⟩
          -- the new position has the negative quantity `stake`
          exact absurd (hsolvent.owned.stake_nonneg hheld) (not_le.mpr hstake')
        · rintro (h | ⟨h, -⟩)
          · exact absurd h hneg.ne
          · exact absurd h (not_le.mpr hneg)
      · have hstake' : (s.playBar commission x).stake = 0 := by
          rw [hstake, hnull, mul_zero, zero_div]
        rw [hstake', zero_mul]
        exact iff_of_true ⟨le_refl _, staysSolvent_of_stake_eq_zero hc hrest hf' hstake'⟩
          (Or.inl hnull)
      · have hpos' : 0 < (s.playBar commission x).stake := by
          rw [hstake]
          exact div_pos (mul_pos hpos hplus) hden
        have hih := ih hrest hf' hpos'
        rw [hheld] at hih
        rw [hheld, hih, mul_nonneg_iff_of_pos_left hpos']
        constructor
        · rintro ⟨hmark, hsqueeze⟩
          exact Or.inr ⟨hplus.le, hmark, hsqueeze⟩
        · rintro (h | ⟨-, hmark, hsqueeze⟩)
          · exact absurd h hplus.ne'
          · exact ⟨hmark, hsqueeze⟩

/-! ### The trades -/

theorem close_trades_quantity (ho : s.Owned) (ht : ∀ t ∈ s.trades, 0 ≤ t.quantity) (price : ℝ)
    (date : Date) : ∀ t ∈ (s.close commission price date).trades, 0 ≤ t.quantity := by
  intro t hmem
  unfold close at hmem
  cases hpos : s.position with
  | none =>
    simp only [hpos] at hmem
    exact ht t hmem
  | some pos =>
    simp only [hpos, List.mem_append, List.mem_singleton] at hmem
    rcases hmem with hmem | rfl
    · exact ht t hmem
    · have hq := ho pos hpos
      cases hside : pos.side with
      | long | short => simpa only [closePosition, hside] using hq

theorem play_trades_quantity (ht : ∀ t ∈ s.trades, 0 ≤ t.quantity)
    (ho : ∀ k, (s.play commission (bars.take k)).Owned) :
    ∀ t ∈ (s.play commission bars).trades, 0 ≤ t.quantity := by
  induction bars generalizing s with
  | nil => exact ht
  | cons x bars ih =>
    refine ih ?_ (fun k => ho (k + 1))
    rw [playBar, mark_trades]
    rcases settle_cases commission s x with h | ⟨side, -, h⟩
    · rw [h]
      exact ht
    · rw [h, openAt_trades]
      exact close_trades_quantity (ho 0) ht _ _

end RunState

/-! ### The drawdown -/

theorem computeMaxDrawdown_bounds (curve : List (EquityPoint ℝ))
    (h : ∀ p ∈ curve, 0 ≤ p.equity) :
    -1 ≤ computeMaxDrawdown curve ∧ computeMaxDrawdown curve ≤ 0 := by
  have hfold : ∀ s : ℝ × ℝ, 0 ≤ s.2 ∧ s.2 ≤ 1 →
      0 ≤ (curve.foldl drawdownStep s).2 ∧ (curve.foldl drawdownStep s).2 ≤ 1 := by
    induction curve with
    | nil => exact fun s hs => hs
    | cons p curve ih =>
      intro s hs
      refine ih (fun q hq => h q (List.mem_cons_of_mem _ hq)) _ ?_
      have hp := h p List.mem_cons_self
      unfold drawdownStep
      generalize (if s.1 < p.equity then p.equity else s.1) = peak
      simp only
      split_ifs with hpeak hdd
      · refine ⟨hs.1.trans hdd.le, ?_⟩
        rw [div_le_one hpeak]
        linarith
      · exact hs
      · exact hs
  have hrun := hfold (0, 0) ⟨le_refl _, zero_le_one⟩
  unfold computeMaxDrawdown
  constructor
  · linarith [hrun.2]
  · linarith [hrun.1]

theorem computeMetrics_maxDrawdown_bounds (curve : List (EquityPoint ℝ))
    (config : BacktestConfig ℝ) (h : ∀ p ∈ curve, 0 ≤ p.equity) :
    -1 ≤ (computeMetrics curve config).maxDrawdown ∧
      (computeMetrics curve config).maxDrawdown ≤ 0 := by
  unfold computeMetrics
  split
  · exact computeMaxDrawdown_bounds curve h
  · norm_num

/-! ### The returned result -/

namespace BacktestConfig
variable {config : BacktestConfig ℝ} {series : List (OHLCV ℝ)} {signals : List SignalResult}

theorem solvent_iff_staysSolvent (hc : 0 ≤ config.commissionRate)
    (hlen : signals.length = series.length) {last : OHLCV ℝ}
    (hlast : series.getLast? = some last) (hclose : 0 < last.close) :
    Solvent config series signals (config.simulate series signals) ↔
      config.start.StaysSolvent config.commissionRate last (schedule signals series) := by
  have hsched := length_schedule signals series hlen
  have hcurve := config.finalState_equityCurve_length series signals hlen
  have hback := config.finalState_equityCurve_back series signals hlen hlast
  have hall : (schedule signals series).take series.length = schedule signals series :=
    List.take_of_length_le (by omega)
  constructor
  · intro h
    have hcash : 0 ≤ ((config.start.play config.commissionRate (schedule signals series)).close
        config.commissionRate last.close last.date).cash := by
      obtain ⟨p, hp, heq⟩ := Option.map_eq_some_iff.mp hback
      rw [← heq]
      exact h.equity p (List.mem_of_getLast? hp)
    refine ⟨h.positions, fun i hi => ?_, hcash⟩
    rw [schedule_getElem_bar signals series hi (by omega)]
    by_cases hlt : i + 1 < series.length
    · have hpoint := config.finalState_equityCurve_getElem series signals hlen hlt
      exact h.equity _ (List.mem_of_getElem? hpoint)
    · -- the mark of the last bar is overwritten, but it is at least the cash left
      have hi1 : i + 1 = series.length := by omega
      have hlasti : series[i] = last := by
        rw [List.getLast?_eq_getElem?, ← hi1, Nat.add_sub_cancel,
          List.getElem?_eq_getElem (by omega)] at hlast
        exact Option.some.inj hlast
      have howned := h.positions series.length
      rw [stateAfter, hall] at howned
      rw [hi1, hall, hlasti]
      exact hcash.trans (RunState.close_cash_le hc hclose.le howned _)
  · rintro ⟨howned, hmark, hcash⟩
    have hequity : ∀ p ∈ (config.finalState series signals).equityCurve, 0 ≤ p.equity := by
      intro p hp
      obtain ⟨i, hi, rfl⟩ := List.mem_iff_getElem.mp hp
      by_cases hlt : i + 1 < series.length
      · have hpoint := config.finalState_equityCurve_getElem series signals hlen hlt
        rw [List.getElem?_eq_getElem hi, Option.some.injEq] at hpoint
        have hmarki := hmark i (by omega)
        rw [schedule_getElem_bar signals series (by omega) (by omega)] at hmarki
        rw [hpoint]
        exact hmarki
      · have hi1 : (config.finalState series signals).equityCurve.length - 1 = i := by omega
        rw [List.getLast?_eq_getElem?, hi1, List.getElem?_eq_getElem hi, Option.map_some,
          Option.some.injEq] at hback
        rw [hback]
        exact hcash
    refine ⟨howned, ?_, hequity, computeMetrics_maxDrawdown_bounds _ config hequity⟩
    show ∀ t ∈ (config.finalState series signals).trades, 0 ≤ t.quantity
    rw [config.finalState_trades series signals hlast]
    have hwhole := howned series.length
    rw [hall] at hwhole
    refine RunState.close_trades_quantity hwhole ?_ _ _
    exact RunState.play_trades_quantity (fun t ht => absurd ht List.not_mem_nil) howned

end BacktestConfig

/-- A run is solvent if and only if no short is squeezed. -/
theorem solvent_iff_noSqueeze (strategy : Strategy ℝ) (config : BacktestConfig ℝ)
    (series : List (OHLCV ℝ)) (params : ParamMap ℝ) (signals : List SignalResult)
    (hsignals : strategy.signals series params = .ok signals)
    (hlen : signals.length = series.length) (hne : series ≠ [])
    (hmax : series.length ≤ maxBacktestBars)
    (hprices : ∀ bar ∈ series, 0 < bar.open_ ∧ 0 < bar.close)
    (hcapital : 0 < config.initialCapital) (hcommission : 0 ≤ config.commissionRate) :
    ∃ r, (BacktestEngine.mk strategy config).run series params = .ok r ∧
      (Solvent config series signals r ↔
        NoSqueeze config.commissionRate (series.getLast hne).close none
          (schedule signals series)) := by
  have hopens : ∀ x ∈ schedule signals series, 0 < x.2.open_ :=
    fun x hx => (hprices x.2 (List.of_mem_zip hx).2).1
  have hfunded : config.start.Funded := fun pos hpos => by cases hpos
  refine ⟨config.simulate series signals, ?_, ?_⟩
  · exact BacktestEngine.run_eq_ok.mpr ⟨hne, hmax, signals, hsignals, hlen, rfl⟩
  · rw [BacktestConfig.solvent_iff_staysSolvent hcommission hlen (List.getLast?_eq_some_getLast hne)
      (hprices _ (List.getLast_mem hne)).2]
    exact RunState.staysSolvent_iff hcommission hopens hfunded hcapital

theorem solvent_iff_noSqueeze_mild_rise :
    ∃ r, (BacktestEngine.mk (Strategy.custom [.sell, .hold]) ⟨100000, 0, 252, 0⟩).run
        [⟨0, 99, 100, 99, 100, 1⟩, ⟨1, 100, 110, 100, 110, 1⟩] ParamMap.empty = .ok r ∧
      Solvent ⟨100000, 0, 252, 0⟩ [⟨0, 99, 100, 99, 100, 1⟩, ⟨1, 100, 110, 100, 110, 1⟩]
        [⟨0, .sell⟩, ⟨1, .hold⟩] r := by
  obtain ⟨r, hrun, hiff⟩ := solvent_iff_noSqueeze (Strategy.custom [.sell, .hold])
    ⟨100000, 0, 252, 0⟩ [⟨0, 99, 100, 99, 100, 1⟩, ⟨1, 100, 110, 100, 110, 1⟩] ParamMap.empty
    [⟨0, .sell⟩, ⟨1, .hold⟩] rfl rfl (by simp) (by simp [maxBacktestBars])
    (by simp) (by norm_num) (le_refl 0)
  have hfirst : wanted none none = none := rfl
  have hsell : wanted none (some .sell) = some .short := rfl
  refine ⟨r, hrun, hiff.mpr ?_⟩
  norm_num [schedule, NoSqueeze, hfirst, hsell, unitValue]

/-- A short opened at 1 is squeezed to 3: the account is worth -100, and the
long position which is opened next has the quantity -100/3. -/
theorem short_squeeze :
    ∃ r, (BacktestEngine.mk (Strategy.custom [.sell, .buy, .hold]) ⟨100, 0, 252, 0⟩).run
        [⟨0, 1, 1, 1, 1, 1⟩, ⟨1, 1, 3, 1, 3, 1⟩, ⟨2, 3, 3, 3, 3, 1⟩] ParamMap.empty = .ok r ∧
      r.equityCurve = [⟨0, 100⟩, ⟨1, -100⟩, ⟨2, (-100 : ℝ)⟩] ∧
      (∃ t ∈ r.trades, t.side = .long ∧ t.quantity < 0) ∧ r.metrics.maxDrawdown < -1 := by
  refine ⟨_, rfl, ?_⟩
  simp [BacktestConfig.simulate, BacktestConfig.finalState, BacktestConfig.start, schedule,
    RunState.play, RunState.playBar, RunState.settle, RunState.execute, RunState.enter,
    RunState.close, RunState.openAt, RunState.equityAt, RunState.mark, RunState.liquidate,
    RunState.setBackEquity, openPosition, closePosition, positionMarketValue, computeMetrics,
    computeMaxDrawdown, drawdownStep]
  norm_num

end StandardTools.Backtest
