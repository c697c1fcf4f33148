import StandardTools.Backtest.Run
import StandardTools.Lib.Runs

/-!
# The trades tile the exposure (`backtest/engine.cpp:215-279`)

From its first executed signal on an account is always in the market. It enters
anew when a signal asks for the other side, at the point at which it leaves the
side before, so the trades are read off the entries: each is closed where the
next one is made, and the last one at the last close.
-/

namespace StandardTools.Backtest
open StandardTools.Core StandardTools.Lib

variable {K : Type}

/-! ### Entries and what closes them -/

structure Entry (K : Type) where
  side : TradeSide
  date : Date
  price : K

/-- A trade without the amounts. -/
structure Span (K : Type) where
  entry : Entry K
  exitDate : Date
  exitPrice : K

def Position.entry (pos : Position K) : Entry K := ⟨pos.side, pos.entryDate, pos.entryPrice⟩

def Trade.span (t : Trade K) : Span K :=
  ⟨⟨t.side, t.entryDate, t.entryPrice⟩, t.exitDate, t.exitPrice⟩

/-- The entries which the bars make, in a state which holds the given side. -/
def entries : Option TradeSide → List (Option Signal × OHLCV K) → List (Entry K)
  | _, [] => []
  | held, (signal, bar) :: bars =>
    match wanted held signal with
    | none => entries held bars
    | some side => ⟨side, bar.date, bar.open_⟩ :: entries (some side) bars

/-- Each entry is closed where the next one is made, the last one at the given close. -/
def tile (exitDate : Date) (exitPrice : K) : List (Entry K) → List (Span K)
  | [] => []
  | [entry] => [⟨entry, exitDate, exitPrice⟩]
  | entry :: next :: rest =>
    ⟨entry, next.date, next.price⟩ :: tile exitDate exitPrice (next :: rest)

theorem tile_cons_cons (exitDate : Date) (exitPrice : K) (entry next : Entry K)
    (rest : List (Entry K)) :
    tile exitDate exitPrice (entry :: next :: rest) =
      ⟨entry, next.date, next.price⟩ :: tile exitDate exitPrice (next :: rest) :=
  rfl

theorem tile_entries (exitDate : Date) (exitPrice : K) (l : List (Entry K)) :
    (tile exitDate exitPrice l).map (·.entry) = l := by
  induction l using List.twoStepInduction with
  | nil => rfl
  | singleton entry => rfl
  | cons_cons entry next rest _ ih => rw [tile_cons_cons, List.map_cons, ih next]

theorem tile_cons (exitDate : Date) (exitPrice : K) (entry : Entry K) (rest : List (Entry K)) :
    ∃ date price spans,
      tile exitDate exitPrice (entry :: rest) = ⟨entry, date, price⟩ :: spans := by
  cases rest with
  | nil => exact ⟨_, _, _, rfl⟩
  | cons next rest => exact ⟨_, _, _, rfl⟩

theorem tile_isChain (exitDate : Date) (exitPrice : K) (l : List (Entry K)) :
    (tile exitDate exitPrice l).IsChain fun a b =>
      b.entry.date = a.exitDate ∧ b.entry.price = a.exitPrice := by
  induction l using List.twoStepInduction with
  | nil => exact List.isChain_nil
  | singleton entry => exact List.isChain_singleton _
  | cons_cons entry next rest _ ih =>
    obtain ⟨date, price, spans, hnext⟩ := tile_cons exitDate exitPrice next rest
    replace ih := ih next
    rw [hnext] at ih
    rw [tile_cons_cons, hnext, List.isChain_cons_cons]
    exact ⟨⟨rfl, rfl⟩, ih⟩

theorem tile_getLast (exitDate : Date) (exitPrice : K) (l : List (Entry K)) :
    ∀ span ∈ (tile exitDate exitPrice l).getLast?,
      span.exitDate = exitDate ∧ span.exitPrice = exitPrice := by
  induction l using List.twoStepInduction with
  | nil => exact fun span hspan => (by cases hspan)
  | singleton entry =>
    intro span hspan
    obtain rfl := Option.some.inj hspan
    exact ⟨rfl, rfl⟩
  | cons_cons entry next rest _ ih =>
    obtain ⟨date, price, spans, hnext⟩ := tile_cons exitDate exitPrice next rest
    replace ih := ih next
    rw [hnext] at ih
    rw [tile_cons_cons, hnext, List.getLast?_cons_cons]
    exact ih

theorem tile_dropLast (exitDate : Date) (exitPrice : K) (l : List (Entry K)) :
    ∀ span ∈ (tile exitDate exitPrice l).dropLast,
      ∃ entry ∈ l, span.exitDate = entry.date ∧ span.exitPrice = entry.price := by
  induction l using List.twoStepInduction with
  | nil => exact fun span hspan => absurd hspan List.not_mem_nil
  | singleton entry => exact fun span hspan => absurd hspan List.not_mem_nil
  | cons_cons entry next rest _ ih =>
    intro span hspan
    obtain ⟨date, price, spans, hnext⟩ := tile_cons exitDate exitPrice next rest
    replace ih := ih next
    rw [hnext] at ih
    rw [tile_cons_cons, hnext, List.dropLast_cons_cons] at hspan
    rcases List.mem_cons.mp hspan with rfl | hspan
    · exact ⟨next, List.mem_cons_of_mem _ List.mem_cons_self, rfl, rfl⟩
    · obtain ⟨made, hmade, hexit⟩ := ih span hspan
      exact ⟨made, List.mem_cons_of_mem _ hmade, hexit⟩

theorem tile_prices {P : K → Prop} {exitDate : Date} {exitPrice : K} (hexit : P exitPrice)
    {l : List (Entry K)} (hentries : ∀ entry ∈ l, P entry.price) :
    ∀ span ∈ tile exitDate exitPrice l, P span.entry.price ∧ P span.exitPrice := by
  induction l using List.twoStepInduction with
  | nil => exact fun span hspan => absurd hspan List.not_mem_nil
  | singleton entry =>
    intro span hspan
    rw [List.mem_singleton.mp hspan]
    exact ⟨hentries entry List.mem_cons_self, hexit⟩
  | cons_cons entry next rest _ ih =>
    obtain ⟨hentry, hrest⟩ := List.forall_mem_cons.mp hentries
    intro span hspan
    rcases List.mem_cons.mp hspan with rfl | hspan
    · exact ⟨hentry, hrest next List.mem_cons_self⟩
    · exact ih next hrest span hspan

/-- What is tiled up to an entry goes on behind it. -/
theorem tile_append (exitDate : Date) (exitPrice : K) (l : List (Entry K)) (entry : Entry K)
    (rest : List (Entry K)) :
    tile exitDate exitPrice (l ++ entry :: rest) =
      tile entry.date entry.price l ++ tile exitDate exitPrice (entry :: rest) := by
  induction l using List.twoStepInduction with
  | nil => rfl
  | singleton first => rfl
  | cons_cons first next l _ ih =>
    rw [List.cons_append, List.cons_append, tile_cons_cons, tile_cons_cons,
      List.cons_append]
    exact congrArg _ (ih next)

/-! ### The trades of a run -/

variable [Double K]

namespace RunState
variable (commission price : K) (date : Date) (s : RunState K)

def openEntry : List (Entry K) := (s.position.map Position.entry).toList

theorem closePosition_span (pos : Position K) (cash : K) :
    (closePosition pos price commission date cash).1.span = ⟨pos.entry, date, price⟩ := by
  obtain ⟨side, entryPrice, quantity, entryDate⟩ := pos
  cases side with
  | long => rfl
  | short => rfl

theorem close_spans : (s.close commission price date).trades.map Trade.span =
    s.trades.map Trade.span ++ tile date price s.openEntry := by
  unfold close openEntry
  cases s.position with
  | none => exact (List.append_nil _).symm
  | some pos =>
    rw [List.map_append, List.map_singleton, closePosition_span]
    rfl

/-- By induction on the bars: what is open is the first of the entries which are left. -/
theorem play_spans (bars : List (Option Signal × OHLCV K)) :
    ((s.play commission bars).close commission price date).trades.map Trade.span =
      s.trades.map Trade.span ++
        tile date price (s.openEntry ++ entries (s.position.map (·.side)) bars) := by
  induction bars generalizing s with
  | nil =>
    rw [entries, List.append_nil]
    exact close_spans commission price date s
  | cons x bars ih =>
    refine (ih (s.playBar commission x)).trans ?_
    obtain ⟨signal, bar⟩ := x
    rw [entries]
    cases hwanted : wanted (s.position.map (·.side)) signal with
    | none =>
      rw [playBar, settle_of_wanted_none commission s hwanted]
      rfl
    | some side =>
      rw [playBar, settle_of_wanted commission s hwanted]
      show (s.close commission bar.open_ bar.date).trades.map Trade.span ++
        tile date price (⟨side, bar.date, bar.open_⟩ :: entries (some side) bars) = _
      rw [close_spans, List.append_assoc, tile_append]

end RunState

theorem BacktestConfig.finalState_spans (config : BacktestConfig K) (series : List (OHLCV K))
    (signals : List SignalResult) {last : OHLCV K} (hlast : series.getLast? = some last) :
    (config.finalState series signals).trades.map Trade.span =
      tile last.date last.close (entries none (schedule signals series)) := by
  rw [config.finalState_trades series signals hlast]
  exact RunState.play_spans config.commissionRate last.close last.date config.start _

/-! ### Entries and signals -/

omit [Double K]

theorem mem_entries {held : Option TradeSide} {bars : List (Option Signal × OHLCV K)}
    {entry : Entry K} (h : entry ∈ entries held bars) :
    ∃ x ∈ bars, entry.date = x.2.date ∧ entry.price = x.2.open_ := by
  induction bars generalizing held with
  | nil => exact absurd h List.not_mem_nil
  | cons x bars ih =>
    obtain ⟨signal, bar⟩ := x
    rw [entries] at h
    cases hwanted : wanted held signal with
    | none =>
      rw [hwanted] at h
      obtain ⟨y, hy, hentry⟩ := ih h
      exact ⟨y, List.mem_cons_of_mem _ hy, hentry⟩
    | some side =>
      rw [hwanted] at h
      rcases List.mem_cons.mp h with rfl | h
      · exact ⟨_, List.mem_cons_self, rfl, rfl⟩
      · obtain ⟨y, hy, hentry⟩ := ih h
        exact ⟨y, List.mem_cons_of_mem _ hy, hentry⟩

/-- The sides which the signals ask for. -/
def askedSides (bars : List (Option Signal × OHLCV K)) : List TradeSide :=
  bars.filterMap fun x => x.1.bind Signal.side

theorem wanted_of_some {held : Option TradeSide} {signal : Option Signal} {side : TradeSide}
    (h : signal.bind Signal.side = some side) :
    wanted held signal = if held = some side then none else some side := by
  unfold wanted
  rw [h, Option.filter_some]
  by_cases heq : held = some side
  · simp [heq]
  · simp [heq]

theorem wanted_of_none {held : Option TradeSide} {signal : Option Signal}
    (h : signal.bind Signal.side = none) : wanted held signal = none := by
  unfold wanted
  rw [h, Option.filter_none]

/-- A side which is asked for again makes no entry. -/
theorem entries_sides (side : TradeSide) (bars : List (Option Signal × OHLCV K)) :
    side :: (entries (some side) bars).map (·.side) =
      (askedSides bars).destutter' (· ≠ ·) side := by
  induction bars generalizing side with
  | nil => rfl
  | cons x bars ih =>
    obtain ⟨signal, bar⟩ := x
    rw [entries, askedSides, List.filterMap_cons]
    cases hside : signal.bind Signal.side with
    | none =>
      rw [wanted_of_none hside]
      exact ih side
    | some asked =>
      rw [wanted_of_some hside]
      by_cases heq : side = asked
      · rw [if_pos (congrArg some heq), List.destutter'_cons_neg _ (not_not.mpr heq)]
        exact ih side
      · rw [if_neg (mt Option.some.inj heq), List.destutter'_cons_pos _ heq, ← askedSides, ← ih]
        rfl

theorem entries_none_sides (bars : List (Option Signal × OHLCV K)) :
    (entries none bars).map (·.side) = (askedSides bars).destutter (· ≠ ·) := by
  induction bars with
  | nil => rfl
  | cons x bars ih =>
    obtain ⟨signal, bar⟩ := x
    rw [entries, askedSides, List.filterMap_cons]
    cases hside : signal.bind Signal.side with
    | none =>
      rw [wanted_of_none hside]
      exact ih
    | some asked =>
      rw [wanted_of_some hside, if_neg (Option.some_ne_none asked).symm]
      exact entries_sides asked bars

/-- The first entry is at the first bar whose signal asks for a side. -/
theorem entries_head {bars : List (Option Signal × OHLCV K)} {i : ℕ} (hi : i < bars.length)
    (hbefore : ∀ j (h : j < bars.length), j < i → bars[j].1.bind Signal.side = none)
    (hat : bars[i].1.bind Signal.side ≠ none) :
    ∃ entry, (entries none bars).head? = some entry ∧
      entry.date = bars[i].2.date ∧ entry.price = bars[i].2.open_ := by
  induction bars generalizing i with
  | nil => exact absurd hi (Nat.not_lt_zero i)
  | cons x bars ih =>
    obtain ⟨signal, bar⟩ := x
    rw [entries]
    cases i with
    | zero =>
      obtain ⟨side, hside⟩ := Option.ne_none_iff_exists'.mp hat
      rw [List.getElem_cons_zero] at hside
      rw [wanted_of_some hside, if_neg (Option.some_ne_none side).symm]
      exact ⟨_, rfl, rfl, rfl⟩
    | succ i =>
      have hfirst : signal.bind Signal.side = none := hbefore 0 (Nat.succ_pos _) (Nat.succ_pos _)
      rw [wanted_of_none hfirst]
      exact ih (Nat.lt_of_succ_lt_succ hi)
        (fun j hj hlt => hbefore (j + 1) (Nat.succ_lt_succ hj) (Nat.succ_lt_succ hlt)) hat

theorem Signal.side_eq_none {signal : Signal} : signal.side = none ↔ signal = .hold := by
  cases signal with
  | hold => exact iff_of_true rfl rfl
  | buy => exact iff_of_false (fun h => by cases h) (fun h => by cases h)
  | sell => exact iff_of_false (fun h => by cases h) (fun h => by cases h)

def TradeSide.signal : TradeSide → Signal
  | .long => .buy
  | .short => .sell

theorem TradeSide.signal_injective : Function.Injective TradeSide.signal := by
  intro a b h
  cases a <;> cases b <;> first | rfl | cases h

theorem filterMap_side_signal (signals : List SignalResult) :
    (signals.filterMap fun s => s.signal.side).map TradeSide.signal =
      (signals.map (·.signal)).filter (· ≠ .hold) := by
  induction signals with
  | nil => rfl
  | cons s signals ih =>
    rw [List.filterMap_cons, List.map_cons, List.filter_cons]
    cases hs : s.signal with
    | hold => exact ih
    | buy => exact congrArg (Signal.buy :: ·) ih
    | sell => exact congrArg (Signal.sell :: ·) ih

variable {series : List (OHLCV K)} {signals : List SignalResult}

/-- The signal of the last bar has no bar left. -/
theorem schedule_eq (hlen : signals.length = series.length) (hne : series ≠ []) :
    schedule signals series =
      (none :: signals.dropLast.map fun s => some s.signal).zip series := by
  have hsignals : signals ≠ [] :=
    List.length_pos_iff.mp (hlen ▸ List.length_pos_iff.mpr hne)
  have hfront : (none :: signals.dropLast.map fun s => some s.signal).length = series.length := by
    rw [List.length_cons, List.length_map, List.length_dropLast, ← hlen]
    exact Nat.succ_pred (List.length_pos_iff.mpr hsignals).ne'
  have hsplit : (none :: signals.map fun s => some s.signal) =
      (none :: signals.dropLast.map fun s => some s.signal) ++
        [some (signals.getLast hsignals).signal] := by
    conv_lhs => rw [← List.dropLast_append_getLast hsignals, List.map_append]
    rfl
  calc schedule signals series
      = ((none :: signals.dropLast.map fun s => some s.signal) ++
          [some (signals.getLast hsignals).signal]).zip (series ++ []) := by
        rw [List.append_nil, schedule, hsplit]
    _ = (none :: signals.dropLast.map fun s => some s.signal).zip series ++
          [some (signals.getLast hsignals).signal].zip [] := List.zip_append hfront
    _ = (none :: signals.dropLast.map fun s => some s.signal).zip series := by
        rw [List.zip_nil_right, List.append_nil]

theorem askedSides_schedule (hlen : signals.length = series.length) (hne : series ≠ []) :
    askedSides (schedule signals series) = signals.dropLast.filterMap fun s => s.signal.side := by
  have hsides : ∀ bars : List (Option Signal × OHLCV K),
      askedSides bars = (bars.map Prod.fst).filterMap fun signal => signal.bind Signal.side := by
    intro bars
    rw [List.filterMap_map]
    rfl
  have hfront : (none :: signals.dropLast.map fun s => some s.signal).length ≤ series.length := by
    have hpos := List.length_pos_iff.mpr hne
    rw [List.length_cons, List.length_map, List.length_dropLast, hlen]
    omega
  rw [hsides, schedule_eq hlen hne, List.map_fst_zip hfront, List.filterMap_cons,
    List.filterMap_map]
  rfl

/-- An entry for each run of equal signals. -/
theorem entries_length (hlen : signals.length = series.length) (hne : series ≠ []) :
    (entries none (schedule signals series)).length =
      (((signals.dropLast.map (·.signal)).filter (· ≠ .hold)).splitBy (· == ·)).length := by
  rw [← length_destutter_eq_splitBy, ← filterMap_side_signal,
    ← List.map_destutter_ne _ TradeSide.signal_injective, List.length_map,
    ← askedSides_schedule hlen hne, ← entries_none_sides, List.length_map]

/-- The bar behind the first signal which is not a hold. -/
theorem entries_first (hlen : signals.length = series.length) {i : ℕ}
    (hi : i < signals.length) (hbar : i + 1 < series.length)
    (hbefore : ∀ j (hj : j < signals.length), j < i → signals[j].signal = .hold)
    (hat : signals[i].signal ≠ .hold) :
    ∃ entry, (entries none (schedule signals series)).head? = some entry ∧
      entry.date = series[i + 1].date ∧ entry.price = series[i + 1].open_ := by
  have hsched := length_schedule signals series hlen
  have hbars : ∀ j (hj : j + 1 < (schedule signals series).length) (hs : j < signals.length),
      (schedule signals series)[j + 1].1 = some signals[j].signal := by
    intro j hj hs
    simp only [schedule, List.getElem_zip, List.getElem_cons_succ, List.getElem_map]
  have hentry := @entries_head K (schedule signals series) (i + 1) (by omega) ?_ ?_
  · rwa [schedule_getElem_bar signals series (by omega) hbar] at hentry
  · intro j hj hlt
    cases j with
    | zero =>
      simp only [schedule, List.getElem_zip, List.getElem_cons_zero]
      rfl
    | succ j =>
      rw [hbars j hj (by omega), Option.bind_some, Signal.side_eq_none]
      exact hbefore j (by omega) (Nat.lt_of_succ_lt_succ hlt)
  · rw [hbars i (by omega) hi, Option.bind_some, ne_eq, Signal.side_eq_none]
    exact hat

/-! ### The tiling -/

theorem trades_tile_exposure [Double K] (engine : BacktestEngine K) (series : List (OHLCV K))
    (params : ParamMap K) (signals : List SignalResult)
    (hsignals : engine.strategy.signals series params = .ok signals)
    (hlen : signals.length = series.length) (hne : series ≠ [])
    (hmax : series.length ≤ maxBacktestBars) :
    ∃ r, engine.run series params = .ok r ∧
      (∀ (strategy' : Strategy K) (params' : ParamMap K) (signals' : List SignalResult),
        strategy'.signals series params' = .ok signals' → signals'.length = series.length →
        signals'.dropLast = signals.dropLast →
        (BacktestEngine.mk strategy' engine.config).run series params' = .ok r) ∧
      r.trades.length =
        (((signals.dropLast.map (·.signal)).filter (· ≠ .hold)).splitBy (· == ·)).length ∧
      r.trades.IsChain (fun t t' => t.side ≠ t'.side) ∧
      (∀ i (hi : i < signals.length) (hbar : i + 1 < series.length),
        (∀ j (hj : j < signals.length), j < i → signals[j].signal = .hold) →
        signals[i].signal ≠ .hold →
        ∃ t, r.trades.head? = some t ∧ t.entryDate = series[i + 1].date ∧
          t.entryPrice = series[i + 1].open_) ∧
      r.trades.IsChain (fun t t' => t'.entryDate = t.exitDate ∧ t'.entryPrice = t.exitPrice) ∧
      (∀ t ∈ r.trades.dropLast, ∃ bar ∈ series, t.exitDate = bar.date ∧ t.exitPrice = bar.open_) ∧
      ∀ t ∈ r.trades.getLast?,
        t.exitDate = (series.getLast hne).date ∧ t.exitPrice = (series.getLast hne).close := by
  have hspans := engine.config.finalState_spans series signals
    (List.getLast?_eq_some_getLast hne)
  have hentries := congrArg (List.map (·.entry)) hspans
  rw [tile_entries, List.map_map] at hentries
  refine ⟨engine.config.simulate series signals, ?_, ?_, ?_, ?_, ?_, ?_, ?_, ?_⟩
  · exact BacktestEngine.run_eq_ok.mpr ⟨hne, hmax, signals, hsignals, hlen, rfl⟩
  · intro strategy' params' signals' hsignals' hlen' hfront
    refine BacktestEngine.run_eq_ok.mpr ⟨hne, hmax, signals', hsignals', hlen', ?_⟩
    have hschedule : schedule signals' series = schedule signals series := by
      rw [schedule_eq hlen' hne, schedule_eq hlen hne, hfront]
    unfold BacktestConfig.simulate BacktestConfig.finalState
    rw [hschedule]
  · rw [← entries_length hlen hne, ← hentries, List.length_map]
    rfl
  · have hsides := congrArg (List.map (·.side)) hentries
    rw [entries_none_sides, List.map_map] at hsides
    have hchain := List.isChain_destutter (· ≠ ·) (askedSides (schedule signals series))
    rw [← hsides, List.isChain_map] at hchain
    exact hchain
  · intro i hi hbar hbefore hat
    obtain ⟨entry, hhead, hdate, hprice⟩ := entries_first hlen hi hbar hbefore hat
    rw [← hentries, List.head?_map] at hhead
    obtain ⟨t, ht, rfl⟩ := Option.map_eq_some_iff.mp hhead
    exact ⟨t, ht, hdate, hprice⟩
  · have hchain := tile_isChain (series.getLast hne).date (series.getLast hne).close
      (entries none (schedule signals series))
    rw [← hspans, List.isChain_map] at hchain
    exact hchain
  · intro t ht
    have hmem : t.span ∈ (tile (series.getLast hne).date (series.getLast hne).close
        (entries none (schedule signals series))).dropLast := by
      rw [← hspans, ← List.map_dropLast]
      exact List.mem_map_of_mem ht
    obtain ⟨entry, hentry, hdate, hprice⟩ := tile_dropLast _ _ _ t.span hmem
    obtain ⟨x, hx, hbar⟩ := mem_entries hentry
    exact ⟨x.2, (List.of_mem_zip hx).2, hdate.trans hbar.1, hprice.trans hbar.2⟩
  · intro t ht
    refine tile_getLast _ _ (entries none (schedule signals series)) t.span ?_
    rw [← hspans, List.getLast?_map]
    exact Option.mem_map_of_mem _ ht

theorem trades_tile_exposure_flip :
    ∃ r, (BacktestEngine.mk (Strategy.custom [.buy, .buy, .sell, .hold]) ⟨100, 0, 252, 0⟩).run
        [⟨0, 1, 1, 1, 1, 1⟩, ⟨1, 1, 1, 1, 1, 1⟩, ⟨2, 1, 1, 1, 1, 1⟩, ⟨3, 2, 2, 2, (2 : ℚ), 1⟩]
        ParamMap.empty = .ok r ∧ r.trades.length = 2 := by
  obtain ⟨r, hrun, -, hcount, -⟩ := trades_tile_exposure
    (BacktestEngine.mk (Strategy.custom [.buy, .buy, .sell, .hold]) ⟨100, 0, 252, 0⟩)
    [⟨0, 1, 1, 1, 1, 1⟩, ⟨1, 1, 1, 1, 1, 1⟩, ⟨2, 1, 1, 1, 1, 1⟩, ⟨3, 2, 2, 2, (2 : ℚ), 1⟩]
    ParamMap.empty [⟨0, .buy⟩, ⟨1, .buy⟩, ⟨2, .sell⟩, ⟨3, .hold⟩] rfl rfl (List.cons_ne_nil _ _)
    (by simp [maxBacktestBars])
  exact ⟨r, hrun, hcount⟩

end StandardTools.Backtest
