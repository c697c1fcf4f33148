import StandardTools.Lib.StdMap
import StandardTools.Screener.Universe

/-!
# The stub universe (`screener/hardcoded_provider.cpp`)

Five well-known equities. Whatever else is asked for is not found, so that a screening
of at most 500 tickers never fails.
-/

namespace StandardTools.Screener
open StandardTools.Core StandardTools.Lib MarketData

variable {K : Type} [Double K]

def hardcodedData : StdMap (FundamentalData K) := StdMap.empty.assign
  [("AAPL", ⟨"AAPL", literal 3400000000000 0, literal 285 1, literal 82 1, literal 5 3,
      literal 12 2, literal 18 1, literal 45 2⟩),
    ("MSFT", ⟨"MSFT", literal 3100000000000 0, literal 32 0, literal 12 0, literal 7 3,
      literal 15 2, literal 5 1, literal 40 2⟩),
    ("GOOGL", ⟨"GOOGL", literal 2100000000000 0, literal 24 0, literal 65 1, literal 0 0,
      literal 18 2, literal 1 1, literal 30 2⟩),
    ("AMZN", ⟨"AMZN", literal 1800000000000 0, literal 42 0, literal 8 0, literal 0 0,
      literal 20 2, literal 8 1, literal 12 2⟩),
    ("TSLA", ⟨"TSLA", literal 800000000000 0, literal 75 0, literal 15 0, literal 0 0,
      literal 25 2, literal 2 1, literal 20 2⟩)]

/-- `HardcodedFundamentalProvider::Fetch`. -/
def hardcoded : FundamentalProvider K := fun ticker =>
  match hardcodedData.find? ticker with
  | none => .error (.domain .notFound)
  | some data => .ok data

theorem hardcoded_entry {ticker : String} {data : FundamentalData K}
    (h : hardcoded ticker = .ok data) : data.ticker = ticker ∧
      ticker ∈ ["AAPL", "MSFT", "GOOGL", "AMZN", "TSLA"] := by
  unfold hardcoded at h
  split at h
  · cases h
  · next found hfound =>
    cases h
    rcases StdMap.mem_assign (StdMap.mem_of_find? hfound) with hempty | hentry
    · exact absurd hempty List.not_mem_nil
    · simp only [List.mem_cons, Prod.mk.injEq, List.not_mem_nil, or_false] at hentry ⊢
      rcases hentry with ⟨rfl, rfl⟩ | ⟨rfl, rfl⟩ | ⟨rfl, rfl⟩ | ⟨rfl, rfl⟩ | ⟨rfl, rfl⟩ <;> simp

theorem hardcoded_error {ticker : String} {e : FetchError}
    (h : (hardcoded ticker : Except FetchError (FundamentalData K)) = .error e) :
    e = .domain .notFound := by
  unfold hardcoded at h
  split at h
  · cases h
    rfl
  · cases h

theorem screen_hardcoded {tickers : List String} (hlen : tickers.length ≤ 500)
    (criteria : ScreenCriteria K) : ∃ result, screen hardcoded tickers criteria = .ok result := by
  cases h : screen hardcoded tickers criteria with
  | ok result => exact ⟨result, rfl⟩
  | error e =>
    obtain ⟨ticker, -, e', he, hother⟩ := (screen_throws_iff hlen).mp ⟨e, h⟩
    exact absurd (hardcoded_error he) hother

end StandardTools.Screener
