import StandardTools.Api.Parsing
import StandardTools.Lib.Except

/-!
# Two routes to a backtest (`api/rest.cpp:85-108`, `agent/dispatcher.cpp:56-79`)

The REST layer and the agent read a configuration alike but for `periods_per_year`,
which the agent takes through an `int`.
-/

namespace StandardTools.Api
open StandardTools.Core StandardTools.Lib StandardTools.Backtest

/-! ### A number of periods -/

theorem toNat_ofInt (n : ℤ) : ((UInt64.ofInt n).toNat : ℤ) = n % 2 ^ 64 := by
  rw [UInt64.ofInt, UInt64.toNat_ofNat']
  omega

theorem ofInt_eq_iff {m n : ℤ} : UInt64.ofInt m = UInt64.ofInt n ↔ m % 2 ^ 64 = n % 2 ^ 64 := by
  rw [← toNat_ofInt, ← toNat_ofInt, Nat.cast_inj, UInt64.toNat_inj]

/-- An `int` as a `size_t`. -/
def throughInt (i : Int32) : UInt64 := UInt64.ofInt i.toInt

theorem throughInt_ofInt_iff (n : ℤ) :
    throughInt (Int32.ofInt n) = UInt64.ofInt n ↔
      -2 ^ 31 ≤ n.bmod (2 ^ 64) ∧ n.bmod (2 ^ 64) < 2 ^ 31 := by
  have hsize : (Int32.size : ℕ) = 2 ^ 32 := rfl
  rw [throughInt, ofInt_eq_iff, Int32.toInt_ofInt, hsize]
  unfold Int.bmod
  norm_num
  omega

/-- What an integer of 32 bits can hold survives the way through an `int`. -/
theorem throughInt_ofInt {n : ℤ} (hlow : -2 ^ 31 ≤ n) (hhigh : n < 2 ^ 31) :
    throughInt (Int32.ofInt n) = UInt64.ofInt n := by
  rw [throughInt, Int32.toInt_ofInt_of_le hlow hhigh]

/-- The value of `periods_per_year` means the same number to both routes. -/
def PeriodsAgree (conv : Conversions) : Json → Prop
  | .integer n => -2 ^ 31 ≤ n.bmod (2 ^ 64) ∧ n.bmod (2 ^ 64) < 2 ^ 31
  | .float bits => ∃ t ∈ Lib.Binary64.trunc? (Float.Model.ofBits bits), 0 ≤ t ∧ t < 2 ^ 31
  | j => (conv.getInt j).map throughInt = conv.getSize j

variable {conv : Conversions}

theorem castWithin_eq_ok {low high : ℤ} {x : Binary64} {t : ℤ} :
    castWithin low high x = .ok t ↔ t ∈ Lib.Binary64.trunc? x ∧ low ≤ t ∧ t < high := by
  unfold castWithin
  cases htrunc : Lib.Binary64.trunc? x with
  | none => simp
  | some t' =>
    simp only [Option.mem_some_iff]
    split_ifs with hrange
    · simp only [Except.ok.injEq]
      constructor
      · rintro rfl
        exact ⟨rfl, hrange⟩
      · exact And.left
    · simp only [false_iff, not_and]
      rintro rfl hlow
      exact fun hhigh => hrange ⟨hlow, hhigh⟩

theorem castWithin_error {low high : ℤ} {x : Binary64} {e : Stopped}
    (h : castWithin low high x = .error e) : e = .undefined := by
  unfold castWithin at h
  split at h
  · split_ifs at h
    cases h
    rfl
  · cases h
    rfl

theorem periodsAgree_iff (hconv : conv.Documented) (j : Json) :
    ((conv.getInt j).map throughInt = conv.getSize j ∧ conv.getSize j ≠ .error .undefined) ↔
      PeriodsAgree conv j := by
  cases j with
  | integer n =>
    rw [hconv.int_integer, hconv.size_integer]
    simp only [Except.map, Except.ok.injEq, throughInt_ofInt_iff, PeriodsAgree]
    simp
  | float bits =>
    rw [hconv.int_float, hconv.size_float]
    constructor
    · rintro ⟨hsame, hdefined⟩
      cases hsize : castWithin 0 (2 ^ 64) (Float.Model.ofBits bits) with
      | error e =>
        rw [hsize, castWithin_error hsize] at hdefined
        exact absurd rfl hdefined
      | ok t =>
        cases hint : castWithin (-2 ^ 31) (2 ^ 31) (Float.Model.ofBits bits) with
        | error e =>
          rw [hsize, hint] at hsame
          cases hsame
        | ok t' =>
          obtain ⟨htrunc, hpos, -⟩ := castWithin_eq_ok.mp hsize
          obtain ⟨htrunc', -, hlt⟩ := castWithin_eq_ok.mp hint
          cases Option.mem_unique htrunc htrunc'
          exact ⟨t, htrunc, hpos, hlt⟩
    · rintro ⟨t, htrunc, hpos, hlt⟩
      have hint : castWithin (-2 ^ 31) (2 ^ 31) (Float.Model.ofBits bits) = .ok t :=
        castWithin_eq_ok.mpr ⟨htrunc, by omega, hlt⟩
      have hsize : castWithin 0 (2 ^ 64) (Float.Model.ofBits bits) = .ok t :=
        castWithin_eq_ok.mpr ⟨htrunc, hpos, by omega⟩
      rw [hint, hsize]
      refine ⟨congrArg Except.ok (throughInt_ofInt (by omega) hlt), ?_⟩
      exact nofun
  | null | boolean | string | array | object =>
    exact and_iff_left (hconv.size_defined _ Bool.false_ne_true)

/-! ### A configuration -/

/-- A field which is there and is refused. -/
def Refused (conv : Conversions) (obj : Json) (key : String) : Prop :=
  ∃ v ∈ obj.field? key, ∃ e, conv.getDouble v = .error e

theorem valueOr_eq_error {α : Type} {get : Json → Except Stopped α} {obj : Json} {key : String}
    {default : α} {e : Stopped} :
    valueOr get obj key default = .error e ↔ ∃ v ∈ obj.field? key, get v = .error e := by
  unfold valueOr
  cases obj.field? key with
  | none => simp
  | some v => simp

theorem valueOr_error_iff {obj : Json} {key : String} {default : Binary64} :
    (∃ e, valueOr conv.getDouble obj key default = .error e) ↔ Refused conv obj key := by
  simp only [valueOr_eq_error, Refused]
  tauto

theorem valueOr_defined (hconv : conv.Documented) (obj : Json) (key : String) (default : Binary64) :
    valueOr conv.getDouble obj key default ≠ .error .undefined := by
  intro h
  obtain ⟨v, -, hv⟩ := valueOr_eq_error.mp h
  exact hconv.double_defined v hv

/-- The field of `periods_per_year`, read by the one route and by the other. -/
theorem periods_iff (hconv : conv.Documented) (obj : Json) :
    ((valueOr conv.getInt obj "periods_per_year" (Int32.ofNat 252)).map throughInt =
        valueOr conv.getSize obj "periods_per_year" (UInt64.ofNat 252) ∧
      valueOr conv.getSize obj "periods_per_year" (UInt64.ofNat 252) ≠ .error .undefined) ↔
      ∀ v ∈ obj.field? "periods_per_year", PeriodsAgree conv v := by
  unfold valueOr
  cases obj.field? "periods_per_year" with
  | none =>
    refine iff_of_true ⟨rfl, nofun⟩ fun v hv => ?_
    cases hv
  | some v =>
    rw [periodsAgree_iff hconv]
    simp

/-- The fields in the order in which both routes read them. -/
def assemble (initialCapital commissionRate : Except Stopped Binary64)
    (periodsPerYear : Except Stopped UInt64) (riskFreeRate : Except Stopped Binary64) :
    Except Stopped (BacktestConfig Binary64) := do
  let initialCapital ← initialCapital
  let commissionRate ← commissionRate
  let periodsPerYear ← periodsPerYear
  let riskFreeRate ← riskFreeRate
  return ⟨initialCapital, commissionRate, periodsPerYear.toNat, riskFreeRate⟩

theorem assemble_throughInt (a b r : Except Stopped Binary64) (s : Except Stopped Int32) :
    (do
      let initialCapital ← a
      let commissionRate ← b
      let periodsPerYear ← s
      let riskFreeRate ← r
      return (⟨initialCapital, commissionRate, (UInt64.ofInt periodsPerYear.toInt).toNat,
        riskFreeRate⟩ : BacktestConfig Binary64)) = assemble a b (s.map throughInt) r := by
  cases a with
  | error e => rfl
  | ok x =>
    cases b with
    | error e => rfl
    | ok y =>
      cases s with
      | error e => rfl
      | ok n => rfl

section Assemble
variable {x y : Binary64} {a b r : Except Stopped Binary64} {s t : Except Stopped UInt64}
  {e : Stopped}

@[simp] theorem assemble_first : assemble (.error e) b s r = .error e := rfl
@[simp] theorem assemble_second : assemble (.ok x) (.error e) s r = .error e := rfl
@[simp] theorem assemble_third : assemble (.ok x) (.ok y) (.error e) r = .error e := rfl
@[simp] theorem assemble_fourth {n : UInt64} :
    assemble (.ok x) (.ok y) (.ok n) (.error e) = .error e := rfl
@[simp] theorem assemble_ok {n : UInt64} {z : Binary64} :
    assemble (.ok x) (.ok y) (.ok n) (.ok z) = .ok ⟨x, y, n.toNat, z⟩ := rfl

/-- Two ways to read one field give the same outcome when they read the same, and
when another field ends the parsing with the same exception. -/
theorem assemble_iff (ha : a ≠ .error .undefined) (hb : b ≠ .error .undefined)
    (hr : r ≠ .error .undefined) :
    (assemble a b t r = assemble a b s r ∧ assemble a b s r ≠ .error .undefined) ↔
      (∃ e, a = .error e) ∨ (∃ e, b = .error e) ∨ (t = s ∧ s ≠ .error .undefined) ∨
        ∃ e, r = .error e ∧ (∀ e', t = .error e' → e' = e) ∧ ∀ e', s = .error e' → e' = e := by
  cases a with
  | error e => simpa using ha
  | ok x =>
    cases b with
    | error e => simpa using hb
    | ok y =>
      -- the field which differs is read, and then the last one
      cases t with
      | error e => cases s <;> cases r <;> grind [assemble_third, assemble_fourth, assemble_ok]
      | ok m =>
        cases s with
        | error e => cases r <;> grind [assemble_third, assemble_fourth, assemble_ok]
        | ok n => cases r <;> simp_all [UInt64.toNat_inj]

end Assemble

/-! ### The two routes -/

/-- Both entry points read the same parameters from every value, and from `obj` the
same configuration, so that a backtest comes out the same. -/
structure ParseAlike (conv : Conversions) (obj : Json) : Prop where
  params : ∀ params, Agent.parseParams conv params = Rest.parseParams conv params
  config : Agent.parseBacktestConfig conv obj = Rest.parseBacktestConfig conv obj
  defined : Rest.parseBacktestConfig conv obj ≠ .error .undefined
  backtest : ∀ strategy series params,
    Agent.runBacktest conv strategy series params obj =
      Rest.runBacktest conv strategy series params obj

/-- `periods_per_year` means the same to both, or another field is refused before
either route can stop at it. -/
def RoutesAgree (conv : Conversions) (obj : Json) : Prop :=
  Refused conv obj "initial_capital" ∨ Refused conv obj "commission_rate" ∨
    (∀ v ∈ obj.field? "periods_per_year", PeriodsAgree conv v) ∨
    ∃ w ∈ obj.field? "risk_free_rate", ∃ e, conv.getDouble w = .error e ∧
      ∀ v ∈ obj.field? "periods_per_year", ∀ e',
        conv.getInt v = .error e' ∨ conv.getSize v = .error e' → e' = e

/-- The configurations agree when the ways to read `periods_per_year` do. -/
theorem config_iff (hconv : conv.Documented) (obj : Json) :
    (Agent.parseBacktestConfig conv obj = Rest.parseBacktestConfig conv obj ∧
      Rest.parseBacktestConfig conv obj ≠ .error .undefined) ↔ RoutesAgree conv obj := by
  cases obj with
  | object entries =>
    set obj := Json.object entries
    have hrest : Rest.parseBacktestConfig conv obj = assemble
        (valueOr conv.getDouble obj "initial_capital" ((100000 : ℕ) : Binary64))
        (valueOr conv.getDouble obj "commission_rate" 0)
        (valueOr conv.getSize obj "periods_per_year" (UInt64.ofNat 252))
        (valueOr conv.getDouble obj "risk_free_rate" 0) := rfl
    have hagent : Agent.parseBacktestConfig conv obj = assemble
        (valueOr conv.getDouble obj "initial_capital" ((100000 : ℕ) : Binary64))
        (valueOr conv.getDouble obj "commission_rate" 0)
        ((valueOr conv.getInt obj "periods_per_year" (Int32.ofNat 252)).map throughInt)
        (valueOr conv.getDouble obj "risk_free_rate" 0) := assemble_throughInt _ _ _ _
    rw [hrest, hagent, assemble_iff (valueOr_defined hconv _ _ _) (valueOr_defined hconv _ _ _)
      (valueOr_defined hconv _ _ _), periods_iff hconv, valueOr_error_iff, valueOr_error_iff]
    simp only [RoutesAgree, map_eq_error, valueOr_eq_error]
    refine or_congr_right (or_congr_right (or_congr_right ?_))
    constructor
    · rintro ⟨e, ⟨w, hw, he⟩, hint, hsize⟩
      refine ⟨w, hw, e, he, fun v hv e' he' => he'.elim ?_ ?_⟩
      · exact fun h => hint e' ⟨v, hv, h⟩
      · exact fun h => hsize e' ⟨v, hv, h⟩
    · rintro ⟨w, hw, e, he, hperiods⟩
      refine ⟨e, ⟨w, hw, he⟩, ?_, ?_⟩
      · rintro e' ⟨v, hv, h⟩
        exact hperiods v hv e' (Or.inl h)
      · rintro e' ⟨v, hv, h⟩
        exact hperiods v hv e' (Or.inr h)
  | null | boolean | integer | float | string | array =>
    exact iff_of_true ⟨rfl, nofun⟩
      (Or.inr (Or.inr (Or.inl fun v hv => absurd hv (Option.not_mem_none v))))

theorem parseAlike_iff (hconv : conv.Documented) (obj : Json) :
    ParseAlike conv obj ↔ RoutesAgree conv obj := by
  rw [← config_iff hconv]
  refine ⟨fun h => ⟨h.config, h.defined⟩, fun ⟨hconfig, hdefined⟩ => ?_⟩
  have hparams : ∀ params, Agent.parseParams conv params = Rest.parseParams conv params :=
    fun _ => rfl
  refine ⟨hparams, hconfig, hdefined, fun strategy series params => ?_⟩
  unfold Agent.runBacktest Rest.runBacktest
  rw [hparams, hconfig]

theorem nlohmann_documented : nlohmann.Documented where
  double_integer _ := rfl
  double_float _ := rfl
  size_integer _ := rfl
  size_float _ := rfl
  int_integer _ := rfl
  int_float _ := rfl
  double_defined j := by cases j <;> exact nofun
  size_defined j hj := by
    cases j with
    | integer | float => exact absurd rfl hj
    | null | boolean | string | array | object => exact nofun

theorem parseAlike_iff_calendar :
    ParseAlike nlohmann (.object [("periods_per_year", .integer 365)]) := by
  refine (parseAlike_iff nlohmann_documented _).mpr (Or.inr (Or.inr (Or.inl ?_)))
  intro v hv
  have hperiods : v = .integer 365 := (Option.some.inj hv).symm
  subst hperiods
  exact ⟨by decide, by decide⟩

/-- Three thousand million periods are more than an `int` can hold. -/
theorem not_parseAlike :
    ¬ParseAlike nlohmann (.object [("periods_per_year", .integer 3000000000)]) := by
  intro h
  have hrest : (Rest.parseBacktestConfig nlohmann
      (.object [("periods_per_year", .integer 3000000000)])).map (·.periodsPerYear) =
        .ok 3000000000 := rfl
  have hagent : (Agent.parseBacktestConfig nlohmann
      (.object [("periods_per_year", .integer 3000000000)])).map (·.periodsPerYear) =
        .ok 18446744072414584320 := rfl
  rw [h.config, hrest] at hagent
  exact absurd (Except.ok.inj hagent) (by decide)

end StandardTools.Api
