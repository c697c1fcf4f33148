import StandardTools.Api.Parsing

/-!
# The sizes of an indicator (`indicators/calculator.cpp:15-29`, `api/rest.cpp:68-96`)

A period is a `double` on its way in. `ParamAsSize` rejects what is not positive or
not integral and casts the rest, so that an infinity and an integral number of more
than 64 bits reach a cast which cannot hold them.
-/

namespace StandardTools.Api
open StandardTools.Core StandardTools.Lib Indicators

/-! ### Reading the sizes -/

/-- The calls of `ParamAsSize` of an indicator in their order, with the defaults. -/
def sizeParams (name : String) : List (String × ℕ) :=
  if name = "sma" then [("period", 20)]
  else if name = "ema" then [("period", 20)]
  else if name = "rsi" then [("period", 14)]
  else if name = "macd" then [("fast", 12), ("slow", 26), ("signal", 9)]
  else if name = "bollinger_bands" then [("period", 20), ("std_dev", 2)]
  else if name = "atr" then [("period", 14)]
  else []

section Reading
variable {K : Type} [Double K]

/-- The value passes the guard in front of the cast. -/
def Accepted (v : K) : Prop := ¬v ≤ 0 ∧ (Double.floor v == v) = true

instance (v : K) : Decidable (Accepted v) := inferInstanceAs (Decidable (_ ∧ _))

/-- The calls which are made: the first value that is rejected ends the indicator. -/
def readKeys (params : ParamMap K) : List (String × ℕ) → List (String × ℕ)
  | [] => []
  | key :: rest => key :: if ∀ v ∈ params key.1, Accepted v then readKeys params rest else []

variable {params : ParamMap K} {key : String} {default : ℕ}

theorem paramAsSize_of_accepted {v : K} (hv : params key = some v) (h : Accepted v) :
    paramAsSize params key default = .ok (Double.toSize v) := by
  have hguard : ¬(v ≤ 0 || Double.floor v != v) = true := by simp [h.1, h.2, bne]
  unfold paramAsSize
  rw [hv]
  exact if_neg hguard

theorem paramAsSize_of_rejected {v : K} (hv : params key = some v) (h : ¬Accepted v) :
    ∃ msg, paramAsSize params key default = .error (.invalidCommand msg) := by
  have hguard : (v ≤ 0 || Double.floor v != v) = true := by
    by_contra hguard
    refine h ?_
    simpa [Accepted, bne] using hguard
  unfold paramAsSize
  rw [hv]
  exact ⟨_, if_pos hguard⟩

theorem accepted_of_ok {n : ℕ} (h : paramAsSize params key default = .ok n) :
    ∀ v ∈ params key, Accepted v ∧ n = Double.toSize v := by
  intro v hv
  by_cases haccepted : Accepted v
  · exact ⟨haccepted, Except.ok.inj (h.symm.trans (paramAsSize_of_accepted hv haccepted))⟩
  · obtain ⟨msg, hmsg⟩ := @paramAsSize_of_rejected K _ params key default v hv haccepted
    cases h.symm.trans hmsg

theorem readKeys_eq {keys : List (String × ℕ)}
    (h : ∀ key ∈ keys, ∀ v ∈ params key.1, Accepted v) : readKeys params keys = keys := by
  induction keys with
  | nil => rfl
  | cons key rest ih =>
    rw [List.forall_mem_cons] at h
    rw [readKeys, if_pos h.1, ih h.2]

/-- The sizes are read, and the result reports the ones it was computed with. -/
def Reports (keys : List (String × ℕ)) (params : ParamMap K)
    (outcome : Except Error (IndicatorResult K)) : Prop :=
  (∃ msg, outcome = .error (.invalidCommand msg)) ∨
    ∃ result, outcome = .ok result ∧ ∀ key ∈ keys, ∃ n : ℕ,
      paramAsSize params key.1 key.2 = .ok n ∧ result.params key.1 = some (n : K)

variable {keys : List (String × ℕ)}

theorem Reports.read {f : ℕ → Except Error (IndicatorResult K)}
    (h : ∀ n, paramAsSize params key default = .ok n → Reports keys params (f n)) :
    Reports keys params (paramAsSize params key default >>= f) := by
  cases hread : paramAsSize params key default with
  | error e =>
    obtain ⟨msg, rfl⟩ := paramAsSize_error hread
    exact Or.inl ⟨msg, rfl⟩
  | ok n => exact h n hread

theorem calculate_reports (name : String) (series : List (OHLCV K)) (params : ParamMap K) :
    Reports (sizeParams name) params (calculate name series params) := by
  unfold calculate sizeParams
  split_ifs
  · exact .read fun n hn => Or.inr ⟨_, rfl, by simp [hn, ParamMap.ofList, ParamMap.set]⟩
  · exact .read fun n hn => Or.inr ⟨_, rfl, by simp [hn, ParamMap.ofList, ParamMap.set]⟩
  · exact .read fun n hn => Or.inr ⟨_, rfl, by simp [hn, ParamMap.ofList, ParamMap.set]⟩
  · exact .read fun fast hfast => .read fun slow hslow => .read fun signal hsignal =>
      Or.inr ⟨_, rfl, by simp [hfast, hslow, hsignal, ParamMap.ofList, ParamMap.set]⟩
  · exact .read fun period hperiod => .read fun count hcount =>
      Or.inr ⟨_, rfl, by simp [hperiod, hcount, ParamMap.ofList, ParamMap.set]⟩
  · exact .read fun n hn => Or.inr ⟨_, rfl, by simp [hn, ParamMap.ofList, ParamMap.set]⟩
  · cases series with
    | nil => exact Or.inr ⟨_, rfl, by simp⟩
    | cons bar rest => exact Or.inr ⟨_, rfl, by simp⟩
  · exact Or.inr ⟨_, rfl, by simp⟩
  · exact Or.inl ⟨_, rfl⟩

end Reading

/-! ### Doubles -/

/-- 2^64, from which on a `std::size_t` does not hold a number. -/
def sizeBound : Binary64 := ((2 ^ 64 : ℕ) : Binary64)

/-- The number is at least 1 and less than 2^64. -/
def InSizeRange (v : Binary64) : Prop := ∃ t ∈ Binary64.trunc? v, 1 ≤ t ∧ t < 2 ^ 64

theorem accepted_iff (v : Binary64) :
    Accepted v ↔ v.unpack = .infinity .positive ∨
      ∃ m e hm n, v.unpack = .finite .positive m e hm ∧ Binary64.IsNat m e n :=
  Binary64.integral_iff v

theorem accepted_of_sizeBound_le {v : Binary64} (h : sizeBound ≤ v) : Accepted v :=
  (accepted_iff v).mpr (Binary64.integral_of_bound_le h)

/-- Of the accepted values those below 2^64 are in range, and the cast and the
conversion back leave them as they are. -/
theorem accepted_spec {v : Binary64} (h : Accepted v) :
    (InSizeRange v ↔ ¬sizeBound ≤ v) ∧
      (¬sizeBound ≤ v → (((Double.toSize v : ℕ) : Binary64) == v) = true) := by
  rcases (accepted_iff v).mp h with hinf | ⟨m, e, hm, n, hv, hn⟩
  · have hbound : sizeBound ≤ v := Binary64.bound_le_infinity hinf
    refine ⟨iff_of_false ?_ (not_not.mpr hbound), fun hlt => absurd hbound hlt⟩
    rintro ⟨t, ht, -⟩
    rw [Binary64.trunc?_infinity hinf] at ht
    cases ht
  · have hbound : sizeBound ≤ v ↔ 2 ^ 64 ≤ n := Binary64.bound_le_iff_nat hv hn
    have htrunc : Binary64.trunc? v = some (n : ℤ) := Binary64.trunc?_eq hv hn
    have hpos : 0 < n := hn.pos hm
    have hsize : Double.toSize v = n := congrArg (fun t => (t.getD 0).toNat) htrunc
    rw [hbound, hsize]
    refine ⟨?_, fun _ => hn.ofNat_beq hv⟩
    constructor
    · rintro ⟨t, ht, -, hlt⟩
      rw [htrunc] at ht
      cases ht
      omega
    · intro hlt
      exact ⟨n, htrunc, by omega, by omega⟩

/-- Nothing is cast to a size which is out of range, and the indicator throws or
has computed with the given numbers, which its result reports. -/
structure ConvertsSafely (name : String) (series : List (OHLCV Binary64))
    (params : ParamMap Binary64) : Prop where
  casts : ∀ key ∈ readKeys params (sizeParams name), ∀ v ∈ params key.1,
    Accepted v → InSizeRange v
  sizes : (∃ msg, calculate name series params = .error (.invalidCommand msg)) ∨
    ∃ result, calculate name series params = .ok result ∧
      ∀ key ∈ sizeParams name, ∀ v ∈ params key.1, ∃ n : ℕ,
        paramAsSize params key.1 key.2 = .ok n ∧ result.params key.1 = some (n : Binary64) ∧
          ((n : Binary64) == v) = true

/-- The sizes are safe unless a number from 2^64 on or a positive infinity is read. -/
theorem convertsSafely_iff (name : String) (series : List (OHLCV Binary64))
    (params : ParamMap Binary64) :
    ConvertsSafely name series params ↔
      ∀ key ∈ readKeys params (sizeParams name), ∀ v ∈ params key.1, ¬sizeBound ≤ v := by
  constructor
  · intro h key hkey v hv hbound
    have haccepted : Accepted v := accepted_of_sizeBound_le hbound
    exact (accepted_spec haccepted).1.mp (h.casts key hkey v hv haccepted) hbound
  · intro h
    refine ⟨fun key hkey v hv haccepted => ?_, ?_⟩
    · exact (accepted_spec haccepted).1.mpr (h key hkey v hv)
    · rcases calculate_reports name series params with hthrows | ⟨result, hresult, hsizes⟩
      · exact Or.inl hthrows
      · have haccepted : ∀ key ∈ sizeParams name, ∀ v ∈ params key.1, Accepted v := by
          intro key hkey v hv
          obtain ⟨n, hn, -⟩ := hsizes key hkey
          exact (accepted_of_ok hn v hv).1
        rw [readKeys_eq haccepted] at h
        refine Or.inr ⟨result, hresult, fun key hkey v hv => ?_⟩
        obtain ⟨n, hn, hreported⟩ := hsizes key hkey
        obtain ⟨hv', rfl⟩ := accepted_of_ok hn v hv
        exact ⟨_, hn, hreported, (accepted_spec hv').2 (h key hkey v hv)⟩

theorem sma_unsafe {params : ParamMap Binary64} {v : Binary64} (hv : params "period" = some v)
    (hbound : sizeBound ≤ v) (series : List (OHLCV Binary64)) :
    ¬ConvertsSafely "sma" series params := by
  intro h
  have haccepted : Accepted v := accepted_of_sizeBound_le hbound
  have hkey : ("period", 20) ∈ readKeys params (sizeParams "sma") := List.mem_cons_self
  exact (accepted_spec haccepted).1.mp (h.casts _ hkey v hv haccepted) hbound

/-- A query may name an infinity, and the greatest integer of a JSON text is rounded
to 2^64. -/
theorem not_convertsSafely :
    (∃ params, Rest.parseIndicatorParams
        (fun s => if s = "inf" then some (Float.Model.ofBits 0x7FF0000000000000) else none)
        (fun key => if key = "period" then some "inf" else none) = .ok params ∧
      ¬ConvertsSafely "sma" [] params) ∧
    ∃ params, Agent.parseParams nlohmann (.object [("period", .integer 18446744073709551615)]) =
        .ok params ∧ ¬ConvertsSafely "sma" [] params := by
  constructor
  · refine ⟨ParamMap.empty.set "period" (Float.Model.ofBits 0x7FF0000000000000), rfl, ?_⟩
    exact sma_unsafe rfl (by decide) []
  · refine ⟨ParamMap.empty.set "period" (Float.Model.ofInt 18446744073709551615), rfl, ?_⟩
    exact sma_unsafe rfl (by decide) []

end StandardTools.Api
