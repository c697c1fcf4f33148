import Mathlib

/-!
# Numbers in binary64

Lean's own model of a `Float` is read as a mantissa and an exponent. Packing a
number in canonical form loses nothing, and rounding one which has such a form
changes nothing, so that the conversion of a natural number is exact where the
format can represent it. From this follows which numbers are equal to their floor
and where those from 2^64 on begin.
-/

namespace StandardTools.Lib.Binary64
open Float.Model UnpackedFloat

/-! ### Canonical numbers -/

/-- Mantissa and exponent of a positive number as the format stores them. -/
structure Canonical (m : ℕ) (e : ℤ) : Prop where
  lt : m < 2 ^ 53
  min_le : -1074 ≤ e
  le_max : e ≤ 971
  normal : 2 ^ 52 ≤ m ∨ e = -1074

theorem toNat_one_append (v : BitVec 52) : (1#1 ++ v).toNat = 2 ^ 52 + v.toNat := by
  rw [BitVec.toNat_append, ← Nat.shiftLeft_add_eq_or_of_lt v.isLt]
  simp [Nat.shiftLeft_eq]

theorem canonical_unpack {x : Float.Model} {s : Sign} {m : ℕ} {e : ℤ} {hm : 0 < m}
    (h : x.unpack = .finite s m e hm) : Canonical m e := by
  unfold Float.Model.unpack UnpackedFloat.unpack at h
  simp only at h
  split_ifs at h with hspecial _ hsubnormal hzero
  · injection h with _ hmantissa hexponent
    have hlt := (@unpackMantissa Format.binary64 x.toBits.toBitVec).isLt
    rw [hsubnormal] at hexponent
    simp [Format.exponentBias] at hexponent hlt
    constructor <;> omega
  · injection h with _ hmantissa hexponent
    have hlt := (@unpackMantissa Format.binary64 x.toBits.toBitVec).isLt
    have hexp := (@unpackExponent Format.binary64 x.toBits.toBitVec).isLt
    have hmax : (@unpackExponent Format.binary64 x.toBits.toBitVec).toNat ≠ 2047 := by
      intro h2047
      exact hspecial (BitVec.eq_of_toNat_eq h2047)
    have hmin : (@unpackExponent Format.binary64 x.toBits.toBitVec).toNat ≠ 0 := by
      intro h0
      exact hsubnormal (BitVec.eq_of_toNat_eq h0)
    rw [toNat_one_append] at hmantissa
    simp [Format.exponentBias] at hexponent hlt hexp
    constructor <;> omega

theorem getLsbD_unpackSign (b : BitVec Format.binary64.numBits) :
    (unpackSign b).getLsbD 0 = b.getLsbD 63 := by
  simp [unpackSign]

@[simp] theorem unpackSign_packComponents (s : Sign) (e : BitVec 11) (m : BitVec 52) :
    unpackSign (packComponents Format.binary64 s e m) = s.toBitVec := by
  have hbit : ((s.toBitVec ++ e : BitVec 12) ++ m : BitVec 64).getLsbD 63 =
      s.toBitVec.getLsbD 0 := by
    rw [BitVec.getLsbD_append, BitVec.getLsbD_append]
    rfl
  refine BitVec.eq_of_getLsbD_eq fun i hi => ?_
  rw [Nat.lt_one_iff.mp hi, getLsbD_unpackSign]
  exact hbit

@[simp] theorem ofBitVec_toBitVec (s : Sign) : Sign.ofBitVec s.toBitVec = s := by
  cases s <;> rfl

/-- The exponent field of a number is neither that of a NaN nor that of zero. -/
theorem ofNat_ne_special {n : ℕ} (hpos : 0 < n) (hlt : n < 2047) :
    BitVec.ofNat 11 n ≠ -1#11 ∧ BitVec.ofNat 11 n ≠ 0#11 := by
  constructor
  · intro hall
    have hnat := congrArg BitVec.toNat hall
    simp at hnat
    omega
  · intro hzero
    have hnat := congrArg BitVec.toNat hzero
    simp at hnat
    omega

theorem unpack_normal (s : Sign) {n m : ℕ} (hpos : 0 < n) (hlt : n < 2047) (hm : 2 ^ 52 ≤ m)
    (hm' : m < 2 ^ 53) :
    UnpackedFloat.unpack Format.binary64
        (packComponents Format.binary64 s (BitVec.ofNat 11 n) (BitVec.ofNat 52 m)) =
      .finite s m (n - 1075) (by omega) := by
  obtain ⟨hnan, hzero⟩ := ofNat_ne_special hpos hlt
  have hbias : Format.binary64.exponentBias = 1023 := by decide
  have hmantissa : (1#1 ++ BitVec.ofNat 52 m).toNat = m := by
    rw [toNat_one_append, BitVec.toNat_ofNat]
    omega
  have hexponent : (BitVec.ofNat 11 n).toNat = n := by
    rw [BitVec.toNat_ofNat]
    omega
  unfold UnpackedFloat.unpack
  simp only [unpackMantissa_packComponents, unpackExponent_packComponents,
    unpackSign_packComponents, ofBitVec_toBitVec]
  rw [if_neg hnan, if_neg hzero]
  simp only [hmantissa, hexponent, hbias]
  congr 1

theorem unpack_subnormal (s : Sign) {m : ℕ} (hm : 0 < m) (hm' : m < 2 ^ 52) :
    UnpackedFloat.unpack Format.binary64
        (packComponents Format.binary64 s 0#11 (BitVec.ofNat 52 m)) =
      .finite s m (-1074) hm := by
  have hbias : Format.binary64.exponentBias = 1023 := by decide
  have hmantissa : (BitVec.ofNat 52 m).toNat = m := by
    rw [BitVec.toNat_ofNat]
    omega
  have hne : BitVec.ofNat 52 m ≠ 0#52 := by
    intro hzero
    have hnat := congrArg BitVec.toNat hzero
    rw [hmantissa] at hnat
    simp at hnat
    omega
  unfold UnpackedFloat.unpack
  simp only [unpackMantissa_packComponents, unpackExponent_packComponents,
    unpackSign_packComponents, ofBitVec_toBitVec]
  rw [if_neg (by decide), if_pos trivial, dif_neg hne]
  simp only [hmantissa, hbias]
  congr 1

/-- A canonical number is what its packed bits stand for. -/
theorem unpack_pack {m : ℕ} {e : ℤ} (h : Canonical m e) (s : Sign) (hm : 0 < m) :
    (Float.Model.pack (.finite s m e hm)).unpack = .finite s m e hm := by
  obtain ⟨hlt, hmin, hmax, hnormal⟩ := h
  have hbias : (Format.binary64.exponentBias : ℤ) = 1023 := by decide
  have hbiased : (e + Format.binary64.exponentBias + (52 : ℕ)).toNat = (e + 1075).toNat := by
    rw [hbias]
    congr 1
    omega
  unfold Float.Model.unpack Float.Model.pack UnpackedFloat.pack
  simp only [hbiased]
  rw [if_neg (by omega)]
  by_cases hlog : m.log2 + 1 = Format.binary64.mantissaBits
  · have hle : 2 ^ 52 ≤ m := by
      have hlog' : m.log2 = 52 := by simpa [Format.mantissaBits] using hlog
      exact hlog' ▸ Nat.log2_self_le hm.ne'
    rw [if_pos hlog]
    refine (unpack_normal s (by omega) (by omega) hle hlt).trans ?_
    congr 1
    omega
  · have hlt' : m < 2 ^ 52 := by
      by_contra hle
      have hlog' : m.log2 = 52 := (Nat.log2_eq_iff hm.ne').mpr ⟨not_lt.mp hle, hlt⟩
      exact hlog (by simp [Format.mantissaBits, hlog'])
    rw [if_neg hlog]
    refine (unpack_subnormal s hm hlt').trans ?_
    congr 1
    omega

/-! ### Exact rounding -/

theorem repeat_shiftRightOne (m k : ℕ) :
    Nat.repeat ExtendedMantissa.shiftRightOne k ⟨m * 2 ^ k, false, false⟩ = ⟨m, false, false⟩ := by
  induction k generalizing m with
  | zero => simp [Nat.repeat]
  | succ k ih =>
    have hdouble : m * 2 ^ (k + 1) = m * 2 * 2 ^ k := by ring
    rw [Nat.repeat, hdouble, ih]
    simp [ExtendedMantissa.shiftRightOne]

theorem log2_mul_two_pow {m : ℕ} (hm : 0 < m) (k : ℕ) : (m * 2 ^ k).log2 = m.log2 + k := by
  refine (Nat.log2_eq_iff (by positivity)).mpr ⟨?_, ?_⟩
  · rw [pow_add]
    exact Nat.mul_le_mul_right _ (Nat.log2_self_le hm.ne')
  · have hlt : m < 2 ^ (m.log2 + 1) := Nat.lt_log2_self
    calc m * 2 ^ k < 2 ^ (m.log2 + 1) * 2 ^ k := by gcongr
      _ = 2 ^ (m.log2 + k + 1) := by ring

theorem totalExponent_mul_two_pow {m : ℕ} (hm : 0 < m) (e : ℤ) (k : ℕ) :
    totalExponent (m * 2 ^ k) e = totalExponent m (e + k) := by
  unfold totalExponent
  rw [log2_mul_two_pow hm]
  push_cast
  ring

section Canonical
variable {m : ℕ} {e : ℤ} (h : Canonical m e) (hm : 0 < m) (s : Sign)
include h hm

theorem Canonical.targetExponent :
    Format.binary64.targetExponent (totalExponent m e) = e := by
  have hlog : m.log2 < 53 := (Nat.log2_lt hm.ne').mpr h.lt
  have hmin : Format.binary64.minExponent = -1074 := by decide
  have hbits : Format.binary64.mantissaBits = 53 := by decide
  unfold Format.targetExponent totalExponent
  rw [hmin, hbits]
  rcases h.normal with hnormal | hsubnormal
  · have hlog' : 52 ≤ m.log2 := (Nat.le_log2 hm.ne').mpr hnormal
    have hmin' := h.min_le
    omega
  · omega

/-- A number whose mantissa ends in zeros is shifted to its canonical form. -/
theorem shiftToTargetExponent_exact (k : ℕ) :
    shiftToTargetExponent Format.binary64 (m * 2 ^ k) (e - k) .exact =
      (⟨m, false, false⟩, e) := by
  have htotal : totalExponent (m * 2 ^ k) (e - k) = totalExponent m e := by
    rw [totalExponent_mul_two_pow hm, sub_add_cancel]
  have hshift : (e - (e - (k : ℤ))).toNat = k := by omega
  unfold shiftToTargetExponent shiftToExponent
  simp only [htotal, h.targetExponent hm, hshift, sub_add_cancel]
  exact congrArg (·, e) (repeat_shiftRightOne m k)

theorem roundWithAccuracy_exact (k : ℕ) :
    roundWithAccuracy Format.binary64 s (m * 2 ^ k) (e - k) .exact = .finite s m e hm := by
  have hsecond : shiftToTargetExponent Format.binary64 m e .exact = (⟨m, false, false⟩, e) := by
    simpa using shiftToTargetExponent_exact h hm 0
  unfold roundWithAccuracy
  simp only [shiftToTargetExponent_exact h hm k]
  have hrounded : (ExtendedMantissa.mk m false false).roundedMantissa = m := rfl
  simp only [hrounded, hsecond]
  exact dif_neg hm.ne'

theorem round_shiftRight (k : ℕ) :
    UnpackedFloat.round Format.binary64 s (m * 2 ^ k) (e - k) = .finite s m e hm := by
  have htotal : totalExponent (m * 2 ^ k) (e - k) = totalExponent m e := by
    rw [totalExponent_mul_two_pow hm, sub_add_cancel]
  have hshift : (e - (k : ℤ) - e).toNat = 0 := by omega
  unfold UnpackedFloat.round decreaseExponent
  simp only [htotal, h.targetExponent hm, hshift, Nat.shiftLeft_zero, Nat.cast_zero, sub_zero]
  exact roundWithAccuracy_exact h hm s k

omit hm in
theorem round_shiftLeft {n : ℕ} (hn : 0 < n) (k : ℕ) (hmn : n * 2 ^ k = m) (hm : 0 < m) :
    UnpackedFloat.round Format.binary64 s n (e + k) = .finite s m e hm := by
  have htotal : totalExponent n (e + k) = totalExponent m e := by
    rw [← hmn, totalExponent_mul_two_pow hn]
  have hshift : (e + (k : ℤ) - e).toNat = k := by omega
  have hround := roundWithAccuracy_exact h hm s 0
  rw [pow_zero, mul_one, Nat.cast_zero, sub_zero] at hround
  unfold UnpackedFloat.round decreaseExponent
  simp only [htotal, h.targetExponent hm, hshift, Nat.shiftLeft_eq, hmn, add_sub_cancel_right]
  exact hround

end Canonical

/-! ### Natural numbers -/

/-- `m * 2 ^ e` is the natural number `n`. -/
def IsNat (m : ℕ) (e : ℤ) (n : ℕ) : Prop := n * 2 ^ (-e).toNat = m * 2 ^ e.toNat

section IsNat
variable {m n : ℕ} {e : ℤ}

theorem IsNat.pos (h : IsNat m e n) (hm : 0 < m) : 0 < n := by
  have hpos : 0 < n * 2 ^ (-e).toNat := by
    rw [h]
    positivity
  exact Nat.pos_of_mul_pos_right hpos

theorem IsNat.div (h : IsNat m e n) : m * 2 ^ e.toNat / 2 ^ (-e).toNat = n := by
  rw [← h]
  exact Nat.mul_div_cancel n (by positivity)

/-- A representable natural number is converted without rounding. -/
theorem unpack_ofNat (h : Canonical m e) (hm : 0 < m) (hn : IsNat m e n) :
    (Float.Model.ofNat n).unpack = .finite .positive m e hm := by
  have hround : UnpackedFloat.round Format.binary64 .positive n 0 = .finite .positive m e hm := by
    rcases le_total 0 e with he | he
    · have hk : e - (e.toNat : ℤ) = 0 := by omega
      have hneg : (-e).toNat = 0 := by omega
      have hmn : n = m * 2 ^ e.toNat := by simpa [IsNat, hneg] using hn
      have hright := round_shiftRight h hm .positive e.toNat
      rwa [hk, ← hmn] at hright
    · have hk : e + ((-e).toNat : ℤ) = 0 := by omega
      have hpos : e.toNat = 0 := by omega
      have hmn : n * 2 ^ (-e).toNat = m := by simpa [IsNat, hpos] using hn
      have hleft := round_shiftLeft h .positive (hn.pos hm) (-e).toNat hmn hm
      rwa [hk] at hleft
  have hofNat : UnpackedFloat.ofNat Format.binary64 n = .finite .positive m e hm := by
    have hcompare : compare (n : ℤ) 0 = .gt := by
      have hn' := hn.pos hm
      rw [Int.compare_eq_gt]
      omega
    unfold UnpackedFloat.ofNat UnpackedFloat.ofInt UnpackedFloat.normalize
    rw [hcompare]
    exact hround
  unfold Float.Model.ofNat
  rw [hofNat]
  exact unpack_pack h .positive hm

/-- Every natural number of at most 53 bits is representable. -/
theorem exists_canonical (hn : 0 < n) (hlt : n < 2 ^ 53) :
    ∃ m e, 0 < m ∧ Canonical m e ∧ IsNat m e n := by
  have hlog : n.log2 < 53 := (Nat.log2_lt hn.ne').mpr hlt
  have hm : 0 < n * 2 ^ (52 - n.log2) := by positivity
  have hlog' : (n * 2 ^ (52 - n.log2)).log2 = 52 := by
    rw [log2_mul_two_pow hn]
    omega
  refine ⟨n * 2 ^ (52 - n.log2), (n.log2 : ℤ) - 52, hm, ⟨?_, ?_, ?_, ?_⟩, ?_⟩
  · exact (Nat.log2_lt hm.ne').mp (by omega)
  · omega
  · omega
  · exact Or.inl ((Nat.le_log2 hm.ne').mp hlog'.ge)
  · have hneg : (-((n.log2 : ℤ) - 52)).toNat = 52 - n.log2 := by omega
    have hpos : ((n.log2 : ℤ) - 52).toNat = 0 := by omega
    rw [IsNat, hneg, hpos, pow_zero, mul_one]

end IsNat

/-! ### Integral numbers -/

/-- The integer which is left of a number when its fraction is cut off. -/
def trunc? (x : Float.Model) : Option ℤ :=
  match x.unpack with
  | .zero _ => some 0
  | .finite s m e _ => some (s.apply (m * 2 ^ e.toNat / 2 ^ (-e).toNat : ℕ))
  | _ => none

/-- The greatest integral number which does not exceed `x`. -/
def floor (x : Float.Model) : Float.Model :=
  match x.unpack with
  | .finite s m e _ => if 0 ≤ e then x else Float.Model.ofInt (s.apply m / 2 ^ (-e).toNat)
  | _ => x

section Positive
variable {x y : Float.Model} {m m' n : ℕ} {e e' : ℤ} {hm : 0 < m} {hm' : 0 < m'}

theorem beq_iff (hx : x.unpack = .finite .positive m e hm)
    (hy : y.unpack = .finite .positive m' e' hm') : (x == y) = true ↔ m = m' ∧ e = e' := by
  have hbeq : (x == y) = (x.unpack.compare y.unpack == some .eq) := rfl
  have hcompare : x.unpack.compare y.unpack =
      some ((compare e e').then (compare m m')) := by
    rw [hx, hy]
    rfl
  rw [hbeq, hcompare, beq_iff_eq, Option.some_inj, Ordering.then_eq_eq, compare_eq_iff_eq,
    compare_eq_iff_eq]
  exact and_comm

theorem trunc?_eq (hx : x.unpack = .finite .positive m e hm) (hn : IsNat m e n) :
    trunc? x = some (n : ℤ) := by
  unfold trunc?
  rw [hx]
  exact congrArg (fun k : ℕ => some (k : ℤ)) hn.div

theorem IsNat.ofNat_beq (hn : IsNat m e n) (hx : x.unpack = .finite .positive m e hm) :
    (Float.Model.ofNat n == x) = true :=
  (beq_iff (unpack_ofNat (canonical_unpack hx) hm hn) hx).mpr ⟨rfl, rfl⟩

/-- A conversion from an integer gives `x` back just when `x` is that integer. -/
theorem ofNat_beq_iff (hx : x.unpack = .finite .positive m e hm) (hn : n < 2 ^ 53) :
    (Float.Model.ofNat n == x) = true ↔ IsNat m e n := by
  constructor
  · intro hbeq
    rcases Nat.eq_zero_or_pos n with rfl | hpos
    · have hzero : (Float.Model.ofNat 0 == x) = false := by
        have hcompare : (Float.Model.ofNat 0).unpack.compare x.unpack = some .lt := by
          rw [hx]
          rfl
        exact congrArg (· == some .eq) hcompare
      exact absurd (hzero.symm.trans hbeq) Bool.false_ne_true
    · obtain ⟨m', e', hm', hcanonical, hnat⟩ := exists_canonical hpos hn
      obtain ⟨rfl, rfl⟩ := (beq_iff (unpack_ofNat hcanonical hm' hnat) hx).mp hbeq
      exact hnat
  · exact fun h => h.ofNat_beq hx

theorem floor_beq_iff (hx : x.unpack = .finite .positive m e hm) :
    (floor x == x) = true ↔ ∃ n, IsNat m e n := by
  by_cases he : 0 ≤ e
  · have hfloor : floor x = x := by
      unfold floor
      rw [hx]
      exact if_pos he
    have hneg : (-e).toNat = 0 := by omega
    rw [hfloor]
    refine iff_of_true ((beq_iff hx hx).mpr ⟨rfl, rfl⟩) ⟨m * 2 ^ e.toNat, ?_⟩
    rw [IsNat, hneg, pow_zero, mul_one]
  · have hfloor : floor x = Float.Model.ofNat (m / 2 ^ (-e).toNat) := by
      unfold floor
      rw [hx]
      exact if_neg he
    have hlt : m / 2 ^ (-e).toNat < 2 ^ 53 :=
      (Nat.div_le_self _ _).trans_lt (canonical_unpack hx).lt
    have hpos : e.toNat = 0 := by omega
    rw [hfloor, ofNat_beq_iff hx hlt]
    refine ⟨fun h => ⟨_, h⟩, fun ⟨n, hn⟩ => ?_⟩
    have hdiv := hn.div
    rw [hpos, pow_zero, mul_one] at hdiv
    rwa [hdiv]

/-- The numbers from 2^64 on are those with an exponent of 12 or more. -/
theorem bound_le_iff (hx : x.unpack = .finite .positive m e hm) :
    Float.Model.ofNat (2 ^ 64) ≤ x ↔ 12 ≤ e := by
  have hcanonical := canonical_unpack hx
  have hcompare : (Float.Model.ofNat (2 ^ 64)).unpack.compare x.unpack =
      some ((compare 12 e).then (compare (2 ^ 52) m)) := by
    rw [hx]
    rfl
  have hle : Float.Model.ofNat (2 ^ 64) ≤ x ↔
      ((compare 12 e).then (compare (2 ^ 52) m)).isLE = true := by
    have hany : Float.Model.ofNat (2 ^ 64) ≤ x ↔
        ((Float.Model.ofNat (2 ^ 64)).unpack.compare x.unpack).any (·.isLE) = true := Iff.rfl
    rw [hany, hcompare]
    rfl
  rw [hle]
  rcases lt_trichotomy 12 e with hlt | rfl | hgt
  · simp [compare_lt_iff_lt.mpr hlt, hlt.le]
  · have hnormal : 2 ^ 52 ≤ m := hcanonical.normal.resolve_right (by decide)
    simpa [Nat.isLE_compare] using hnormal
  · simp [compare_gt_iff_gt.mpr hgt, hgt]

theorem bound_le_iff_nat (hx : x.unpack = .finite .positive m e hm) (hn : IsNat m e n) :
    Float.Model.ofNat (2 ^ 64) ≤ x ↔ 2 ^ 64 ≤ n := by
  obtain ⟨hlt, -, -, hnormal⟩ := canonical_unpack hx
  rw [bound_le_iff hx]
  constructor
  · intro he
    have hneg : (-e).toNat = 0 := by omega
    have hn' : n = m * 2 ^ e.toNat := by simpa [IsNat, hneg] using hn
    have hm52 : 2 ^ 52 ≤ m := hnormal.resolve_right (by omega)
    calc 2 ^ 64 = 2 ^ 52 * 2 ^ 12 := by norm_num
      _ ≤ m * 2 ^ e.toNat := Nat.mul_le_mul hm52 (Nat.pow_le_pow_right Nat.two_pos (by omega))
      _ = n := hn'.symm
  · intro hle
    by_contra he
    have hsmall : m * 2 ^ e.toNat < 2 ^ 64 := by
      calc m * 2 ^ e.toNat < 2 ^ 53 * 2 ^ e.toNat := by gcongr
        _ ≤ 2 ^ 53 * 2 ^ 11 := by
          gcongr
          · norm_num
          · omega
        _ = 2 ^ 64 := by norm_num
    have hbig : n ≤ n * 2 ^ (-e).toNat := Nat.le_mul_of_pos_right n (by positivity)
    rw [hn] at hbig
    omega

end Positive

/-- What passes for a positive integral number: an infinity does as well. -/
theorem integral_iff (x : Float.Model) :
    (¬x ≤ Float.Model.ofNat 0 ∧ (floor x == x) = true) ↔ x.unpack = .infinity .positive ∨
      ∃ m e hm n, x.unpack = .finite .positive m e hm ∧ IsNat m e n := by
  have hle : x ≤ Float.Model.ofNat 0 ↔
      (x.unpack.compare (.zero .positive)).any (·.isLE) = true := Iff.rfl
  have hself : (∀ s m e hm, x.unpack ≠ .finite s m e hm) →
      (floor x == x) = (x.unpack.compare x.unpack == some .eq) := by
    intro hfinite
    have hfloor : floor x = x := by
      unfold floor
      split
      · next s m e hm h => exact absurd h (hfinite s m e hm)
      · rfl
    rw [hfloor]
    rfl
  cases hx : x.unpack with
  | infinity s =>
    have hbeq := hself (by simp [hx])
    cases s with
    | negative => simp [hle, hx, UnpackedFloat.compare]
    | positive =>
      refine iff_of_true ⟨?_, ?_⟩ (Or.inl rfl)
      · rw [hle, hx]
        decide
      · rw [hbeq, hx]
        rfl
  | notANumber =>
    have hbeq := hself (by simp [hx])
    rw [hbeq, hx]
    simp [UnpackedFloat.compare]
  | zero s => simp [hle, hx, UnpackedFloat.compare]
  | finite s m e hm =>
    cases s with
    | negative => simp [hle, hx, UnpackedFloat.compare]
    | positive =>
      rw [floor_beq_iff hx, hle, hx]
      simpa [UnpackedFloat.compare] using fun n (_ : IsNat m e n) => hm

/-- A number from 2^64 on is integral. -/
theorem integral_of_bound_le {x : Float.Model} (h : Float.Model.ofNat (2 ^ 64) ≤ x) :
    x.unpack = .infinity .positive ∨
      ∃ m e hm n, x.unpack = .finite .positive m e hm ∧ IsNat m e n := by
  have hle : ((Float.Model.ofNat (2 ^ 64)).unpack.compare x.unpack).any (·.isLE) = true := h
  cases hx : x.unpack with
  | infinity s =>
    rw [hx] at hle
    cases s with
    | negative => exact absurd hle Bool.false_ne_true
    | positive => exact Or.inl rfl
  | notANumber =>
    rw [hx] at hle
    exact absurd hle Bool.false_ne_true
  | zero s =>
    rw [hx] at hle
    exact absurd hle Bool.false_ne_true
  | finite s m e hm =>
    cases s with
    | negative =>
      rw [hx] at hle
      exact absurd hle Bool.false_ne_true
    | positive =>
      have he := (bound_le_iff hx).mp h
      have hneg : (-e).toNat = 0 := by omega
      refine Or.inr ⟨m, e, hm, m * 2 ^ e.toNat, rfl, ?_⟩
      rw [IsNat, hneg, pow_zero, mul_one]

theorem bound_le_infinity {x : Float.Model} (hx : x.unpack = .infinity .positive) :
    Float.Model.ofNat (2 ^ 64) ≤ x := by
  have hle : Float.Model.ofNat (2 ^ 64) ≤ x ↔
      ((Float.Model.ofNat (2 ^ 64)).unpack.compare x.unpack).any (·.isLE) = true := Iff.rfl
  rw [hle, hx]
  rfl

theorem trunc?_infinity {x : Float.Model} {s : Sign} (hx : x.unpack = .infinity s) :
    trunc? x = none := by
  unfold trunc?
  rw [hx]

end StandardTools.Lib.Binary64
