import Mathlib.Algebra.Order.Ring.Int
import WireSchema.Number.Binary

/-! A number of 32 bits is widened without loss. The only numbers that do not come back are the
signalling NaNs, which any conversion makes quiet. -/

namespace WireSchema

theorem roundHalfEven_mul {den : Nat} (h : 0 < den) (k : Nat) : roundHalfEven (k * den) den = k := by
  have hquot : k * den / den = k := Nat.mul_div_cancel k h
  have hrem : k * den % den = 0 := Nat.mul_mod_left k den
  simp only [roundHalfEven, hquot, hrem, if_pos h, Nat.mul_zero]

namespace FloatFormat

private theorem log2_mul_pow {s : Nat} (h : s ≠ 0) (k : Nat) : (s * 2 ^ k).log2 = s.log2 + k := by
  have hpos : 0 < 2 ^ k := Nat.two_pow_pos k
  have hlow := Nat.mul_le_mul_right (2 ^ k) (Nat.log2_self_le h)
  have hhigh := Nat.mul_lt_mul_of_pos_right (Nat.lt_log2_self (n := s)) hpos
  rw [← Nat.pow_add] at hlow hhigh
  rw [Nat.log2_eq_iff (Nat.mul_ne_zero h hpos.ne'), Nat.add_right_comm]
  exact ⟨hlow, hhigh⟩

private theorem shift_bounds {s k : Nat} (h : s ≠ 0) (hk : s.log2 ≤ k) :
    2 ^ k ≤ s * 2 ^ (k - s.log2) ∧ s * 2 ^ (k - s.log2) < 2 * 2 ^ k := by
  have hlow := Nat.mul_le_mul_right (2 ^ (k - s.log2)) (Nat.log2_self_le h)
  have hhigh := Nat.mul_lt_mul_of_pos_right (Nat.lt_log2_self (n := s)) (Nat.two_pow_pos (k - s.log2))
  rw [← Nat.pow_add, Nat.add_sub_cancel' hk] at hlow
  rw [← Nat.pow_add, Nat.add_right_comm, Nat.add_sub_cancel' hk, Nat.pow_succ, Nat.mul_comm _ 2] at hhigh
  exact ⟨hlow, hhigh⟩

theorem leadingExponent_scaled {s : Nat} (h : s ≠ 0) (q : Int) :
    leadingExponent (s * 2 ^ q.toNat) (2 ^ (-q).toNat) = s.log2 + q := by
  have hguess : ((s.log2 + q.toNat : Nat) : Int) - (-q).toNat = s.log2 + q := by omega
  have hexp : s.log2 + (q.toNat + (-(s.log2 + q : Int)).toNat) =
      (-q).toNat + (s.log2 + q : Int).toNat := by omega
  have hge : 2 ^ (-q).toNat * 2 ^ (s.log2 + q : Int).toNat ≤
      s * 2 ^ q.toNat * 2 ^ (-(s.log2 + q : Int)).toNat := by
    rw [Nat.mul_assoc, ← Nat.pow_add, ← Nat.pow_add, ← hexp, Nat.pow_add]
    exact Nat.mul_le_mul_right _ (Nat.log2_self_le h)
  simp only [leadingExponent, Nat.pow_eq, log2_mul_pow h, Nat.log2_two_pow, hguess]
  rw [if_neg (Nat.not_lt.mpr hge)]

/-- A significand that is not rounded is only moved to the exponent of its neighbours. -/
theorem nearest_scaled (f : FloatFormat) {s k : Nat} {q e : Int} (hs : s ≠ 0)
    (he : e = max (s.log2 + q - f.fractionBits) f.minExponent)
    (hk : s * 2 ^ (q - e).toNat = k * 2 ^ (e - q).toNat) :
    f.nearest (s * 2 ^ q.toNat) (2 ^ (-q).toNat) =
      min ((e - f.minExponent).toNat * f.leadingOne + k) f.infinity := by
  have hnum : s * 2 ^ q.toNat ≠ 0 := Nat.mul_ne_zero hs (Nat.two_pow_pos _).ne'
  have hup : q.toNat + (-e).toNat = (q - e).toNat + (q.toNat + (-e).toNat - (q - e).toNat) := by
    omega
  have hdown : (-q).toNat + e.toNat = (e - q).toNat + (q.toNat + (-e).toNat - (q - e).toNat) := by
    omega
  have hscaled : s * 2 ^ q.toNat * 2 ^ (-e).toNat = k * (2 ^ (-q).toNat * 2 ^ e.toNat) := by
    rw [Nat.mul_assoc, ← Nat.pow_add, ← Nat.pow_add, hup, hdown, Nat.pow_add, Nat.pow_add,
      ← Nat.mul_assoc, ← Nat.mul_assoc, hk]
  simp only [nearest, if_neg hnum, leadingExponent_scaled hs, ← he, Nat.pow_eq, hscaled]
  rw [roundHalfEven_mul (Nat.mul_pos (Nat.two_pow_pos _) (Nat.two_pow_pos _))]

theorem nearest_le_infinity (f : FloatFormat) (num den : Nat) : f.nearest num den ≤ f.infinity := by
  unfold nearest
  split
  · exact Nat.zero_le _
  · exact Nat.min_le_right _ _

theorem leadingOne_eq (f : FloatFormat) : f.leadingOne = 2 ^ f.fractionBits := rfl

theorem leadingOne_pos (f : FloatFormat) : 0 < f.leadingOne := Nat.two_pow_pos _

theorem significand_of_lt {f : FloatFormat} {m : Nat} (h : m < f.leadingOne) :
    f.significand m = m := if_pos h

theorem significand_of_le {f : FloatFormat} {m : Nat} (h : f.leadingOne ≤ m) :
    f.significand m = f.leadingOne + m % f.leadingOne := if_neg (Nat.not_lt.mpr h)

theorem exponent_of_lt {f : FloatFormat} {m : Nat} (h : m < f.leadingOne) :
    f.exponent m = f.minExponent := by
  rw [exponent, Nat.div_eq_of_lt h]
  exact Int.add_zero _

theorem minExponent_le_exponent (f : FloatFormat) (m : Nat) : f.minExponent ≤ f.exponent m :=
  Int.le_add_of_nonneg_right (Int.natCast_nonneg _)

theorem exponent_significand (f : FloatFormat) (m : Nat) :
    (f.exponent m - f.minExponent).toNat * f.leadingOne + f.significand m = m := by
  rcases Nat.lt_or_ge m f.leadingOne with h | h
  · rw [exponent_of_lt h, significand_of_lt h, Int.sub_self]
    exact (congrArg (· + m) (Nat.zero_mul _)).trans (Nat.zero_add m)
  · have hplaces : (f.exponent m - f.minExponent).toNat = m / f.leadingOne - 1 := by
      unfold exponent
      omega
    have hone : 1 ≤ m / f.leadingOne := (Nat.one_le_div_iff f.leadingOne_pos).mpr h
    rw [hplaces, significand_of_le h, ← Nat.add_assoc, ← Nat.succ_mul, Nat.succ_eq_add_one,
      Nat.sub_add_cancel hone, Nat.mul_comm]
    exact Nat.div_add_mod m f.leadingOne

/-- The significand of a positive number is aligned with the leading one, unless the exponent is least. -/
theorem exponent_eq_max {f : FloatFormat} {m : Nat} (h : m ≠ 0) :
    f.exponent m = max ((f.significand m).log2 + f.exponent m - f.fractionBits) f.minExponent := by
  rcases Nat.lt_or_ge m f.leadingOne with hm | hm
  · rw [exponent_of_lt hm, significand_of_lt hm]
    have hlog : m.log2 < f.fractionBits := (Nat.log2_lt h).mpr hm
    omega
  · have hmod := Nat.mod_lt m f.leadingOne_pos
    have hlog : (f.significand m).log2 = f.fractionBits := by
      rw [significand_of_le hm, Nat.log2_eq_iff (by omega), Nat.pow_succ, ← leadingOne_eq]
      omega
    have hmin := f.minExponent_le_exponent m
    rw [hlog]
    omega

theorem significand_ne_zero {f : FloatFormat} {m : Nat} (h : m ≠ 0) : f.significand m ≠ 0 := by
  rcases Nat.lt_or_ge m f.leadingOne with hm | hm
  · rwa [significand_of_lt hm]
  · rw [significand_of_le hm]
    exact Nat.ne_of_gt (Nat.add_pos_left f.leadingOne_pos _)

theorem log2_significand_le (f : FloatFormat) (m : Nat) :
    (f.significand m).log2 ≤ f.fractionBits := by
  by_cases hm : m = 0
  · subst hm
    rw [significand_of_lt f.leadingOne_pos]
    exact Nat.zero_le _
  · have hmax := exponent_eq_max (f := f) hm
    omega

theorem parts_of_leadingOne_le {f : FloatFormat} {places k : Nat} (hlow : f.leadingOne ≤ k)
    (hhigh : k < 2 * f.leadingOne) :
    f.significand (places * f.leadingOne + k) = k ∧
      f.exponent (places * f.leadingOne + k) = f.minExponent + places := by
  have hsplit : places * f.leadingOne + k = (places + 1) * f.leadingOne + (k - f.leadingOne) := by
    rw [Nat.succ_mul]
    omega
  have hlt : k - f.leadingOne < f.leadingOne := by omega
  have hdiv : (places * f.leadingOne + k) / f.leadingOne = places + 1 := by
    rw [hsplit, Nat.mul_comm, Nat.mul_add_div f.leadingOne_pos, Nat.div_eq_of_lt hlt, Nat.add_zero]
  have hmod : (places * f.leadingOne + k) % f.leadingOne = k - f.leadingOne := by
    rw [hsplit, Nat.mul_comm, Nat.mul_add_mod, Nat.mod_eq_of_lt hlt]
  constructor
  · rw [significand_of_le (Nat.le_add_left_of_le hlow), hmod]
    omega
  · rw [exponent, hdiv, Nat.add_sub_cancel]

theorem single_infinity : single.infinity = 255 * 2 ^ 23 := rfl

theorem single_signBit : single.signBit = 2 ^ 31 := rfl

theorem single_quietBit : single.quietBit = 2 ^ 22 := rfl

theorem double_infinity : double.infinity = 2047 * 2 ^ 52 := rfl

theorem double_signBit : double.signBit = 2 ^ 63 := rfl

theorem double_quietBit : double.quietBit = 2 ^ 51 := rfl

/-- A number with few enough digits is not rounded to 64 bits: its leading one moves to where they have
it. -/
theorem nearest_double {s : Nat} {q : Int} (hne : s ≠ 0) (hlog : s.log2 ≤ 52)
    (hmin : -1022 ≤ s.log2 + q) (hmax : s.log2 + q ≤ 1023) :
    ∃ wide, double.nearest (s * 2 ^ q.toNat) (2 ^ (-q).toNat) = wide ∧ wide < double.infinity ∧
      double.significand wide = s * 2 ^ (52 - s.log2) ∧ double.exponent wide = s.log2 + q - 52 := by
  obtain ⟨hlow, hhigh⟩ := shift_bounds (k := 52) hne hlog
  obtain ⟨hsignificand, hexponent⟩ :=
    @parts_of_leadingOne_le double (s.log2 + q - 52 + 1074).toNat _ hlow hhigh
  have hlt : (s.log2 + q - 52 + 1074).toNat * double.leadingOne + s * 2 ^ (52 - s.log2) <
      double.infinity := by
    rw [double_infinity]
    change _ * 2 ^ 52 + _ < _
    omega
  refine ⟨_, ?_, hlt, hsignificand, ?_⟩
  · refine (nearest_scaled double (k := s * 2 ^ (52 - s.log2)) (e := s.log2 + q - 52) hne ?_ ?_).trans
      (Nat.min_eq_left hlt.le)
    · change _ = max (_ - 52) (-1074)
      omega
    · rw [show (q - (s.log2 + q - 52)).toNat = 52 - s.log2 by omega,
        show (s.log2 + q - 52 - q).toNat = 0 by omega, Nat.pow_zero, Nat.mul_one]
  · rw [hexponent]
    change -1074 + _ = _
    omega

theorem nearest_double_single {m : Nat} (hpos : m ≠ 0) (hm : m < single.infinity) :
    ∃ wide, double.nearest (single.numerator m) (single.denominator m) = wide ∧
      wide < double.infinity ∧
      double.significand wide =
        single.significand m * 2 ^ (52 - (single.significand m).log2) ∧
      double.exponent wide = (single.significand m).log2 + single.exponent m - 52 := by
  have hlog : (single.significand m).log2 ≤ 23 := single.log2_significand_le m
  have hmin : -149 ≤ single.exponent m := single.minExponent_le_exponent m
  have hmax : single.exponent m ≤ 104 := by
    rw [single_infinity] at hm
    change (-149 : Int) + (m / 2 ^ 23 - 1 : Nat) ≤ 104
    omega
  exact nearest_double (significand_ne_zero hpos) (by omega) (by omega) (by omega)

theorem nearest_single_nearest_double {m : Nat} (hm : m < single.infinity) :
    ∃ wide, double.nearest (single.numerator m) (single.denominator m) = wide ∧
      wide < double.infinity ∧
      single.nearest (double.numerator wide) (double.denominator wide) = m := by
  by_cases hpos : m = 0
  · subst hpos
    exact ⟨0, rfl, by decide, rfl⟩
  obtain ⟨wide, hwide, hlt, hs, hq⟩ := nearest_double_single hpos hm
  have hne := significand_ne_zero (f := single) hpos
  have hlog : (single.significand m).log2 ≤ 23 := single.log2_significand_le m
  have hmax := exponent_eq_max (f := single) hpos
  have hmake := exponent_significand single m
  refine ⟨wide, hwide, hlt, ?_⟩
  generalize single.significand m = s at *
  generalize single.exponent m = q at *
  rw [numerator, denominator, hs, hq, Nat.pow_eq, Nat.pow_eq,
    nearest_scaled single (k := s) (e := q), hmake, Nat.min_eq_left hm.le]
  · exact Nat.mul_ne_zero hne (Nat.two_pow_pos _).ne'
  · rw [log2_mul_pow hne, hmax]
    change max (_ - 23) (-149) = max (_ - 23) (-149)
    omega
  · rw [show (s.log2 + q - 52 - q).toNat = 0 by omega,
      show (q - (s.log2 + q - 52)).toNat = 52 - s.log2 by omega, Nat.pow_zero, Nat.mul_one]

end FloatFormat

open FloatFormat

namespace Binary32

theorem magnitude_lt (x : Binary32) : x.magnitude < single.signBit :=
  Nat.mod_lt _ (Nat.two_pow_pos 31)

private theorem toNat_ofMagnitude (negative : Bool) {m : Nat} (h : m < single.signBit) :
    (ofMagnitude negative m).bits.toNat = if negative then single.signBit + m else m := by
  rw [single_signBit] at h ⊢
  rw [ofMagnitude, UInt32.toNat_ofNat', single_signBit]
  cases negative <;> simp only [Bool.false_eq_true, if_true, if_false] <;> omega

theorem magnitude_ofMagnitude (negative : Bool) {m : Nat} (h : m < single.signBit) :
    (ofMagnitude negative m).magnitude = m := by
  rw [magnitude, toNat_ofMagnitude negative h]
  cases negative
  · exact Nat.mod_eq_of_lt h
  · rw [if_pos rfl, Nat.add_mod_left, Nat.mod_eq_of_lt h]

theorem isNegative_ofMagnitude (negative : Bool) {m : Nat} (h : m < single.signBit) :
    (ofMagnitude negative m).isNegative = negative := by
  rw [isNegative, toNat_ofMagnitude negative h]
  cases negative
  · exact decide_eq_false (Nat.not_le.mpr h)
  · exact decide_eq_true (Nat.le_add_right _ _)

theorem ofMagnitude_magnitude (x : Binary32) : ofMagnitude x.isNegative x.magnitude = x := by
  have hlt := x.bits.toNat_lt
  have hbits : (ofMagnitude x.isNegative x.magnitude).bits.toNat = x.bits.toNat := by
    rw [toNat_ofMagnitude _ x.magnitude_lt, isNegative, magnitude, single_signBit]
    by_cases h : 2 ^ 31 ≤ x.bits.toNat
    · rw [if_pos (decide_eq_true h)]
      omega
    · rw [if_neg (by simpa using h)]
      omega
  exact congrArg Binary32.mk (UInt32.toNat_inj.mp hbits)

def isNaN (x : Binary32) : Bool := single.infinity < x.magnitude

/-- Whether a number is a NaN that arithmetic makes quiet. -/
def isSignalling (x : Binary32) : Bool :=
  single.infinity < x.magnitude ∧ x.magnitude < single.infinity + single.quietBit

theorem isSignalling_of_isNaN {x : Binary32} (h : x.isNaN = false) : x.isSignalling = false := by
  simp only [isNaN, decide_eq_false_iff_not] at h
  simp only [isSignalling, decide_eq_false_iff_not]
  exact fun hbounds => h hbounds.1

end Binary32

namespace Binary64

private theorem toNat_ofMagnitude (negative : Bool) {m : Nat} (h : m < double.signBit) :
    (ofMagnitude negative m).bits.toNat = if negative then double.signBit + m else m := by
  rw [double_signBit] at h ⊢
  rw [ofMagnitude, UInt64.toNat_ofNat', double_signBit]
  cases negative <;> simp only [Bool.false_eq_true, if_true, if_false] <;> omega

theorem magnitude_ofMagnitude (negative : Bool) {m : Nat} (h : m < double.signBit) :
    (ofMagnitude negative m).magnitude = m := by
  rw [magnitude, toNat_ofMagnitude negative h]
  cases negative
  · exact Nat.mod_eq_of_lt h
  · rw [if_pos rfl, Nat.add_mod_left, Nat.mod_eq_of_lt h]

theorem isNegative_ofMagnitude (negative : Bool) {m : Nat} (h : m < double.signBit) :
    (ofMagnitude negative m).isNegative = negative := by
  rw [isNegative, toNat_ofMagnitude negative h]
  cases negative
  · exact decide_eq_false (Nat.not_le.mpr h)
  · exact decide_eq_true (Nat.le_add_right _ _)

theorem isSignalling_toBinary32 (x : Binary64) : x.toBinary32.isSignalling = false := by
  have hquiet : x.magnitude % double.quietBit / Nat.pow 2 extraBits < single.quietBit := by
    apply Nat.div_lt_of_lt_mul
    exact Nat.mod_lt _ (Nat.two_pow_pos 51)
  have hinf : single.infinity + single.quietBit + single.quietBit ≤ single.signBit := by decide
  have hnearest := single.nearest_le_infinity (double.numerator x.magnitude)
    (double.denominator x.magnitude)
  unfold toBinary32
  simp only [Binary32.isSignalling, decide_eq_false_iff_not]
  generalize x.magnitude % double.quietBit / Nat.pow 2 extraBits = payload at *
  split
  · rw [Binary32.magnitude_ofMagnitude _ (by omega)]
    omega
  split
  · rw [Binary32.magnitude_ofMagnitude _ (by omega)]
    omega
  · rw [Binary32.magnitude_ofMagnitude _ (by omega)]
    omega

end Binary64

namespace Binary32

variable {x : Binary32}

private theorem narrow_widen (wide : Nat) (hwide : x.toBinary64 = .ofMagnitude x.isNegative wide)
    (hnarrow : (Binary64.ofMagnitude x.isNegative wide).toBinary32 =
      .ofMagnitude x.isNegative x.magnitude) : x.toBinary64.toBinary32 = x := by
  rw [hwide, hnarrow, x.ofMagnitude_magnitude]

private theorem narrow_widen_finite (h : x.magnitude < single.infinity) :
    x.toBinary64.toBinary32 = x := by
  obtain ⟨wide, hwide, hfinite, hnarrow⟩ := nearest_single_nearest_double h
  have hinfinity : double.infinity < double.signBit := by decide
  have hbound : wide < double.signBit := Nat.lt_trans hfinite hinfinity
  apply narrow_widen wide
  · simp only [toBinary64, if_pos h, hwide]
  · simp only [Binary64.toBinary32, Binary64.magnitude_ofMagnitude _ hbound,
      Binary64.isNegative_ofMagnitude _ hbound, if_pos hfinite, hnarrow]

private theorem narrow_widen_infinity (h : x.magnitude = single.infinity) :
    x.toBinary64.toBinary32 = x := by
  have hbound : double.infinity < double.signBit := by decide
  apply narrow_widen double.infinity
  · simp only [toBinary64, h, Nat.lt_irrefl, if_true, if_false]
  · simp only [Binary64.toBinary32, Binary64.magnitude_ofMagnitude _ hbound,
      Binary64.isNegative_ofMagnitude _ hbound, Nat.lt_irrefl, if_true, if_false, h]

private theorem narrow_widen_quiet {payload : Nat}
    (h : x.magnitude = single.infinity + single.quietBit + payload) :
    x.toBinary64.toBinary32 = x := by
  have hm := x.magnitude_lt
  have hlt : payload < 2 ^ 22 := by
    rw [h, single_infinity, single_quietBit, single_signBit] at hm
    omega
  have hnan : single.infinity < x.magnitude := by
    rw [h, single_quietBit]
    omega
  have hpayload : x.magnitude % single.quietBit = payload := by
    rw [h, single_infinity, single_quietBit]
    omega
  have hsign : double.infinity + double.quietBit + double.quietBit ≤ double.signBit := by decide
  have hbound : double.infinity + double.quietBit + payload * 2 ^ 29 < double.signBit := by
    rw [double_quietBit] at hsign ⊢
    omega
  have hwide : double.infinity < double.infinity + double.quietBit + payload * 2 ^ 29 := by
    rw [double_quietBit]
    omega
  have hback : (double.infinity + double.quietBit + payload * 2 ^ 29) % double.quietBit /
      Nat.pow 2 extraBits = payload := by
    change _ / 2 ^ 29 = _
    rw [double_infinity, double_quietBit]
    omega
  apply narrow_widen (double.infinity + double.quietBit + payload * 2 ^ 29)
  · simp only [toBinary64, if_neg hnan.not_gt, if_neg hnan.ne', hpayload]
    rfl
  · simp only [Binary64.toBinary32, Binary64.magnitude_ofMagnitude _ hbound,
      Binary64.isNegative_ofMagnitude _ hbound, if_neg hwide.not_gt, if_neg hwide.ne', hback, h]

/-- Every number of 32 bits but the signalling NaNs comes back from 64 bits. -/
theorem toBinary32_toBinary64 (h : x.isSignalling = false) : x.toBinary64.toBinary32 = x := by
  rcases Nat.lt_trichotomy x.magnitude single.infinity with hlt | heq | hgt
  · exact narrow_widen_finite hlt
  · exact narrow_widen_infinity heq
  · have hquiet : single.infinity + single.quietBit ≤ x.magnitude := by
      simp only [isSignalling, decide_eq_false_iff_not, not_and] at h
      exact Nat.not_lt.mp (h hgt)
    obtain ⟨payload, hpayload⟩ := Nat.exists_eq_add_of_le hquiet
    exact narrow_widen_quiet hpayload

end Binary32

end WireSchema
