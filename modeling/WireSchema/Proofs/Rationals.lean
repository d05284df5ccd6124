import Mathlib.Algebra.Order.Field.Rat
import Mathlib.Data.Rat.Cast.Order
import Mathlib.Tactic.Positivity
import Mathlib.Tactic.Ring
import WireSchema.Proofs.Narrowing
import WireSchema.Value.Basic

/-! Narrowing loses nothing of a number exactly if 32 bits have it at all, since no two magnitudes of a
format are one number. -/

namespace WireSchema

open FloatFormat

namespace FloatFormat

def toRat (f : FloatFormat) (m : Nat) : ℚ := f.numerator m / f.denominator m

private theorem two_zpow (e : Int) : (2 : ℚ) ^ e = 2 ^ e.toNat / 2 ^ (-e).toNat := by
  have hsplit : e = (e.toNat : Int) - ((-e).toNat : Int) := by omega
  conv_lhs => rw [hsplit]
  rw [zpow_sub₀ two_ne_zero, zpow_natCast, zpow_natCast]

theorem toRat_eq (f : FloatFormat) (m : Nat) : f.toRat m = f.significand m * 2 ^ f.exponent m := by
  rw [toRat, numerator, denominator, Nat.pow_eq, Nat.pow_eq, two_zpow]
  push_cast
  exact mul_div_assoc _ _ _

theorem toRat_nonneg (f : FloatFormat) (m : Nat) : 0 ≤ f.toRat m := by
  rw [toRat]
  positivity

theorem toRat_zero (f : FloatFormat) : f.toRat 0 = 0 := by
  rw [toRat_eq, significand_of_lt f.leadingOne_pos, Nat.cast_zero, zero_mul]

theorem significand_lt (f : FloatFormat) (m : Nat) : f.significand m < 2 * f.leadingOne := by
  rcases Nat.lt_or_ge m f.leadingOne with h | h
  · rw [significand_of_lt h]
    omega
  · have := Nat.mod_lt m f.leadingOne_pos
    rw [significand_of_le h]
    omega

theorem leadingOne_le_significand {f : FloatFormat} {m : Nat} (h : f.minExponent < f.exponent m) :
    f.leadingOne ≤ f.significand m := by
  rcases Nat.lt_or_ge m f.leadingOne with hm | hm
  · rw [exponent_of_lt hm] at h
    exact absurd h (lt_irrefl _)
  · rw [significand_of_le hm]
    exact Nat.le_add_right _ _

/-- A greater exponent comes with a leading one, which no significand at the lesser exponent reaches. -/
private theorem exponent_le_of_toRat_eq {f : FloatFormat} {m m' : Nat} (h : f.toRat m = f.toRat m') :
    f.exponent m' ≤ f.exponent m := by
  by_contra hlt
  rw [not_le] at hlt
  have hlow := leadingOne_le_significand ((f.minExponent_le_exponent m).trans_lt hlt)
  have hhigh := f.significand_lt m
  obtain ⟨k, hk⟩ : ∃ k : Nat, f.exponent m' = k + 1 + f.exponent m :=
    ⟨(f.exponent m' - f.exponent m - 1).toNat, by omega⟩
  rw [toRat_eq, toRat_eq, hk, zpow_add₀ two_ne_zero, ← mul_assoc] at h
  have hsig := mul_right_cancel₀ (zpow_ne_zero _ two_ne_zero) h
  have hnat : f.significand m = f.significand m' * 2 ^ (k + 1) := by exact_mod_cast hsig
  have hpow : f.significand m' * 2 ≤ f.significand m' * 2 ^ (k + 1) :=
    Nat.mul_le_mul_left _ (Nat.le_self_pow (Nat.succ_ne_zero k) 2)
  omega

theorem toRat_injective (f : FloatFormat) : Function.Injective f.toRat := by
  intro m m' h
  have hexponent := le_antisymm (exponent_le_of_toRat_eq h.symm) (exponent_le_of_toRat_eq h)
  have hsig : f.significand m = f.significand m' := by
    rw [toRat_eq, toRat_eq, hexponent] at h
    exact_mod_cast mul_right_cancel₀ (zpow_ne_zero _ two_ne_zero) h
  rw [← exponent_significand f m, ← exponent_significand f m', hexponent, hsig]

/-- What a significand gains by being moved to the leading one, the exponent loses. -/
private theorem toRat_double {wide s : Nat} {q : Int} (hlog : s.log2 ≤ 52)
    (hsignificand : double.significand wide = s * 2 ^ (52 - s.log2))
    (hexponent : double.exponent wide = s.log2 + q - 52) : double.toRat wide = s * 2 ^ q := by
  have hplaces : q = ((52 - s.log2 : Nat) : Int) + (s.log2 + q - 52) := by omega
  rw [toRat_eq, hsignificand, hexponent]
  conv_rhs => rw [hplaces, zpow_add₀ two_ne_zero, zpow_natCast]
  push_cast
  ring

private theorem toRat_nearest_natCast {n : Nat} (h : n < 2 ^ 53) :
    double.nearest n 1 < double.infinity ∧ double.toRat (double.nearest n 1) = n := by
  by_cases hn : n = 0
  · subst hn
    exact ⟨by decide, double.toRat_zero⟩
  · have hlog : n.log2 ≤ 52 := Nat.le_of_lt_succ ((Nat.log2_lt hn).mpr h)
    obtain ⟨wide, hwide, hlt, hs, he⟩ := nearest_double (q := 0) hn hlog (by omega) (by omega)
    have hnearest : double.nearest n 1 = wide := by simpa using hwide
    rw [hnearest, toRat_double hlog hs he, zpow_zero, mul_one]
    exact ⟨hlt, rfl⟩

private theorem toRat_nearest_single {m : Nat} (h : m < single.infinity) :
    double.nearest (single.numerator m) (single.denominator m) < double.infinity ∧
      double.toRat (double.nearest (single.numerator m) (single.denominator m)) = single.toRat m := by
  by_cases hm : m = 0
  · subst hm
    exact ⟨by decide, by rw [single.toRat_zero]; exact double.toRat_zero⟩
  · obtain ⟨wide, hwide, hlt, hs, he⟩ := nearest_double_single hm h
    have hlog : (single.significand m).log2 ≤ 52 :=
      (single.log2_significand_le m).trans (by decide)
    rw [hwide, toRat_double hlog hs he, toRat_eq]
    exact ⟨hlt, rfl⟩

end FloatFormat

private theorem div_eq_intCast_iff {num den : Nat} (h : 0 < den) {n : Int} :
    (num / den : ℚ) = n ↔ num % den = 0 ∧ ((num / den : Nat) : Int) = n := by
  rw [div_eq_iff (Nat.cast_ne_zero.mpr h.ne')]
  constructor
  · intro hq
    have hint : (num : Int) = n * den := by exact_mod_cast hq
    have hquot : n = (num / den : Nat) := by
      rw [Int.natCast_div, hint, Int.mul_ediv_cancel _ (by exact_mod_cast h.ne')]
    rw [hquot] at hint
    have hnum : num = num / den * den := by exact_mod_cast hint
    refine ⟨?_, hquot.symm⟩
    rw [hnum, Nat.mul_mod_left]
  · rintro ⟨hmod, rfl⟩
    have hnum : num / den * den = num := Nat.div_mul_cancel (Nat.dvd_of_mod_eq_zero hmod)
    exact_mod_cast hnum.symm

def signed (negative : Bool) (q : ℚ) : ℚ := if negative then -q else q

theorem abs_signed (negative : Bool) {q : ℚ} (h : 0 ≤ q) : |signed negative q| = q := by
  cases negative
  · exact abs_of_nonneg h
  · exact (abs_neg q).trans (abs_of_nonneg h)

namespace Binary32

def toRat? (x : Binary32) : Option ℚ :=
  if x.isFinite then some (signed x.isNegative (single.toRat x.magnitude)) else none

theorem toRat?_eq_some_iff {x : Binary32} {q : ℚ} : x.toRat? = some q ↔
    x.magnitude < single.infinity ∧ q = signed x.isNegative (single.toRat x.magnitude) := by
  simp [toRat?, isFinite, eq_comm (a := q)]

theorem isSome_toRat? (x : Binary32) : x.toRat?.isSome = x.isFinite := by
  rw [toRat?]
  cases x.isFinite <;> rfl

theorem toRat?_ofMagnitude (negative : Bool) {m : Nat} (h : m < single.infinity) :
    (ofMagnitude negative m).toRat? = some (signed negative (single.toRat m)) := by
  have hbound : m < single.signBit := h.trans (by decide)
  rw [toRat?_eq_some_iff, magnitude_ofMagnitude _ hbound, isNegative_ofMagnitude _ hbound]
  exact ⟨h, rfl⟩

end Binary32

namespace Binary64

def toRat? (x : Binary64) : Option ℚ :=
  if x.isFinite then some (signed x.isNegative (double.toRat x.magnitude)) else none

theorem toRat?_eq_some_iff {x : Binary64} {q : ℚ} : x.toRat? = some q ↔
    x.magnitude < double.infinity ∧ q = signed x.isNegative (double.toRat x.magnitude) := by
  simp [toRat?, isFinite, eq_comm (a := q)]

theorem isSome_toRat? (x : Binary64) : x.toRat?.isSome = x.isFinite := by
  rw [toRat?]
  cases x.isFinite <;> rfl

theorem toRat?_ofMagnitude (negative : Bool) {m : Nat} (h : m < double.infinity) :
    (ofMagnitude negative m).toRat? = some (signed negative (double.toRat m)) := by
  have hbound : m < double.signBit := h.trans (by decide)
  rw [toRat?_eq_some_iff, magnitude_ofMagnitude _ hbound, isNegative_ofMagnitude _ hbound]
  exact ⟨h, rfl⟩

theorem toRat?_ofInt {n : Int} (h : n.natAbs < 2 ^ 53) : (ofInt n).toRat? = some (n : ℚ) := by
  obtain ⟨hlt, hrat⟩ := toRat_nearest_natCast h
  rw [ofInt, toRat?_ofMagnitude _ hlt, hrat, signed]
  by_cases hsign : n < 0
  · have habs : (n.natAbs : Int) = -n := by omega
    rw [if_pos (decide_eq_true hsign), ← Int.cast_natCast, habs, Int.cast_neg, neg_neg]
  · have habs : (n.natAbs : Int) = n := by omega
    rw [if_neg (by simpa using hsign), ← Int.cast_natCast, habs]

theorem toInt?_eq_some_iff {x : Binary64} {n : Int} : x.toInt? = some n ↔ x.toRat? = some (n : ℚ) := by
  have hden : 0 < double.denominator x.magnitude := Nat.two_pow_pos _
  simp only [toInt?, toRat?, Bool.and_eq_true, beq_iff_eq, Option.ite_none_right_eq_some,
    Option.some.injEq, and_assoc, toRat, signed]
  refine and_congr_right fun _ => ?_
  cases x.isNegative
  · simp only [Bool.false_eq_true, if_false, div_eq_intCast_iff hden]
  · simp only [if_true, neg_eq_iff_eq_neg, ← Int.cast_neg, div_eq_intCast_iff hden]

end Binary64

namespace Binary32

private theorem infinity_le_magnitude_toBinary64 {x : Binary32} (h : ¬x.magnitude < single.infinity) :
    ¬x.toBinary64.magnitude < double.infinity := by
  have hpayload : x.magnitude % single.quietBit < 2 ^ 22 := Nat.mod_lt _ (Nat.two_pow_pos 22)
  have hsign : double.infinity + double.quietBit + double.quietBit ≤ double.signBit := by decide
  simp only [toBinary64, if_neg h]
  split
  · rw [Binary64.magnitude_ofMagnitude _ (by decide)]
    exact lt_irrefl _
  · rw [Binary64.magnitude_ofMagnitude]
    · exact Nat.not_lt.mpr (Nat.le_add_right_of_le (Nat.le_add_right _ _))
    · change _ + _ * 2 ^ 29 < _
      rw [double_quietBit] at hsign ⊢
      omega

theorem toRat?_toBinary64 (x : Binary32) : x.toBinary64.toRat? = x.toRat? := by
  by_cases h : x.magnitude < single.infinity
  · obtain ⟨hlt, hrat⟩ := toRat_nearest_single h
    simp only [toBinary64, if_pos h]
    rw [Binary64.toRat?_ofMagnitude _ hlt, hrat, toRat?, isFinite, if_pos (decide_eq_true h)]
  · have hwide := infinity_le_magnitude_toBinary64 h
    rw [toRat?, Binary64.toRat?, isFinite, Binary64.isFinite, if_neg (by simpa using hwide),
      if_neg (by simpa using h)]

theorem isFinite_toBinary64 (x : Binary32) : x.toBinary64.isFinite = x.isFinite := by
  rw [← Binary64.isSome_toRat?, toRat?_toBinary64, isSome_toRat?]

end Binary32

/-- Narrowing keeps a number exactly if 32 bits have it. -/
theorem Binary64.toRat?_toBinary32_iff {x : Binary64} {q : ℚ} (h : x.toRat? = some q) :
    x.toBinary32.toRat? = some q ↔ ∃ y : Binary32, y.toRat? = some q := by
  refine ⟨fun hnarrow => ⟨_, hnarrow⟩, fun ⟨y, hy⟩ => ?_⟩
  obtain ⟨hx, rfl⟩ := Binary64.toRat?_eq_some_iff.mp h
  obtain ⟨hfinite, hsame⟩ := Binary32.toRat?_eq_some_iff.mp hy
  have hrat : double.toRat x.magnitude = single.toRat y.magnitude := by
    rw [← abs_signed x.isNegative (toRat_nonneg _ _), hsame, abs_signed _ (toRat_nonneg _ _)]
  -- Both magnitudes are one, so narrowing that of `x` leads to that of `y`.
  obtain ⟨wide, hwide, -, hback⟩ := nearest_single_nearest_double hfinite
  have hmagnitude : wide = x.magnitude := by
    apply double.toRat_injective
    rw [← hwide, (toRat_nearest_single hfinite).2, hrat]
  rw [hmagnitude] at hback
  simp only [toBinary32, if_pos hx, hback]
  rw [Binary32.toRat?_ofMagnitude _ hfinite, hrat]

namespace Value

mutual

def isFinite : Value → Bool
  | .f32 x => x.isFinite
  | .f64 x => x.isFinite
  | .array items => itemsFinite items
  | .object fields => fieldsFinite fields
  | _ => true

def itemsFinite : List Value → Bool
  | [] => true
  | v :: rest => v.isFinite && itemsFinite rest

def fieldsFinite : List (String × Value) → Bool
  | [] => true
  | (_, v) :: rest => v.isFinite && fieldsFinite rest

end

theorem isFinite_array_iff {items : List Value} :
    (array items).isFinite = true ↔ ∀ v ∈ items, v.isFinite = true := by
  rw [isFinite]
  induction items with
  | nil => simp [itemsFinite]
  | cons v rest ih => rw [itemsFinite, Bool.and_eq_true, ih, List.forall_mem_cons]

theorem isFinite_object_iff {fields : List (String × Value)} :
    (object fields).isFinite = true ↔ ∀ f ∈ fields, f.2.isFinite = true := by
  rw [isFinite]
  induction fields with
  | nil => simp [fieldsFinite]
  | cons f rest ih => rw [fieldsFinite, Bool.and_eq_true, ih, List.forall_mem_cons]

theorem isFinite_of_lookup {fields : List (String × Value)} {name : String} {v : Value}
    (h : (object fields).isFinite = true) (hv : fields.lookup name = some v) : v.isFinite = true := by
  obtain ⟨front, back, rfl, -⟩ := List.lookup_eq_some_iff.mp hv
  exact isFinite_object_iff.mp h (name, v) (List.mem_append_right front List.mem_cons_self)

theorem isFinite_field {fields : List (String × Value)} (h : (object fields).isFinite = true)
    (name : String) : (field fields name).isFinite = true := by
  rw [field]
  cases hv : fields.lookup name with
  | none => rfl
  | some v => exact isFinite_of_lookup h hv

end Value

end WireSchema
