/-! The formats of 32 and 64 bits, held as their bits. Every operation is the exact result rounded once
by `FloatFormat.nearest`. Magnitudes, the bits below the sign, are ordered as the numbers they stand
for, so a carry out of the significand lands in the exponent field. -/

namespace WireSchema

/-- The quotient `num / den` rounded to the nearest integer, a tie to the even neighbour. -/
def roundHalfEven (num den : Nat) : Nat :=
  let q := num / den
  let r := num % den
  if 2 * r < den then q else if den < 2 * r then q + 1 else q + q % 2

structure FloatFormat where
  fractionBits : Nat
  exponentBits : Nat

namespace FloatFormat

def single : FloatFormat := ⟨23, 8⟩

def double : FloatFormat := ⟨52, 11⟩

/-- The leading one of a significand, which the fraction field leaves out. -/
def leadingOne (f : FloatFormat) : Nat := Nat.pow 2 f.fractionBits

def signBit (f : FloatFormat) : Nat := Nat.pow 2 (f.exponentBits + f.fractionBits)

def minExponent (f : FloatFormat) : Int :=
  2 - Nat.pow 2 (f.exponentBits - 1) - f.fractionBits

/-- The magnitude of the infinities. Larger magnitudes are NaNs, smaller ones finite. -/
def infinity (f : FloatFormat) : Nat :=
  (Nat.pow 2 f.exponentBits - 1) * f.leadingOne

/-- The significand of a finite magnitude, with its leading one unless the number is subnormal. -/
def significand (f : FloatFormat) (magnitude : Nat) : Nat :=
  if magnitude < f.leadingOne then magnitude
  else f.leadingOne + magnitude % f.leadingOne

def exponent (f : FloatFormat) (magnitude : Nat) : Int :=
  f.minExponent + (magnitude / f.leadingOne - 1 : Nat)

def numerator (f : FloatFormat) (magnitude : Nat) : Nat :=
  f.significand magnitude * Nat.pow 2 (f.exponent magnitude).toNat

def denominator (f : FloatFormat) (magnitude : Nat) : Nat :=
  Nat.pow 2 (-f.exponent magnitude).toNat

/-- The exponent of the leading binary digit of `num / den`, for positive `num` and `den`. -/
def leadingExponent (num den : Nat) : Int :=
  let guess : Int := (num.log2 : Int) - den.log2
  if num * Nat.pow 2 (-guess).toNat < den * Nat.pow 2 guess.toNat then guess - 1 else guess

/-- The magnitude nearest to `num / den`, a tie to the even one; the infinity if none is large enough. -/
def nearest (f : FloatFormat) (num den : Nat) : Nat :=
  if num = 0 then 0
  else
    let e := max (leadingExponent num den - f.fractionBits) f.minExponent
    let m := roundHalfEven (num * Nat.pow 2 (-e).toNat) (den * Nat.pow 2 e.toNat)
    min ((e - f.minExponent).toNat * f.leadingOne + m) f.infinity

def mul (f : FloatFormat) (a b : Nat) : Nat :=
  f.nearest (f.numerator a * f.numerator b) (f.denominator a * f.denominator b)

def div (f : FloatFormat) (a b : Nat) : Nat :=
  f.nearest (f.numerator a * f.denominator b) (f.denominator a * f.numerator b)

end FloatFormat

structure Binary32 where
  bits : UInt32
deriving DecidableEq, Repr

structure Binary64 where
  bits : UInt64
deriving DecidableEq, Repr

namespace Binary32

def isNegative (x : Binary32) : Bool := FloatFormat.single.signBit ≤ x.bits.toNat

def magnitude (x : Binary32) : Nat := x.bits.toNat % FloatFormat.single.signBit

def ofMagnitude (negative : Bool) (magnitude : Nat) : Binary32 :=
  ⟨UInt32.ofNat (if negative then FloatFormat.single.signBit + magnitude else magnitude)⟩

def isFinite (x : Binary32) : Bool := x.magnitude < FloatFormat.single.infinity

end Binary32

namespace Binary64

def isNegative (x : Binary64) : Bool := FloatFormat.double.signBit ≤ x.bits.toNat

def magnitude (x : Binary64) : Nat := x.bits.toNat % FloatFormat.double.signBit

def ofMagnitude (negative : Bool) (magnitude : Nat) : Binary64 :=
  ⟨UInt64.ofNat (if negative then FloatFormat.double.signBit + magnitude else magnitude)⟩

def isFinite (x : Binary64) : Bool := x.magnitude < FloatFormat.double.infinity

def ofInt (n : Int) : Binary64 :=
  ofMagnitude (n < 0) (FloatFormat.double.nearest n.natAbs 1)

/-- The value as an integer, if it is finite and has no fractional part. Both zeros are `0`. -/
def toInt? (x : Binary64) : Option Int :=
  let num := FloatFormat.double.numerator x.magnitude
  let den := FloatFormat.double.denominator x.magnitude
  if x.isFinite && num % den == 0 then
    some (if x.isNegative then -(num / den : Nat) else (num / den : Nat))
  else none

end Binary64

namespace FloatFormat

/-- The bit of a fraction that tells a quiet NaN from a signalling one: the highest. -/
def quietBit (f : FloatFormat) : Nat := Nat.pow 2 (f.fractionBits - 1)

def extraBits : Nat := double.fractionBits - single.fractionBits

end FloatFormat

/-- The same number in 64 bits. Every finite number of 32 bits is one of 64 bits. A NaN keeps its
payload in the leading bits and becomes quiet. -/
def Binary32.toBinary64 (x : Binary32) : Binary64 :=
  let f := FloatFormat.single
  let g := FloatFormat.double
  let m := x.magnitude
  let wide :=
    if m < f.infinity then g.nearest (f.numerator m) (f.denominator m)
    else if m = f.infinity then g.infinity
    else g.infinity + g.quietBit + m % f.quietBit * Nat.pow 2 FloatFormat.extraBits
  .ofMagnitude x.isNegative wide

/-- The nearest number of 32 bits, which is infinite if the number is too large. A NaN keeps the
leading bits of its payload and becomes quiet. -/
def Binary64.toBinary32 (x : Binary64) : Binary32 :=
  let f := FloatFormat.double
  let g := FloatFormat.single
  let m := x.magnitude
  let narrow :=
    if m < f.infinity then g.nearest (f.numerator m) (f.denominator m)
    else if m = f.infinity then g.infinity
    else g.infinity + g.quietBit + m % f.quietBit / Nat.pow 2 FloatFormat.extraBits
  .ofMagnitude x.isNegative narrow

end WireSchema
