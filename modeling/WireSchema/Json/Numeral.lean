import WireSchema.Json.Basic

/-! A number that is no integer is read in rounded steps: the leading digits, as many as fit 64 bits,
are rounded, and the result is multiplied or divided by the rounded power of ten. -/

namespace WireSchema.Json.Numeral

structure Parts where
  whole : List Nat
  fraction : List Nat
  plain : Bool
  exponentNegative : Bool
  exponent : List Nat

def digit (c : Char) : Nat := c.toNat - '0'.toNat

def digits (s : List Char) : List Nat × List Char :=
  ((s.takeWhile Char.isDigit).map digit, s.dropWhile Char.isDigit)

def exponent? (whole fraction : List Nat) (s : List Char) : Option Parts :=
  let (negative, s) := match s with
    | '-' :: s => (true, s)
    | '+' :: s => (false, s)
    | s => (false, s)
  match digits s with
  | (d :: ds, []) => some ⟨whole, fraction, false, negative, d :: ds⟩
  | _ => none

def afterFraction? (whole fraction : List Nat) (plain : Bool) (s : List Char) : Option Parts :=
  match s with
  | [] => some ⟨whole, fraction, plain, false, []⟩
  | 'e' :: s => exponent? whole fraction s
  | 'E' :: s => exponent? whole fraction s
  | _ => none

def parts? (s : List Char) : Option Parts :=
  match digits s with
  | ([], _) => none
  | (0 :: _ :: _, _) => none
  | (whole, '.' :: s) =>
    match digits s with
    | ([], _) => none
    | (fraction, s) => afterFraction? whole fraction false s
  | (whole, s) => afterFraction? whole [] true s

def wordLimit : Nat := 0x10000000000000000

/-- Extends a significand by digits while it fits 64 bits; gives it with the number of digits left over. -/
def takeIn (significand : Nat) : List Nat → Nat × Nat
  | [] => (significand, 0)
  | d :: ds =>
    if significand * 10 + d < wordLimit then takeIn (significand * 10 + d) ds
    else (significand, ds.length + 1)

def powerOfTen (k : Nat) : Nat := FloatFormat.double.nearest (Nat.pow 10 k) 1

/-- Divides a finite magnitude by `10 ^ k`, at most 308 powers at a time. -/
def shrink (m k : Nat) : Nat :=
  if k ≤ 308 then FloatFormat.double.div m (powerOfTen k)
  else if m = 0 then 0
  else shrink (FloatFormat.double.div m (powerOfTen 308)) (k - 308)
termination_by k

def magnitude? (significand : Nat) (exponent : Int) : Option Nat :=
  let m := FloatFormat.double.nearest significand 1
  if exponent < 0 then some (shrink m exponent.natAbs)
  else if m = 0 then some 0
  else if exponent ≤ 308 then
    let r := FloatFormat.double.mul m (powerOfTen exponent.natAbs)
    if r < FloatFormat.double.infinity then some r else none
  else none

/-- The greatest exponent that is told from larger ones. -/
def maxExponent : Nat := 0x7FFFFFFF

def Parts.magnitude? (p : Parts) : Option Nat :=
  let (s, skipped) := takeIn 0 p.whole
  let (significand, ignored) := takeIn s p.fraction
  let shift : Int := (skipped : Int) - (p.fraction.length - ignored : Nat)
  let e : Nat := p.exponent.foldl (10 * · + ·) 0
  if maxExponent < e then
    if significand ≠ 0 ∧ !p.exponentNegative then none else some 0
  else Numeral.magnitude? significand (if p.exponentNegative then shift - e else shift + e)

/-- The number of a sign and parts. Negative zero is not an integer. -/
def Parts.toJson? (negative : Bool) (p : Parts) : Option Json :=
  let n : Nat := p.whole.foldl (10 * · + ·) 0
  if p.plain ∧ !negative ∧ n < wordLimit then some (.int n)
  else if p.plain ∧ negative ∧ 0 < n ∧ n ≤ wordLimit / 2 then some (.int (-(n : Int)))
  else p.magnitude?.map fun m => .float (.ofMagnitude negative m)

def read? : List Char → Option Json
  | '-' :: s => (parts? s).bind (Parts.toJson? true)
  | s => (parts? s).bind (Parts.toJson? false)

end WireSchema.Json.Numeral
