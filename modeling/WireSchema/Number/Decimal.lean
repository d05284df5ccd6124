import WireSchema.Number.Binary

/-! The fewest decimal digits that identify a number: for one digit, two digits, and so on, the two
neighbours of the number on that decimal grid are tested, and the first grid with a hit gives the
digits. -/

namespace WireSchema

structure Decimal where
  digits : Nat
  exponent : Int
deriving DecidableEq, Repr

namespace Decimal

/-- How the digits are laid out: from `plainFrom` up to but not including `plainBelow`, the exponent of the
leading digit gives positional text, and outside scientific text. -/
structure Style where
  plainFrom : Int
  plainBelow : Int

/-- The least `k` with the positive magnitude `m` below `10 ^ k`. The binary exponent of the leading digit
determines it up to a few candidates. -/
def scale (f : FloatFormat) (m : Nat) : Int :=
  let s := f.significand m
  let q := f.exponent m
  let guess := ((s.log2 : Int) + q) * 30103 / 100000 - 1
  let candidates := (List.range 5).map fun (i : Nat) => guess + i
  let above (k : Int) : Bool :=
    s * Nat.pow 2 q.toNat * Nat.pow 10 (-k).toNat < Nat.pow 10 k.toNat * Nat.pow 2 (-q).toNat
  (candidates.find? above).getD (guess + 5)

/-- The neighbours of the positive magnitude `m` on the grid of multiples of `10 ^ g`, as far as they round
to it: the nearer of them, and on a tie the even one. Lengths are in a common unit, and a quarter of the
gap above the number is the measure of the interval. Below a power of two the gap is half as wide. -/
def onGrid? (f : FloatFormat) (m : Nat) (g : Int) : Option Decimal :=
  let s := f.significand m
  let q := f.exponent m - 2
  let step := Nat.pow 10 g.toNat * Nat.pow 2 (-q).toNat
  let quarter := Nat.pow 2 q.toNat * Nat.pow 10 (-g).toNat
  let narrowBelow := m % f.leadingOne = 0 ∧ f.leadingOne < m
  let low := (if narrowBelow then 4 * s - 1 else 4 * s - 2) * quarter
  let high := (4 * s + 2) * quarter
  let inside (n : Nat) : Bool :=
    if s % 2 = 0 then low ≤ n * step && n * step ≤ high else low < n * step && n * step < high
  let n := 4 * s * quarter / step
  match inside n, inside (n + 1) with
  | true, true => some ⟨roundHalfEven (4 * s * quarter) step, g⟩
  | true, false => some ⟨n, g⟩
  | false, true => some ⟨n + 1, g⟩
  | false, false => none

def stripZeros : Nat → Decimal → Decimal
  | 0, d => d
  | fuel + 1, d =>
    if d.digits % 10 = 0 then stripZeros fuel ⟨d.digits / 10, d.exponent + 1⟩ else d

/-- The shortest decimal that identifies a positive finite magnitude; the exact value should no grid of
up to seventeen digits have one. -/
def shortest (f : FloatFormat) (m : Nat) : Decimal :=
  let k := scale f m
  let grids := (List.range 17).map fun (n : Nat) => k - n - 1
  match grids.findSome? (onGrid? f m) with
  | some d => stripZeros 17 d
  | none =>
    let q := f.exponent m
    ⟨f.significand m * Nat.pow 2 q.toNat * Nat.pow 5 (-q).toNat, min q 0⟩

def layout (style : Style) (d : Decimal) : String :=
  let digits := (toString d.digits).toList
  let n := digits.length
  let lead : Int := d.exponent + n - 1
  let zeros (k : Int) : List Char := List.replicate k.toNat '0'
  if style.plainFrom ≤ lead ∧ lead < style.plainBelow then
    if 0 ≤ d.exponent then String.ofList (digits ++ zeros d.exponent ++ ['.', '0'])
    else if 0 ≤ lead then
      String.ofList (digits.take (lead + 1).toNat ++ ['.'] ++ digits.drop (lead + 1).toNat)
    else String.ofList (['0', '.'] ++ zeros (-lead - 1) ++ digits)
  else
    let tail := if n = 1 then [] else '.' :: digits.drop 1
    let sign := if lead < 0 then "e-" else "e+"
    String.ofList (digits.take 1 ++ tail) ++ sign ++ toString lead.natAbs

def text (style : Style) (x : Binary64) : String :=
  let sign := if x.isNegative then "-" else ""
  if x.magnitude = 0 then sign ++ "0.0"
  else sign ++ layout style (shortest .double x.magnitude)

end Decimal

end WireSchema
