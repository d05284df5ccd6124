/-! A character below U+10000 is one unit, any other a pair of surrogates, high before low. -/

namespace WireSchema.Utf16

def isHigh (u : UInt16) : Bool := 0xD800 ≤ u.toNat && u.toNat < 0xDC00

def isLow (u : UInt16) : Bool := 0xDC00 ≤ u.toNat && u.toNat < 0xE000

def pair (high low : UInt16) : Char :=
  Char.ofNat (0x10000 + (high.toNat - 0xD800) * 0x400 + (low.toNat - 0xDC00))

def unitsOf (c : Char) : List UInt16 :=
  if c.toNat < 0x10000 then [UInt16.ofNat c.toNat]
  else
    [UInt16.ofNat (0xD800 + (c.toNat - 0x10000) / 0x400),
      UInt16.ofNat (0xDC00 + (c.toNat - 0x10000) % 0x400)]

def encode (s : List Char) : List UInt16 := s.flatMap unitsOf

def decode? : List UInt16 → Option (List Char)
  | [] => some []
  | u :: rest =>
    if isHigh u then
      match rest with
      | v :: rest' => if isLow v then (decode? rest').map (pair u v :: ·) else none
      | [] => none
    else if isLow u then none
    else (decode? rest).map (Char.ofNat u.toNat :: ·)

/-- Every high surrogate is followed at once by a low one, and no low surrogate stands elsewhere. -/
def WellFormed : List UInt16 → Prop
  | [] => True
  | u :: rest =>
    if isHigh u then
      match rest with
      | v :: rest' => isLow v ∧ WellFormed rest'
      | [] => False
    else isLow u = false ∧ WellFormed rest

def length (s : String) : Nat := (encode s.toList).length

end WireSchema.Utf16
