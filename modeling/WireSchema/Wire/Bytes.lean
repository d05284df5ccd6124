/-! Numbers travel with their most significant byte first. -/

namespace WireSchema.Bytes

/-- The low `width` bytes of a number, the most significant first. -/
def bigEndian : Nat → Nat → List UInt8
  | 0, _ => []
  | width + 1, n => UInt8.ofNat (n / Nat.pow 256 width) :: bigEndian width n

def ofBigEndian (bytes : List UInt8) : Nat :=
  bytes.foldl (fun n b => 256 * n + b.toNat) 0

@[simp] theorem length_bigEndian (width n : Nat) : (bigEndian width n).length = width := by
  induction width with
  | zero => rfl
  | succ width ih => simp [bigEndian, ih]

/-- Flags behind a marker: the highest set bit of the byte is the marker, and below it stand the flags,
the first one highest. -/
def packFlags (flags : List Bool) : UInt8 :=
  UInt8.ofNat (flags.foldl (fun n flag => 2 * n + flag.toNat) 1)

/-- The flags below the marker of a byte. The byte without a marker has none. -/
def unpackFlags (byte : UInt8) : List Bool :=
  (List.range byte.toNat.log2).reverse.map fun bit => byte.toNat.testBit bit

end WireSchema.Bytes
