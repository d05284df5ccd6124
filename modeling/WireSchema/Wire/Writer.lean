import WireSchema.Failure
import WireSchema.Text.Utf16
import WireSchema.Wire.Bytes

/-! The room of a writer is either an estimate, which grows fourfold until a write fits, or a size
announced once, which is never adjusted. What a computation wrote before it failed stays. -/

namespace WireSchema

structure Writer where
  bytes : Array UInt8
  capacity : Nat
  /-- Whether the capacity is an announced size. -/
  exact : Bool

namespace Writer

def initialCapacity : Nat := 50

def growthFactor : Nat := 4

/-- The greatest integer of 64 signed bits. No room is set aside for more bytes. -/
def maxSize : Nat := 0x7FFFFFFFFFFFFFFF

def ofCapacity (capacity : Nat) : Writer := ⟨#[], capacity, false⟩

def ofSize (size : Nat) : Writer := ⟨#[], size, true⟩

def empty : Writer := ofCapacity initialCapacity

instance : EmptyCollection Writer := ⟨empty⟩

instance : Inhabited Writer := ⟨empty⟩

def toList (w : Writer) : List UInt8 := w.bytes.toList

def position (w : Writer) : Nat := w.bytes.size

/-- Multiplies a positive capacity until it reaches `needed`. -/
def grow (capacity needed : Nat) : Nat :=
  if 0 < capacity ∧ capacity < needed then grow (growthFactor * capacity) needed else capacity
termination_by needed - capacity
decreasing_by simp only [growthFactor]; omega

def reserve (w : Writer) (added : Nat) : Writer :=
  let needed := w.bytes.size + added
  if w.exact ∨ needed ≤ w.capacity then w
  else { w with capacity := grow (max w.capacity 1) needed }

def append (w : Writer) (bytes : List UInt8) : Writer :=
  let w := w.reserve bytes.length
  { w with bytes := w.bytes ++ bytes }

@[simp] theorem bytes_reserve (w : Writer) (added : Nat) : (w.reserve added).bytes = w.bytes := by
  simp only [reserve]
  split <;> rfl

@[simp] theorem toList_append (w : Writer) (bytes : List UInt8) :
    (w.append bytes).toList = w.toList ++ bytes := by
  simp [append, toList]

end Writer

abbrev Write (α : Type) := ExceptT Failure (StateM Writer) α

namespace Write

def bytes (bytes : List UInt8) : Write Unit := modify fun w => w.append bytes

def fail {α : Type} (failure : Failure) : Write α := throw failure

def ofExcept {α : Type} (result : Except Failure α) : Write α := ExceptT.mk (pure result)

def within {α : Type} (step : Step) (write : Write α) : Write α :=
  ExceptT.adapt (Failure.within step) write

def u8 (n : UInt8) : Write Unit := bytes [n]

def u16 (n : UInt16) : Write Unit := bytes (Bytes.bigEndian 2 n.toNat)

def u32 (n : UInt32) : Write Unit := bytes (Bytes.bigEndian 4 n.toNat)

def i8 (n : Int8) : Write Unit := u8 n.toUInt8

def i16 (n : Int16) : Write Unit := u16 n.toUInt16

def i32 (n : Int32) : Write Unit := u32 n.toUInt32

def f32 (x : Binary32) : Write Unit := u32 x.bits

def f64 (x : Binary64) : Write Unit := bytes (Bytes.bigEndian 8 x.bits.toNat)

def bool (b : Bool) : Write Unit := u8 (if b then 1 else 0)

def flags (flags : List Bool) : Write Unit :=
  if flags.length ≤ maxFlags then u8 (Bytes.packFlags flags)
  else fail (.mismatch [] (.tooManyFlags flags.length))

def textBytes (units : List UInt16) : List UInt8 :=
  Bytes.bigEndian 2 units.length ++ units.flatMap fun u => Bytes.bigEndian 2 u.toNat

def maxUnits : Nat := 0xFFFF

/-- A text whose units can be counted, its room set aside at once. -/
def text (s : String) : Write Unit :=
  let units := Utf16.encode s.toList
  if units.length ≤ maxUnits then bytes (textBytes units)
  else fail (.mismatch [] (.longText units.length))

def textSize (s : String) : Nat := 2 + 2 * Utf16.length s

end Write

end WireSchema
