import WireSchema.Value.Expectation
import WireSchema.Wire.Cursor
import WireSchema.Wire.Writer

/-! An integer may come in another width, or as a floating-point number without fractional part. It is
read back in the width of its type. -/

namespace WireSchema.Scalar

/-- Writes the integer of a value, which must lie from `low` up to but not including `high`. -/
def writeInt (type : Scalar) (low high : Int) (write : Int → Write Unit) (v : Value) :
    Write Unit := do
  let n ← Write.ofExcept (v.expect (.scalar type) Value.integral?)
  if low ≤ n ∧ n < high then write n
  else Write.fail (.mismatch [] (.outOfRange n type))

def write (type : Scalar) (v : Value) : Write Unit :=
  let part {α : Type} (f : Value → Option α) : Write α := Write.ofExcept (v.expect (.scalar type) f)
  match type with
  | uint8 => type.writeInt 0 0x100 (fun n => Write.u8 (UInt8.ofInt n)) v
  | uint16 => type.writeInt 0 0x10000 (fun n => Write.u16 (UInt16.ofInt n)) v
  | uint32 => type.writeInt 0 0x100000000 (fun n => Write.u32 (UInt32.ofInt n)) v
  | int8 => type.writeInt (-0x80) 0x80 (fun n => Write.i8 (Int8.ofInt n)) v
  | int16 => type.writeInt (-0x8000) 0x8000 (fun n => Write.i16 (Int16.ofInt n)) v
  | int32 => type.writeInt (-0x80000000) 0x80000000 (fun n => Write.i32 (Int32.ofInt n)) v
  | float32 => do Write.f32 (← part Value.toBinary64?).toBinary32
  | float64 => do Write.f64 (← part Value.toBinary64?)
  | boolean => do Write.bool (← part Value.toBool?)
  | string => do Write.text (← part Value.toString?)

def read : Scalar → Read Value
  | uint8 => .u8 <$> Read.u8
  | uint16 => .u16 <$> Read.u16
  | uint32 => .u32 <$> Read.u32
  | int8 => .i8 <$> Read.i8
  | int16 => .i16 <$> Read.i16
  | int32 => .i32 <$> Read.i32
  | float32 => .f32 <$> Read.f32
  | float64 => .f64 <$> Read.f64
  | boolean => .bool <$> Read.bool
  | string => .string <$> Read.text

end WireSchema.Scalar
