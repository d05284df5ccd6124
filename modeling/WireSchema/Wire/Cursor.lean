import WireSchema.Failure
import WireSchema.Text.Utf16
import WireSchema.Wire.Bytes

/-! A read that lacks bytes does not move the cursor, but a text whose units are missing has already
consumed its count. -/

namespace WireSchema

structure Cursor where
  position : Nat
  rest : List UInt8

namespace Cursor

def ofBytes (bytes : List UInt8) : Cursor := ⟨0, bytes⟩

def remaining (c : Cursor) : Nat := c.rest.length

def length (c : Cursor) : Nat := c.position + c.rest.length

def checkEnd (c : Cursor) : Except Failure Unit :=
  if c.rest.isEmpty then .ok () else .error (.trailingBytes c.position c.length)

end Cursor

abbrev Read (α : Type) := ExceptT Failure (StateM Cursor) α

namespace Read

def fail {α : Type} (failure : Failure) : Read α := throw failure

def bytes (count : Nat) : Read (List UInt8) := do
  let c ← getThe Cursor
  let taken := c.rest.take count
  if taken.length = count then
    set (Cursor.mk (c.position + count) (c.rest.drop count))
    return taken
  else fail (.outOfBounds count c.remaining)

def word (width : Nat) : Read Nat := Bytes.ofBigEndian <$> bytes width

def u8 : Read UInt8 := UInt8.ofNat <$> word 1

def u16 : Read UInt16 := UInt16.ofNat <$> word 2

def u32 : Read UInt32 := UInt32.ofNat <$> word 4

def i8 : Read Int8 := UInt8.toInt8 <$> u8

def i16 : Read Int16 := UInt16.toInt16 <$> u16

def i32 : Read Int32 := UInt32.toInt32 <$> u32

def f32 : Read Binary32 := Binary32.mk <$> u32

def f64 : Read Binary64 := (fun n => Binary64.mk (UInt64.ofNat n)) <$> word 8

/-- A byte as a truth value: only `1` is true. -/
def bool : Read Bool := (· == 1) <$> u8

def flags : Read (List Bool) := Bytes.unpackFlags <$> u8

def units : List UInt8 → List UInt16
  | high :: low :: rest => UInt16.ofNat (Bytes.ofBigEndian [high, low]) :: units rest
  | _ => []

def text : Read String := do
  let count ← u16
  let bytes ← bytes (2 * count.toNat)
  match Utf16.decode? (units bytes) with
  | some s => return String.ofList s
  | none => fail .illFormedText

/-- The results of a computation run `count` times, after those in `done`, which stand latest first. -/
def repeated {α : Type} (read : Read α) (done : List α) : Nat → Read (List α)
  | 0 => return done.reverse
  | count + 1 => do
    let a ← read
    repeated read (a :: done) count

end Read

end WireSchema
