import WireSchema.Layout.Basic
import WireSchema.Wire.Scalar

/-! Absent fields are null and fields that are not declared are passed over. A failure leaves what was
written before it, and a mismatch tells the way to it. -/

namespace WireSchema.Layout

def writeCount : CountWidth → Nat → Write Unit
  | .one, count => Write.u8 (UInt8.ofNat count)
  | .two, count => Write.u16 (UInt16.ofNat count)

/-- Writes elements, the first of them standing at `index`. -/
def writeItems (write : Value → Write Unit) (index : Nat) : List Value → Write Unit
  | [] => return
  | v :: rest => do
    Write.within (.element index) (write v)
    writeItems write (index + 1) rest

def writeOrdinal (ordinal : Option UInt8) (unknown : Undeclared) : Write Unit :=
  match ordinal with
  | some byte => Write.u8 byte
  | none => Write.fail (.undeclared unknown)

mutual

def write : Layout → Value → Write Unit
  | .scalar type, v => type.write v
  | .extension _ e, v => e.write v
  | .enum table, v => do
    let label ← Write.ofExcept (v.expect .enumLabel Value.toString?)
    writeOrdinal (table.ordinals.lookup label) (.enumLabel label)
  | .numberEnum table, v => do
    let label ← Write.ofExcept (v.expect .numberEnumLabel Value.integral?)
    writeOrdinal (table.ordinalOfInt? label) (.numberEnumLabel label)
  | .bitmask names, v => do
    let fields ← Write.ofExcept (v.expect .bitmask Value.fields?)
    let flags ← Write.ofExcept (names.mapM (Value.expectFlag fields))
    Write.flags flags
  | .optional inner, v =>
    if v.isNull then Write.bool false
    else do
      Write.bool true
      write inner v
  | .array count element, v => do
    let items ← Write.ofExcept (v.expectItems count)
    writeCount count items.length
    writeItems (write element) 0 items
  | .union discriminant variants indices, v => do
    let (index, fields) ← Write.ofExcept (v.expectVariant discriminant indices)
    Write.u8 index
    writeVariant index variants index.toNat fields
  | .record layouts, v => do
    let fields ← Write.ofExcept (v.expect .record Value.fields?)
    writeFields layouts fields

def writeFields : List (String × Layout) → List (String × Value) → Write Unit
  | [], _ => return
  | (name, layout) :: rest, fields => do
    Write.within (.field name) (write layout (Value.field fields name))
    writeFields rest fields

def writeVariant (index : UInt8) : List (VariantKey × List (String × Layout)) → Nat →
    List (String × Value) → Write Unit
  | [], _, _ => Write.fail (.undeclared (.variant index))
  | (_, layouts) :: _, 0, fields => writeFields layouts fields
  | _ :: rest, place + 1, fields => writeVariant index rest place fields

end

end WireSchema.Layout
