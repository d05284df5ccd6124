import WireSchema.Layout.Basic
import WireSchema.Wire.Scalar

/-! Objects come back with their fields in the order of the layout, a union with its discriminant in
front. -/

namespace WireSchema.Layout

def readCount : CountWidth → Read Nat
  | .one => UInt8.toNat <$> Read.u8
  | .two => UInt16.toNat <$> Read.u16

def readLabel {α : Type} (table : LabelTable α) (unknown : UInt8 → Undeclared) : Read α := do
  let byte ← Read.u8
  match table.labels.lookup byte with
  | some label => return label
  | none => Read.fail (.undeclared (unknown byte))

def readFlags (names : List String) : Read Value := do
  let flags ← Read.flags
  if flags.length = names.length then
    return .object (Assoc.ofList (names.zip (flags.map Value.bool)))
  else Read.fail (.malformed (.flagCount flags.length names.length))

mutual

def read : Layout → Read Value
  | .scalar type => type.read
  | .extension _ e => e.read
  | .enum table => .string <$> readLabel table .enumOrdinal
  | .numberEnum table => .i32 <$> readLabel table .numberEnumOrdinal
  | .bitmask names => readFlags names
  | .optional inner => do
    let presence ← Read.u8
    if presence = 0 then return .null
    else if presence = 1 then read inner
    else Read.fail (.malformed (.presence presence))
  | .array count element => do
    let length ← readCount count
    .array <$> Read.repeated (read element) [] length
  | .union discriminant variants _ => do
    let index ← Read.u8
    readVariant discriminant index variants index.toNat
  | .record layouts => .object <$> readFields layouts []

/-- Reads the declared fields and adds them to those in front. -/
def readFields : List (String × Layout) → List (String × Value) → Read (List (String × Value))
  | [], fields => return fields
  | (name, layout) :: rest, fields => do
    let v ← read layout
    readFields rest (Assoc.insert name v fields)

def readVariant (discriminant : String) (index : UInt8) :
    List (VariantKey × List (String × Layout)) → Nat → Read Value
  | [], _ => Read.fail (.undeclared (.variant index))
  | (key, layouts) :: _, 0 => .object <$> readFields layouts [(discriminant, .string key.tag)]
  | _ :: rest, place + 1 => readVariant discriminant index rest place

end

end WireSchema.Layout
