import WireSchema.Layout.Basic
import WireSchema.Schema.Basic
import WireSchema.Schema.Error

/-! A registered extension takes the place of the scalar type of its name. A name that is neither is the
only reason to have no layout, also for a schema that is not valid. -/

namespace WireSchema.Layout

def ordinalByte (ordinal : Int64) : UInt8 := UInt8.ofInt ordinal.toInt

/-- The flags of a bitmask in the order of their positions, flags of one position in the order of their
declaration. -/
def orderedFlags (flags : List (String × Int64)) : List String :=
  (flags.mergeSort fun a b => decide (a.2.toInt ≤ b.2.toInt)).map Prod.fst

section

variable (types : Extensions) (discriminant : String)

mutual

def ofSchema : Schema → Except SchemaError Layout
  | .scalar type =>
    match types.get? type.name with
    | some e => .ok (.extension type.name e)
    | none => .ok (.scalar type)
  | .custom name =>
    match types.get? name with
    | some e => .ok (.extension name e)
    | none => .error (.unknownCustom name none)
  | .enum labels => .ok (.enum (.ofList (labels.map fun l => (l.1, ordinalByte l.2))))
  | .numberEnum labels => .ok (.numberEnum (.ofList (labels.map fun l => (l.1, ordinalByte l.2))))
  | .bitmask flags => .ok (.bitmask (orderedFlags flags))
  | .optional inner => .optional <$> ofSchema inner
  | .array count element => .array count <$> ofSchema element
  | .union variants => do
    let variants ← ofVariants 0 variants
    return .union discriminant variants (Assoc.ofList (tagIndices (variants.map Prod.fst)))
  | .record fields => .record <$> ofFields fields

def ofFields : List (String × Schema) → Except SchemaError (List (String × Layout))
  | [] => .ok []
  | (name, schema) :: rest => do
    let layout ← ofSchema schema
    let layouts ← ofFields rest
    return (name, layout) :: layouts

/-- The layouts of variants, the first of them having the index `place`. -/
def ofVariants (place : Nat) : List (String × List (String × Schema)) →
    Except SchemaError (List (VariantKey × List (String × Layout)))
  | [] => .ok []
  | (tag, fields) :: rest => do
    let layouts ← ofFields fields
    let variants ← ofVariants (place + 1) rest
    return (⟨tag, UInt8.ofNat place⟩, layouts) :: variants

end

end

end WireSchema.Layout
