import WireSchema.Layout.Basic
import WireSchema.Value.Expectation

/-! Sizing looks only at what decides the length: strings, counts, presence and tags, and whether
objects and arrays stand where they must. Any other leaf is given its width whatever the value is. -/

namespace WireSchema.Layout

def sumSizes (size : Value → Except Failure Nat) : List Value → Except Failure Nat
  | [] => .ok 0
  | v :: rest => do
    let first ← size v
    let others ← sumSizes size rest
    return first + others

mutual

def size : Layout → Value → Except Failure Nat
  | .scalar type, v =>
    match type.width? with
    | some width => .ok width
    | none => Write.textSize <$> v.expect (.scalar type) Value.toString?
  | .extension _ e, v => e.size v
  | .enum _, _ => .ok 1
  | .numberEnum _, _ => .ok 1
  | .bitmask _, _ => .ok 1
  | .optional inner, v => if v.isNull then .ok 1 else (1 + ·) <$> size inner v
  | .array count element, v => do
    let items ← v.expectItems count
    match element.fixedSize? with
    | some width => return count.bytes + items.length * width
    | none => (count.bytes + ·) <$> sumSizes (size element) items
  | .union discriminant variants indices, v => do
    let (index, fields) ← v.expectVariant discriminant indices
    (1 + ·) <$> variantSize index variants index.toNat fields
  | .record layouts, v => do
    let fields ← v.expect .record Value.fields?
    fieldsSize layouts fields

/-- The number of bytes of the declared fields, absent ones being null. -/
def fieldsSize : List (String × Layout) → List (String × Value) → Except Failure Nat
  | [], _ => .ok 0
  | (name, layout) :: rest, fields => do
    let first ← (size layout (Value.field fields name)).mapError (Failure.within (.field name))
    let others ← fieldsSize rest fields
    return first + others

def variantSize (index : UInt8) : List (VariantKey × List (String × Layout)) → Nat →
    List (String × Value) → Except Failure Nat
  | [], _, _ => .error (.undeclared (.variant index))
  | (_, layouts) :: _, 0, fields => fieldsSize layouts fields
  | _ :: rest, place + 1, fields => variantSize index rest place fields

end

end WireSchema.Layout
