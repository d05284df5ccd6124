import WireSchema.Failure

/-! The checks that sizing and writing share. -/

namespace WireSchema.Value

def expect {α : Type} (expected : Shape) (part : Value → Option α) (v : Value) : Except Failure α :=
  match part v with
  | some a => .ok a
  | none => .error (.mismatch [] (.shape expected v.kind))

def expectItems (count : CountWidth) (v : Value) : Except Failure (List Value) := do
  let items ← v.expect (.array count) items?
  if items.length ≤ count.limit then .ok items
  else .error (.mismatch [] (.tooManyElements items.length count))

/-- The index of the variant that the discriminant of a union names, and the fields around it. -/
def expectVariant (discriminant : String) (indices : List (String × UInt8)) (v : Value) :
    Except Failure (UInt8 × List (String × Value)) := do
  let fields ← v.expect .union fields?
  match fields.lookup discriminant with
  | some (.string tag) =>
    match indices.lookup tag with
    | some index => .ok (index, fields)
    | none => .error (.undeclared (.tag tag))
  | some other => .error (.mismatch [] (.badDiscriminant discriminant other.kind))
  | none => .error (.mismatch [] (.missingDiscriminant discriminant))

/-- The flag of a name among the fields of a bitmask: absent and null flags are not set. -/
def expectFlag (fields : List (String × Value)) (name : String) : Except Failure Bool :=
  match field fields name with
  | .null => .ok false
  | .bool set => .ok set
  | other => .error (.mismatch [.field name] (.shape .flag other.kind))

end WireSchema.Value
