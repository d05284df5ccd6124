import WireSchema.Extension

/-! A layout is a schema made ready for the wire: names are resolved, labels and tags have become
tables, and flags stand in the order of their bits. Ordinals and variant indices are single bytes here.
-/

namespace WireSchema

/-- The labels of an enumeration with their bytes, to be looked up from either side. Of two bindings of
one label, or of one byte, the later one counts. -/
structure LabelTable (α : Type) where
  ordinals : List (α × UInt8)
  labels : List (UInt8 × α)

def LabelTable.ofList {α : Type} [BEq α] (bindings : List (α × UInt8)) : LabelTable α where
  ordinals := Assoc.ofList bindings
  labels := Assoc.ofList (bindings.map Prod.swap)

/-- The byte of a numeric label. A number beyond 32 signed bits is no label. -/
def LabelTable.ordinalOfInt? (table : LabelTable Int32) (n : Int) : Option UInt8 :=
  if (Int32.ofInt n).toInt = n then table.ordinals.lookup (Int32.ofInt n) else none

/-- What a variant of a union is known by: its tag and the byte that is written for it. -/
structure VariantKey where
  tag : String
  index : UInt8

inductive Layout where
  | scalar (type : Scalar)
  | extension (name : String) (type : Extension)
  | enum (table : LabelTable String)
  | numberEnum (table : LabelTable Int32)
  | bitmask (flags : List String)
  | optional (inner : Layout)
  | array (count : CountWidth) (element : Layout)
  /-- The variants of a union in the order of their indices, and the index of each tag. -/
  | union (discriminant : String) (variants : List (VariantKey × List (String × Layout)))
      (indices : List (String × UInt8))
  | record (fields : List (String × Layout))

namespace Layout

def tagIndices (keys : List VariantKey) : List (String × UInt8) :=
  keys.map fun key => (key.tag, key.index)

def commonSize? : List (Option Nat) → Option Nat
  | some n :: rest => if rest.all (· == some n) then some n else none
  | _ => none

mutual

def fixedSize? : Layout → Option Nat
  | .scalar type => type.width?
  | .extension .. | .optional _ | .array .. => none
  | .enum _ | .numberEnum _ | .bitmask _ => some 1
  | .union _ variants _ => (commonSize? (fixedVariantSizes variants)).map (1 + ·)
  | .record fields => fixedFieldsSize? fields

def fixedFieldsSize? : List (String × Layout) → Option Nat
  | [] => some 0
  | (_, layout) :: rest => do
    let first ← layout.fixedSize?
    let others ← fixedFieldsSize? rest
    return first + others

def fixedVariantSizes : List (VariantKey × List (String × Layout)) → List (Option Nat)
  | [] => []
  | (_, fields) :: rest => fixedFieldsSize? fields :: fixedVariantSizes rest

end

mutual

def nodeCount : Layout → Nat
  | .scalar _ | .extension .. | .enum _ | .numberEnum _ | .bitmask _ => 1
  | .optional inner => 1 + inner.nodeCount
  | .array _ element => 1 + element.nodeCount
  | .union _ variants _ => 1 + variantsCount variants
  | .record fields => 1 + fieldsCount fields

def fieldsCount : List (String × Layout) → Nat
  | [] => 0
  | (_, layout) :: rest => layout.nodeCount + fieldsCount rest

def variantsCount : List (VariantKey × List (String × Layout)) → Nat
  | [] => 0
  | (_, fields) :: rest => fieldsCount fields + variantsCount rest

end

mutual

def extensionNames : Layout → List String
  | .extension name _ => [name]
  | .scalar _ | .enum _ | .numberEnum _ | .bitmask _ => []
  | .optional inner => inner.extensionNames
  | .array _ element => element.extensionNames
  | .union _ variants _ => variantsExtensionNames variants
  | .record fields => fieldsExtensionNames fields

def fieldsExtensionNames : List (String × Layout) → List String
  | [] => []
  | (_, layout) :: rest => layout.extensionNames ++ fieldsExtensionNames rest

def variantsExtensionNames : List (VariantKey × List (String × Layout)) → List String
  | [] => []
  | (_, fields) :: rest => fieldsExtensionNames fields ++ variantsExtensionNames rest

end

def dependencies (layout : Layout) : List String :=
  (layout.extensionNames.mergeSort fun a b => decide (a ≤ b)).eraseReps

end Layout

end WireSchema
