import WireSchema.Json.Parser
import WireSchema.Schema.Basic
import WireSchema.Schema.Error

/-! A string names a leaf type, and an object with the member `flag` is the composite type that the flag
names. Any other object is a record whose fields stand in the order of the document. -/

namespace WireSchema.Schema

abbrev Parsed (α : Type) := Except SchemaError α

def refuse {α : Type} (path : SchemaPath) (fault : DocumentFault) : Parsed α :=
  .error (.document fault path)

/-- The integer of 32 signed bits that a label denotes: decimal digits after a sign or none. -/
def numberLabel? (label : String) : Option Int32 :=
  let (negative, digits) := match label.toList with
    | '-' :: s => (true, s)
    | '+' :: s => (false, s)
    | s => (false, s)
  if digits.isEmpty || !digits.all Char.isDigit then none
  else
    let n : Nat := digits.foldl (fun n c => 10 * n + (c.toNat - '0'.toNat)) 0
    let n : Int := if negative then -n else n
    if -0x80000000 ≤ n ∧ n < 0x80000000 then some (Int32.ofInt n) else none

/-- The members other than `flag`, which must map to integers. -/
def ordinals (path : SchemaPath) (members : List (String × Json)) : Parsed (List (String × Int64)) :=
  (members.filter fun m => m.1 != "flag").mapM fun (key, value) =>
    match value.toInt64? with
    | some n => .ok (key, n)
    | none => refuse path (.notInteger key)

def numberLabels (path : SchemaPath) (labels : List (String × Int64)) :
    Parsed (List (Int32 × Int64)) :=
  labels.mapM fun (label, ordinal) =>
    match numberLabel? label with
    | some n => .ok (n, ordinal)
    | none => refuse path (.notNumberLabel label)

mutual

def ofJson (path : SchemaPath) : Json → Parsed Schema
  | .text name => .ok (named name)
  | .object members =>
    match members.lookup "flag" with
    | none => .record <$> ofMembers path members
    | some (.text "enum") => .enum <$> ordinals path members
    | some (.text "number-enum") => do
      let labels ← ordinals path members
      .numberEnum <$> numberLabels path labels
    | some (.text "bitmask") => .bitmask <$> ordinals path members
    | some (.text "optional") => .optional <$> ofMember path "element" members
    | some (.text "array-uint8") => .array .one <$> ofMember path "elements" members
    | some (.text "array-uint16") => .array .two <$> ofMember path "elements" members
    | some (.text "array-uint32") => refuse path .wideCount
    | some (.text "type-lookup") => .union <$> ofVariantsMember path members
    | some (.text flag) => refuse path (.unknownFlag flag)
    | some other => refuse path (.flagNotText other)
  | other => refuse path (.notSchema other)

def ofMembers (path : SchemaPath) : List (String × Json) → Parsed (List (String × Schema))
  | [] => .ok []
  | (name, j) :: rest => do
    let schema ← ofJson (path ++ [name]) j
    let fields ← ofMembers path rest
    return (name, schema) :: fields

def ofMember (path : SchemaPath) (key : String) : List (String × Json) → Parsed Schema
  | [] => refuse path (.missing key)
  | (name, j) :: rest => if key == name then ofJson (path ++ [key]) j else ofMember path key rest

def ofVariantsMember (path : SchemaPath) :
    List (String × Json) → Parsed (List (String × List (String × Schema)))
  | [] => refuse path (.missing "elements")
  | (name, j) :: rest =>
    if "elements" == name then
      match j with
      | .object variants => ofVariants path variants
      | other => refuse path (.variantsNotObject other)
    else ofVariantsMember path rest

def ofVariants (path : SchemaPath) :
    List (String × Json) → Parsed (List (String × List (String × Schema)))
  | [] => .ok []
  | (tag, j) :: rest => do
    let fields ← match j with
      | .object members =>
        if Assoc.contains "flag" members then refuse (path ++ [tag]) .variantNotPlain
        else ofMembers (path ++ [tag]) members
      | _ => refuse (path ++ [tag]) .variantNotPlain
    let variants ← ofVariants path rest
    return (tag, fields) :: variants

end

def ofDocument (document : Json) : Parsed Schema := ofJson [] document

def ofText (text : String) : Parsed Schema :=
  match Json.parse? text with
  | some document => ofDocument document
  | none => .error .notJson

end WireSchema.Schema
