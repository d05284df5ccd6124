import WireSchema.Schema.Basic

/-! Two outlines of a schema, one node a line: `outline` with labels and ordinals, and `widths` with the
bytes that each node takes. -/

namespace WireSchema.Schema

def indent (depth : Nat) : String := String.ofList (List.replicate (2 * depth) ' ')

def braced (word : String) (entries : List String) : String :=
  word ++ " \x7b" ++ ", ".intercalate entries ++ "\x7d\n"

mutual

def outlineAt (depth : Nat) : Schema → String
  | .scalar type => type.name ++ "\n"
  | .custom name => s!"custom({name})\n"
  | .enum labels => braced "enum" (labels.map fun l => s!"{l.1}={l.2.toInt}")
  | .numberEnum labels => braced "number-enum" (labels.map fun l => s!"{l.1.toInt}={l.2.toInt}")
  | .bitmask flags => braced "bitmask" (flags.map fun f => s!"{f.1}@{f.2.toInt}")
  | .optional inner => "optional " ++ outlineAt depth inner
  | .array count element => count.name ++ " of " ++ outlineAt depth element
  | .union variants => "type-lookup\n" ++ outlineVariants depth 0 variants
  | .record fields => "object\n" ++ outlineFields (depth + 1) fields

def outlineFields (depth : Nat) : List (String × Schema) → String
  | [] => ""
  | (name, schema) :: rest =>
    indent depth ++ name ++ ": " ++ outlineAt depth schema ++ outlineFields depth rest

def outlineVariants (depth index : Nat) : List (String × List (String × Schema)) → String
  | [] => ""
  | (tag, fields) :: rest =>
    s!"{indent (depth + 1)}[{index}] {tag}\n" ++ outlineFields (depth + 2) fields ++
      outlineVariants depth (index + 1) rest

end

def outline (schema : Schema) : String := outlineAt 0 schema

/-- The bytes of a scalar type, strings taking two a unit behind their count. -/
def widthText (type : Scalar) : String :=
  match type.width? with
  | some 1 => "1 byte"
  | some n => s!"{n} bytes"
  | none => "2 + 2n bytes"

mutual

def widthsAt (depth : Nat) : Schema → String
  | .scalar type => s!"{type.name} ({widthText type})\n"
  | .custom name => s!"{name} (custom)\n"
  | .enum _ => "enum (1 byte)\n"
  | .numberEnum _ => "number-enum (1 byte)\n"
  | .bitmask flags => s!"bitmask of {flags.length} (1 byte)\n"
  | .optional inner => "optional (1 byte +) " ++ widthsAt depth inner
  | .array count element =>
    s!"{count.name} ({count.bytes} byte prefix) of " ++ widthsAt depth element
  | .union variants => "type-lookup (1 byte index)\n" ++ widthsVariants depth 0 variants
  | .record fields => "object\n" ++ widthsFields (depth + 1) fields

def widthsFields (depth : Nat) : List (String × Schema) → String
  | [] => ""
  | (name, schema) :: rest =>
    indent depth ++ name ++ ": " ++ widthsAt depth schema ++ widthsFields depth rest

def widthsVariants (depth index : Nat) : List (String × List (String × Schema)) → String
  | [] => ""
  | (tag, fields) :: rest =>
    s!"{indent (depth + 1)}[{index}] {tag}\n" ++ widthsFields (depth + 2) fields ++
      widthsVariants depth (index + 1) rest

end

def widths (schema : Schema) : String := widthsAt 0 schema

end WireSchema.Schema
