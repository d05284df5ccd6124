import WireSchema.Extension
import WireSchema.Schema.Basic
import WireSchema.Schema.Error

/-! The first rule that a schema breaks is reported with the place of the node that breaks it, named by
the fields and tags on the way and by `elements` for an array; an optional adds nothing. -/

namespace WireSchema.Schema

/-- The greatest number of variants: the index is one byte. -/
def maxVariants : Nat := 256

/-- The first rule that a list of labels breaks, given the labels and ordinals before it. -/
def labelViolation? (kind : LabelKind) (labels : List String) (ordinals : List Int64) :
    List (String × Int64) → Option Violation
  | [] => none
  | (label, ordinal) :: rest =>
    if labels.contains label then some (.duplicateLabel kind label)
    else if ordinal.toInt < 0 ∨ 255 < ordinal.toInt then some (.ordinalOutOfRange kind label ordinal)
    else if ordinals.contains ordinal then some (.duplicateOrdinal kind ordinal)
    else labelViolation? kind (label :: labels) (ordinal :: ordinals) rest

def enumViolation? (kind : LabelKind) (labels : List (String × Int64)) : Option Violation :=
  if labels.isEmpty then some (.noLabels kind) else labelViolation? kind [] [] labels

/-- The first rule that the flags of a bitmask of `count` flags break, given the names and positions
before them. -/
def flagViolation? (count : Nat) (names : List String) (positions : List Int64) :
    List (String × Int64) → Option Violation
  | [] => none
  | (name, position) :: rest =>
    if names.contains name then some (.duplicateFlag name)
    else if position.toInt < 0 ∨ count ≤ position.toInt then
      some (.positionOutOfRange name position count)
    else if positions.contains position then some (.duplicatePosition position)
    else flagViolation? count (name :: names) (position :: positions) rest

def bitmaskViolation? (flags : List (String × Int64)) : Option Violation :=
  if flags.isEmpty then some .noFlags
  else if maxFlags < flags.length then some (.tooManyFlags flags.length)
  else flagViolation? flags.length [] [] flags

def accept (path : SchemaPath) : Option Violation → Except SchemaError Unit
  | none => .ok ()
  | some violation => .error (.invalid violation path)

section

variable (types : Extensions) (discriminant : String)

mutual

def checkAt (path : SchemaPath) : Schema → Except SchemaError Unit
  | .scalar _ => .ok ()
  | .custom name =>
    if types.contains name then .ok () else .error (.unknownCustom name (some path))
  | .enum labels => accept path (enumViolation? .enum labels)
  | .numberEnum labels =>
    accept path (enumViolation? .numberEnum (labels.map fun l => (toString l.1.toInt, l.2)))
  | .bitmask flags => accept path (bitmaskViolation? flags)
  | .optional inner =>
    if inner.isOptional then .error (.invalid .nestedOptional path) else checkAt path inner
  | .array _ element => checkAt (path ++ ["elements"]) element
  | .union variants =>
    if variants.isEmpty then .error (.invalid .noVariants path)
    else if maxVariants < variants.length then
      .error (.invalid (.tooManyVariants variants.length) path)
    else checkVariants path [] variants
  | .record fields => checkFields path [] fields

def checkFields (path : SchemaPath) (names : List String) :
    List (String × Schema) → Except SchemaError Unit
  | [] => .ok ()
  | (name, schema) :: rest =>
    if names.contains name then .error (.invalid (.duplicateField name) path)
    else do
      checkAt (path ++ [name]) schema
      checkFields path (name :: names) rest

def checkVariants (path : SchemaPath) (tags : List String) :
    List (String × List (String × Schema)) → Except SchemaError Unit
  | [] => .ok ()
  | (tag, fields) :: rest =>
    if tags.contains tag then .error (.invalid (.duplicateTag tag) path)
    else if fields.any fun f => f.1 == discriminant then
      .error (.invalid (.discriminantField discriminant) (path ++ [tag]))
    else do
      checkFields (path ++ [tag]) [] fields
      checkVariants path (tag :: tags) rest

end

def check (schema : Schema) : Except SchemaError Unit := checkAt types discriminant [] schema

end

end WireSchema.Schema
