import WireSchema.Json.Printer
import WireSchema.Scalar
import WireSchema.Storage.File

/-! `SchemaError.message` is the only place with wording. -/

namespace WireSchema

abbrev SchemaPath := List String

def SchemaPath.text (path : SchemaPath) : String :=
  if path.isEmpty then "<root>" else ".".intercalate path

inductive DocumentFault where
  | notSchema (found : Json)
  | flagNotText (found : Json)
  | unknownFlag (flag : String)
  | missing (key : String)
  | notInteger (key : String)
  | notNumberLabel (label : String)
  | wideCount
  | variantsNotObject (found : Json)
  | variantNotPlain

def DocumentFault.message : DocumentFault → String
  | notSchema found => s!"expected a type name or an object, found {found.render}"
  | flagNotText found => s!"flag must be a string, found {found.render}"
  | unknownFlag flag => s!"unknown flag '{flag}'"
  | missing key => s!"missing '{key}'"
  | notInteger key => s!"'{key}' must map to an integer"
  | notNumberLabel label => s!"number-enum label '{label}' is not an i32"
  | wideCount => "array-uint32 is not supported, use array-uint16"
  | variantsNotObject found => s!"type-lookup elements must be an object, found {found.render}"
  | variantNotPlain => "type-lookup variant must be a plain object"

inductive LabelKind where
  | enum
  | numberEnum
deriving DecidableEq, Repr

def LabelKind.name : LabelKind → String
  | enum => "enum"
  | numberEnum => "number-enum"

inductive Violation where
  | duplicateLabel (kind : LabelKind) (label : String)
  | ordinalOutOfRange (kind : LabelKind) (label : String) (ordinal : Int64)
  | duplicateOrdinal (kind : LabelKind) (ordinal : Int64)
  | noLabels (kind : LabelKind)
  | noFlags
  | tooManyFlags (count : Nat)
  | duplicateFlag (name : String)
  | positionOutOfRange (name : String) (position : Int64) (count : Nat)
  | duplicatePosition (position : Int64)
  | nestedOptional
  | noVariants
  | tooManyVariants (count : Nat)
  | duplicateTag (tag : String)
  | discriminantField (name : String)
  | duplicateField (name : String)
deriving DecidableEq, Repr

def Violation.message : Violation → String
  | duplicateLabel kind label => s!"Duplicate {kind.name} label '{label}'"
  | ordinalOutOfRange kind label ordinal =>
    s!"{kind.name} label '{label}' has ordinal {ordinal.toInt} outside 0..=255"
  | duplicateOrdinal kind ordinal => s!"Duplicate {kind.name} ordinal {ordinal.toInt}"
  | noLabels kind => s!"{kind.name} must declare at least one label"
  | noFlags => "bitmask must declare at least one flag"
  | tooManyFlags count => s!"bitmask declares {count} flags, at most 7 fit beside the marker bit"
  | duplicateFlag name => s!"Duplicate bitmask flag '{name}'"
  | positionOutOfRange name position count =>
    s!"bitmask flag '{name}' has position {position.toInt}, expected 0..{count}"
  | duplicatePosition position => s!"Duplicate bitmask position {position.toInt}"
  | nestedOptional => "Nested optionals are not allowed"
  | noVariants => "type-lookup must declare at least one variant"
  | tooManyVariants count => s!"type-lookup declares {count} variants, a one-byte index allows 256"
  | duplicateTag tag => s!"Duplicate type-lookup tag '{tag}'"
  | discriminantField name => s!"Field '{name}' conflicts with the union discriminant"
  | duplicateField name => s!"Duplicate field name '{name}'"

inductive SchemaError where
  | notJson
  | document (fault : DocumentFault) (path : SchemaPath)
  | invalid (violation : Violation) (path : SchemaPath)
  /-- A custom type that is not registered, with its place where that was looked for. -/
  | unknownCustom (name : String) (path : Option SchemaPath)
  | file (path : String) (fault : FileFault)

namespace SchemaError

inductive Kind where
  | parse
  | validation
  | unknownCustom
  | fileNotFound
  | io
deriving DecidableEq, Repr

def kind : SchemaError → Kind
  | notJson => .parse
  | document .. => .parse
  | invalid .. => .validation
  | unknownCustom .. => .unknownCustom
  | file _ .missing => .fileNotFound
  | file .. => .io

def message : SchemaError → String
  | notJson => "Parse error: invalid JSON"
  | document fault path => s!"Parse error: {fault.message} at '{path.text}'"
  | invalid violation path => s!"Validation error: {violation.message} at '{path.text}'"
  | unknownCustom name (some path) => s!"Unknown custom type: {name} (at '{path.text}')"
  | unknownCustom name none => s!"Unknown custom type: {name}"
  | file path .missing => s!"File not found: {path}"
  | file _ fault => s!"IO error: {fault.message}"

def chain : SchemaError → List String
  | e@(file _ fault) => if fault = .missing then [e.message] else [e.message, fault.message]
  | e => [e.message]

end SchemaError

end WireSchema
