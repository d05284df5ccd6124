import WireSchema.Scalar

/-! Ordinals and positions are what the schema's author wrote, any 64-bit integers; which trees make
sense is said in `WireSchema.Schema.Validity`. -/

namespace WireSchema

inductive Schema where
  | scalar (type : Scalar)
  | custom (name : String)
  /-- Labels with their ordinals. -/
  | enum (labels : List (String × Int64))
  | numberEnum (labels : List (Int32 × Int64))
  /-- Flags with their positions. -/
  | bitmask (flags : List (String × Int64))
  | optional (inner : Schema)
  | array (count : CountWidth) (element : Schema)
  /-- Tags with the fields of their variants. -/
  | union (variants : List (String × List (String × Schema)))
  | record (fields : List (String × Schema))

namespace Schema

def named (name : String) : Schema :=
  match Scalar.ofName? name with
  | some type => .scalar type
  | none => .custom name

def kind : Schema → String
  | scalar type => type.name
  | custom _ => "custom"
  | enum _ => "enum"
  | numberEnum _ => "number-enum"
  | bitmask _ => "bitmask"
  | optional _ => "optional"
  | array count _ => count.name
  | union _ => "type-lookup"
  | record _ => "object"

def isOptional : Schema → Bool
  | optional _ => true
  | _ => false

end Schema

end WireSchema
