import WireSchema.Number.Binary

/-! A number carries its width, so `U8 7` and `I32 7` differ as values while both denote the integer
`7`. -/

namespace WireSchema

inductive Value where
  | null
  | bool (b : Bool)
  | u8 (n : UInt8)
  | u16 (n : UInt16)
  | u32 (n : UInt32)
  | i8 (n : Int8)
  | i16 (n : Int16)
  | i32 (n : Int32)
  | f32 (x : Binary32)
  | f64 (x : Binary64)
  | string (s : String)
  | array (items : List Value)
  | object (fields : List (String × Value))

instance : Inhabited Value := ⟨.null⟩

namespace Value

inductive Kind where
  | null
  | bool
  | u8
  | u16
  | u32
  | i8
  | i16
  | i32
  | f32
  | f64
  | string
  | array
  | object
deriving DecidableEq, Repr

def Kind.name : Kind → String
  | null => "null"
  | bool => "bool"
  | u8 => "u8"
  | u16 => "u16"
  | u32 => "u32"
  | i8 => "i8"
  | i16 => "i16"
  | i32 => "i32"
  | f32 => "f32"
  | f64 => "f64"
  | string => "string"
  | array => "array"
  | object => "object"

def kind : Value → Kind
  | null => .null
  | bool _ => .bool
  | u8 _ => .u8
  | u16 _ => .u16
  | u32 _ => .u32
  | i8 _ => .i8
  | i16 _ => .i16
  | i32 _ => .i32
  | f32 _ => .f32
  | f64 _ => .f64
  | string _ => .string
  | array _ => .array
  | object _ => .object

def isNull : Value → Bool
  | null => true
  | _ => false

def toInt? : Value → Option Int
  | u8 n => some n.toNat
  | u16 n => some n.toNat
  | u32 n => some n.toNat
  | i8 n => some n.toInt
  | i16 n => some n.toInt
  | i32 n => some n.toInt
  | _ => none

/-- The floating-point number of a numeric value. Integers are rounded to it, which changes none of them. -/
def toBinary64? : Value → Option Binary64
  | f32 x => some x.toBinary64
  | f64 x => some x
  | v => v.toInt?.map Binary64.ofInt

def toBool? : Value → Option Bool
  | bool b => some b
  | _ => none

def toString? : Value → Option String
  | string s => some s
  | _ => none

def items? : Value → Option (List Value)
  | array items => some items
  | _ => none

def fields? : Value → Option (List (String × Value))
  | object fields => some fields
  | _ => none

def get? (v : Value) (name : String) : Option Value :=
  v.fields?.bind fun fields => fields.lookup name

/-- The field of an object, absent fields being null. -/
def field (fields : List (String × Value)) (name : String) : Value :=
  (fields.lookup name).getD null

def clampInt64 (n : Int) : Int :=
  max (-0x8000000000000000) (min n 0x7FFFFFFFFFFFFFFF)

/-- The integer that a numeric value denotes, if it has no fractional part. A floating-point number beyond
64 signed bits counts as the nearest end of their range. -/
def integral? (v : Value) : Option Int :=
  match v.toInt? with
  | some n => some n
  | none => v.toBinary64?.bind fun x => x.toInt?.map clampInt64

end Value

end WireSchema
