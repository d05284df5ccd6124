import WireSchema.Json.Basic
import WireSchema.Value.Basic

/-! A number of a document becomes the first of a signed 32-bit integer, an unsigned 32-bit integer and
a floating-point number that holds it. A number that is not finite gives null. -/

namespace WireSchema

namespace Value

def ofInt (n : Int) : Value :=
  if -0x80000000 ≤ n ∧ n < 0x80000000 then .i32 (Int32.ofInt n)
  else if 0 ≤ n ∧ n < 0x100000000 then .u32 (UInt32.ofNat n.toNat)
  else .f64 (Binary64.ofInt n)

mutual

def ofJson : Json → Value
  | .null => .null
  | .bool b => .bool b
  | .int n => ofInt n
  | .float x => .f64 x
  | .text s => .string s
  | .array items => .array (ofItems items)
  | .object members => .object (ofMembers members)

def ofItems : List Json → List Value
  | [] => []
  | j :: rest => ofJson j :: ofItems rest

def ofMembers : List (String × Json) → List (String × Value)
  | [] => []
  | (k, j) :: rest => (k, ofJson j) :: ofMembers rest

end

end Value

namespace Json

def ofBinary64 (x : Binary64) : Json :=
  if x.isFinite then .float x else .null

mutual

def ofValue : Value → Json
  | .null => .null
  | .bool b => .bool b
  | .u8 n => .int n.toNat
  | .u16 n => .int n.toNat
  | .u32 n => .int n.toNat
  | .i8 n => .int n.toInt
  | .i16 n => .int n.toInt
  | .i32 n => .int n.toInt
  | .f32 x => ofBinary64 x.toBinary64
  | .f64 x => ofBinary64 x
  | .string s => .text s
  | .array items => .array (ofItems items)
  | .object fields => .object (ofFields fields)

def ofItems : List Value → List Json
  | [] => []
  | v :: rest => ofValue v :: ofItems rest

def ofFields : List (String × Value) → List (String × Json)
  | [] => []
  | (k, v) :: rest => (k, ofValue v) :: ofFields rest

end

end Json

end WireSchema
