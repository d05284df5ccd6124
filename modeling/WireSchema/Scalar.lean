namespace WireSchema

inductive Scalar where
  | uint8
  | uint16
  | uint32
  | int8
  | int16
  | int32
  | float32
  | float64
  | boolean
  | string
deriving DecidableEq, Repr

namespace Scalar

def all : List Scalar :=
  [uint8, uint16, uint32, int8, int16, int32, float32, float64, boolean, string]

def name : Scalar → String
  | uint8 => "uint8"
  | uint16 => "uint16"
  | uint32 => "uint32"
  | int8 => "int8"
  | int16 => "int16"
  | int32 => "int32"
  | float32 => "float32"
  | float64 => "float64"
  | boolean => "boolean"
  | string => "string"

def ofName? (name : String) : Option Scalar :=
  all.find? fun t => t.name == name

/-- The number of bytes of every value of the type. Strings have none. -/
def width? : Scalar → Option Nat
  | uint8 | int8 | boolean => some 1
  | uint16 | int16 => some 2
  | uint32 | int32 | float32 => some 4
  | float64 => some 8
  | string => none

@[simp] theorem ofName?_name (t : Scalar) : ofName? t.name = some t := by
  cases t <;> rfl

end Scalar

inductive CountWidth where
  | one
  | two
deriving DecidableEq, Repr

namespace CountWidth

def bytes : CountWidth → Nat
  | one => 1
  | two => 2

def limit : CountWidth → Nat
  | one => 255
  | two => 65535

def name : CountWidth → String
  | one => "array-uint8"
  | two => "array-uint16"

end CountWidth

end WireSchema
