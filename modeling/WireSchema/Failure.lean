import WireSchema.Scalar
import WireSchema.Value.Basic

/-! `Failure.message` is the only place with wording. Only a mismatch carries the path to the part that
does not fit. -/

namespace WireSchema

inductive Step where
  | field (name : String)
  | element (index : Nat)
deriving DecidableEq, Repr

def Step.text : Step → String
  | field name => name
  | element index => s!"[{index}]"

/-- What a place of a schema takes. -/
inductive Shape where
  | scalar (type : Scalar)
  | array (count : CountWidth)
  | enumLabel
  | numberEnumLabel
  | flag
  | bitmask
  | union
  | record
deriving DecidableEq, Repr

def Shape.name : Shape → String
  | scalar type => type.name
  | array count => count.name
  | enumLabel => "enum label"
  | numberEnumLabel => "number-enum label"
  | flag => "bool"
  | bitmask => "bitmask object"
  | union => "type-lookup object"
  | record => "object"

inductive Mismatch where
  | shape (expected : Shape) (found : Value.Kind)
  | outOfRange (n : Int) (type : Scalar)
  | tooManyElements (count : Nat) (width : CountWidth)
  | longText (units : Nat)
  | tooManyFlags (count : Nat)
  | missingDiscriminant (name : String)
  | badDiscriminant (name : String) (found : Value.Kind)
  | other (text : String)
deriving DecidableEq, Repr

/-- The flags that fit a byte beside the bit that marks their end. -/
def maxFlags : Nat := 7

def Mismatch.message : Mismatch → String
  | shape expected found => s!"expected {expected.name}, found {found.name}"
  | outOfRange n type => s!"{n} is out of range for {type.name}"
  | tooManyElements count width =>
    s!"{count} elements do not fit a {width.name} length prefix (max {width.limit})"
  | longText units => s!"string of {units} UTF-16 code units exceeds the u16 length prefix"
  | tooManyFlags count => s!"bitmask holds at most {maxFlags} flags, got {count}"
  | missingDiscriminant name => s!"missing discriminant '{name}'"
  | badDiscriminant name found => s!"discriminant '{name}' must be a string, found {found.name}"
  | other text => text

inductive Malformation where
  | flagCount (held declared : Nat)
  | presence (byte : UInt8)
  | other (text : String)
deriving DecidableEq, Repr

def Malformation.message : Malformation → String
  | flagCount held declared => s!"bitmask holds {held} flags, schema declares {declared}"
  | presence byte => s!"presence byte must be 0 or 1, found {byte.toNat}"
  | other text => text

inductive Undeclared where
  | enumLabel (label : String)
  | enumOrdinal (ordinal : UInt8)
  | numberEnumLabel (label : Int)
  | numberEnumOrdinal (ordinal : UInt8)
  | tag (name : String)
  | variant (index : UInt8)
  | other (text : String)
deriving DecidableEq, Repr

def Undeclared.message : Undeclared → String
  | enumLabel label => s!"enum label '{label}'"
  | enumOrdinal ordinal => s!"enum ordinal {ordinal.toNat}"
  | numberEnumLabel label => s!"number-enum label {label}"
  | numberEnumOrdinal ordinal => s!"number-enum ordinal {ordinal.toNat}"
  | tag name => s!"type-lookup tag '{name}'"
  | variant index => s!"type-lookup index {index.toNat}"
  | other text => text

inductive Failure where
  | outOfBounds (needed available : Nat)
  | trailingBytes (position length : Nat)
  | malformed (why : Malformation)
  | illFormedText
  | undeclared (what : Undeclared)
  | mismatch (path : List Step) (why : Mismatch)
  | sizeMismatch (expected actual : Nat)
  | other (text : String)
deriving DecidableEq, Repr

namespace Failure

def pathText (path : List Step) : String :=
  String.join (path.map fun step => step.text ++ ": ")

def message : Failure → String
  | outOfBounds needed available => s!"Buffer out of bounds: need {needed} bytes, have {available}"
  | trailingBytes position length =>
    s!"Bad input size: decoding stopped at byte {position} of {length}"
  | malformed why => s!"Invalid data format: {why.message}"
  | illFormedText => "Invalid UTF-16 string"
  | undeclared what => s!"Type not found: {what.message}"
  | mismatch path why => s!"Invalid value: {pathText path}{why.message}"
  | sizeMismatch expected actual =>
    s!"Size mismatch: computed {expected} bytes, encoded {actual}"
  | other text => text

def isFormat : Failure → Bool
  | outOfBounds .. | trailingBytes .. | malformed _ | illFormedText => true
  | _ => false

def isUndeclared : Failure → Bool
  | undeclared _ => true
  | _ => false

/-- The same failure seen from one step further out. Only a mismatch has a path. -/
def within (step : Step) : Failure → Failure
  | mismatch path why => mismatch (step :: path) why
  | failure => failure

end Failure

end WireSchema
