import WireSchema.Number.Binary

/-! `2` is an integer and `2.0` is not. An integer lies between `-2 ^ 63` and `2 ^ 64 - 1`; what the
text writes beyond that is a floating-point number. -/

namespace WireSchema

inductive Json where
  | null
  | bool (b : Bool)
  | int (n : Int)
  | float (x : Binary64)
  | text (s : String)
  | array (items : List Json)
  | object (members : List (String × Json))

namespace Json

def toInt64? : Json → Option Int64
  | .int n => if n < 0x8000000000000000 then some (Int64.ofInt n) else none
  | _ => none

end Json

end WireSchema
