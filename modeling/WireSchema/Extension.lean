import WireSchema.Assoc
import WireSchema.Text.Quoted
import WireSchema.Wire.Cursor
import WireSchema.Wire.Writer

/-! Custom leaf types bring their own bytes. Nothing makes an extension keep its word; the codec
compares the announced size with what was written. Sizes are plain numbers, and one beyond
`Writer.maxSize` has no room. -/

namespace WireSchema

structure Extension where
  read : Read Value
  write : Value → Write Unit
  size : Value → Except Failure Nat

structure Extensions where
  entries : List (String × Extension)

namespace Extensions

instance : EmptyCollection Extensions := ⟨⟨[]⟩⟩

instance : Inhabited Extensions := ⟨∅⟩

def insert (types : Extensions) (name : String) (e : Extension) : Extensions :=
  ⟨Assoc.insert name e types.entries⟩

def get? (types : Extensions) (name : String) : Option Extension :=
  types.entries.lookup name

def contains (types : Extensions) (name : String) : Bool :=
  Assoc.contains name types.entries

def names (types : Extensions) : List String := types.entries.map Prod.fst

def size (types : Extensions) : Nat := types.entries.length

def restrict (types : Extensions) (names : List String) : Extensions :=
  ⟨Assoc.ofList (names.filterMap fun name => (types.get? name).map (name, ·))⟩

def summary (types : Extensions) : String :=
  "\x7b" ++ ", ".intercalate (types.names.map Text.quote) ++ "\x7d"

end Extensions

end WireSchema
