import WireSchema.Layout.OfSchema
import WireSchema.Layout.Read
import WireSchema.Layout.Size
import WireSchema.Layout.Write
import WireSchema.Schema.Document
import WireSchema.Schema.Validity
import WireSchema.Storage.Access

/-! A codec holds the extensions that it needs, so what is registered afterwards does not touch it. A
value is sized first and then written; the two must agree on the number of bytes. -/

namespace WireSchema

structure Codec where
  schema : Schema
  layout : Layout
  types : Extensions

namespace Codec

def defaultDiscriminant : String := "type"

/-- The codec of a layout, whether or not its schema is valid. -/
def ofLayout (types : Extensions) (schema : Schema) (layout : Layout) : Codec :=
  ⟨schema, layout, types.restrict layout.dependencies⟩

def ofSchema (types : Extensions) (discriminant : String) (schema : Schema) :
    Except SchemaError Codec := do
  schema.check types discriminant
  let layout ← Layout.ofSchema types discriminant schema
  return ofLayout types schema layout

def fixedSize? (c : Codec) : Option Nat := c.layout.fixedSize?

def size (c : Codec) (v : Value) : Except Failure Nat := c.layout.size v

def encodeInto (c : Codec) (v : Value) (w : Writer) : Except Failure Unit × Writer :=
  (c.layout.write v).run.run w

def encode (c : Codec) (v : Value) : Except Failure (List UInt8) := do
  let size ← c.size v
  let (result, w) := c.encodeInto v (Writer.ofSize size)
  result
  if w.position = size then .ok w.toList else .error (.sizeMismatch size w.position)

/-- Reads a value where a cursor stands and leaves the rest unread. -/
def decodeFrom (c : Codec) (cursor : Cursor) : Except Failure Value × Cursor :=
  c.layout.read.run.run cursor

def decode (c : Codec) (bytes : List UInt8) : Except Failure Value := do
  let (result, cursor) := c.decodeFrom (Cursor.ofBytes bytes)
  let v ← result
  cursor.checkEnd
  return v

def summary (c : Codec) : String :=
  let size := match c.fixedSize? with
    | some n => s!"Some({n})"
    | none => "None"
  s!"Codec \x7b schema: {Text.quote c.schema.kind}, custom_types: {c.types.summary}, fixed_size: {size} \x7d"

end Codec

variable {m : Type → Type} [Monad m]

def Schema.load (files : FileAccess m) (path : String) : ExceptT SchemaError m Schema := do
  let text ← (files.readText path).adapt (SchemaError.file path)
  ExceptT.mk (pure (Schema.ofText text))

def Codec.load (files : FileAccess m) (types : Extensions) (path : String) :
    ExceptT SchemaError m Codec := do
  let schema ← Schema.load files path
  ExceptT.mk (pure (Codec.ofSchema types Codec.defaultDiscriminant schema))

end WireSchema
