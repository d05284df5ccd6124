import WireSchema.Cli.Command
import WireSchema.Codec
import WireSchema.Json.Printer
import WireSchema.Schema.Outline
import WireSchema.Value.Json

/-! A command reads the schema before anything else, and prints and writes only once nothing can fail
any more. -/

namespace WireSchema.Cli

/-- The messages of a command that failed, outermost first. -/
abbrev Messages := List String

structure Outcome where
  exitCode : UInt8
  output : String
  messages : Messages
deriving DecidableEq, Repr

def versionText : String := "schemapack 0.3.0\n"

section

variable {m : Type → Type} [Monad m] (files : FileAccess m)

abbrev Attempt (m : Type → Type) (α : Type) := ExceptT Messages m α

def attempt {ε α : Type} (what : String) (describe : ε → Messages) (result : Except ε α) :
    Attempt m α :=
  ExceptT.mk (pure (result.mapError fun e => what :: describe e))

def loadSchema (path : String) : Attempt m Schema :=
  (Schema.load files path).adapt fun e => s!"Failed to load schema: {path}" :: e.chain

def compile (path : String) (schema : Schema) : Attempt m Codec :=
  attempt s!"Failed to compile schema: {path}" SchemaError.chain
    (Codec.ofSchema ∅ Codec.defaultDiscriminant schema)

def loadCodec (path : String) : Attempt m Codec := do
  let schema ← loadSchema files path
  compile path schema

def loadValue (path : String) : Attempt m Value := do
  let text ← (files.readText path).adapt fun e => [s!"Failed to read value file: {path}", e.message]
  match Json.parse? text with
  | some j => return Value.ofJson j
  | none => throw [s!"Invalid JSON in value file: {path}"]

def encodeValue (codec : Codec) (v : Value) (what : String) : Attempt m (List UInt8) :=
  attempt what (fun e => [Failure.message e]) (codec.encode v)

def Command.run : Command → Attempt m String
  | .check schema => do
    let _ ← loadCodec files schema
    return s!"✅ Schema is valid: {schema}\n"
  | .inspect path => do
    let schema ← loadSchema files path
    let codec ← compile path schema
    let size := match codec.fixedSize? with
      | some n => s!"{n} bytes for every value"
      | none => "depends on the value"
    return schema.widths ++ s!"Encoded size: {size}\n"
  | .size schema value => do
    let codec ← loadCodec files schema
    let v ← loadValue files value
    let bytes ← encodeValue codec v "Value does not match the schema"
    return s!"{bytes.length}\n"
  | .encode schema value output => do
    let codec ← loadCodec files schema
    let v ← loadValue files value
    let bytes ← encodeValue codec v "Failed to encode value"
    (files.write output bytes).adapt fun e => [s!"Failed to write output: {output}", e.message]
    return s!"✅ Wrote {bytes.length} bytes to {output}\n"
  | .decode schema input => do
    let codec ← loadCodec files schema
    let bytes ← (files.read input).adapt fun e => [s!"Failed to read input: {input}", e.message]
    let v ← attempt s!"Failed to decode: {input}" (fun e => [Failure.message e]) (codec.decode bytes)
    return (Json.ofValue v).pretty ++ "\n"

/-- Runs a command line. One that is not understood has no messages of its own. -/
def run (args : List String) : m Outcome :=
  match request? args with
  | none => return ⟨2, "", []⟩
  | some .version => return ⟨0, versionText, []⟩
  | some (.command command) => do
    match ← (command.run files).run with
    | .ok output => return ⟨0, output, []⟩
    | .error messages => return ⟨1, "", messages⟩

end

end WireSchema.Cli
