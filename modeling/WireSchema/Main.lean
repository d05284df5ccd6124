import WireSchema.Cli.Run

namespace WireSchema

def FileFault.ofError : IO.Error → FileFault
  | .noFileOrDirectory .. => .missing
  | e => .other (toString e)

def attemptFile {α : Type} (operation : IO α) : ExceptT FileFault IO α :=
  ExceptT.mk do
    try
      return .ok (← operation)
    catch e => return .error (.ofError e)

def machineFiles : FileAccess IO where
  read path := attemptFile do return (← IO.FS.readBinFile path).toList
  write path bytes := attemptFile (IO.FS.writeBinFile path (ByteArray.mk bytes.toArray))

def usage : String := "Usage: schemapack [-v] <check|inspect|size|encode|decode> <options>"

end WireSchema

def main (args : List String) : IO UInt32 := do
  let outcome ← WireSchema.Cli.run WireSchema.machineFiles args
  IO.print outcome.output
  for message in outcome.messages do
    IO.eprintln message
  if outcome.exitCode = 2 then
    IO.eprintln WireSchema.usage
  return outcome.exitCode.toUInt32
