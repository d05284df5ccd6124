namespace WireSchema

inductive FileFault where
  | missing
  | isDirectory
  | notDirectory
  | notText
  /-- A path with the character that ends paths. -/
  | badName
  | longName
  | other (text : String)
deriving DecidableEq, Repr

def FileFault.message : FileFault → String
  | missing => "No such file or directory"
  | isDirectory => "Is a directory"
  | notDirectory => "Not a directory"
  | notText => "stream did not contain valid UTF-8"
  | badName => "file name contained an unexpected NUL byte"
  | longName => "File name too long"
  | other text => text

def fileText (bytes : List UInt8) : Except FileFault String :=
  match String.fromUTF8? (ByteArray.mk bytes.toArray) with
  | some s => .ok s
  | none => .error .notText

end WireSchema
