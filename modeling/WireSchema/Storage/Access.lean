import WireSchema.Storage.File

namespace WireSchema

structure FileAccess (m : Type → Type) where
  read (path : String) : ExceptT FileFault m (List UInt8)
  write (path : String) (bytes : List UInt8) : ExceptT FileFault m Unit

def FileAccess.readText {m : Type → Type} [Monad m] (files : FileAccess m) (path : String) :
    ExceptT FileFault m String := do
  let bytes ← files.read path
  ExceptT.mk (pure (fileText bytes))

end WireSchema
