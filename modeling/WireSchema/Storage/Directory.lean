import WireSchema.Assoc
import WireSchema.Storage.Access

/-! A path is followed name by name, so `./a` and `a` are one file. It may leave the directory: the
directories above are there, but none of their names leads to anything. -/

namespace WireSchema

structure Directory where
  files : List (List String × List UInt8)

def splitSlashes : List Char → List (List Char)
  | [] => [[]]
  | c :: rest =>
    match splitSlashes rest with
    | [] => [[c]]
    | piece :: pieces => if c = '/' then [] :: piece :: pieces else (c :: piece) :: pieces

/-- The names that a path goes through. Slashes in a row count as one, and a slash at the end as a step to
where the path stands, which only a directory allows. -/
def pathNames (path : String) : List String :=
  let names := ((splitSlashes path.toList).filter fun piece => !piece.isEmpty).map String.ofList
  if path.toList.getLast? = some '/' then names ++ ["."] else names

inductive Place where
  | inside (names : List String)
  /-- A directory that this one stands in, at any height. -/
  | above
  | beyond
deriving DecidableEq, Repr

def Place.start (path : String) : Place :=
  if path.toList.head? = some '/' then .above else .inside []

def Place.child : Place → String → Place
  | inside names, name => .inside (names ++ [name])
  | above, _ => .beyond
  | beyond, _ => .beyond

def Place.parent : Place → Place
  | inside names => if names.isEmpty then .above else .inside names.dropLast
  | above => .above
  | beyond => .above

namespace Directory

def ofList (files : List (String × List UInt8)) : Directory :=
  ⟨files.map fun f => (pathNames f.1, f.2)⟩

def isDirectory (d : Directory) : Place → Bool
  | .inside names =>
    names.isEmpty || d.files.any fun f => names.isPrefixOf f.1 && names.length < f.1.length
  | .above => true
  | .beyond => false

def faultAt (d : Directory) (place : Place) : FileFault :=
  if d.isDirectory place then .isDirectory
  else
    match place with
    | .inside names => if d.files.any fun f => f.1.isPrefixOf names then .notDirectory else .missing
    | _ => .missing

/-- The longest name and the longest path, in bytes. -/
def maxNameSize : Nat := 255

def maxPathSize : Nat := 4095

def step (d : Directory) (place : Place) (name : String) : Except FileFault Place :=
  if d.isDirectory place then
    if name = "." then .ok place
    else if name = ".." then .ok place.parent
    else if maxNameSize < name.utf8ByteSize then .error .longName
    else .ok (place.child name)
  else .error (d.faultAt place)

/-- The place that names lead to from where a path starts. The path is looked at as a whole first. -/
def follow (d : Directory) (path : String) (names : List String) : Except FileFault Place :=
  if path.toList.contains '\x00' then .error .badName
  else if path = "" then .error .missing
  else if maxPathSize < path.utf8ByteSize then .error .longName
  else names.foldlM d.step (Place.start path)

def read (d : Directory) (path : String) : Except FileFault (List UInt8) := do
  let place ← d.follow path (pathNames path)
  match place with
  | .inside names =>
    match d.files.lookup names with
    | some bytes => .ok bytes
    | none => .error (d.faultAt place)
  | _ => .error (d.faultAt place)

/-- Replaces or creates a file, in a directory that exists. After a slash at the end of a path no file is
created, so that the last name of such a path is not even looked up. -/
def write (d : Directory) (path : String) (bytes : List UInt8) : Except FileFault Directory := do
  let names := pathNames path
  if path.toList.getLast? = some '/' then
    let place ← d.follow path names.dropLast.dropLast
    .error (d.faultAt place)
  else
    let place ← d.follow path names
    match place with
    | .inside names =>
      if d.isDirectory place then .error .isDirectory
      else .ok ⟨Assoc.insert names bytes d.files⟩
    | _ => .error (d.faultAt place)

def access : FileAccess (StateM Directory) where
  read path := ExceptT.mk fun d => (d.read path, d)
  write path bytes := ExceptT.mk fun d =>
    match d.write path bytes with
    | .ok d' => (.ok (), d')
    | .error fault => (.error fault, d)

end Directory

end WireSchema
