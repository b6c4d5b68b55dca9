import Crux.Command.Files

namespace Crux

structure Folder where
  files : List (String × ByteArray)

namespace Folder

def empty : Folder := ⟨[]⟩

def maxNameBytes : Nat := 255

def maxPathBytes : Nat := 4095

/-- Where a path has led so far: to this folder, or to one around it, of whose files nothing is
known. -/
inductive Place
  | here
  | around
  deriving DecidableEq

inductive Target
  | folder
  | file : Place → (name : String) → Target
  deriving DecidableEq

def parts (path : String) : List String := (path.splitOn "/").filter (!·.isEmpty)

def endsInSlash (path : String) : Bool := path.toList.getLast? = some '/'

def startOf (path : String) : Place := if path.toList.head? = some '/' then .around else .here

def isDots (part : String) : Bool := part = "." || part = ".."

def find? (f : Folder) : Place → String → Option ByteArray
  | .here, name => f.files.lookup name
  | .around, _ => none

def enter (f : Folder) (place : Place) (part : String) : Except FileFault Place :=
  if part = "." then .ok place
  else if part = ".." then .ok .around
  else if maxNameBytes < part.utf8ByteSize then .error .nameTooLong
  else if (f.find? place part).isSome then .error .notDirectory
  else .error .missing

def locate (f : Folder) (path : String) : Except FileFault Target := do
  if path.isEmpty then .error .missing
  else if maxPathBytes < path.utf8ByteSize then .error .nameTooLong
  else
    let place ← (parts path).dropLast.foldlM f.enter (startOf path)
    match (parts path).getLast? with
    | some last => return if isDots last then .folder else .file place last
    | none => return .folder

def read (f : Folder) (path : String) : Except FileFault ByteArray := do
  match ← f.locate path with
  | .folder => .error .directory
  | .file place name =>
    if maxNameBytes < name.utf8ByteSize then .error .nameTooLong
    else
      match f.find? place name with
      | some bytes => if endsInSlash path then .error .notDirectory else .ok bytes
      | none => .error .missing

def put (f : Folder) (name : String) (bytes : ByteArray) : Folder :=
  ⟨(name, bytes) :: f.files.filter (·.1 ≠ name)⟩

def write (f : Folder) (path : String) (bytes : ByteArray) : Except FileFault Folder := do
  match ← f.locate path with
  | .folder => .error .directory
  | .file place name =>
    if endsInSlash path then .error .directory
    else if maxNameBytes < name.utf8ByteSize then .error .nameTooLong
    else
      match place with
      | .here => .ok (f.put name bytes)
      | .around => .ok f

def access : Files (StateM Folder) where
  read name := return (← get).read name
  write name text := do
    match (← get).write name text.toUTF8 with
    | .ok f =>
      set f
      return .ok ()
    | .error fault => return .error fault

end Folder

end Crux
