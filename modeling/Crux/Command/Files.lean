namespace Crux

inductive FileFault
  | missing
  | notDirectory
  | directory
  | nameTooLong
  | encoding
  | other : (cause : String) → FileFault
  deriving DecidableEq

def FileFault.message : FileFault → String
  | .missing => "No such file or directory (os error 2)"
  | .notDirectory => "Not a directory (os error 20)"
  | .directory => "Is a directory (os error 21)"
  | .nameTooLong => "File name too long (os error 36)"
  | .encoding => "stream did not contain valid UTF-8"
  | .other cause => cause

structure Files (m : Type → Type) where
  read : (name : String) → m (Except FileFault ByteArray)
  write : (name : String) → (text : String) → m (Except FileFault Unit)

def decodeText (bytes : ByteArray) : Except FileFault String :=
  match String.fromUTF8? bytes with
  | some text => .ok text
  | none => .error .encoding

namespace FileName

def stem (name : List Char) : List Char :=
  let before := (name.reverse.dropWhile (· ≠ '.')).drop 1
  if name = ['.', '.'] || before.isEmpty then name else before.reverse

def splitFolder (path : List Char) : List Char × List Char :=
  let name := (path.reverse.takeWhile (· ≠ '/')).reverse
  (path.take (path.length - name.length), name)

def withExtension (path extension : String) : String :=
  let (folder, name) := splitFolder path.toList
  String.ofList (folder ++ stem name ++ '.' :: extension.toList)

end FileName

end Crux
