import Crux.Command.Run

namespace Crux

structure Words where
  names : List String := []
  json : Bool := false
  output : Option String := none

def Words.add (w : Words) : List String → Option Words
  | [] => some w
  | "--" :: rest => some { w with names := w.names ++ rest }
  | "--json" :: rest => { w with json := true }.add rest
  | "-o" :: file :: rest | "--output" :: file :: rest => { w with output := some file }.add rest
  | word :: rest =>
    if word.startsWith "-" then none else { w with names := w.names ++ [word] }.add rest

def Words.command? (w : Words) : Option Command :=
  match w.names with
  | ["tokens", input] => some (.tokens input w.json)
  | ["ast", input] => some (.ast input)
  | ["check", input] => some (.check input)
  | ["build", input] => some (.build input w.output)
  | _ => none

def usage : String :=
  "Usage: crux tokens [--json] FILE | ast FILE | check FILE | build [-o OUTPUT] FILE\n"

def errorNumber (code : UInt32) : Nat :=
  if code < 0x80000000 then code.toNat else (-code).toNat

def FileFault.ofError (e : IO.Error) : FileFault :=
  match e with
  | .noFileOrDirectory .. => .missing
  | .inappropriateType _ code _ => if errorNumber code = 20 then .notDirectory else .directory
  | .invalidArgument _ code _ => if errorNumber code = 36 then .nameTooLong else .other (toString e)
  | .permissionDenied _ code details => .other s!"{details} (os error {errorNumber code})"
  | e => .other (toString e)

def diskFiles : Files IO where
  read name := do
    try return .ok (← IO.FS.readBinFile name)
    catch e => return .error (.ofError e)
  write name text := do
    try
      IO.FS.writeFile name text
      return .ok ()
    catch e => return .error (.ofError e)

end Crux

def main (args : List String) : IO UInt32 := do
  match (Crux.Words.add {} args).bind Crux.Words.command? with
  | none =>
    (← IO.getStderr).putStr Crux.usage
    return 2
  | some command =>
    let ending ← command.run Crux.diskFiles
    (← IO.getStdout).putStr ending.stdout
    (← IO.getStderr).putStr ending.stderr
    return UInt32.ofNat ending.exit
