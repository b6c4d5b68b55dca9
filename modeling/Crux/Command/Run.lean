import Crux.Command.Files
import Crux.Compile
import Crux.Node.Basic

namespace Crux

inductive Command
  | tokens : (input : String) → (json : Bool) → Command
  | ast : (input : String) → Command
  | check : (input : String) → Command
  | build : (input : String) → (output : Option String) → Command

structure Ending where
  exit : Nat
  stdout : String
  stderr : String
  deriving DecidableEq

namespace Ending

def success (stdout : String) : Ending := ⟨0, stdout, ""⟩

def fileError (action file : String) (fault : FileFault) : Ending :=
  ⟨1, "", s!"Error: could not {action} {file}: {fault.message}\n"⟩

def compileError (file : String) : CompileError → Ending
  | .reading report => ⟨3, s!"Error parsing file {file}\n" ++ report, ""⟩
  | .checking report => ⟨4, s!"Error type-checking file {file}\n" ++ report, ""⟩
  | .emitting report => ⟨5, s!"Error generating code for file {file}\n" ++ report ++ "\n", ""⟩

end Ending

def tokenDump (source : String) (json : Bool) : String :=
  let tokens := (Cursor.ofString source).tokens
  if json then (Text.Json.arr (tokens.map Token.toJson)).pretty ++ "\n"
  else String.join (tokens.map fun t => t.render ++ "\n")

namespace Command

def input : Command → String
  | .tokens input _ | .ast input | .check input | .build input _ => input

def work (source : String) : Command → Except CompileError (String × Option Program)
  | .tokens _ json => return (tokenDump source json, none)
  | .ast _ => do
    let root ← readProgram source
    return (root.outline, none)
  | .check _ => do
    let root ← readProgram source
    let _ ← checkProgram root
    return ("Crux program has no type errors.\n", none)
  | .build .. => do
    let program ← compile source
    return ("", some program)

def output : Command → String
  | .build input output => output.getD (FileName.withExtension input "asm")
  | c => c.input

variable {m : Type → Type} [Monad m]

def writeProgram (files : Files m) (file : String) (program : Program) : m Ending := do
  match ← files.write file program.render with
  | .ok () => return .success s!"Crux program successfully compiled to {file}\n"
  | .error fault => return .fileError "create" file fault

def run (files : Files m) (c : Command) : m Ending := do
  match (← files.read c.input).bind decodeText with
  | .error fault => return .fileError "read" c.input fault
  | .ok source =>
    match c.work source with
    | .error e => return .compileError c.input e
    | .ok (text, none) => return .success text
    | .ok (_, some program) => writeProgram files c.output program

end Command

end Crux
