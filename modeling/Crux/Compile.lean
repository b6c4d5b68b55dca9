import Crux.Emit.Node
import Crux.Grammar.Program
import Crux.Typing.Checker

namespace Crux

structure Generator extends Assembly where
  faults : List EmitFault

namespace Generator

def empty : Generator := ⟨⟨.empty, []⟩, []⟩

/-- Puts out the code of a tree, outside all functions. Code put out before a fault stays. -/
def generate (g : Generator) (types : Nat → Option Ty) (root : Node) : Generator :=
  match root.emit types { g.toAssembly with frame := [] } with
  | .ok _ a => ⟨a, g.faults⟩
  | .error fault a => ⟨a, g.faults ++ [fault]⟩

def hasError (g : Generator) : Bool := !g.faults.isEmpty

def errorReport (g : Generator) : String := String.join (g.faults.map EmitFault.message)

end Generator

inductive CompileError
  | reading : (report : String) → CompileError
  | checking : (report : String) → CompileError
  | emitting : (report : String) → CompileError

def readProgram (source : String) : Except CompileError Node :=
  let (root, p) := (Parser.ofString source).parse
  if p.hasError then .error (.reading p.errorReport) else .ok root

def checkProgram (root : Node) : Except CompileError Checker :=
  let c := Checker.empty.check root
  if c.hasError then .error (.checking c.errorReport) else .ok c

def emitProgram (c : Checker) (root : Node) : Except CompileError Program :=
  let g := Generator.empty.generate (c.types[·]?) root
  if g.hasError then .error (.emitting g.errorReport) else .ok g.program

def compile (source : String) : Except CompileError Program := do
  let root ← readProgram source
  let c ← checkProgram root
  emitProgram c root

end Crux
