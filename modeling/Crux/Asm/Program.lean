import Crux.Asm.Line
import Crux.Symbol

namespace Crux

namespace Builtin

open Instr

def label (b : Builtin) : Label := .function b.name

def request (n : Int) : List Line := [.aligned (li .v0 n), .plain syscall]

def back : List Line := [.plain (jumpTo .ra)]

def routine : Builtin → List Line
  | .readInt => [.aligned (la .a0 (.constant "intquery"))] ++ request 4 ++ request 5 ++ back
  | .readFloat =>
    [.aligned (la .a0 (.constant "floatquery"))] ++ request 4 ++ request 6 ++
      [.plain (moveBits .v0 .f0)] ++ back
  | .printBool =>
    [.plain (load .a0 0 .sp), .plain (branchZero .a0 (.inside "printBool" "loadFalse")),
     .plain (la .a0 (.constant "trueString")), .plain (jump (.inside "printBool" "join")),
     .label (.inside "printBool" "loadFalse"), .plain (la .a0 (.constant "falseString")),
     .label (.inside "printBool" "join")] ++ request 4 ++ back
  | .printInt => [.aligned (load .a0 0 .sp)] ++ request 1 ++ back
  | .printFloat =>
    [.aligned (loadFloat .f12 0 .sp), .instr (li .v0 2) ⟨4, 2⟩, .plain syscall] ++ back
  | .println => [.aligned (la .a0 (.constant "newline"))] ++ request 4 ++ back

end Builtin

inductive Datum
  | space : Label → (size : Nat) → Datum
  /-- A text under a label, given with its quotes. -/
  | quoted : Label → String → Datum
  | text : String → Datum
  deriving DecidableEq

def Datum.render : Datum → String
  | .space label size => s!"{label.render}: .space {size}"
  | .quoted label s =>
    let head := label.render ++ ":"
    head ++ blanks (19 - head.length) ++ ".asciiz" ++ blanks 7 ++ s
  | .text s => s

structure Program where
  code : List Line
  data : List Datum
  labels : Nat

namespace Program

def empty : Program := ⟨[], [], 0⟩

def newLabel (p : Program) : Label × Program :=
  (.fresh p.labels, { p with labels := p.labels + 1 })

def append (p : Program) (lines : List Line) : Program := { p with code := p.code ++ lines }

/-- Inserts lines before the one at `pos`, or at the end; there is no place beyond the end. -/
def insert? (p : Program) (pos : Nat) (lines : List Line) : Option Program :=
  if pos ≤ p.code.length then
    some { p with code := p.code.take pos ++ lines ++ p.code.drop pos }
  else none

def appendData (p : Program) (data : List Datum) : Program := { p with data := p.data ++ data }

def codeLines (p : Program) : List String := p.code.map Line.render

def dataLines (p : Program) : List String := p.data.map Datum.render

def constants : List Datum :=
  [.quoted (.constant "newline") "\"\\n\"", .quoted (.constant "floatquery") "\"float?\"",
   .quoted (.constant "intquery") "\"int?\"", .quoted (.constant "trueString") "\"true\"",
   .quoted (.constant "falseString") "\"false\""]

def routines : List Line := Builtin.byName.flatMap fun b => .label b.label :: b.routine

def asmLines (p : Program) : List String :=
  [".data                         # BEGIN Data Segment"] ++ p.dataLines ++
    constants.map Datum.render ++
    ["                              # END Data Segment",
     ".text                         # BEGIN Code Segment"] ++ routines.map Line.render ++
    [".text                         # BEGIN Crux Program"] ++ p.codeLines ++
    ["                              # END Code Segment"]

def render (p : Program) : String := String.join (p.asmLines.map (· ++ "\n"))

end Program

end Crux
