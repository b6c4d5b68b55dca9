import Crux.Asm.Instr

namespace Crux

structure Spacing where
  width : Nat
  gap : Nat
  deriving DecidableEq

namespace Spacing

def plain : Spacing := ⟨0, 1⟩

def aligned : Spacing := ⟨4, 1⟩

end Spacing

inductive Edge
  | opening | closing
  deriving DecidableEq

inductive Line
  | instr : Instr → Spacing → Line
  | label : Label → Line
  /-- A comment at an end of the code of a node. -/
  | mark : Edge → (node : String) → Line
  | text : String → Line
  deriving DecidableEq

def blanks (n : Nat) : String := String.ofList (List.replicate n ' ')

def Instr.render (i : Instr) (spacing : Spacing) : String :=
  match i.operands with
  | [] => i.mnemonic
  | operands =>
    i.mnemonic ++ blanks (spacing.width - i.mnemonic.length) ++ " " ++
      ("," ++ blanks spacing.gap).intercalate operands

namespace Line

def render : Line → String
  | .instr i spacing => i.render spacing
  | .label l => l.render ++ ":"
  | .mark .opening node => blanks 18 ++ "#begin " ++ node
  | .mark .closing node => blanks 20 ++ "#end " ++ node
  | .text s => s

def plain (i : Instr) : Line := .instr i .plain

def aligned (i : Instr) : Line := .instr i .aligned

end Line

namespace Asm

open Instr

def pushInt (r : Reg) : List Line := [.plain (subu .sp .sp 4), .plain (store r 0 .sp)]

def pushFloat (r : Reg) : List Line := [.plain (subu .sp .sp 4), .plain (storeFloat r 0 .sp)]

def popInt (r : Reg) : List Line := [.plain (load r 0 .sp), .plain (addi .sp .sp 4)]

def popFloat (r : Reg) : List Line := [.plain (loadFloat r 0 .sp), .plain (addi .sp .sp 4)]

def prologue (size : Nat) : List Line :=
  [.aligned (subu .sp .sp 8), .aligned (store .fp 0 .sp), .aligned (store .ra 4 .sp),
   .aligned (addi .fp .sp 8), .aligned (subu .sp .sp size)]

def epilogue (size : Nat) : List Line :=
  [.aligned (addu .sp .sp size), .aligned (load .ra 4 .sp), .aligned (load .fp 0 .sp),
   .aligned (addu .sp .sp 8)]

def backToCaller : List Line := [.aligned (jumpTo .ra)]

def exitProgram : List Line := [.instr (li .v0 10) ⟨5, 1⟩, .plain syscall]

end Asm

end Crux
