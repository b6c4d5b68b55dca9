import Crux.Emit.Basic

/-! The code of a tree, for a stack machine: operands are pushed from left to right, and an operator
pops the right one first. Types come from a table by the numbers of nodes. -/

namespace Crux

open Instr Asm

def BinaryOp.wordForm : BinaryOp → WordOp
  | .add => .add
  | .sub => .sub
  | .mul => .mul
  | .div => .div
  | .and => .and
  | .or => .or

def BinaryOp.floatForm? : BinaryOp → Option FloatOp
  | .add => some .add
  | .sub => some .sub
  | .mul => some .mul
  | .div => some .div
  | .and | .or => none

def CompareOp.branchForm : CompareOp → Branch
  | .eq => .beq
  | .ne => .bne
  | .lt => .blt
  | .le => .ble
  | .gt => .bgt
  | .ge => .bge

namespace Emit

def typeOf (types : Nat → Option Ty) (n : Node) : Emit Ty :=
  match types n.id with
  | some t => pure t
  | none => fail (.noType n)

def isFloat (types : Nat → Option Ty) (n : Node) : Emit Bool := do
  return (← typeOf types n).isFloat

def loadThrough (float : Bool) : List Line :=
  if float then .plain (loadFloat .f0 0 .t1) :: pushFloat .f0
  else .plain (load .t1 0 .t1) :: pushInt .t1

def storeThrough (float : Bool) : List Line :=
  if float then popFloat .f0 ++ popInt .t2 ++ [.plain (storeFloat .f0 0 .t2)]
  else popInt .t1 ++ popInt .t2 ++ [.plain (store .t1 0 .t2)]

def indexCode (bytes : Nat) : List Line :=
  popInt .t2 ++ popInt .t1 ++
    [.plain (li .t3 bytes), .plain (binary .mul .t2 .t2 .t3), .plain (binary .add .t1 .t1 .t2)] ++
    pushInt .t1

def binaryCode (op : BinaryOp) : List Line :=
  popInt .t1 ++ popInt .t0 ++ [.plain (binary op.wordForm .t0 .t0 .t1)] ++ pushInt .t0

def binaryFloatCode (op : FloatOp) : List Line :=
  popFloat .f1 ++ popFloat .f0 ++ [.plain (binaryFloat op .f0 .f0 .f1)] ++ pushFloat .f0

/-- The test that decides a comparison of floats. Only three tests exist: the others swap their
operands or branch on the opposite outcome. -/
def floatTest : CompareOp → Instr
  | .eq | .ne => testFloat .eq .f0 .f1
  | .lt => testFloat .lt .f0 .f1
  | .le => testFloat .le .f0 .f1
  | .gt => testFloat .lt .f1 .f0
  | .ge => testFloat .le .f1 .f0

def branchWhen (op : CompareOp) (float : Bool) (yes : Label) : List Line :=
  if float then
    popFloat .f1 ++ popFloat .f0 ++ [.plain (floatTest op), .plain (branchFlag (op ≠ .ne) yes)]
  else popInt .t1 ++ popInt .t0 ++ [.plain (branch op.branchForm .t0 .t1 yes)]

def compareCode (op : CompareOp) (float : Bool) (yes no join : Label) : List Line :=
  branchWhen op float yes ++
    [.plain (jump no), .label yes, .plain (li .t0 1), .plain (jump join), .label no,
     .plain (li .t0 0), .label join] ++ pushInt .t0

def callCode (callee : Symbol) (count : Nat) : List Line :=
  let drop := if count = 0 then [] else [.plain (addi .sp .sp (count * Ty.wordSize : Nat))]
  let result :=
    match callee.ty with
    | .func _ .void => []
    | .func .. => pushInt .v0
    | _ => []
  .plain (jumpLink (.function callee.name)) :: drop ++ result

def ending (name : String) : List Line :=
  if name = mainName then exitProgram else backToCaller

def isMarked : Node → Bool
  | .var .. | .array .. => false
  | _ => true

def marked (n : Node) (x : Emit Unit) : Emit Unit :=
  if isMarked n then do
    line (.mark .opening n.render)
    x
    line (.mark .closing n.render)
  else x

def dropResult (types : Nat → Option Ty) (n : Node) : Emit Unit :=
  match n with
  | .call .. => do
    let t ← typeOf types n
    if t.isVoid then pure () else lines (popInt .t1)
  | _ => pure ()

end Emit

namespace Node

open Emit

mutual
def emit (types : Nat → Option Ty) (n : Node) : Emit Unit :=
  marked n <|
    match n with
    | .int _ value => lines (.plain (li .t1 value.toInt) :: pushInt .t1)
    | .float _ value => lines (.plain (liFloat .f0 value) :: pushFloat .f0)
    | .bool _ value => lines (.plain (li .t1 (if value then 1 else 0)) :: pushInt .t1)
    | .addressOf _ s => do
      instr ((← frame).address .t1 s)
      lines (pushInt .t1)
    | .dereference _ address => do
      address.emit types
      lines (popInt .t1)
      lines (loadThrough (← isFloat types n))
    | .index _ base amount => do
      base.emit types
      amount.emit types
      match ← typeOf types n with
      | .address element => lines (indexCode (← lift element.bytes).toNat)
      | t => fail (.noElement t)
    | .binary _ op left right => do
      left.emit types
      right.emit types
      if ← isFloat types n then
        match op.floatForm? with
        | some op => lines (binaryFloatCode op)
        | none => fail (.noFloatForm n)
      else lines (binaryCode op)
    | .compare _ op left right => do
      left.emit types
      right.emit types
      let yes ← freshLabel
      let no ← freshLabel
      let join ← freshLabel
      lines (compareCode op (← isFloat types left) yes no join)
    | .not _ operand => do
      operand.emit types
      lines (popInt .t0 ++ .plain (xori .t0 .t0 1) :: pushInt .t0)
    | .call _ callee arguments => do
      arguments.emit types
      lines (callCode callee arguments.children.length)
    | .assign _ target source => do
      target.emit types
      source.emit types
      lines (storeThrough (← isFloat types source))
    | .var _ s | .array _ s => do
      let (f, d) ← lift ((← frame).add s)
      data d
      setFrame f
    | .function _ s params body => do
      let outer ← frame
      setFrame []
      setFrame (← lift (outer.enter s.name params))
      let f ← headed (.label (.function s.name)) (body.emit types)
      line (.label (.epilogue s.name))
      lines (epilogue f.size.toNat ++ ending s.name)
      setFrame f.leave
    | .branch _ condition thenBlock elseBlock => do
      let otherwise ← freshLabel
      let exit ← freshLabel
      condition.emit types
      lines (popInt .t0 ++ [.plain (branchZero .t0 otherwise)])
      thenBlock.emit types
      lines [.plain (jump exit), .label otherwise]
      elseBlock.emit types
      line (.label exit)
    | .loop _ condition body => do
      let again ← freshLabel
      let exit ← freshLabel
      line (.label again)
      condition.emit types
      lines (popInt .t0 ++ [.plain (branchZero .t0 exit)])
      body.emit types
      lines [.plain (jump again), .label exit]
    | .leave _ => do instr (jump (.epilogue ((← frame).name?.getD mainName)))
    | .leaveWith _ value => do
      value.emit types
      lines (popInt .v0)
      instr (jump (.epilogue ((← frame).name?.getD mainName)))
    | .list _ .statements items => emitStatements types items
    | .list _ .expressions items | .list _ .declarations items => emitAll types items
    | .error .. => fail (.errorNode n)

def emitAll (types : Nat → Option Ty) : List Node → Emit Unit
  | [] => pure ()
  | n :: rest => do
    n.emit types
    emitAll types rest

def emitStatements (types : Nat → Option Ty) : List Node → Emit Unit
  | [] => pure ()
  | n :: rest => do
    n.emit types
    dropResult types n
    emitStatements types rest
end

end Node

end Crux
