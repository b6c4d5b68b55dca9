import Crux.Emit.Frame

namespace Crux

structure Assembly where
  program : Program
  frame : Frame

abbrev Emit := EStateM EmitFault Assembly

namespace Emit

variable {α : Type}

def fail (fault : EmitFault) : Emit α := throw fault

def lift : Except EmitFault α → Emit α
  | .ok a => pure a
  | .error fault => fail fault

def lines (code : List Line) : Emit Unit :=
  modify fun a => { a with program := a.program.append code }

def line (l : Line) : Emit Unit := lines [l]

def instr (i : Instr) : Emit Unit := line (.plain i)

def data (d : List Datum) : Emit Unit :=
  modify fun a => { a with program := a.program.appendData d }

def freshLabel : Emit Label :=
  modifyGet fun a => (a.program.newLabel.1, { a with program := a.program.newLabel.2 })

def frame : Emit Frame := do return (← get).frame

def setFrame (f : Frame) : Emit Unit := modify fun a => { a with frame := f }

def place (l : Line) : Emit Nat := do
  line l
  return (← get).program.code.length - 1

def insert (pos : Nat) (code : List Line) : Emit Unit := fun a =>
  match a.program.insert? pos code with
  | some program => .ok () { a with program := program }
  | none => .error (.misplaced pos) a

/-- Puts out the line that a function begins with, and its body. Only then is the size of its frame
known, and the prologue is inserted between them. -/
def headed (l : Line) (body : Emit Unit) : Emit Frame := do
  let pos ← place l
  body
  let f ← frame
  insert (pos + 1) (Asm.prologue f.size.toNat)
  return f

end Emit

end Crux
