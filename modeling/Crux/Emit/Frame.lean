import Crux.Asm.Program

/-! Frames: where variables live while the code of a function is made. Outside all functions they
live in the data segment. Inside a function the arguments lie at and above the frame pointer, the
last one lowest, and the local variables below the two saved registers. -/

namespace Crux

inductive EmitFault
  | noSize : Ty → EmitFault
  | noType : Node → EmitFault
  | noElement : Ty → EmitFault
  | noFloatForm : Node → EmitFault
  | errorNode : Node → EmitFault
  | misplaced : (pos : Nat) → EmitFault

def EmitFault.message : EmitFault → String
  | .noSize t => s!"No size known for {t.render}."
  | .noType n => s!"No type recorded for {n.render}."
  | .noElement t => s!"Cannot index into {t.render}."
  | .noFloatForm n => s!"No float form of {n.render}."
  | .errorNode n => s!"CodeGen cannot compile a {n.render}."
  | .misplaced pos => s!"No place for code at {pos}."

def Ty.bytes (t : Ty) : Except EmitFault UInt64 :=
  match t.size? with
  | some n => .ok n
  | none => .error (.noSize t)

abbrev Slots := List (Nat × UInt64)

structure Record where
  name : String
  size : UInt64
  /-- Distances of local variables below the frame pointer. -/
  locals : Slots
  /-- Distances of arguments above the frame pointer. -/
  arguments : Slots
  deriving DecidableEq

def savedBytes : Nat := 8

/-- Places of arguments and the bytes they take together. The last one has place 0. -/
def argumentSlots : List Symbol → Except EmitFault (Slots × UInt64)
  | [] => .ok ([], 0)
  | p :: rest => do
    let (slots, offset) ← argumentSlots rest
    let bytes ← p.ty.bytes
    return ((p.id, offset) :: slots, offset + bytes)

abbrev Frame := List Record

namespace Frame

def enter (f : Frame) (name : String) (params : List Symbol) : Except EmitFault Frame := do
  let (arguments, _) ← argumentSlots params
  return ⟨name, 0, [], arguments⟩ :: f

def leave (f : Frame) : Frame := f.tail

def name? (f : Frame) : Option String := f.head?.map Record.name

def size (f : Frame) : UInt64 := (f.head?.map Record.size).getD 0

/-- Makes room for a declared variable: in the data segment, or below the variables before it. -/
def add (f : Frame) (s : Symbol) : Except EmitFault (Frame × List Datum) := do
  let bytes ← s.ty.bytes
  match f with
  | [] => return ([], [.space (.global s.name) bytes.toNat])
  | r :: rest =>
    let size := r.size + bytes
    let offset := size + .ofNat savedBytes
    return ({ r with size := size, locals := (s.id, offset) :: r.locals } :: rest, [])

def address : Frame → Reg → Symbol → Instr
  | [], reg, s => .la reg (.global s.name)
  | r :: rest, reg, s =>
    match r.arguments.lookup s.id with
    | some offset => .addi reg .fp offset.toNat
    | none =>
      match r.locals.lookup s.id with
      | some offset => .addi reg .fp (-offset.toNat)
      | none => address rest reg s

end Frame

end Crux
