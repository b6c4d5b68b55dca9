import Crux.Binary32
import Crux.Node.Basic

namespace Crux

inductive Reg
  | v0 | a0 | t0 | t1 | t2 | t3 | sp | fp | ra
  | f0 | f1 | f12
  | named : String → Reg
  deriving DecidableEq

def Reg.render : Reg → String
  | .v0 => "$v0"
  | .a0 => "$a0"
  | .t0 => "$t0"
  | .t1 => "$t1"
  | .t2 => "$t2"
  | .t3 => "$t3"
  | .sp => "$sp"
  | .fp => "$fp"
  | .ra => "$ra"
  | .f0 => "$f0"
  | .f1 => "$f1"
  | .f12 => "$f12"
  | .named name => name

inductive Label
  | function : (name : String) → Label
  | epilogue : (function : String) → Label
  /-- A place inside generated code. -/
  | fresh : Nat → Label
  /-- A place inside the routine of a builtin function. -/
  | inside : (routine place : String) → Label
  | global : (name : String) → Label
  | constant : (name : String) → Label
  deriving DecidableEq

namespace Label

/-- The entry of a program bears a name that the loader looks for; all other functions are kept
apart from it. -/
def functionText (name : String) : String := if name = mainName then mainName else s!"func.{name}"

def render : Label → String
  | .function name => functionText name
  | .epilogue name => s!"{functionText name}.epilogue"
  | .fresh n => s!"label.{n}"
  | .inside routine place => s!"label.{routine}.{place}"
  | .global name => s!"cruxdata.{name}"
  | .constant name => s!"data.{name}"

end Label

inductive WordOp
  | add | sub | mul | div | and | or
  deriving DecidableEq

inductive Branch
  | beq | bne | blt | ble | bgt | bge
  deriving DecidableEq

inductive FloatOp
  | add | sub | mul | div
  deriving DecidableEq

inductive FloatTest
  | eq | lt | le
  deriving DecidableEq

inductive Instr
  | li : Reg → Int → Instr
  | liFloat : Reg → Binary32 → Instr
  | la : Reg → Label → Instr
  | load : Reg → (offset : Int) → (base : Reg) → Instr
  | store : Reg → (offset : Int) → (base : Reg) → Instr
  | loadFloat : Reg → (offset : Int) → (base : Reg) → Instr
  | storeFloat : Reg → (offset : Int) → (base : Reg) → Instr
  | binary : WordOp → (target left right : Reg) → Instr
  | binaryFloat : FloatOp → (target left right : Reg) → Instr
  | addi : (target source : Reg) → Int → Instr
  | addu : (target source : Reg) → Int → Instr
  | subu : (target source : Reg) → Int → Instr
  | xori : (target source : Reg) → Int → Instr
  | branch : Branch → (left right : Reg) → Label → Instr
  | branchZero : Reg → Label → Instr
  | testFloat : FloatTest → (left right : Reg) → Instr
  /-- Branches when the condition flag has the value given. -/
  | branchFlag : Bool → Label → Instr
  | jump : Label → Instr
  | jumpLink : Label → Instr
  | jumpTo : Reg → Instr
  | moveBits : (target source : Reg) → Instr
  | syscall
  deriving DecidableEq

def Binary32.immediate (value : Binary32) : String :=
  let text := value.render
  if text.toList.contains '.' then text else text ++ ".0"

namespace Instr

def mnemonic : Instr → String
  | .li .. => "li"
  | .liFloat .. => "li.s"
  | .la .. => "la"
  | .load .. => "lw"
  | .store .. => "sw"
  | .loadFloat .. => "l.s"
  | .storeFloat .. => "s.s"
  | .binary .add .. => "add"
  | .binary .sub .. => "sub"
  | .binary .mul .. => "mul"
  | .binary .div .. => "div"
  | .binary .and .. => "and"
  | .binary .or .. => "or"
  | .binaryFloat .add .. => "add.s"
  | .binaryFloat .sub .. => "sub.s"
  | .binaryFloat .mul .. => "mul.s"
  | .binaryFloat .div .. => "div.s"
  | .addi .. => "addi"
  | .addu .. => "addu"
  | .subu .. => "subu"
  | .xori .. => "xori"
  | .branch .beq .. => "beq"
  | .branch .bne .. => "bne"
  | .branch .blt .. => "blt"
  | .branch .ble .. => "ble"
  | .branch .bgt .. => "bgt"
  | .branch .bge .. => "bge"
  | .branchZero .. => "beqz"
  | .testFloat .eq .. => "c.eq.s"
  | .testFloat .lt .. => "c.lt.s"
  | .testFloat .le .. => "c.le.s"
  | .branchFlag true _ => "bc1t"
  | .branchFlag false _ => "bc1f"
  | .jump .. => "j"
  | .jumpLink .. => "jal"
  | .jumpTo .. => "jr"
  | .moveBits .. => "mfc1"
  | .syscall => "syscall"

def operands : Instr → List String
  | .li r value => [r.render, toString value]
  | .liFloat r value => [r.render, value.immediate]
  | .la r label | .branchZero r label => [r.render, label.render]
  | .load r offset base | .store r offset base | .loadFloat r offset base
  | .storeFloat r offset base => [r.render, s!"{offset}({base.render})"]
  | .binary _ target left right | .binaryFloat _ target left right =>
    [target.render, left.render, right.render]
  | .addi target source value | .addu target source value | .subu target source value
  | .xori target source value => [target.render, source.render, toString value]
  | .branch _ left right label => [left.render, right.render, label.render]
  | .testFloat _ left right => [left.render, right.render]
  | .branchFlag _ label | .jump label | .jumpLink label => [label.render]
  | .jumpTo r => [r.render]
  | .moveBits target source => [target.render, source.render]
  | .syscall => []

end Instr

end Crux
