import Crux.Ty.Basic

namespace Crux

structure Symbol where
  id : Nat
  name : String
  type? : Option Ty
  deriving DecidableEq

def mainName : String := "main"

namespace Symbol

def ty (s : Symbol) : Ty := s.type?.getD (.error s!"Symbol {s.name} has no type.")

def render (s : Symbol) : String :=
  match s.type? with
  | some t => s!"Symbol({s.name}:{t.render})"
  | none => s!"Symbol({s.name})"

end Symbol

inductive Builtin
  | readInt
  | readFloat
  | printBool
  | printInt
  | printFloat
  | println
  deriving DecidableEq

namespace Builtin

def all : List Builtin := [.readInt, .readFloat, .printBool, .printInt, .printFloat, .println]

def byName : List Builtin := [.printBool, .printFloat, .printInt, .println, .readFloat, .readInt]

def name : Builtin → String
  | .readInt => "readInt"
  | .readFloat => "readFloat"
  | .printBool => "printBool"
  | .printInt => "printInt"
  | .printFloat => "printFloat"
  | .println => "println"

def params : Builtin → List Ty
  | .readInt | .readFloat | .println => []
  | .printBool => [.bool]
  | .printInt => [.int]
  | .printFloat => [.float]

def result : Builtin → Ty
  | .readInt => .int
  | .readFloat => .float
  | .printBool | .printInt | .printFloat | .println => .void

def ty (b : Builtin) : Ty := .func b.params b.result

end Builtin

end Crux
