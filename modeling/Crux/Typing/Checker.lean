import Crux.Node.Basic
import Crux.Ty.Rules
import Std.Data.TreeMap

/-! Type checking. One pass gives every node a type, or every member of a list its type, kept by
the number of the node. A failure is reported where it arises and passed on in silence. -/

namespace Crux

inductive TypeFault
  | variableType : (name : String) → Ty → TypeFault
  | arrayBase : (name : String) → Ty → TypeFault
  | mainSignature
  | voidParameter : (function : String) → (position : Nat) → TypeFault
  | errorParameter : (function : String) → (position : Nat) → (message : String) → TypeFault
  | missingReturn : (function : String) → TypeFault
  | condition : (construct : String) → Ty → TypeFault
  | returned : (function : String) → (declared actual : Ty) → TypeFault

def TypeFault.message : TypeFault → String
  | .variableType name t => s!"Variable {name} has invalid type {t.render}."
  | .arrayBase name t => s!"Array {name} has invalid base type {t.render}."
  | .mainSignature => "Function main has invalid signature."
  | .voidParameter function position =>
    s!"Function {function} has a void argument in position {position}."
  | .errorParameter function position message =>
    s!"Function {function} has an error in argument in position {position}: {message}"
  | .missingReturn function => s!"Not all paths in function {function} have a return."
  | .condition construct t => s!"{construct} requires bool condition not {t.render}."
  | .returned function declared actual =>
    s!"Function {function} returns {declared.render} not {actual.render}."

def Ty.fault (f : TypeFault) : Ty := .error f.message

structure TypeError where
  pos : Position
  message : String
  deriving DecidableEq

def TypeError.render (e : TypeError) : String := s!"TypeError({e.pos.render})[{e.message}]"

/-- What the checks so far have found. A later entry for the same number replaces an earlier one. -/
structure Checker where
  types : Std.TreeMap Nat Ty
  /-- The types of the members of lists. -/
  lists : Std.TreeMap Nat (List Ty)
  errors : List TypeError

namespace Checker

def empty : Checker := ⟨∅, ∅, []⟩

def hasError (c : Checker) : Bool := !c.errors.isEmpty

def errorReport (c : Checker) : String := String.join (c.errors.map fun e => e.render ++ "\n")

def typeOf? (c : Checker) (n : Node) : Option Ty := c.types[n.id]?

def listTypesOf? (c : Checker) (n : Node) : Option (List Ty) := c.lists[n.id]?

end Checker

structure Enclosing where
  name : String
  result : Ty

abbrev Check := StateM Checker

namespace Check

def report (n : Node) (message : String) : Check Unit :=
  modify fun c => { c with errors := c.errors ++ [⟨n.pos, message⟩] }

def record (n : Node) (t : Ty) : Check Ty := do
  modify fun c => { c with types := c.types.insert n.id t }
  return t

/-- Keeps the type of a node, and reports it if it is an error that none of its inputs is. -/
def put (n : Node) (t : Ty) (inputs : List Ty) : Check Ty := do
  match t with
  | .error message => if !inputs.any Ty.isError then report n message
  | _ => pure ()
  record n t

def listTypes (n : Node) : Check (List Ty) := do
  return ((← get).listTypesOf? n).getD []

end Check

namespace Ty

def ofBinary : BinaryOp → Ty → Ty → Ty
  | .add => add
  | .sub => sub
  | .mul => mul
  | .div => div
  | .and => and
  | .or => or

def ofUse (s : Symbol) : Ty := if s.ty.isError then s.ty else .address s.ty

def ofVariable (s : Symbol) : Ty :=
  if s.ty.isError || s.ty.isScalar then s.ty else fault (.variableType s.name s.ty)

def ofArray (s : Symbol) : Ty :=
  let base := s.ty.innermost
  if s.ty.isError || base.isError then base
  else
    match s.ty with
    | .array .. => if base.isScalar then s.ty else fault (.arrayBase s.name base)
    | t => fault (.variableType s.name t)

def ofCondition (construct : String) (condition : Ty) : Ty :=
  passing [condition] <|
    match condition with
    | .bool => .void
    | t => fault (.condition construct t)

def declaredResult : Ty → Ty
  | .func _ result => result
  | t => t

def ofReturn (enclosing : Option Enclosing) (t : Ty) : Ty :=
  match enclosing with
  | some f =>
    if f.name = mainName || t.isError || f.result.isError || t.equivalent f.result then t
    else fault (.returned f.name f.result t)
  | none => t

end Ty

def parameterFault? (function : String) (position : Nat) (param : Symbol) : Option String :=
  match param.ty with
  | .void => some (TypeFault.voidParameter function position).message
  | .error message => some (TypeFault.errorParameter function position message).message
  | _ => none

def headFaults (name : String) (params : List Symbol) (result : Ty) : List String :=
  if name = mainName then
    if result.isVoid && params.isEmpty then [] else [TypeFault.mainSignature.message]
  else
    params.zipIdx.filterMap (fun (param, position) => parameterFault? name position param) ++
      match result with
      | .error message => [message]
      | _ => []

/-- Whether a body of statements of these types gives a result on every path: one of them has the
declared type, or has already failed. -/
def returnsResult (statements : List Ty) (result : Ty) : Bool :=
  statements.any fun t => t.isError || t.equivalent result

def needsResult (name : String) (result : Ty) : Bool :=
  !(name = mainName || result.isVoid || result.isError)

namespace Node

open Check

mutual
def check (enclosing : Option Enclosing) (n : Node) : Check Ty :=
  match n with
  | .int .. => put n .int []
  | .float .. => put n .float []
  | .bool .. => put n .bool []
  | .addressOf _ s => put n (.ofUse s) [s.ty]
  | .dereference _ address => do
    let a ← address.check enclosing
    put n a.dereference [a]
  | .index _ base amount => do
    let b ← base.check enclosing
    let a ← amount.check enclosing
    put n (b.index a) [b, a]
  | .binary _ op left right => do
    let l ← left.check enclosing
    let r ← right.check enclosing
    put n (Ty.ofBinary op l r) [l, r]
  | .compare _ _ left right => do
    let l ← left.check enclosing
    let r ← right.check enclosing
    put n (l.compare r) [l, r]
  | .not _ operand => do
    let t ← operand.check enclosing
    put n t.not [t]
  | .call _ callee arguments => do
    let _ ← arguments.check enclosing
    let args ← listTypes arguments
    put n (callee.ty.call args) (args ++ callee.ty :: callee.ty.signatureError?.toList)
  | .assign _ target source => do
    let t ← target.check enclosing
    let s ← source.check enclosing
    put n (t.assign s) [t, s]
  | .var _ s => put n (.ofVariable s) []
  | .array _ s => put n (.ofArray s) []
  | .function _ s params body => do
    let result := s.ty.declaredResult
    (headFaults s.name params result).forM (report n)
    let _ ← body.check (some ⟨s.name, result⟩)
    let statements ← listTypes body
    if needsResult s.name result && !returnsResult statements result then
      report n (TypeFault.missingReturn s.name).message
    record n s.ty
  | .branch _ condition thenBlock elseBlock => do
    let c ← condition.check enclosing
    let t ← put n (.ofCondition n.title c) [c]
    let _ ← thenBlock.check enclosing
    let _ ← elseBlock.check enclosing
    return t
  | .loop _ condition body => do
    let c ← condition.check enclosing
    let t ← put n (.ofCondition n.title c) [c]
    let _ ← body.check enclosing
    return t
  | .leave _ => put n (.ofReturn enclosing .void) [.void]
  | .leaveWith _ value => do
    let t ← value.check enclosing
    put n (.ofReturn enclosing t) [t]
  | .list _ _ items => do
    let types ← checkAll enclosing items
    modify fun c => { c with lists := c.lists.insert n.id types }
    return .void
  | .error _ message => put n (.error message) []

def checkAll (enclosing : Option Enclosing) : List Node → Check (List Ty)
  | [] => return []
  | n :: rest => do
    let t ← n.check enclosing
    let ts ← checkAll enclosing rest
    return t :: ts
end

end Node

def Checker.check (c : Checker) (root : Node) : Checker := ((root.check none).run c).2

end Crux
