import Crux.Ty.Basic

namespace Crux

inductive Clash
  | add : Ty → Ty → Clash
  | sub : Ty → Ty → Clash
  | mul : Ty → Ty → Clash
  | div : Ty → Ty → Clash
  | and : Ty → Ty → Clash
  | or : Ty → Ty → Clash
  | not : Ty → Clash
  | compare : Ty → Ty → Clash
  | dereference : Ty → Clash
  | index : (base amount : Ty) → Clash
  | assign : (target source : Ty) → Clash
  | call : (callee : Ty) → (arguments : List Ty) → Clash

def Clash.message : Clash → String
  | .add a b => s!"Cannot add {a.render} with {b.render}."
  | .sub a b => s!"Cannot subtract {b.render} from {a.render}."
  | .mul a b => s!"Cannot multiply {a.render} with {b.render}."
  | .div a b => s!"Cannot divide {a.render} by {b.render}."
  | .and a b => s!"Cannot compute {a.render} and {b.render}."
  | .or a b => s!"Cannot compute {a.render} or {b.render}."
  | .not a => s!"Cannot negate {a.render}."
  | .compare a b => s!"Cannot compare {a.render} with {b.render}."
  | .dereference a => s!"Cannot dereference {a.render}."
  | .index base amount => s!"Cannot index {base.render} with {amount.render}."
  | .assign target source => s!"Cannot assign {source.render} to {target.render}."
  | .call callee arguments => s!"Cannot call {callee.render} using {Ty.renderList arguments}."

namespace Ty

def clash (c : Clash) : Ty := .error c.message

/-- The first error among `inputs`, and without one the result of the rule. -/
def passing (inputs : List Ty) (rule : Ty) : Ty := (inputs.find? isError).getD rule

def arithmetic (a b : Ty) (c : Clash) : Ty :=
  passing [a, b] <|
    match a, b with
    | .int, .int => .int
    | .float, .float => .float
    | _, _ => clash c

def add (a b : Ty) : Ty := arithmetic a b (.add a b)

def sub (a b : Ty) : Ty := arithmetic a b (.sub a b)

def mul (a b : Ty) : Ty := arithmetic a b (.mul a b)

def div (a b : Ty) : Ty := arithmetic a b (.div a b)

def logical (a b : Ty) (c : Clash) : Ty :=
  passing [a, b] <|
    match a, b with
    | .bool, .bool => .bool
    | _, _ => clash c

def and (a b : Ty) : Ty := logical a b (.and a b)

def or (a b : Ty) : Ty := logical a b (.or a b)

def not (a : Ty) : Ty :=
  passing [a] <|
    match a with
    | .bool => .bool
    | _ => clash (.not a)

def compare (a b : Ty) : Ty :=
  passing [a, b] <|
    match a, b with
    | .int, .int | .float, .float => .bool
    | _, _ => clash (.compare a b)

def dereference (a : Ty) : Ty :=
  passing [a] <|
    match a with
    | .address target => target
    | _ => clash (.dereference a)

def index (base amount : Ty) : Ty :=
  passing [base, amount] <|
    match base, amount with
    | .address (.array _ element), .int => .address element
    | _, _ => clash (.index base amount)

def assign (target source : Ty) : Ty :=
  passing [target, source] <|
    match target with
    | .address t =>
      if t.isScalar && t.equivalent source then source else clash (.assign target source)
    | _ => clash (.assign target source)

def signatureError? : Ty → Option Ty
  | .func params result => (params ++ [result]).find? isError
  | _ => none

def call (callee : Ty) (arguments : List Ty) : Ty :=
  passing (callee :: (callee.signatureError?.toList ++ arguments)) <|
    match callee with
    | .func params result =>
      if equivalentAll params arguments then result else clash (.call callee arguments)
    | _ => clash (.call callee arguments)

end Ty

end Crux
