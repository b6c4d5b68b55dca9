import Crux.Node.Basic
import Crux.Typing.Checker
import Mathlib.Data.List.Forall2

/-! The typing judgement: which types the parts of a program have. There are no errors among its
rules. A program is well typed if each of its declarations has a type. -/

namespace Crux

def BinaryOp.Joins : BinaryOp → Ty → Prop
  | .add, t | .sub, t | .mul, t | .div, t => t = .int ∨ t = .float
  | .and, t | .or, t => t = .bool

/-- A return statement of the function may give back a value of the type. The entry may give back
anything. -/
def Enclosing.Returns (f : Enclosing) (t : Ty) : Prop := f.name = mainName ∨ t = f.result

def Symbol.IsVariable (s : Symbol) (t : Ty) : Prop := s.type? = some t ∧ t.isScalar

def Symbol.IsArray (s : Symbol) (t : Ty) : Prop :=
  s.type? = some t ∧ (∃ extent element, t = .array extent element) ∧ t.innermost.isScalar

namespace Node

/-- `n.HasType f t`: inside the function `f`, the node has the type `t`. -/
inductive HasType (f : Enclosing) : Node → Ty → Prop
  | int : HasType f (.int g v) .int
  | float : HasType f (.float g v) .float
  | bool : HasType f (.bool g v) .bool
  | addressOf : s.type? = some t → HasType f (.addressOf g s) (.address t)
  | dereference : HasType f a (.address t) → HasType f (.dereference g a) t
  | index : HasType f b (.address (.array extent t)) → HasType f a .int →
      HasType f (.index g b a) (.address t)
  | binary : op.Joins t → HasType f l t → HasType f r t → HasType f (.binary g op l r) t
  | compare : t = .int ∨ t = .float → HasType f l t → HasType f r t →
      HasType f (.compare g op l r) .bool
  | not : HasType f a .bool → HasType f (.not g a) .bool
  | call : s.type? = some (.func params result) → List.Forall₂ (HasType f) args params →
      HasType f (.call g s (.list g' .expressions args)) result
  | assign : HasType f a (.address t) → t.isScalar → HasType f b t → HasType f (.assign g a b) t
  | var : s.IsVariable t → HasType f (.var g s) t
  | array : s.IsArray t → HasType f (.array g s) t
  | branch : HasType f c .bool → List.Forall₂ (HasType f) ys ts → List.Forall₂ (HasType f) zs us →
      HasType f (.branch g c (.list g' .statements ys) (.list g'' .statements zs)) .void
  | loop : HasType f c .bool → List.Forall₂ (HasType f) ys ts →
      HasType f (.loop g c (.list g' .statements ys)) .void
  | leave : f.Returns .void → HasType f (.leave g) .void
  | leaveWith : HasType f v t → f.Returns t → HasType f (.leaveWith g v) t

/-- `n.Declares t`: outside functions, the node declares something of the type `t`. The entry takes
nothing and gives nothing back. A function that gives back a value has a statement of the type of its
result. -/
inductive Declares : Node → Ty → Prop
  | var : s.IsVariable t → Declares (.var g s) t
  | array : s.IsArray t → Declares (.array g s) t
  | function : s.type? = some (.func (params.map Symbol.ty) result) →
      (s.name = mainName → params = [] ∧ result = .void) →
      (∀ p ∈ params, p.ty.isScalar) → result.isScalar ∨ result = .void →
      List.Forall₂ (HasType ⟨s.name, result⟩) items ts → result = .void ∨ result ∈ ts →
      Declares (.function g s params (.list g' .statements items))
        (.func (params.map Symbol.ty) result)

inductive WellTyped : Node → Prop
  | program : (∀ n ∈ items, ∃ t, n.Declares t) → WellTyped (.list g .declarations items)

/-- `root.Gives n t`: in the program, the node has the type `t`. -/
inductive Gives (root : Node) : Node → Ty → Prop
  | declaration : n ∈ root.children → n.Declares t → Gives root n t
  | part : .function g s params body ∈ root.children → s.type? = some (.func ps result) →
      n ∈ body.preorder → n.HasType ⟨s.name, result⟩ t → Gives root n t

end Node

end Crux
