import Crux.Binary32
import Crux.Position
import Crux.Symbol

namespace Crux

inductive BinaryOp
  | add | sub | mul | div | and | or
  deriving DecidableEq

def BinaryOp.title : BinaryOp → String
  | .add => "Addition"
  | .sub => "Subtraction"
  | .mul => "Multiplication"
  | .div => "Division"
  | .and => "LogicalAnd"
  | .or => "LogicalOr"

inductive CompareOp
  | eq | ne | lt | le | gt | ge
  deriving DecidableEq

def CompareOp.spelling : CompareOp → String
  | .eq => "=="
  | .ne => "!="
  | .lt => "<"
  | .le => "<="
  | .gt => ">"
  | .ge => ">="

inductive ListKind
  | expressions | declarations | statements
  deriving DecidableEq

def ListKind.title : ListKind → String
  | .expressions => "ExpressionList"
  | .declarations => "DeclarationList"
  | .statements => "StatementList"

structure Tag where
  id : Nat
  pos : Position
  deriving DecidableEq

inductive Node
  | int : Tag → (value : Int32) → Node
  | float : Tag → (value : Binary32) → Node
  | bool : Tag → (value : Bool) → Node
  | addressOf : Tag → Symbol → Node
  | dereference : Tag → (address : Node) → Node
  /-- The address of an element, from the address of its array. -/
  | index : Tag → (base amount : Node) → Node
  | binary : Tag → BinaryOp → (left right : Node) → Node
  | compare : Tag → CompareOp → (left right : Node) → Node
  | not : Tag → (operand : Node) → Node
  | call : Tag → (callee : Symbol) → (arguments : Node) → Node
  | assign : Tag → (target source : Node) → Node
  | var : Tag → Symbol → Node
  | array : Tag → Symbol → Node
  | function : Tag → Symbol → (params : List Symbol) → (body : Node) → Node
  | branch : Tag → (condition thenBlock elseBlock : Node) → Node
  | loop : Tag → (condition body : Node) → Node
  | leave : Tag → Node
  | leaveWith : Tag → (value : Node) → Node
  | list : Tag → ListKind → (items : List Node) → Node
  /-- A place where no tree could be built, for the reason given. -/
  | error : Tag → (message : String) → Node

namespace Node

def tag : Node → Tag
  | .int t _ | .float t _ | .bool t _ | .addressOf t _ | .dereference t _ | .index t _ _
  | .binary t _ _ _ | .compare t _ _ _ | .not t _ | .call t _ _ | .assign t _ _ | .var t _
  | .array t _ | .function t _ _ _ | .branch t _ _ _ | .loop t _ _ | .leave t | .leaveWith t _
  | .list t _ _ | .error t _ => t

def id (n : Node) : Nat := n.tag.id

def pos (n : Node) : Position := n.tag.pos

def title : Node → String
  | .int .. => "LiteralInt"
  | .float .. => "LiteralFloat"
  | .bool .. => "LiteralBool"
  | .addressOf .. => "AddressOf"
  | .dereference .. => "Dereference"
  | .index .. => "Index"
  | .binary _ op _ _ => op.title
  | .compare .. => "Comparison"
  | .not .. => "LogicalNot"
  | .call .. => "Call"
  | .assign .. => "Assignment"
  | .var .. => "VariableDeclaration"
  | .array .. => "ArrayDeclaration"
  | .function .. => "FunctionDefinition"
  | .branch .. => "IfElseBranch"
  | .loop .. => "WhileLoop"
  | .leave .. | .leaveWith .. => "Return"
  | .list _ kind _ => kind.title
  | .error .. => "Error"

def render (n : Node) : String := s!"{n.title}[{n.pos.render}]"

def isError : Node → Bool
  | .error .. => true
  | _ => false

def children : Node → List Node
  | .dereference _ a | .not _ a | .call _ _ a | .function _ _ _ a | .leaveWith _ a => [a]
  | .index _ a b | .binary _ _ a b | .compare _ _ a b | .assign _ a b | .loop _ a b => [a, b]
  | .branch _ a b c => [a, b, c]
  | .list _ _ items => items
  | .int .. | .float .. | .bool .. | .addressOf .. | .var .. | .array .. | .leave ..
  | .error .. => []

def symbols : Node → List Symbol
  | .addressOf _ s | .var _ s | .array _ s | .call _ s _ => [s]
  | .function _ s params _ => s :: params
  | _ => []

mutual
def walk (depth : Nat) (n : Node) : List (Nat × Node) :=
  (depth, n) ::
    match n with
    | .dereference _ a | .not _ a | .call _ _ a | .function _ _ _ a | .leaveWith _ a =>
      a.walk (depth + 1)
    | .index _ a b | .binary _ _ a b | .compare _ _ a b | .assign _ a b | .loop _ a b =>
      a.walk (depth + 1) ++ b.walk (depth + 1)
    | .branch _ a b c => a.walk (depth + 1) ++ b.walk (depth + 1) ++ c.walk (depth + 1)
    | .list _ _ items => walkAll (depth + 1) items
    | .int .. | .float .. | .bool .. | .addressOf .. | .var .. | .array .. | .leave ..
    | .error .. => []

def walkAll (depth : Nat) : List Node → List (Nat × Node)
  | [] => []
  | n :: rest => n.walk depth ++ walkAll depth rest
end

def preorder (n : Node) : List Node := (n.walk 0).map (·.2)

theorem walkAll_eq_flatMap (depth : Nat) (items : List Node) :
    walkAll depth items = items.flatMap (walk depth) := by
  induction items with
  | nil => simp [walkAll]
  | cons n rest ih => simp [walkAll, ih]

theorem walk_eq (depth : Nat) (n : Node) :
    n.walk depth = (depth, n) :: n.children.flatMap (walk (depth + 1)) := by
  cases n <;> simp [walk, children, walkAll_eq_flatMap]

def detail? : Node → Option String
  | .int _ value => some (toString value.toInt)
  | .float _ value => some value.render
  | .bool _ value => some (if value then "true" else "false")
  | .addressOf _ s | .var _ s | .array _ s | .call _ s _ => some s.render
  | .function _ s params _ =>
    some (s.render ++ ", [" ++ ", ".intercalate (params.map Symbol.render) ++ "]")
  | .compare _ op _ _ => some op.spelling
  | .error _ message => some message
  | _ => none

def outlineLine (depth : Nat) (n : Node) : String :=
  let detail := (n.detail?.map fun d => s!"({d})").getD ""
  String.ofList (List.replicate (2 * depth) ' ') ++ n.render ++ detail ++ "\n"

def outline (n : Node) : String :=
  String.join ((n.walk 0).map fun (depth, n) => outlineLine depth n)

end Node

end Crux
