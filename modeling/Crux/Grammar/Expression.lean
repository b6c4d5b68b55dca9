import Crux.Binary32
import Crux.Grammar.Parser

namespace Crux.Parse

def maxInt : Nat := 2147483647

def literalNode (t : Token) (tag : Tag) : Node :=
  match t.kind with
  | .integer =>
    let value := Text.digitsValue t.lexeme.toList
    if value ≤ maxInt then .int tag (Int32.ofNat value)
    else .error tag s!"Integer {t.lexeme} is out of range."
  | .float =>
    match Binary32.read? t.lexeme with
    | some value => .float tag value
    | none => .error tag s!"Malformed float {t.lexeme}."
  | .kwTrue => .bool tag true
  | _ => .bool tag false

/-- Rule `literal := INTEGER | FLOAT | "true" | "false"` -/
def literal : Parse Node := do
  let t ← expect Nonterminal.literal
  node t.pos (literalNode t)

def operatorNode (op : Kind) (left right : Node) (tag : Tag) : Node :=
  match op with
  | .add => .binary tag .add left right
  | .sub => .binary tag .sub left right
  | .kwOr => .binary tag .or left right
  | .mul => .binary tag .mul left right
  | .div => .binary tag .div left right
  | .kwAnd => .binary tag .and left right
  | .greaterEqual => .compare tag .ge left right
  | .lesserEqual => .compare tag .le left right
  | .notEqual => .compare tag .ne left right
  | .equal => .compare tag .eq left right
  | .greaterThan => .compare tag .gt left right
  | _ => .compare tag .lt left right

def operation (level : Nonterminal) (operand : Parse Node) (left : Node) : Parse Node := do
  let op ← expect level
  let right ← operand
  node op.pos (operatorNode op.kind left right)

/-- Rule `expression2 := expression3 { op2 expression3 }` -/
def product (atom : Parse Node) : Parse Node := do
  let left ← atom
  fold Nonterminal.op2 (operation .op2 atom) left

/-- Rule `expression1 := expression2 { op1 expression2 }` -/
def sum (atom : Parse Node) : Parse Node := do
  let left ← product atom
  fold Nonterminal.op1 (operation .op1 (product atom)) left

/-- Rule `expression0 := expression1 [ op0 expression1 ]` -/
def comparison (atom : Parse Node) : Parse Node := do
  let left ← sum atom
  if ← sees Nonterminal.op0 then operation .op0 (sum atom) left
  else return left

def element (expression : Parse Node) (base : Node) : Parse Node := do
  let _ ← expect Kind.openBracket
  let pos ← position
  let amount ← expression
  let _ ← expect Kind.closeBracket
  node pos (.index · base amount)

def place : Parse Node := do
  let ident ← expect Kind.identifier
  let s ← symbol (← resolve ident)
  node ident.pos (.addressOf · s)

/-- Rule `designator := IDENTIFIER { "[" expression0 "]" }`, the address of a variable or of an
element. -/
def designatorOf (expression : Parse Node) : Parse Node := do
  let base ← place
  fold Kind.openBracket (element expression) base

/-- Rule `expression-list := [ expression0 { "," expression0 } ]` -/
def arguments (expression : Parse Node) : Parse Node := do
  let pos ← position
  let items ← commaList Nonterminal.expression0 expression
  node pos (.list · .expressions items)

/-- Rule `call-expression := "::" IDENTIFIER "(" expression-list ")"` -/
def callOf (expression : Parse Node) : Parse Node := do
  let mark ← expect Kind.call
  let ident ← expect Kind.identifier
  let callee ← symbol (← resolve ident)
  let _ ← expect Kind.openParen
  let items ← arguments expression
  let _ ← expect Kind.closeParen
  node mark.pos (.call · callee items)

/-- Rule `expression3 := "not" expression3 | "(" expression0 ")" | designator | call-expression |
literal`, where `atom` reads the expressions of this level that stand inside. -/
def operand (atom : Parse Node) : Parse Node := do
  let pos ← position
  if ← accept .kwNot then
    let inner ← atom
    node pos (.not · inner)
  else if ← accept .openParen then
    let inner ← comparison atom
    let _ ← expect Kind.closeParen
    return inner
  else if ← sees Nonterminal.designator then
    let address ← designatorOf (comparison atom)
    node pos (.dereference · address)
  else if ← sees Nonterminal.callExpression then callOf (comparison atom)
  else if ← sees Nonterminal.literal then literal
  else fail Nonterminal.expression3

def operandAt : (depth : Nat) → Parse Node
  | 0, p => fail Nonterminal.expression3 p
  | depth + 1, p => operand (fun p => operandAt depth p) p

/-- An expression. Every level of nesting takes a token, so the tokens left bound the depth. -/
def expression : Parse Node := fun p => comparison (operandAt (p.later.length + 1)) p

def designator : Parse Node := designatorOf expression

def callExpression : Parse Node := callOf expression

end Crux.Parse
