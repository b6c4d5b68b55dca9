import Crux.Grammar.Expression

namespace Crux.Parse

/-- Rule `type := IDENTIFIER` -/
def typeName : Parse Ty := do
  let ident ← expect Nonterminal.typeName
  return .ofName ident.lexeme

/-- Rule `variable-declaration := "var" IDENTIFIER ":" type ";"` -/
def variableDeclaration : Parse Node := do
  let start ← expect Kind.kwVar
  let b ← declare (← expect Kind.identifier)
  let _ ← expect Kind.colon
  setType b (← typeName)
  let _ ← expect Kind.semicolon
  let s ← symbol b
  node start.pos (.var · s)

def maxExtent : Nat := 18446744073709551615

def arrayOf (extent : Token) (element : Ty) : Ty :=
  let n := Text.digitsValue extent.lexeme.toList
  if n ≤ maxExtent then .array n element
  else .error s!"Array extent {extent.lexeme} is out of range."

def extent : Parse Token := do
  let _ ← expect Kind.openBracket
  let t ← expect Kind.integer
  let _ ← expect Kind.closeBracket
  return t

/-- Rule `array-declaration := "array" IDENTIFIER ":" type "[" INTEGER "]" { "[" INTEGER "]" } ";"`,
the first extent being the outermost. -/
def arrayDeclaration : Parse Node := do
  let start ← expect Kind.kwArray
  let b ← declare (← expect Kind.identifier)
  let _ ← expect Kind.colon
  let base ← typeName
  let first ← extent
  let rest ← many Kind.openBracket extent
  let _ ← expect Kind.semicolon
  setType b ((first :: rest).foldr arrayOf base)
  let s ← symbol b
  node start.pos (.array · s)

/-- Rule `call-statement := call-expression ";"` -/
def callStatement : Parse Node := do
  let call ← callExpression
  let _ ← expect Kind.semicolon
  return call

/-- Rule `assignment-statement := "let" designator "=" expression0 ";"` -/
def assignment : Parse Node := do
  let start ← expect Kind.kwLet
  let target ← designator
  let _ ← expect Kind.assign
  let source ← expression
  let _ ← expect Kind.semicolon
  node start.pos (.assign · target source)

/-- Rule `return-statement := "return" [ expression0 ] ";"` -/
def returnStatement : Parse Node := do
  let start ← expect Kind.kwReturn
  if ← sees Nonterminal.expression0 then
    let value ← expression
    let _ ← expect Kind.semicolon
    node start.pos (.leaveWith · value)
  else
    let _ ← expect Kind.semicolon
    node start.pos .leave

/-- Rule `statement-block := "{" { statement } "}"` -/
def blockOf (statement : Parse Node) : Parse Node := do
  let _ ← expect Kind.openBrace
  let pos ← position
  let items ← many Nonterminal.statement statement
  let block ← node pos (.list · .statements items)
  let _ ← expect Kind.closeBrace
  return block

/-- Rule `if-statement := "if" expression0 statement-block [ "else" statement-block ]`, where a
missing alternative is an empty block. -/
def ifStatement (statement : Parse Node) : Parse Node := do
  let start ← expect Kind.kwIf
  let condition ← expression
  let thenBlock ← inScope (blockOf statement)
  let elseBlock ←
    if ← accept .kwElse then inScope (blockOf statement)
    else do node (← position) (.list · .statements [])
  node start.pos (.branch · condition thenBlock elseBlock)

/-- Rule `while-statement := "while" expression0 statement-block` -/
def whileStatement (statement : Parse Node) : Parse Node := do
  let start ← expect Kind.kwWhile
  let condition ← expression
  let body ← inScope (blockOf statement)
  node start.pos (.loop · condition body)

/-- Rule `statement := variable-declaration | array-declaration | call-statement |
assignment-statement | if-statement | while-statement | return-statement`, where `inner` reads the
statements of the blocks inside. -/
def statementOf (inner : Parse Node) : Parse Node := do
  if ← sees Nonterminal.variableDeclaration then variableDeclaration
  else if ← sees Nonterminal.arrayDeclaration then arrayDeclaration
  else if ← sees Nonterminal.callStatement then callStatement
  else if ← sees Nonterminal.assignmentStatement then assignment
  else if ← sees Nonterminal.ifStatement then ifStatement inner
  else if ← sees Nonterminal.whileStatement then whileStatement inner
  else if ← sees Nonterminal.returnStatement then returnStatement
  else fail Nonterminal.statement

def statementAt : (depth : Nat) → Parse Node
  | 0, p => fail Nonterminal.statement p
  | depth + 1, p => statementOf (fun p => statementAt depth p) p

/-- A block of statements. Every level of nesting takes a token, so the tokens left bound the
depth. -/
def block : Parse Node := fun p => blockOf (statementAt (p.later.length + 1)) p

end Crux.Parse
