import Crux.Grammar.Statement

namespace Crux

namespace Parse

/-- Rule `parameter := IDENTIFIER ":" type` -/
def parameter : Parse Symbol := do
  let b ← declare (← expect Kind.identifier)
  let _ ← expect Kind.colon
  setType b (← typeName)
  symbol b

def functionRest (b : Binding) : Parse (List Symbol × Node) := do
  let params ← commaList Nonterminal.parameter parameter
  let _ ← expect Kind.closeParen
  let _ ← expect Kind.colon
  setType b (.func (params.map Symbol.ty) (← typeName))
  let body ← block
  return (params, body)

/-- Rule `function-definition := "func" IDENTIFIER "(" [ parameter { "," parameter } ] ")" ":" type
statement-block` -/
def functionDefinition : Parse Node := do
  let start ← expect Kind.kwFunc
  let b ← declare (← expect Kind.identifier)
  let _ ← expect Kind.openParen
  let (params, body) ← inScope (functionRest b)
  let s ← symbol b
  node start.pos (.function · s params body)

/-- Rule `declaration := variable-declaration | array-declaration | function-definition` -/
def declaration : Parse Node := do
  if ← sees Nonterminal.variableDeclaration then variableDeclaration
  else if ← sees Nonterminal.arrayDeclaration then arrayDeclaration
  else if ← sees Nonterminal.functionDefinition then functionDefinition
  else fail Nonterminal.declaration

/-- Rule `program := { declaration } EOF` -/
def program : Parse Node := do
  let pos ← position
  let items ← many Nonterminal.declaration declaration
  let root ← node pos (.list · .declarations items)
  let _ ← expect Kind.eof
  return root

end Parse

namespace Parser

/-- Reads one program. Where the text leaves the grammar, the tree is a single error node; names,
diagnostics and the tokens not read stay for the next reading. -/
def parse (p : Parser) : Node × Parser :=
  match Parse.program p with
  | .done root p => (root, p)
  | .stuck pos p =>
    (.error ⟨p.nextId, pos⟩ "Could not complete parsing.", { p with nextId := p.nextId + 1 })

end Parser

end Crux
