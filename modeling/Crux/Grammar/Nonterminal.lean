import Crux.Token.Basic

/-! Nonterminals of the grammar and the kinds of token that can begin them. One token decides
between the alternatives of every rule. -/

namespace Crux

inductive Nonterminal
  | op0 | op1 | op2
  | literal | designator | typeName
  | callExpression
  | expression3 | expression2 | expression1 | expression0 | expressionList
  | parameter | parameterList
  | variableDeclaration | arrayDeclaration | functionDefinition
  | declaration | declarationList | program
  | statement | statementList | statementBlock
  | callStatement | assignmentStatement | ifStatement | whileStatement | returnStatement
  deriving DecidableEq

namespace Nonterminal

def all : List Nonterminal :=
  [.op0, .op1, .op2, .literal, .designator, .typeName, .callExpression, .expression3, .expression2,
   .expression1, .expression0, .expressionList, .parameter, .parameterList, .variableDeclaration,
   .arrayDeclaration, .functionDefinition, .declaration, .declarationList, .program, .statement,
   .statementList, .statementBlock, .callStatement, .assignmentStatement, .ifStatement,
   .whileStatement, .returnStatement]

def title : Nonterminal → String
  | .op0 => "Op0"
  | .op1 => "Op1"
  | .op2 => "Op2"
  | .literal => "Literal"
  | .designator => "Designator"
  | .typeName => "Type"
  | .callExpression => "CallExpression"
  | .expression3 => "Expression3"
  | .expression2 => "Expression2"
  | .expression1 => "Expression1"
  | .expression0 => "Expression0"
  | .expressionList => "ExpressionList"
  | .parameter => "Parameter"
  | .parameterList => "ParameterList"
  | .variableDeclaration => "VariableDeclaration"
  | .arrayDeclaration => "ArrayDeclaration"
  | .functionDefinition => "FunctionDefinition"
  | .declaration => "Declaration"
  | .declarationList => "DeclarationList"
  | .program => "Program"
  | .statement => "Statement"
  | .statementList => "StatementList"
  | .statementBlock => "StatementBlock"
  | .callStatement => "CallStatement"
  | .assignmentStatement => "AssignmentStatement"
  | .ifStatement => "IfStatement"
  | .whileStatement => "WhileStatement"
  | .returnStatement => "ReturnStatement"

def name (n : Nonterminal) : String := Text.screaming n.title

def first : Nonterminal → List Kind
  | .op0 => [.greaterEqual, .lesserEqual, .notEqual, .equal, .greaterThan, .lessThan]
  | .op1 => [.add, .sub, .kwOr]
  | .op2 => [.mul, .div, .kwAnd]
  | .literal => [.integer, .float, .kwTrue, .kwFalse]
  | .designator | .typeName | .parameter | .parameterList => [.identifier]
  | .callExpression | .callStatement => [.call]
  | .expression3 | .expression2 | .expression1 | .expression0 | .expressionList =>
    [.kwNot, .openParen, .identifier, .call, .integer, .float, .kwTrue, .kwFalse]
  | .variableDeclaration => [.kwVar]
  | .arrayDeclaration => [.kwArray]
  | .functionDefinition => [.kwFunc]
  | .declaration | .declarationList => [.kwVar, .kwArray, .kwFunc]
  | .program => [.kwVar, .kwArray, .kwFunc, .eof]
  | .statement | .statementList =>
    [.kwVar, .kwArray, .call, .kwLet, .kwIf, .kwWhile, .kwReturn]
  | .statementBlock => [.openBrace]
  | .assignmentStatement => [.kwLet]
  | .ifStatement => [.kwIf]
  | .whileStatement => [.kwWhile]
  | .returnStatement => [.kwReturn]

end Nonterminal

inductive Expected
  | token : Kind → Expected
  | begins : Nonterminal → Expected
  deriving DecidableEq

namespace Expected

def admits : Expected → Kind → Bool
  | .token k, kind => k = kind
  | .begins n, kind => kind ∈ n.first

def render : Expected → String
  | .token k => k.name
  | .begins n => s!"a token from {n.name}"

end Expected

instance : Coe Kind Expected := ⟨.token⟩

instance : Coe Nonterminal Expected := ⟨.begins⟩

end Crux
