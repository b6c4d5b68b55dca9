import Crux.Position
import Crux.Text.Json

namespace Crux

namespace Text

def screamingChars : List Char → List Char
  | [] => []
  | [c] => [c.toUpper]
  | c :: d :: rest =>
    if d.isUpper then c.toUpper :: '_' :: screamingChars (d :: rest)
    else c.toUpper :: screamingChars (d :: rest)

def screaming (word : String) : String := String.ofList (screamingChars word.toList)

end Text

inductive Kind
  | kwAnd | kwOr | kwNot | kwLet | kwVar | kwArray | kwFunc | kwIf | kwElse | kwWhile
  | kwTrue | kwFalse | kwReturn
  | add | sub | mul | div
  | greaterEqual | lesserEqual | notEqual | equal | greaterThan | lessThan
  | assign | comma | semicolon | colon | call
  | openParen | closeParen | openBrace | closeBrace | openBracket | closeBracket
  | identifier | integer | float | error | eof
  deriving DecidableEq

namespace Kind

def keywords : List Kind :=
  [.kwAnd, .kwOr, .kwNot, .kwLet, .kwVar, .kwArray, .kwFunc, .kwIf, .kwElse, .kwWhile, .kwTrue,
   .kwFalse, .kwReturn]

def marks : List Kind :=
  [.add, .sub, .mul, .div, .greaterEqual, .lesserEqual, .notEqual, .equal, .greaterThan, .lessThan,
   .assign, .comma, .semicolon, .colon, .call, .openParen, .closeParen, .openBrace, .closeBrace,
   .openBracket, .closeBracket]

def fixed : List Kind := keywords ++ marks

def varying : List Kind := [.identifier, .integer, .float, .error, .eof]

def all : List Kind := fixed ++ varying

def spelling : Kind → String
  | .kwAnd => "and"
  | .kwOr => "or"
  | .kwNot => "not"
  | .kwLet => "let"
  | .kwVar => "var"
  | .kwArray => "array"
  | .kwFunc => "func"
  | .kwIf => "if"
  | .kwElse => "else"
  | .kwWhile => "while"
  | .kwTrue => "true"
  | .kwFalse => "false"
  | .kwReturn => "return"
  | .add => "+"
  | .sub => "-"
  | .mul => "*"
  | .div => "/"
  | .greaterEqual => ">="
  | .lesserEqual => "<="
  | .notEqual => "!="
  | .equal => "=="
  | .greaterThan => ">"
  | .lessThan => "<"
  | .assign => "="
  | .comma => ","
  | .semicolon => ";"
  | .colon => ":"
  | .call => "::"
  | .openParen => "("
  | .closeParen => ")"
  | .openBrace => "\x7b"
  | .closeBrace => "\x7d"
  | .openBracket => "["
  | .closeBracket => "]"
  | .identifier | .integer | .float | .error | .eof => ""

def title : Kind → String
  | .kwAnd => "And"
  | .kwOr => "Or"
  | .kwNot => "Not"
  | .kwLet => "Let"
  | .kwVar => "Var"
  | .kwArray => "Array"
  | .kwFunc => "Func"
  | .kwIf => "If"
  | .kwElse => "Else"
  | .kwWhile => "While"
  | .kwTrue => "True"
  | .kwFalse => "False"
  | .kwReturn => "Return"
  | .add => "Add"
  | .sub => "Sub"
  | .mul => "Mul"
  | .div => "Div"
  | .greaterEqual => "GreaterEqual"
  | .lesserEqual => "LesserEqual"
  | .notEqual => "NotEqual"
  | .equal => "Equal"
  | .greaterThan => "GreaterThan"
  | .lessThan => "LessThan"
  | .assign => "Assign"
  | .comma => "Comma"
  | .semicolon => "Semicolon"
  | .colon => "Colon"
  | .call => "Call"
  | .openParen => "OpenParen"
  | .closeParen => "CloseParen"
  | .openBrace => "OpenBrace"
  | .closeBrace => "CloseBrace"
  | .openBracket => "OpenBracket"
  | .closeBracket => "CloseBracket"
  | .identifier => "Identifier"
  | .integer => "Integer"
  | .float => "Float"
  | .error => "Error"
  | .eof => "Eof"

def name (k : Kind) : String := Text.screaming k.title

def isKeyword (k : Kind) : Bool := k ∈ keywords

def keyword? (text : String) : Option Kind := keywords.find? (·.spelling = text)

end Kind

structure Token where
  kind : Kind
  lexeme : String
  pos : Position
  deriving DecidableEq

namespace Token

def fixed (kind : Kind) (pos : Position) : Token := ⟨kind, kind.spelling, pos⟩

def eof (pos : Position) : Token := ⟨.eof, "", pos⟩

def detail (t : Token) : String :=
  match t.kind with
  | .identifier | .integer | .float => s!"({t.lexeme})"
  | .error => s!"(Unexpected character: {t.lexeme})"
  | _ => ""

def render (t : Token) : String :=
  s!"{t.kind.name}{t.detail}(lineNum:{t.pos.line}, charPos:{t.pos.column})"

def toJson (t : Token) : Text.Json :=
  .obj [("kind", .str t.kind.title), ("lexeme", .str t.lexeme),
    ("position", .obj [("line", .num t.pos.line), ("column", .num t.pos.column)])]

end Token

end Crux
