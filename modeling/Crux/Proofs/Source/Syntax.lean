import Crux.Node.Basic
import Crux.Proofs.Source.Word

/-! Abstract programs and their texts. Names and literals are given by the texts that stand for
them, and parentheses stand only where an operand binds looser than its place asks for. -/

namespace Crux

namespace Source

def Word.fixed (k : Kind) (h : k ∈ Kind.fixed := by decide) : Word :=
  ⟨k, k.spelling, Kind.reads_fixed h⟩

structure Name where
  text : String
  isWord : isWord text
  notReserved : Kind.keyword? text = none

def Name.word (x : Name) : Word :=
  ⟨.identifier, x.text, Kind.reads_identifier x.isWord x.notReserved⟩

structure Numeral where
  text : String
  ne_empty : text ≠ ""
  digits : text.toList.all Char.isDigit

def Numeral.word (n : Numeral) : Word := ⟨.integer, n.text, Kind.reads_integer n.ne_empty n.digits⟩

structure Decimal where
  whole : Numeral
  part : String
  digits : part.toList.all Char.isDigit

def Decimal.text (x : Decimal) : String := x.whole.text ++ "." ++ x.part

def Decimal.word (x : Decimal) : Word :=
  ⟨.float, x.text, Kind.reads_float x.whole.ne_empty x.whole.digits x.digits⟩

inductive Literal
  | numeral : Numeral → Literal
  | decimal : Decimal → Literal
  | bool : Bool → Literal

def Literal.word : Literal → Word
  | .numeral n => n.word
  | .decimal x => x.word
  | .bool true => .fixed .kwTrue
  | .bool false => .fixed .kwFalse

inductive Shape
  | value | place | row

inductive Expr : Shape → Type
  | literal : Literal → Expr .value
  | load : Expr .place → Expr .value
  | call : Name → Expr .row → Expr .value
  | not : Expr .value → Expr .value
  | binary : BinaryOp → Expr .value → Expr .value → Expr .value
  | compare : CompareOp → Expr .value → Expr .value → Expr .value
  | name : Name → Expr .place
  | element : Expr .place → Expr .value → Expr .place
  | none : Expr .row
  | next : Expr .value → Expr .row → Expr .row

/-- How tightly an operator binds, between comparisons at 0 and operands at 3. -/
def levelOf : BinaryOp → Nat
  | .add | .sub | .or => 1
  | .mul | .div | .and => 2

def Word.ofBinary : BinaryOp → Word
  | .add => .fixed .add
  | .sub => .fixed .sub
  | .mul => .fixed .mul
  | .div => .fixed .div
  | .and => .fixed .kwAnd
  | .or => .fixed .kwOr

def Word.ofCompare : CompareOp → Word
  | .eq => .fixed .equal
  | .ne => .fixed .notEqual
  | .lt => .fixed .lessThan
  | .le => .fixed .lesserEqual
  | .gt => .fixed .greaterThan
  | .ge => .fixed .greaterEqual

namespace Expr

def level : Expr .value → Nat
  | .compare .. => 0
  | .binary op _ _ => levelOf op
  | .literal _ | .load _ | .call .. | .not _ => 3

/-- The words of an operand, in parentheses if it binds looser than `level`. -/
def operand (level own : Nat) (ws : List Word) : List Word :=
  if own < level then .fixed .openParen :: (ws ++ [.fixed .closeParen]) else ws

def comma : Expr .row → List Word
  | .none => []
  | .next .. => [.fixed .comma]

/-- Operators of one level group to the left, and comparisons do not group. -/
def words {s : Shape} : Expr s → List Word
  | .literal l => [l.word]
  | .load place => place.words
  | .call f args => .fixed .call :: f.word :: .fixed .openParen :: (args.words ++ [.fixed .closeParen])
  | .not e => .fixed .kwNot :: operand 3 e.level e.words
  | .binary op l r =>
    operand (levelOf op) l.level l.words ++ .ofBinary op :: operand (levelOf op + 1) r.level r.words
  | .compare op l r => operand 1 l.level l.words ++ .ofCompare op :: operand 1 r.level r.words
  | .name x => [x.word]
  | .element base amount =>
    base.words ++ .fixed .openBracket :: (amount.words ++ [.fixed .closeBracket])
  | .none => []
  | .next e rest => e.words ++ (rest.comma ++ rest.words)

end Expr

inductive Variable
  | plain : Name → (type : Name) → Variable
  | array : Name → (type : Name) → (first : Numeral) → (others : List Numeral) → Variable

def Numeral.extent (n : Numeral) : List Word :=
  [.fixed .openBracket, n.word, .fixed .closeBracket]

def Variable.words : Variable → List Word
  | .plain x type => [.fixed .kwVar, x.word, .fixed .colon, type.word, .fixed .semicolon]
  | .array x type first others =>
    .fixed .kwArray :: x.word :: .fixed .colon :: type.word ::
      (first.extent ++ (others.flatMap Numeral.extent ++ [.fixed .semicolon]))

inductive Extent
  | one | many

inductive Statement : Extent → Type
  | var : Variable → Statement .one
  | call : Name → Expr .row → Statement .one
  | assign : Expr .place → Expr .value → Statement .one
  | branch : Expr .value → (yes : Statement .many) → Statement .one
  | branchElse : Expr .value → (yes no : Statement .many) → Statement .one
  | loop : Expr .value → (body : Statement .many) → Statement .one
  | leave : Statement .one
  | leaveWith : Expr .value → Statement .one
  | none : Statement .many
  | next : Statement .one → Statement .many → Statement .many

namespace Statement

def block (ws : List Word) : List Word := .fixed .openBrace :: (ws ++ [.fixed .closeBrace])

def words {x : Extent} : Statement x → List Word
  | .var v => v.words
  | .call f args => (Expr.call f args).words ++ [.fixed .semicolon]
  | .assign target source =>
    .fixed .kwLet :: (target.words ++ .fixed .assign :: (source.words ++ [.fixed .semicolon]))
  | .branch c yes => .fixed .kwIf :: (c.words ++ block yes.words)
  | .branchElse c yes no =>
    .fixed .kwIf :: (c.words ++ (block yes.words ++ .fixed .kwElse :: block no.words))
  | .loop c body => .fixed .kwWhile :: (c.words ++ block body.words)
  | .leave => [.fixed .kwReturn, .fixed .semicolon]
  | .leaveWith e => .fixed .kwReturn :: (e.words ++ [.fixed .semicolon])
  | .none => []
  | .next s rest => s.words ++ rest.words

end Statement

structure Parameter where
  name : Name
  type : Name

def Parameter.words (p : Parameter) : List Word := [p.name.word, .fixed .colon, p.type.word]

def Parameter.row : List Parameter → List Word
  | [] => []
  | p :: rest => p.words ++ rest.flatMap fun p => .fixed .comma :: p.words

inductive Declaration
  | var : Variable → Declaration
  | function : Name → List Parameter → (result : Name) → (body : Statement .many) → Declaration

def Declaration.words : Declaration → List Word
  | .var v => v.words
  | .function f params result body =>
    .fixed .kwFunc :: f.word :: .fixed .openParen :: (Parameter.row params ++
      .fixed .closeParen :: .fixed .colon :: result.word :: Statement.block body.words)

abbrev Program := List Declaration

def Program.words (p : Program) : List Word := p.flatMap Declaration.words

def Program.text (p : Program) : String := Word.join p.words

end Source

end Crux
