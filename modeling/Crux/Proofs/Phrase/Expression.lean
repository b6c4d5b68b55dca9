import Crux.Grammar.Expression

/-! Phrases of expressions: the tokens of a text arranged by the rules of the grammar. A phrase has
tokens, and it builds the part of a tree that it stands for. Operators of one level group to the
left, so a phrase nests as its tree does. -/

namespace Crux

abbrev TokenOf (e : Expected) := { t : Token // e.admits t.kind }

def startOf : List Token → (stop : Position) → Position
  | [], stop => stop
  | t :: _, _ => t.pos

inductive Form
  | operand | product | sum | comparison
  | designator | call | arguments
  /-- The arguments behind the first one. -/
  | further

abbrev Form.Result : Form → Type
  | .arguments | .further => List Node
  | _ => Node

inductive Phrase : Form → Type
  | literal : TokenOf Nonterminal.literal → Phrase .operand
  | not : TokenOf Kind.kwNot → Phrase .operand → Phrase .operand
  | group : TokenOf Kind.openParen → Phrase .comparison → TokenOf Kind.closeParen → Phrase .operand
  | value : Phrase .designator → Phrase .operand
  | result : Phrase .call → Phrase .operand
  | name : TokenOf Kind.identifier → Phrase .designator
  | element : Phrase .designator → TokenOf Kind.openBracket → Phrase .comparison →
      TokenOf Kind.closeBracket → Phrase .designator
  | call : (mark : TokenOf Kind.call) → (ident : TokenOf Kind.identifier) →
      TokenOf Kind.openParen → Phrase .arguments → TokenOf Kind.closeParen → Phrase .call
  | noArguments : Phrase .arguments
  | arguments : Phrase .comparison → Phrase .further → Phrase .arguments
  | noFurther : Phrase .further
  | further : TokenOf Kind.comma → Phrase .comparison → Phrase .further → Phrase .further
  | factor : Phrase .operand → Phrase .product
  | product : Phrase .product → TokenOf Nonterminal.op2 → Phrase .operand → Phrase .product
  | term : Phrase .product → Phrase .sum
  | sum : Phrase .sum → TokenOf Nonterminal.op1 → Phrase .product → Phrase .sum
  | plain : Phrase .sum → Phrase .comparison
  | comparison : Phrase .sum → TokenOf Nonterminal.op0 → Phrase .sum → Phrase .comparison

namespace Phrase

def tokens {f : Form} : Phrase f → List Token
  | .literal t => [t.val]
  | .not mark inner => mark.val :: inner.tokens
  | .group left inner right => left.val :: (inner.tokens ++ [right.val])
  | .value address => address.tokens
  | .result c => c.tokens
  | .name ident => [ident.val]
  | .element base left amount right => base.tokens ++ left.val :: (amount.tokens ++ [right.val])
  | .call mark ident left args right =>
    mark.val :: ident.val :: left.val :: (args.tokens ++ [right.val])
  | .noArguments => []
  | .arguments first rest => first.tokens ++ rest.tokens
  | .noFurther => []
  | .further comma next rest => comma.val :: (next.tokens ++ rest.tokens)
  | .factor e => e.tokens
  | .product left op right => left.tokens ++ op.val :: right.tokens
  | .term e => e.tokens
  | .sum left op right => left.tokens ++ op.val :: right.tokens
  | .plain e => e.tokens
  | .comparison left op right => left.tokens ++ op.val :: right.tokens

def operation (op : Token) (left : Node) (right : Node × Draft) : Node × Draft :=
  right.2.node op.pos (Parse.operatorNode op.kind left right.1)

def build {f : Form} : Phrase f → Draft → f.Result × Draft
  | .literal t, d => d.node t.val.pos (Parse.literalNode t)
  | .not mark inner, d =>
    let (n, d) := inner.build d
    d.node mark.val.pos (.not · n)
  | .group _ inner _, d => inner.build d
  | .value address, d =>
    let (n, d) := address.build d
    d.node (startOf address.tokens .start) (.dereference · n)
  | .result c, d => c.build d
  | .name ident, d =>
    let (b, d) := d.resolve ident
    d.node ident.val.pos (.addressOf · (d.symbol b))
  | .element base _ amount right, d =>
    let (b, d) := base.build d
    let (a, d) := amount.build d
    d.node (startOf amount.tokens right.val.pos) (.index · b a)
  | .call mark ident _ args right, d =>
    let (b, d) := d.resolve ident
    let callee := d.symbol b
    let (items, d) := args.build d
    let (items, d) := d.node (startOf args.tokens right.val.pos) (.list · .expressions items)
    d.node mark.val.pos (.call · callee items)
  | .noArguments, d => ([], d)
  | .arguments first rest, d =>
    let (n, d) := first.build d
    let (ns, d) := rest.build d
    (n :: ns, d)
  | .noFurther, d => ([], d)
  | .further _ next rest, d =>
    let (n, d) := next.build d
    let (ns, d) := rest.build d
    (n :: ns, d)
  | .factor e, d => e.build d
  | .product left op right, d =>
    let (l, d) := left.build d
    operation op l (right.build d)
  | .term e, d => e.build d
  | .sum left op right, d =>
    let (l, d) := left.build d
    operation op l (right.build d)
  | .plain e, d => e.build d
  | .comparison left op right, d =>
    let (l, d) := left.build d
    operation op l (right.build d)

end Phrase

end Crux
