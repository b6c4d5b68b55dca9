import Crux.Grammar.Statement
import Crux.Proofs.Phrase.Expression

namespace Crux

def Draft.declareAs (ident : Token) (t : Ty) (d : Draft) : Symbol × Draft :=
  let (b, d) := d.declare ident
  let d := d.setType b t
  (d.symbol b, d)

structure VariablePhrase where
  start : TokenOf Kind.kwVar
  ident : TokenOf Kind.identifier
  colon : TokenOf Kind.colon
  type : TokenOf Nonterminal.typeName
  stop : TokenOf Kind.semicolon

namespace VariablePhrase

def tokens (v : VariablePhrase) : List Token :=
  [v.start.val, v.ident.val, v.colon.val, v.type.val, v.stop.val]

def ty (v : VariablePhrase) : Ty := .ofName v.type.val.lexeme

def build (v : VariablePhrase) (d : Draft) : Node × Draft :=
  let (s, d) := d.declareAs v.ident v.ty
  d.node v.start.val.pos (.var · s)

end VariablePhrase

structure ExtentPhrase where
  left : TokenOf Kind.openBracket
  size : TokenOf Kind.integer
  right : TokenOf Kind.closeBracket

def ExtentPhrase.tokens (e : ExtentPhrase) : List Token := [e.left.val, e.size.val, e.right.val]

structure ArrayPhrase where
  start : TokenOf Kind.kwArray
  ident : TokenOf Kind.identifier
  colon : TokenOf Kind.colon
  type : TokenOf Nonterminal.typeName
  first : ExtentPhrase
  rest : List ExtentPhrase
  stop : TokenOf Kind.semicolon

namespace ArrayPhrase

def tokens (a : ArrayPhrase) : List Token :=
  a.start.val :: a.ident.val :: a.colon.val :: a.type.val ::
    (a.first.tokens ++ (a.rest.flatMap ExtentPhrase.tokens ++ [a.stop.val]))

def ty (a : ArrayPhrase) : Ty :=
  ((a.first :: a.rest).map (·.size.val)).foldr Parse.arrayOf (.ofName a.type.val.lexeme)

def build (a : ArrayPhrase) (d : Draft) : Node × Draft :=
  let (s, d) := d.declareAs a.ident a.ty
  d.node a.start.val.pos (.array · s)

end ArrayPhrase

inductive StatementForm
  | statement | statements | block

abbrev StatementForm.Result : StatementForm → Type
  | .statements => List Node
  | _ => Node

inductive StatementPhrase : StatementForm → Type
  | var : VariablePhrase → StatementPhrase .statement
  | array : ArrayPhrase → StatementPhrase .statement
  | call : Phrase .call → TokenOf Kind.semicolon → StatementPhrase .statement
  | assign : TokenOf Kind.kwLet → Phrase .designator → TokenOf Kind.assign → Phrase .comparison →
      TokenOf Kind.semicolon → StatementPhrase .statement
  | branch : TokenOf Kind.kwIf → Phrase .comparison → StatementPhrase .block →
      StatementPhrase .statement
  | branchElse : TokenOf Kind.kwIf → Phrase .comparison → StatementPhrase .block →
      TokenOf Kind.kwElse → StatementPhrase .block → StatementPhrase .statement
  | loop : TokenOf Kind.kwWhile → Phrase .comparison → StatementPhrase .block →
      StatementPhrase .statement
  | leave : TokenOf Kind.kwReturn → TokenOf Kind.semicolon → StatementPhrase .statement
  | leaveWith : TokenOf Kind.kwReturn → Phrase .comparison → TokenOf Kind.semicolon →
      StatementPhrase .statement
  | block : TokenOf Kind.openBrace → StatementPhrase .statements → TokenOf Kind.closeBrace →
      StatementPhrase .block
  | none : StatementPhrase .statements
  | next : StatementPhrase .statement → StatementPhrase .statements → StatementPhrase .statements

namespace StatementPhrase

def tokens {f : StatementForm} : StatementPhrase f → List Token
  | .var v => v.tokens
  | .array a => a.tokens
  | .call c stop => c.tokens ++ [stop.val]
  | .assign start target mark source stop =>
    start.val :: (target.tokens ++ mark.val :: (source.tokens ++ [stop.val]))
  | .branch start condition yes => start.val :: (condition.tokens ++ yes.tokens)
  | .branchElse start condition yes mark no =>
    start.val :: (condition.tokens ++ (yes.tokens ++ mark.val :: no.tokens))
  | .loop start condition body => start.val :: (condition.tokens ++ body.tokens)
  | .leave start stop => [start.val, stop.val]
  | .leaveWith start result stop => start.val :: (result.tokens ++ [stop.val])
  | .block left items right => left.val :: (items.tokens ++ [right.val])
  | .none => []
  | .next first rest => first.tokens ++ rest.tokens

/-- Makes what the phrase stands for. A missing alternative is placed at the token behind the
phrase, which begins at `after`. -/
def build {f : StatementForm} : StatementPhrase f → (after : Position) → Draft → f.Result × Draft
  | .var v, _, d => v.build d
  | .array a, _, d => a.build d
  | .call c _, _, d => c.build d
  | .assign start target _ source _, _, d =>
    let (t, d) := target.build d
    let (s, d) := source.build d
    d.node start.val.pos (.assign · t s)
  | .branch start condition yes, after, d =>
    let (c, d) := condition.build d
    let (y, d) := yes.build after d.openScope
    let (n, d) := d.closeScope.node after (.list · .statements [])
    d.node start.val.pos (.branch · c y n)
  | .branchElse start condition yes mark no, after, d =>
    let (c, d) := condition.build d
    let (y, d) := yes.build mark.val.pos d.openScope
    let (n, d) := no.build after d.closeScope.openScope
    d.closeScope.node start.val.pos (.branch · c y n)
  | .loop start condition body, after, d =>
    let (c, d) := condition.build d
    let (b, d) := body.build after d.openScope
    d.closeScope.node start.val.pos (.loop · c b)
  | .leave start _, _, d => d.node start.val.pos .leave
  | .leaveWith start result _, _, d =>
    let (r, d) := result.build d
    d.node start.val.pos (.leaveWith · r)
  | .block _ items right, _, d =>
    let (ns, d) := items.build right.val.pos d
    d.node (startOf items.tokens right.val.pos) (.list · .statements ns)
  | .none, _, d => ([], d)
  | .next first rest, after, d =>
    let (n, d) := first.build (startOf rest.tokens after) d
    let (ns, d) := rest.build after d
    (n :: ns, d)

end StatementPhrase

end Crux
