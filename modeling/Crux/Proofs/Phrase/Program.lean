import Crux.Grammar.Program
import Crux.Proofs.Phrase.Statement

namespace Crux

def Draft.forEach {α β : Type} (build : α → Draft → β × Draft) : List α → Draft → List β × Draft
  | [], d => ([], d)
  | a :: rest, d =>
    let (b, d) := build a d
    let (bs, d) := Draft.forEach build rest d
    (b :: bs, d)

theorem Draft.forEach_map {α β γ : Type} (build : β → Draft → γ × Draft) (g : α → β)
    (l : List α) (d : Draft) :
    Draft.forEach build (l.map g) d = Draft.forEach (fun a => build (g a)) l d := by
  induction l generalizing d with
  | nil => rfl
  | cons a l ih => simp only [List.map_cons, Draft.forEach, ih]

structure ParameterPhrase where
  ident : TokenOf Kind.identifier
  colon : TokenOf Kind.colon
  type : TokenOf Nonterminal.typeName

namespace ParameterPhrase

def tokens (p : ParameterPhrase) : List Token := [p.ident.val, p.colon.val, p.type.val]

def ty (p : ParameterPhrase) : Ty := .ofName p.type.val.lexeme

def build (p : ParameterPhrase) (d : Draft) : Symbol × Draft := d.declareAs p.ident p.ty

end ParameterPhrase

inductive ParametersPhrase
  | none
  | some : ParameterPhrase → List (TokenOf Kind.comma × ParameterPhrase) → ParametersPhrase

namespace ParametersPhrase

def list : ParametersPhrase → List ParameterPhrase
  | .none => []
  | .some first rest => first :: rest.map (·.2)

def tokens : ParametersPhrase → List Token
  | .none => []
  | .some first rest => first.tokens ++ rest.flatMap fun (comma, p) => comma.val :: p.tokens

end ParametersPhrase

structure FunctionPhrase where
  start : TokenOf Kind.kwFunc
  ident : TokenOf Kind.identifier
  left : TokenOf Kind.openParen
  params : ParametersPhrase
  right : TokenOf Kind.closeParen
  colon : TokenOf Kind.colon
  type : TokenOf Nonterminal.typeName
  body : StatementPhrase .block

namespace FunctionPhrase

def tokens (f : FunctionPhrase) : List Token :=
  f.start.val :: f.ident.val :: f.left.val ::
    (f.params.tokens ++ f.right.val :: f.colon.val :: f.type.val :: f.body.tokens)

def result (f : FunctionPhrase) : Ty := .ofName f.type.val.lexeme

def build (f : FunctionPhrase) (d : Draft) : Node × Draft :=
  let (b, d) := d.declare f.ident
  let (params, d) := Draft.forEach ParameterPhrase.build f.params.list d.openScope
  let d := d.setType b (.func (params.map Symbol.ty) f.result)
  let (body, d) := f.body.build .start d
  let d := d.closeScope
  d.node f.start.val.pos (.function · (d.symbol b) params body)

end FunctionPhrase

inductive DeclarationPhrase
  | var : VariablePhrase → DeclarationPhrase
  | array : ArrayPhrase → DeclarationPhrase
  | function : FunctionPhrase → DeclarationPhrase

namespace DeclarationPhrase

def tokens : DeclarationPhrase → List Token
  | .var v => v.tokens
  | .array a => a.tokens
  | .function f => f.tokens

def build : DeclarationPhrase → Draft → Node × Draft
  | .var v => v.build
  | .array a => a.build
  | .function f => f.build

end DeclarationPhrase

structure ProgramPhrase where
  items : List DeclarationPhrase
  stop : TokenOf Kind.eof

namespace ProgramPhrase

def tokens (p : ProgramPhrase) : List Token :=
  p.items.flatMap DeclarationPhrase.tokens ++ [p.stop.val]

def build (p : ProgramPhrase) (d : Draft) : Node × Draft :=
  let (items, d) := Draft.forEach DeclarationPhrase.build p.items d
  d.node (startOf (p.items.flatMap DeclarationPhrase.tokens) p.stop.val.pos)
    (.list · .declarations items)

end ProgramPhrase

end Crux
