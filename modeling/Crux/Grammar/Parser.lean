import Crux.Grammar.Nonterminal
import Crux.Node.Basic
import Crux.Scope
import Crux.Token.Scan

namespace Crux

inductive Diagnostic
  | unexpected : Position → Expected → (found : Kind) → Diagnostic
  | redeclared : Position → (name : String) → Scopes → Diagnostic
  | unresolved : Position → (name : String) → Scopes → Diagnostic

namespace Diagnostic

def headline : Diagnostic → String
  | .unexpected pos expected found =>
    s!"SyntaxError({pos.render})[Expected {expected.render} but got {found.name}.]"
  | .redeclared pos name _ => s!"DeclareSymbolError({pos.render})[{name} already exists.]"
  | .unresolved pos name _ =>
    s!"ResolveSymbolError({pos.render})[{(ScopeError.notFound name).message}]"

def render (d : Diagnostic) : String :=
  match d with
  | .unexpected .. => d.headline
  | .redeclared _ _ scopes | .unresolved _ _ scopes => d.headline ++ "\n" ++ scopes.render

end Diagnostic

structure Draft where
  scopes : Scopes
  nextId : Nat
  diagnostics : List Diagnostic

namespace Draft

def initial : Draft := ⟨.withBuiltins, 0, []⟩

def report (d : Draft) (x : Diagnostic) : Draft :=
  { d with diagnostics := d.diagnostics ++ [x] }

def node (pos : Position) (build : Tag → Node) (d : Draft) : Node × Draft :=
  (build ⟨d.nextId, pos⟩, { d with nextId := d.nextId + 1 })

def openScope (d : Draft) : Draft := { d with scopes := d.scopes.push }

def closeScope (d : Draft) : Draft := { d with scopes := d.scopes.pop }

def troubled (name : String) (trouble : Scopes → Diagnostic) (d : Draft) : Binding × Draft :=
  let x := trouble d.scopes
  let (b, scopes) := d.scopes.placeholder name x.headline
  (b, { d.report x with scopes := scopes })

def declare (ident : Token) (d : Draft) : Binding × Draft :=
  match d.scopes.declare ident.lexeme with
  | .ok (b, scopes) => (b, { d with scopes := scopes })
  | .error _ => d.troubled ident.lexeme (.redeclared ident.pos ident.lexeme)

def resolve (ident : Token) (d : Draft) : Binding × Draft :=
  match d.scopes.resolve ident.lexeme with
  | .ok b => (b, d)
  | .error _ => d.troubled ident.lexeme (.unresolved ident.pos ident.lexeme)

def setType (b : Binding) (t : Ty) (d : Draft) : Draft :=
  { d with scopes := d.scopes.setType b t }

def symbol (d : Draft) (b : Binding) : Symbol := d.scopes.symbol b

end Draft

structure Parser extends Draft where
  current : Token
  later : List Token

def Draft.reading (d : Draft) (tokens : List Token) : Parser :=
  { d with
    current := tokens.headD (.eof .start)
    later := tokens.tail }

namespace Parser

def ofTokens (tokens : List Token) : Parser := Draft.initial.reading tokens

def ofString (source : String) : Parser := ofTokens (Cursor.ofString source).tokens

def advance (p : Parser) : Parser :=
  match p.later with
  | [] => p
  | t :: rest => { p with current := t, later := rest }

def hasError (p : Parser) : Bool := !p.diagnostics.isEmpty

def errorReport (p : Parser) : String :=
  String.join (p.diagnostics.map fun d => d.render ++ "\n")

end Parser

inductive Parsed (α : Type)
  | done : α → Parser → Parsed α
  | stuck : Position → Parser → Parsed α

def Parse (α : Type) : Type := Parser → Parsed α

namespace Parse

variable {α β : Type}

protected def pure (a : α) : Parse α := fun p => .done a p

protected def bind (x : Parse α) (f : α → Parse β) : Parse β := fun p =>
  match x p with
  | .done a p => f a p
  | .stuck pos p => .stuck pos p

instance : Monad Parse where
  pure := Parse.pure
  bind := Parse.bind

theorem pure_run (a : α) (p : Parser) : (pure a : Parse α) p = .done a p := rfl

theorem bind_run (x : Parse α) (f : α → Parse β) (p : Parser) :
    (x >>= f) p =
      match x p with
      | .done a p => f a p
      | .stuck pos p => .stuck pos p := rfl

theorem bind_pure_run (x : Parse α) : (x >>= fun a => pure a) = x := by
  funext p
  rw [bind_run]
  cases x p <;> rfl

theorem bind_bind_run {γ : Type} (x : Parse α) (f : α → Parse β) (g : β → Parse γ) :
    ((x >>= f) >>= g) = x >>= fun a => f a >>= g := by
  funext p
  simp only [bind_run]
  cases x p <;> rfl

instance : LawfulMonad Parse :=
  LawfulMonad.mk' Parse bind_pure_run (fun _ _ => rfl) bind_bind_run

def make (f : Draft → α × Draft) : Parse α := fun p =>
  .done (f p.toDraft).1 { p with toDraft := (f p.toDraft).2 }

def position : Parse Position := fun p => .done p.current.pos p

def sees (e : Expected) : Parse Bool := fun p => .done (e.admits p.current.kind) p

def fail (e : Expected) : Parse α := fun p =>
  let d := p.report (.unexpected p.current.pos e p.current.kind)
  .stuck p.current.pos { p with toDraft := d }

def expect (e : Expected) : Parse Token := fun p =>
  if e.admits p.current.kind then .done p.current p.advance else fail e p

def accept (k : Kind) : Parse Bool := do
  if ← sees k then
    let _ ← expect k
    return true
  else return false

def node (pos : Position) (build : Tag → Node) : Parse Node := make (Draft.node pos build)

def manyUpTo (e : Expected) (item : Parse α) : Nat → Parse (List α)
  | 0, p => .done [] p
  | n + 1, p =>
    (do
      if ← sees e then
        let a ← item
        let rest ← fun p => manyUpTo e item n p
        return a :: rest
      else return []) p

/-- As many items as follow each other; `e` tells whether another one begins. Every item takes a
token, so the tokens left bound their number. -/
def many (e : Expected) (item : Parse α) : Parse (List α) := fun p =>
  manyUpTo e item (p.later.length + 1) p

def foldUpTo (e : Expected) (step : α → Parse α) : Nat → α → Parse α
  | 0, a, p => .done a p
  | n + 1, a, p =>
    (do
      if ← sees e then
        let a ← step a
        fun p => foldUpTo e step n a p
      else return a) p

def fold (e : Expected) (step : α → Parse α) (a : α) : Parse α := fun p =>
  foldUpTo e step (p.later.length + 1) a p

def commaList (e : Expected) (item : Parse α) : Parse (List α) := do
  if ← sees e then
    let first ← item
    let rest ← many Kind.comma do
      let _ ← expect Kind.comma
      item
    return first :: rest
  else return []

def inScope (x : Parse α) : Parse α := do
  make fun d => ((), d.openScope)
  let a ← x
  make fun d => ((), d.closeScope)
  return a

def declare (ident : Token) : Parse Binding := make (Draft.declare ident)

def resolve (ident : Token) : Parse Binding := make (Draft.resolve ident)

def setType (b : Binding) (t : Ty) : Parse Unit := make fun d => ((), d.setType b t)

def symbol (b : Binding) : Parse Symbol := make fun d => (d.symbol b, d)

end Parse

end Crux
