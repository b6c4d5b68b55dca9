import Crux.Symbol

namespace Crux

structure Binding where
  id : Nat
  name : String
  deriving DecidableEq

abbrev Scope := List Binding

def Scope.find? (scope : Scope) (name : String) : Option Binding :=
  List.find? (·.name = name) scope

inductive ScopeError
  | redeclared : (name : String) → ScopeError
  | notFound : (name : String) → ScopeError
  deriving DecidableEq

def ScopeError.message : ScopeError → String
  | .redeclared name => s!"Symbol {name} being redeclared."
  | .notFound name => s!"Could not find {name}."

structure Scopes where
  outermost : Scope
  /-- The other open scopes, the innermost first. -/
  inner : List Scope
  types : Array (Option Ty)

namespace Scopes

def empty : Scopes := ⟨[], [], #[]⟩

def depth (s : Scopes) : Nat := s.inner.length

def push (s : Scopes) : Scopes := { s with inner := [] :: s.inner }

def pop (s : Scopes) : Scopes := { s with inner := s.inner.tail }

def chain (s : Scopes) : List Scope := s.inner ++ [s.outermost]

def innermost (s : Scopes) : Scope := s.inner.headD s.outermost

def enter (s : Scopes) (b : Binding) : Scopes :=
  match s.inner with
  | [] => { s with outermost := s.outermost ++ [b] }
  | scope :: rest => { s with inner := (scope ++ [b]) :: rest }

def fresh (s : Scopes) (name : String) (type? : Option Ty) : Binding × Scopes :=
  (⟨s.types.size, name⟩, { s with types := s.types.push type? })

def declare (s : Scopes) (name : String) : Except ScopeError (Binding × Scopes) :=
  if (s.innermost.find? name).isSome then .error (.redeclared name)
  else
    let (b, s) := s.fresh name none
    .ok (b, s.enter b)

def resolve (s : Scopes) (name : String) : Except ScopeError Binding :=
  match s.chain.findSome? (·.find? name) with
  | some b => .ok b
  | none => .error (.notFound name)

/-- A symbol in no scope that stands for a failed declaration or look-up. -/
def placeholder (s : Scopes) (name message : String) : Binding × Scopes :=
  s.fresh name (some (.error message))

def type? (s : Scopes) (b : Binding) : Option Ty := s.types[b.id]?.join

def setType (s : Scopes) (b : Binding) (t : Ty) : Scopes :=
  if (s.type? b).isSome then s else { s with types := s.types.setIfInBounds b.id (some t) }

def symbol (s : Scopes) (b : Binding) : Symbol := ⟨b.id, b.name, s.type? b⟩

def declareAs (s : Scopes) (name : String) (t : Ty) : Scopes :=
  match s.declare name with
  | .ok (b, s) => s.setType b t
  | .error _ => s

def withBuiltins : Scopes := Builtin.all.foldl (fun s b => s.declareAs b.name b.ty) empty

def scopeLines (s : Scopes) (scope : Scope) (depth : Nat) : List String :=
  scope.map fun b => String.ofList (List.replicate (2 * depth) ' ') ++ (s.symbol b).render ++ "\n"

def render (s : Scopes) : String :=
  String.join ((s.chain.reverse.zipIdx.map fun (scope, depth) => s.scopeLines scope depth).flatten)

end Scopes

end Crux
