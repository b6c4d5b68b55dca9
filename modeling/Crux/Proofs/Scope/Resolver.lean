import Crux.Proofs.Node.Order
import Crux.Proofs.Scope.Tree

/-! The resolver: a walk over a finished tree with the symbols that are visible at each place. It tells
which declarations clash with an earlier one in their scope, and which declaration each use of a
name means. -/

namespace Crux

namespace Env

instance (env : Env) (name : String) : Decidable (env.IsNew name) :=
  inferInstanceAs (Decidable (∀ s ∈ env.headD [], s.name ≠ name))

def receive (env : Env) (s : Symbol) : Env := if env.IsNew s.name then env.declare s else env

theorem receive_new {env : Env} {s : Symbol} (h : env.IsNew s.name) : env.receive s = env.declare s :=
  if_pos h

theorem receive_taken {env : Env} {s : Symbol} (h : ¬ env.IsNew s.name) : env.receive s = env :=
  if_neg h

end Env

/-- What the resolver says about one occurrence of a name. -/
inductive Event
  | declaration : Symbol → (taken : Bool) → Event
  | use : Symbol → (bound : Option Symbol) → Event

inductive Trouble
  | redeclared : Position → (name : String) → Trouble
  | unresolved : Position → (name : String) → Trouble

namespace Event

def symbol : Event → Symbol
  | .declaration s _ | .use s _ => s

def trouble? (t : Token) : Event → Option Trouble
  | .declaration s true => some (.redeclared t.pos s.name)
  | .use s none => some (.unresolved t.pos s.name)
  | _ => none

end Event

def Diagnostic.trouble? : Diagnostic → Option Trouble
  | .unexpected .. => none
  | .redeclared pos name _ => some (.redeclared pos name)
  | .unresolved pos name _ => some (.unresolved pos name)

def Env.declarations (env : Env) : List Symbol → List Event
  | [] => []
  | s :: rest => .declaration s (¬ env.IsNew s.name) :: (env.receive s).declarations rest

namespace Node

def leaves (env : Env) (n : Node) : Env := n.binds.elim env env.receive

mutual
/-- The names in a tree, in source order. The parameters of a function and its body share a scope, in
which the function itself is visible. The blocks of branches and loops have scopes of their own. -/
def events (env : Env) : Node → List Event
  | .int .. | .float .. | .bool .. | .leave .. | .error .. => []
  | .addressOf _ s => [.use s (env.lookup s.name)]
  | .dereference _ a | .not _ a | .leaveWith _ a => a.events env
  | .index _ a b | .binary _ _ a b | .compare _ _ a b | .assign _ a b => a.events env ++ b.events env
  | .call _ s args => .use s (env.lookup s.name) :: args.events env
  | .var _ s | .array _ s => env.declarations [s]
  | .function _ s params body =>
    let inner : Env := [] :: env.receive s
    env.declarations [s] ++ inner.declarations params ++ body.events (params.foldl Env.receive inner)
  | .branch _ c y n => c.events env ++ y.events ([] :: env) ++ n.events ([] :: env)
  | .loop _ c b => c.events env ++ b.events ([] :: env)
  | .list _ _ items => rowEvents env items

def rowEvents (env : Env) : List Node → List Event
  | [] => []
  | n :: rest => n.events env ++ rowEvents (n.leaves env) rest
end

end Node

theorem Env.map_declarations (env : Env) (l : List Symbol) :
    (env.declarations l).map Event.symbol = l := by
  induction l generalizing env with
  | nil => rfl
  | cons s l ih => rw [declarations, List.map_cons, ih, Event.symbol]

/-- The resolver passes every symbol of the tree. -/
theorem Node.map_events (env : Env) (n : Node) :
    (n.events env).map Event.symbol = n.preorder.flatMap symbols := by
  induction n using children_induction generalizing env with
  | step n ih =>
    rw [preorder_eq, List.flatMap_cons, List.flatMap_assoc]
    cases n with
    | int | float | bool | leave | error | addressOf => simp [events, symbols, children, Event.symbol]
    | var | array => simp [events, symbols, children, Env.map_declarations]
    | dereference g a | not g a | leaveWith g a =>
      simp [events, symbols, children, ih a (by simp [children])]
    | call g s a => simp [events, symbols, children, ih a (by simp [children]), Event.symbol]
    | index g a b | binary g op a b | compare g op a b | assign g a b | loop g a b =>
      simp [events, symbols, children, ih a (by simp [children]), ih b (by simp [children])]
    | branch g a b d =>
      simp [events, symbols, children, ih a (by simp [children]), ih b (by simp [children]),
        ih d (by simp [children])]
    | function g s params body =>
      simp [events, symbols, children, ih body (by simp [children]), Env.map_declarations]
    | list g kind items =>
      simp only [events, symbols, children, List.nil_append] at ih ⊢
      induction items generalizing env with
      | nil => rfl
      | cons m items ihi =>
        obtain ⟨hm, hitems⟩ := List.forall_mem_cons.mp ih
        rw [rowEvents, List.map_append, hm, ihi (m.leaves env) hitems, List.flatMap_cons]

end Crux
