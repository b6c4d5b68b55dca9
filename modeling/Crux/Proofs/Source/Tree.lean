import Crux.Proofs.Scope.Tree
import Crux.Proofs.Source.Syntax

namespace Crux

def Tag.blank : Tag := ⟨0, .start⟩

namespace Node

mutual
def bare : Node → Node
  | .int _ v => .int .blank v
  | .float _ v => .float .blank v
  | .bool _ v => .bool .blank v
  | .addressOf _ s => .addressOf .blank s
  | .dereference _ a => .dereference .blank a.bare
  | .index _ a b => .index .blank a.bare b.bare
  | .binary _ op a b => .binary .blank op a.bare b.bare
  | .compare _ op a b => .compare .blank op a.bare b.bare
  | .not _ a => .not .blank a.bare
  | .call _ s a => .call .blank s a.bare
  | .assign _ a b => .assign .blank a.bare b.bare
  | .var _ s => .var .blank s
  | .array _ s => .array .blank s
  | .function _ s params a => .function .blank s params a.bare
  | .branch _ a b c => .branch .blank a.bare b.bare c.bare
  | .loop _ a b => .loop .blank a.bare b.bare
  | .leave _ => .leave .blank
  | .leaveWith _ a => .leaveWith .blank a.bare
  | .list _ kind items => .list .blank kind (bareAll items)
  | .error _ message => .error .blank message

def bareAll : List Node → List Node
  | [] => []
  | n :: rest => n.bare :: bareAll rest
end

end Node

namespace Source

structure Context where
  env : Env
  next : Nat

namespace Context

def initial : Context := ⟨.builtins, Builtin.all.length⟩

def declare (Γ : Context) (x : Name) (t : Ty) : Context :=
  ⟨Γ.env.declare ⟨Γ.next, x.text, some t⟩, Γ.next + 1⟩

def enter (Γ : Context) : Context := { Γ with env := [] :: Γ.env }

/-- Leaves the innermost scope. Its numbers are not used again. -/
def leave (Γ : Context) : Context := { Γ with env := Γ.env.tail }

def Knows (Γ : Context) (x : Name) : Prop := (Γ.env.lookup x.text).isSome

instance (Γ : Context) (x : Name) : Decidable (Γ.Knows x) := inferInstanceAs (Decidable (_ = true))

def IsNew (Γ : Context) (x : Name) : Prop := Γ.env.IsNew x.text

instance (Γ : Context) (x : Name) : Decidable (Γ.IsNew x) := List.decidableBAll _ _

def symbol (Γ : Context) (x : Name) : Symbol := (Γ.env.lookup x.text).getD ⟨0, x.text, none⟩

end Context

def Name.ty (x : Name) : Ty := .ofName x.text

def Numeral.value (n : Numeral) : Nat := Text.digitsValue n.text.toList

/-- Numbers that are too large and decimals that spell no number are errors of the tree. -/
def Literal.tree : Literal → Node
  | .numeral n =>
    if n.value ≤ 2147483647 then .int .blank (.ofNat n.value)
    else .error .blank s!"Integer {n.text} is out of range."
  | .decimal x =>
    match Binary32.read? x.text with
    | some value => .float .blank value
    | none => .error .blank s!"Malformed float {x.text}."
  | .bool b => .bool .blank b

abbrev Shape.Result : Shape → Type
  | .row => List Node
  | .value | .place => Node

namespace Expr

/-- Every name is known. -/
def WellScoped (Γ : Context) {s : Shape} : Expr s → Prop
  | .literal _ => True
  | .load place => place.WellScoped Γ
  | .call f args => Γ.Knows f ∧ args.WellScoped Γ
  | .not e => e.WellScoped Γ
  | .binary _ l r | .compare _ l r => l.WellScoped Γ ∧ r.WellScoped Γ
  | .name x => Γ.Knows x
  | .element base amount => base.WellScoped Γ ∧ amount.WellScoped Γ
  | .none => True
  | .next e rest => e.WellScoped Γ ∧ rest.WellScoped Γ

instance decideWellScoped (Γ : Context) : {s : Shape} → (e : Expr s) → Decidable (e.WellScoped Γ)
  | _, .literal _ | _, .none => .isTrue trivial
  | _, .load place => decideWellScoped Γ place
  | _, .not e => decideWellScoped Γ e
  | _, .name x => inferInstanceAs (Decidable (Γ.Knows x))
  | _, .call _ args => @instDecidableAnd _ _ _ (decideWellScoped Γ args)
  | _, .binary _ l r | _, .compare _ l r | _, .element l r | _, .next l r =>
    @instDecidableAnd _ _ (decideWellScoped Γ l) (decideWellScoped Γ r)

def tree (Γ : Context) {s : Shape} : Expr s → s.Result
  | .literal l => l.tree
  | .load place => .dereference .blank (place.tree Γ)
  | .call f args => .call .blank (Γ.symbol f) (.list .blank .expressions (args.tree Γ))
  | .not e => .not .blank (e.tree Γ)
  | .binary op l r => .binary .blank op (l.tree Γ) (r.tree Γ)
  | .compare op l r => .compare .blank op (l.tree Γ) (r.tree Γ)
  | .name x => .addressOf .blank (Γ.symbol x)
  | .element base amount => .index .blank (base.tree Γ) (amount.tree Γ)
  | .none => []
  | .next e rest => e.tree Γ :: rest.tree Γ

end Expr

namespace Variable

def name : Variable → Name
  | .plain x _ | .array x _ _ _ => x

def arrayTy (element : Ty) : List Numeral → Ty
  | [] => element
  | n :: rest =>
    if n.value ≤ 18446744073709551615 then .array n.value (arrayTy element rest)
    else .error s!"Array extent {n.text} is out of range."

def ty : Variable → Ty
  | .plain _ type => type.ty
  | .array _ type first others => arrayTy type.ty (first :: others)

def after (Γ : Context) (v : Variable) : Context := Γ.declare v.name v.ty

def tree (Γ : Context) (v : Variable) : Node :=
  let s : Symbol := ⟨Γ.next, v.name.text, some v.ty⟩
  match v with
  | .plain .. => .var .blank s
  | .array .. => .array .blank s

end Variable

abbrev Extent.Result : Extent → Type
  | .one => Node
  | .many => List Node

namespace Statement

def after (Γ : Context) {x : Extent} : Statement x → Context
  | .var v => v.after Γ
  | .branch _ yes => (yes.after Γ.enter).leave
  | .branchElse _ yes no => (no.after (yes.after Γ.enter).leave.enter).leave
  | .loop _ body => (body.after Γ.enter).leave
  | .next s rest => rest.after (s.after Γ)
  | .call .. | .assign .. | .leave | .leaveWith _ | .none => Γ

/-- Every use of a name is known where it stands, and every declaration is new in its scope. -/
def WellScoped (Γ : Context) {x : Extent} : Statement x → Prop
  | .var v => Γ.IsNew v.name
  | .call f args => (Expr.call f args).WellScoped Γ
  | .assign target source => target.WellScoped Γ ∧ source.WellScoped Γ
  | .branch c yes => c.WellScoped Γ ∧ yes.WellScoped Γ.enter
  | .branchElse c yes no =>
    c.WellScoped Γ ∧ yes.WellScoped Γ.enter ∧ no.WellScoped (yes.after Γ.enter).leave.enter
  | .loop c body => c.WellScoped Γ ∧ body.WellScoped Γ.enter
  | .leave => True
  | .leaveWith e => e.WellScoped Γ
  | .none => True
  | .next s rest => s.WellScoped Γ ∧ rest.WellScoped (s.after Γ)

instance decideWellScoped (Γ : Context) :
    {x : Extent} → (s : Statement x) → Decidable (s.WellScoped Γ)
  | _, .var v => inferInstanceAs (Decidable (Γ.IsNew v.name))
  | _, .call f args => inferInstanceAs (Decidable ((Expr.call f args).WellScoped Γ))
  | _, .assign _ _ => instDecidableAnd
  | _, .branch _ yes | _, .loop _ yes => @instDecidableAnd _ _ _ (decideWellScoped Γ.enter yes)
  | _, .branchElse _ yes no =>
    @instDecidableAnd _ _ _ (@instDecidableAnd _ _ (decideWellScoped Γ.enter yes)
      (decideWellScoped (yes.after Γ.enter).leave.enter no))
  | _, .leave | _, .none => .isTrue trivial
  | _, .leaveWith e => inferInstanceAs (Decidable (e.WellScoped Γ))
  | _, .next s rest =>
    @instDecidableAnd _ _ (decideWellScoped Γ s) (decideWellScoped (s.after Γ) rest)

def tree (Γ : Context) {x : Extent} : Statement x → x.Result
  | .var v => v.tree Γ
  | .call f args => (Expr.call f args).tree Γ
  | .assign target source => .assign .blank (target.tree Γ) (source.tree Γ)
  | .branch c yes =>
    .branch .blank (c.tree Γ) (.list .blank .statements (yes.tree Γ.enter))
      (.list .blank .statements [])
  | .branchElse c yes no =>
    .branch .blank (c.tree Γ) (.list .blank .statements (yes.tree Γ.enter))
      (.list .blank .statements (no.tree (yes.after Γ.enter).leave.enter))
  | .loop c body => .loop .blank (c.tree Γ) (.list .blank .statements (body.tree Γ.enter))
  | .leave => .leave .blank
  | .leaveWith e => .leaveWith .blank (e.tree Γ)
  | .none => []
  | .next s rest => s.tree Γ :: rest.tree (s.after Γ)

end Statement

def Parameter.symbols (next : Nat) : List Parameter → List Symbol
  | [] => []
  | p :: rest => ⟨next, p.name.text, some p.type.ty⟩ :: symbols (next + 1) rest

namespace Declaration

def functionTy (params : List Parameter) (result : Name) : Ty :=
  .func (params.map (·.type.ty)) result.ty

def inside (Γ : Context) (f : Name) (params : List Parameter) (result : Name) : Context :=
  let outside := Γ.declare f (functionTy params result)
  ⟨Parameter.symbols outside.next params :: outside.env, outside.next + params.length⟩

def after (Γ : Context) : Declaration → Context
  | .var v => v.after Γ
  | .function f params result body => (body.after (inside Γ f params result)).leave

def WellScoped (Γ : Context) : Declaration → Prop
  | .var v => Γ.IsNew v.name
  | .function f params result body =>
    Γ.IsNew f ∧ (params.map (·.name.text)).Nodup ∧ body.WellScoped (inside Γ f params result)

instance (Γ : Context) : (x : Declaration) → Decidable (x.WellScoped Γ)
  | .var v => inferInstanceAs (Decidable (Γ.IsNew v.name))
  | .function _ _ _ _ => instDecidableAnd

def tree (Γ : Context) : Declaration → Node
  | .var v => v.tree Γ
  | .function f params result body =>
    .function .blank ⟨Γ.next, f.text, some (functionTy params result)⟩
      (Parameter.symbols (Γ.next + 1) params)
      (.list .blank .statements (body.tree (inside Γ f params result)))

end Declaration

namespace Program

def WellScopedFrom (Γ : Context) : Program → Prop
  | [] => True
  | x :: rest => x.WellScoped Γ ∧ WellScopedFrom (x.after Γ) rest

def treesFrom (Γ : Context) : Program → List Node
  | [] => []
  | x :: rest => x.tree Γ :: treesFrom (x.after Γ) rest

/-- Every use of a name is declared before it in a scope around it, and no scope declares a name
twice. -/
def WellScoped (p : Program) : Prop := WellScopedFrom .initial p

instance decideWellScopedFrom (Γ : Context) : (p : Program) → Decidable (p.WellScopedFrom Γ)
  | [] => .isTrue trivial
  | x :: rest => @instDecidableAnd _ _ _ (decideWellScopedFrom (x.after Γ) rest)

instance (p : Program) : Decidable p.WellScoped := decideWellScopedFrom .initial p

def tree (p : Program) : Node := .list .blank .declarations (treesFrom .initial p)

end Program

end Source

end Crux
