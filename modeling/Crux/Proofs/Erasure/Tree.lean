import Crux.Grammar.Parser

/-! Types, trees and parsers without places: positions in the text are dropped, and with them the
messages of errors, which may name positions. -/

namespace Crux

namespace Ty

mutual
def erased : Ty → Ty
  | .int => .int
  | .float => .float
  | .bool => .bool
  | .void => .void
  | .array extent element => .array extent element.erased
  | .address target => .address target.erased
  | .func params result => .func (erasedAll params) result.erased
  | .error _ => .error ""

def erasedAll : List Ty → List Ty
  | [] => []
  | t :: ts => t.erased :: erasedAll ts
end

theorem erasedAll_eq_map (ts : List Ty) : erasedAll ts = ts.map erased := by
  induction ts with
  | nil => rw [erasedAll, List.map_nil]
  | cons t ts ih => rw [erasedAll, List.map_cons, ih]

mutual
@[simp] theorem erased_erased : ∀ t : Ty, t.erased.erased = t.erased
  | .int | .float | .bool | .void | .error _ => by simp only [erased]
  | .array _ t | .address t => by simp only [erased, erased_erased t]
  | .func ps r => by simp only [erased, erasedAll_erasedAll ps, erased_erased r]

theorem erasedAll_erasedAll : ∀ ts : List Ty, erasedAll (erasedAll ts) = erasedAll ts
  | [] => by simp only [erasedAll]
  | t :: ts => by simp only [erasedAll, erased_erased t, erasedAll_erasedAll ts]
end

variable (t : Ty)

@[simp] theorem isError_erased : t.erased.isError = t.isError := by cases t <;> rfl

@[simp] theorem isScalar_erased : t.erased.isScalar = t.isScalar := by cases t <;> rfl

@[simp] theorem isFloat_erased : t.erased.isFloat = t.isFloat := by cases t <;> rfl

@[simp] theorem isVoid_erased : t.erased.isVoid = t.isVoid := by cases t <;> rfl

@[simp] theorem innermost_erased : ∀ t : Ty, t.erased.innermost = t.innermost.erased
  | .array _ t => innermost_erased t
  | .int | .float | .bool | .void | .address _ | .func .. | .error _ => rfl

@[simp] theorem size?_erased : ∀ t : Ty, t.erased.size? = t.size?
  | .array _ t => by simp only [erased, size?, size?_erased t]
  | .int | .float | .bool | .void | .address _ | .func .. | .error _ => rfl

mutual
@[simp] theorem equivalent_erased : ∀ t u : Ty, t.erased.equivalent u.erased = t.equivalent u
  | .int, u | .float, u | .bool, u | .void, u | .error _, u => by
    cases u <;> rfl
  | .array _ t, u => by
    cases u with
    | array _ u => simp only [erased, equivalent, equivalent_erased t u]
    | _ => rfl
  | .address t, u => by
    cases u with
    | address u => simp only [erased, equivalent, equivalent_erased t u]
    | _ => rfl
  | .func ps r, u => by
    cases u with
    | func qs u =>
      simp only [erased, equivalent, equivalentAll_erasedAll ps qs, equivalent_erased r u]
    | _ => rfl

theorem equivalentAll_erasedAll : ∀ ts us : List Ty,
    equivalentAll (erasedAll ts) (erasedAll us) = equivalentAll ts us
  | [], us => by
    cases us <;> rfl
  | t :: ts, us => by
    cases us with
    | nil => rfl
    | cons u us =>
      simp only [erasedAll, equivalentAll, equivalent_erased t u, equivalentAll_erasedAll ts us]
end

end Ty

namespace Symbol

def erased (s : Symbol) : Symbol := { s with type? := s.type?.map Ty.erased }

theorem erased_ty (s : Symbol) : s.erased.ty = s.ty ∨ s.erased.ty = s.ty.erased := by
  cases h : s.type? with
  | none => exact .inl (by simp [erased, ty, h])
  | some t => exact .inr (by simp [erased, ty, h])

@[simp] theorem erased_ty_erased (s : Symbol) : s.erased.ty.erased = s.ty.erased := by
  obtain h | h := s.erased_ty
  · rw [h]
  · rw [h, Ty.erased_erased]

end Symbol

def Tag.erased (g : Tag) : Tag := { g with pos := .start }

def Token.erased (t : Token) : Token := { t with pos := .start }

namespace Node

mutual
@[simp] def erased : Node → Node
  | .int g v => .int g.erased v
  | .float g v => .float g.erased v
  | .bool g v => .bool g.erased v
  | .addressOf g s => .addressOf g.erased s.erased
  | .dereference g a => .dereference g.erased a.erased
  | .index g a b => .index g.erased a.erased b.erased
  | .binary g op a b => .binary g.erased op a.erased b.erased
  | .compare g op a b => .compare g.erased op a.erased b.erased
  | .not g a => .not g.erased a.erased
  | .call g s a => .call g.erased s.erased a.erased
  | .assign g a b => .assign g.erased a.erased b.erased
  | .var g s => .var g.erased s.erased
  | .array g s => .array g.erased s.erased
  | .function g s params a => .function g.erased s.erased (params.map Symbol.erased) a.erased
  | .branch g a b c => .branch g.erased a.erased b.erased c.erased
  | .loop g a b => .loop g.erased a.erased b.erased
  | .leave g => .leave g.erased
  | .leaveWith g a => .leaveWith g.erased a.erased
  | .list g kind items => .list g.erased kind (erasedAll items)
  | .error g _ => .error g.erased ""

def erasedAll : List Node → List Node
  | [] => []
  | n :: rest => n.erased :: erasedAll rest
end

theorem erasedAll_eq_map (items : List Node) : erasedAll items = items.map erased := by
  induction items with
  | nil => rw [erasedAll, List.map_nil]
  | cons n rest ih => rw [erasedAll, List.map_cons, ih]

@[simp] theorem id_erased (n : Node) : n.erased.id = n.id := by
  cases n with
  | _ => rfl

end Node

namespace Scopes

def erased (s : Scopes) : Scopes := { s with types := s.types.map (Option.map Ty.erased) }

end Scopes

def Diagnostic.erased : Diagnostic → Diagnostic
  | .unexpected _ expected found => .unexpected .start expected found
  | .redeclared _ name scopes => .redeclared .start name scopes.erased
  | .unresolved _ name scopes => .unresolved .start name scopes.erased

def Draft.erased (d : Draft) : Draft :=
  ⟨d.scopes.erased, d.nextId, d.diagnostics.map Diagnostic.erased⟩

def Parser.erased (p : Parser) : Parser :=
  { toDraft := p.toDraft.erased
    current := p.current.erased
    later := p.later.map Token.erased }

end Crux
