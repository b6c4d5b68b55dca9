import Crux.Node.Basic
import Crux.Ty.Basic

/-! What programs mean, for the part of the language on whole numbers and truth values: expressions
have values, and statements take a store to a store. Floats, calls and returns have no meaning
here. -/

namespace Crux

inductive Value
  | int : Int32 → Value
  | bool : Bool → Value
  deriving DecidableEq

namespace Value

def ty : Value → Ty
  | .int _ => .int
  | .bool _ => .bool

/-- Arithmetic wraps around, and nothing is divided by zero. -/
def binary : BinaryOp → Value → Value → Option Value
  | .add, .int a, .int b => some (.int (a + b))
  | .sub, .int a, .int b => some (.int (a - b))
  | .mul, .int a, .int b => some (.int (a * b))
  | .div, .int a, .int b => if b = 0 then none else some (.int (a / b))
  | .and, .bool a, .bool b => some (.bool (a && b))
  | .or, .bool a, .bool b => some (.bool (a || b))
  | _, _, _ => none

def compare : CompareOp → Value → Value → Option Value
  | .eq, .int a, .int b => some (.bool (a = b))
  | .ne, .int a, .int b => some (.bool (a ≠ b))
  | .lt, .int a, .int b => some (.bool (a < b))
  | .le, .int a, .int b => some (.bool (a ≤ b))
  | .gt, .int a, .int b => some (.bool (a > b))
  | .ge, .int a, .int b => some (.bool (a ≥ b))
  | _, _, _ => none

def not : Value → Option Value
  | .bool b => some (.bool !b)
  | .int _ => none

end Value

structure Place where
  symbol : Symbol
  path : List Nat
  ty : Ty

namespace Place

def ofSymbol (s : Symbol) : Place := ⟨s, [], s.ty⟩

def element? (p : Place) : Value → Option Place
  | .int i =>
    match p.ty with
    | .array extent element =>
      if 0 ≤ i.toInt ∧ i.toInt < extent then some ⟨p.symbol, p.path ++ [i.toInt.toNat], element⟩
      else none
    | _ => none
  | .bool _ => none

theorem element?_eq_some {p q : Place} {v : Value} (h : p.element? v = some q) :
    ∃ i extent, v = .int i ∧ p.ty = .array extent q.ty ∧ 0 ≤ i.toInt ∧ i.toInt < extent ∧
      q.symbol = p.symbol ∧ q.path = p.path ++ [i.toInt.toNat] := by
  cases v with
  | bool => cases h
  | int i =>
    obtain ⟨symbol, path, ty⟩ := p
    cases ty with
    | array extent element =>
      obtain ⟨hi, h⟩ := Option.ite_none_right_eq_some.mp h
      cases h
      exact ⟨i, extent, rfl, rfl, hi.1, hi.2, rfl, rfl⟩
    | _ => cases h

end Place

/-- The values of all scalars, by the number of a symbol and the indices of an element. -/
abbrev Store := Nat → List Nat → Value

namespace Store

def get? (S : Store) (p : Place) : Option Value :=
  let v := S p.symbol.id p.path
  if v.ty = p.ty then some v else none

theorem get?_eq_some {S : Store} {p : Place} {v : Value} (h : S.get? p = some v) :
    v = S p.symbol.id p.path ∧ v.ty = p.ty := by
  obtain ⟨ht, h⟩ := Option.ite_none_right_eq_some.mp h
  cases h
  exact ⟨rfl, ht⟩

def set (S : Store) (p : Place) (v : Value) : Store := fun id path =>
  if id = p.symbol.id ∧ path = p.path then v else S id path

end Store

namespace Node

mutual
def eval (S : Store) : Node → Option Value
  | .int _ v => some (.int v)
  | .bool _ b => some (.bool b)
  | .dereference _ a => do S.get? (← a.place S)
  | .binary _ op l r => do Value.binary op (← l.eval S) (← r.eval S)
  | .compare _ op l r => do Value.compare op (← l.eval S) (← r.eval S)
  | .not _ a => do Value.not (← a.eval S)
  | _ => none

def place (S : Store) : Node → Option Place
  | .addressOf _ s => some (.ofSymbol s)
  | .index _ b a => do (← b.place S).element? (← a.eval S)
  | _ => none
end

end Node

inductive Piece
  | one : Node → Piece
  | row : List Node → Piece

/-- `Exec S x S'`: from the store `S`, the piece ends with the store `S'`. -/
inductive Exec : Store → Piece → Store → Prop
  | var : Exec S (.one (.var g s)) S
  | array : Exec S (.one (.array g s)) S
  | assign : target.place S = some p → source.eval S = some v → v.ty = p.ty →
      Exec S (.one (.assign g target source)) (S.set p v)
  | branchTrue : condition.eval S = some (.bool true) → Exec S (.one yes) S' →
      Exec S (.one (.branch g condition yes no)) S'
  | branchFalse : condition.eval S = some (.bool false) → Exec S (.one no) S' →
      Exec S (.one (.branch g condition yes no)) S'
  | loopDone : condition.eval S = some (.bool false) → Exec S (.one (.loop g condition body)) S
  | loopNext : condition.eval S = some (.bool true) → Exec S (.one body) S' →
      Exec S' (.one (.loop g condition body)) S'' → Exec S (.one (.loop g condition body)) S''
  | block : Exec S (.row items) S' → Exec S (.one (.list g .statements items)) S'
  | nil : Exec S (.row []) S
  | cons : Exec S (.one n) S' → Exec S' (.row rest) S'' → Exec S (.row (n :: rest)) S''

end Crux
