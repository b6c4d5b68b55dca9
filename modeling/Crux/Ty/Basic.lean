/-! Types of the language. A failed typing is a type too, so that every rule has a result and the
reason of a failure travels with it. -/

namespace Crux

inductive Ty
  | int
  | float
  | bool
  | void
  | array : (extent : Nat) → (element : Ty) → Ty
  | address : (target : Ty) → Ty
  | func : (params : List Ty) → (result : Ty) → Ty
  /-- No type, for the reason given. -/
  | error : (message : String) → Ty

namespace Ty

mutual
def same : Ty → Ty → Bool
  | .int, .int | .float, .float | .bool, .bool | .void, .void => true
  | .array m a, .array n b => m == n && same a b
  | .address a, .address b => same a b
  | .func ps a, .func qs b => sameAll ps qs && same a b
  | .error m, .error n => m == n
  | _, _ => false

def sameAll : List Ty → List Ty → Bool
  | [], [] => true
  | a :: as, b :: bs => same a b && sameAll as bs
  | _, _ => false
end

mutual
theorem same_refl : ∀ a : Ty, same a a = true
  | .int | .float | .bool | .void => by simp [same]
  | .array _ a | .address a => by simp [same, same_refl a]
  | .func ps a => by simp [same, sameAll_refl ps, same_refl a]
  | .error _ => by simp [same]

theorem sameAll_refl : ∀ as : List Ty, sameAll as as = true
  | [] => by simp [sameAll]
  | a :: as => by simp [sameAll, same_refl a, sameAll_refl as]
end

mutual
theorem eq_of_same : ∀ {a b : Ty}, same a b = true → a = b
  | .int, b, h | .float, b, h | .bool, b, h | .void, b, h | .error _, b, h => by
    cases b <;> simp_all [same]
  | .array _ a, b, h => by
    cases b <;> simp [same] at h
    simp [h.1, eq_of_same h.2]
  | .address a, b, h => by
    cases b <;> simp [same] at h
    simp [eq_of_same h]
  | .func ps a, b, h => by
    cases b <;> simp [same] at h
    simp [eq_of_sameAll h.1, eq_of_same h.2]

theorem eq_of_sameAll : ∀ {as bs : List Ty}, sameAll as bs = true → as = bs
  | [], bs, h => by cases bs <;> simp_all [sameAll]
  | a :: as, bs, h => by
    cases bs <;> simp [sameAll] at h
    simp [eq_of_same h.1, eq_of_sameAll h.2]
end

instance : DecidableEq Ty := fun a b =>
  decidable_of_iff (same a b = true) ⟨eq_of_same, fun h => h ▸ same_refl a⟩

def ofName (name : String) : Ty :=
  if name = "int" then .int
  else if name = "float" then .float
  else if name = "bool" then .bool
  else if name = "void" then .void
  else .error s!"Unknown type: {name}."

def isError : Ty → Bool
  | .error _ => true
  | _ => false

def isScalar : Ty → Bool
  | .int | .float | .bool => true
  | _ => false

def isFloat : Ty → Bool
  | .float => true
  | _ => false

def isVoid : Ty → Bool
  | .void => true
  | _ => false

def innermost : Ty → Ty
  | .array _ element => element.innermost
  | t => t

def wordSize : Nat := 4

/-- Bytes of storage that a value takes, for the types that can be stored. They are counted in 64
bits, so that the sizes of large arrays wrap around. -/
def size? : Ty → Option UInt64
  | .int | .float | .bool => some (.ofNat wordSize)
  | .array extent element => element.size?.map (.ofNat extent * ·)
  | _ => none

mutual
/-- Types of the same shape. An error is equivalent to nothing, itself included. -/
def equivalent : Ty → Ty → Bool
  | .int, .int | .float, .float | .bool, .bool | .void, .void => true
  | .array m a, .array n b => m == n && a.equivalent b
  | .address a, .address b => a.equivalent b
  | .func ps a, .func qs b => equivalentAll ps qs && a.equivalent b
  | _, _ => false

def equivalentAll : List Ty → List Ty → Bool
  | [], [] => true
  | a :: as, b :: bs => a.equivalent b && equivalentAll as bs
  | _, _ => false
end

mutual
def render : Ty → String
  | .int => "int"
  | .float => "float"
  | .bool => "bool"
  | .void => "void"
  | .array extent element => s!"array[{extent},{element.render}]"
  | .address target => s!"Address({target.render})"
  | .func params result =>
    "func(TypeList(" ++ ", ".intercalate (renderAll params) ++ s!")):{result.render}"
  | .error message => s!"ErrorType({message})"

def renderAll : List Ty → List String
  | [] => []
  | t :: ts => t.render :: renderAll ts
end

def renderList (ts : List Ty) : String := "TypeList(" ++ ", ".intercalate (renderAll ts) ++ ")"

end Ty

end Crux
