import Crux.Proofs.Typing.Judgement
import Crux.Proofs.Typing.Sound

namespace Crux

namespace Ty

mutual
/-- No error occurs in the type, at any depth. -/
def errorFree : Ty → Bool
  | .int | .float | .bool | .void => true
  | .array _ t | .address t => t.errorFree
  | .func params result => errorFreeAll params && result.errorFree
  | .error _ => false

def errorFreeAll : List Ty → Bool
  | [] => true
  | t :: ts => t.errorFree && errorFreeAll ts
end

theorem errorFreeAll_iff {ts : List Ty} : errorFreeAll ts ↔ ∀ t ∈ ts, t.errorFree := by
  induction ts with
  | nil => simp [errorFreeAll]
  | cons t ts ih => simp [errorFreeAll, ih]

theorem isError_of_errorFree {t : Ty} (h : t.errorFree) : t.isError = false := by
  cases t with
  | error => cases h
  | _ => rfl

theorem errorFree_of_isScalar {t : Ty} (h : t.isScalar) : t.errorFree := by
  cases t with
  | int | float | bool => rfl
  | _ => cases h

theorem errorFree_of_innermost {t : Ty} (h : t.innermost.isScalar) : t.errorFree := by
  fun_induction innermost t with
  | case1 extent element ih => simpa [errorFree] using ih h
  | case2 t => exact errorFree_of_isScalar h

mutual
theorem equivalent_iff : ∀ {a b : Ty}, a.equivalent b ↔ a = b ∧ a.errorFree
  | .int, b | .float, b | .bool, b | .void, b | .error _, b => by
    cases b <;> simp [equivalent, errorFree]
  | .array _ a, b => by
    cases b <;> simp [equivalent, errorFree, equivalent_iff (a := a), and_assoc]
  | .address a, b => by
    cases b <;> simp [equivalent, errorFree, equivalent_iff (a := a)]
  | .func ps a, b => by
    cases b <;> simp [equivalent, errorFree, equivalentAll_iff (s := ps), equivalent_iff (a := a)]
    tauto

theorem equivalentAll_iff : ∀ {s t : List Ty}, equivalentAll s t ↔ s = t ∧ errorFreeAll s
  | [], t => by cases t <;> simp [equivalentAll, errorFreeAll]
  | a :: s, t => by
    cases t <;>
      simp [equivalentAll, errorFreeAll, equivalent_iff (a := a), equivalentAll_iff (s := s)]
    tauto
end

def Declarable : Ty → Prop
  | .func params result => (∀ p ∈ params, p.isScalar) ∧ (result.isScalar ∨ result = .void)
  | t => t.innermost.isScalar

theorem Declarable.errorFree {t : Ty} (h : t.Declarable) : t.errorFree := by
  cases t with
  | func params result =>
    obtain ⟨hp, hr⟩ := h
    simp only [Ty.errorFree, Bool.and_eq_true, errorFreeAll_iff]
    refine ⟨fun p hmem => errorFree_of_isScalar (hp p hmem), ?_⟩
    obtain hr | rfl := hr
    · exact errorFree_of_isScalar hr
    · rfl
  | _ => exact errorFree_of_innermost h

theorem Declarable.signature {t : Ty} (h : t.Declarable) : t.signatureError? = none := by
  cases t with
  | func params result =>
    refine List.find?_eq_none.mpr fun t ht => ?_
    have hf := h.errorFree
    simp only [Ty.errorFree, Bool.and_eq_true, errorFreeAll_iff] at hf
    obtain ht | ht := List.mem_append.mp ht
    · simp [isError_of_errorFree (hf.1 t ht)]
    · simp [List.mem_singleton.mp ht, isError_of_errorFree hf.2]
  | _ => rfl

variable {a b c : Ty}

theorem any_isError_pair (ha : a.errorFree) (hb : b.errorFree) : [a, b].any isError = false := by
  simp [isError_of_errorFree ha, isError_of_errorFree hb]

theorem dereference_address (h : (address a).errorFree) : (address a).dereference = a :=
  passing_eq (by simp [isError_of_errorFree h]) _

theorem of_dereference (ha : a.errorFree) (h : a.dereference.isError = false) :
    ∃ t, a = .address t := by
  unfold dereference at h
  rw [passing_eq (by simp [isError_of_errorFree ha])] at h
  split at h
  · exact ⟨_, rfl⟩
  · cases h

theorem of_index (ha : a.errorFree) (hb : b.errorFree) (h : (a.index b).isError = false) :
    ∃ extent t, a = .address (.array extent t) ∧ b = .int := by
  unfold index at h
  rw [passing_eq (any_isError_pair ha hb)] at h
  split at h
  · exact ⟨_, _, rfl, rfl⟩
  · cases h

theorem index_array {extent : Nat} : (address (.array extent a)).index .int = .address a := rfl

theorem ofBinary_eq {op : BinaryOp} (h : op.Joins a) : ofBinary op a a = a := by
  cases op with
  | and | or =>
    cases h
    rfl
  | _ => obtain rfl | rfl := h <;> rfl

theorem of_ofBinary {op : BinaryOp} (ha : a.errorFree) (hb : b.errorFree)
    (h : (ofBinary op a b).isError = false) : op.Joins a ∧ b = a := by
  cases op with
  | and | or =>
    simp only [ofBinary, Ty.and, Ty.or, logical, passing_eq (any_isError_pair ha hb)] at h
    split at h
    · exact ⟨rfl, rfl⟩
    · cases h
  | add | sub | mul | div =>
    simp only [ofBinary, add, sub, mul, div, arithmetic, passing_eq (any_isError_pair ha hb)] at h
    split at h
    · exact ⟨.inl rfl, rfl⟩
    · exact ⟨.inr rfl, rfl⟩
    · cases h

theorem compare_number (h : a = .int ∨ a = .float) : a.compare a = .bool := by
  obtain rfl | rfl := h <;> rfl

theorem of_compare (ha : a.errorFree) (hb : b.errorFree) (h : (a.compare b).isError = false) :
    (a = .int ∨ a = .float) ∧ b = a := by
  unfold compare at h
  rw [passing_eq (any_isError_pair ha hb)] at h
  split at h
  · exact ⟨.inl rfl, rfl⟩
  · exact ⟨.inr rfl, rfl⟩
  · cases h

theorem of_not (ha : a.errorFree) (h : a.not.isError = false) : a = .bool := by
  unfold Ty.not at h
  rw [passing_eq (by simp [isError_of_errorFree ha])] at h
  split at h
  · rfl
  · cases h

theorem assign_scalar (h : a.isScalar) : (address a).assign a = a := by
  cases a with
  | int | float | bool => rfl
  | _ => cases h

theorem of_assign (ha : a.errorFree) (hb : b.errorFree) (h : (a.assign b).isError = false) :
    a = .address b ∧ b.isScalar := by
  unfold assign at h
  rw [passing_eq (any_isError_pair ha hb)] at h
  split at h
  · split at h
    · rename_i t hboth
      obtain ⟨hs, he⟩ := Bool.and_eq_true_iff.mp hboth
      obtain ⟨rfl, -⟩ := equivalent_iff.mp he
      exact ⟨rfl, hs⟩
    · cases h
  · cases h

theorem any_isError_call {args : List Ty} (ha : a.Declarable) (hargs : ∀ t ∈ args, t.errorFree) :
    (a :: (a.signatureError?.toList ++ args)).any isError = false := by
  simp only [ha.signature, Option.toList_none, List.nil_append, List.any_cons,
    isError_of_errorFree ha.errorFree, Bool.false_or, List.any_eq_false]
  exact fun t ht => by simp [isError_of_errorFree (hargs t ht)]

theorem call_func {params : List Ty} (h : (func params a).Declarable) :
    (func params a).call params = a := by
  have hf := h.errorFree
  simp only [Ty.errorFree, Bool.and_eq_true] at hf
  unfold call
  rw [passing_eq (any_isError_call h (errorFreeAll_iff.mp hf.1))]
  exact if_pos (equivalentAll_iff.mpr ⟨rfl, hf.1⟩)

theorem of_call {args : List Ty} (ha : a.Declarable) (hargs : ∀ t ∈ args, t.errorFree)
    (h : (a.call args).isError = false) : ∃ result, a = .func args result := by
  unfold call at h
  rw [passing_eq (any_isError_call ha hargs)] at h
  split at h
  · split at h
    · rename_i params result he
      obtain ⟨rfl, -⟩ := equivalentAll_iff.mp he
      exact ⟨result, rfl⟩
    · cases h
  · cases h

theorem of_ofCondition {construct : String} (ha : a.errorFree)
    (h : (ofCondition construct a).isError = false) : a = .bool := by
  unfold ofCondition at h
  rw [passing_eq (by simp [isError_of_errorFree ha])] at h
  split at h
  · rfl
  · cases h

theorem ofReturn_eq {f : Enclosing} (ha : a.errorFree) (h : f.Returns a) :
    ofReturn (some f) a = a := by
  refine if_pos ?_
  obtain h | rfl := h
  · simp [h]
  · simp [equivalent_iff.mpr ⟨rfl, ha⟩]

theorem of_ofReturn {f : Enclosing} (ha : a.errorFree) (hf : f.result.isError = false)
    (h : (ofReturn (some f) a).isError = false) : f.Returns a := by
  simp only [ofReturn] at h
  split at h
  · rename_i hr
    simp only [isError_of_errorFree ha, hf, Bool.or_false, Bool.or_eq_true,
      decide_eq_true_eq] at hr
    exact hr.imp_right fun he => (equivalent_iff.mp he).1
  · cases h

end Ty

end Crux
