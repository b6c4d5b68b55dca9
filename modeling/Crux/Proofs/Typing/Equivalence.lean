import Crux.Proofs.Typing.Operations

namespace Crux

namespace Ty

def parts : Ty → List Ty
  | .array _ t | .address t => [t]
  | .func params result => params ++ [result]
  | .int | .float | .bool | .void | .error _ => []

theorem sizeOf_lt_of_mem_parts {t u : Ty} (h : t ∈ u.parts) : sizeOf t < sizeOf u := by
  cases u with
  | func params result =>
    obtain h | h := List.mem_append.mp h
    · have : sizeOf t < sizeOf params := List.sizeOf_lt_of_mem h
      simp only [func.sizeOf_spec]
      omega
    · obtain rfl := List.mem_singleton.mp h
      simp only [func.sizeOf_spec]
      omega
  | _ => grind [parts]

@[elab_as_elim]
theorem parts_induction {P : Ty → Prop} (step : ∀ t, (∀ u ∈ t.parts, P u) → P t) (t : Ty) : P t :=
  step t fun u hu =>
    have := sizeOf_lt_of_mem_parts hu
    parts_induction step u
  termination_by sizeOf t

/-- `t.Within u`: the type `t` stands in `u`, at some depth, or is `u`. -/
inductive Within (t : Ty) : Ty → Prop
  | refl : Within t t
  | part {u v : Ty} : u ∈ v.parts → Within t u → Within t v

theorem errorFree_iff_parts {t : Ty} :
    t.errorFree ↔ t.isError = false ∧ ∀ u ∈ t.parts, u.errorFree := by
  cases t with
  | func params result =>
    simp [errorFree, isError, parts, errorFreeAll_iff, or_imp, forall_and]
  | _ => simp [errorFree, isError, parts]

theorem Within.errorFree {t u : Ty} (h : t.Within u) (hu : u.errorFree) : t.errorFree := by
  induction h with
  | refl => exact hu
  | part hpart _ ih => exact ih ((errorFree_iff_parts.mp hu).2 _ hpart)

theorem errorFree_iff {t : Ty} : t.errorFree ↔ ∀ message, ¬ (error message).Within t := by
  constructor
  · intro ht message h
    cases h.errorFree ht
  · intro h
    induction t using parts_induction with
    | step t ih =>
      have hroot : t.isError = false := by
        cases t with
        | error message => exact absurd .refl (h message)
        | _ => rfl
      refine errorFree_iff_parts.mpr ⟨hroot, fun u hu => ih u hu fun message hw => ?_⟩
      exact h message (.part hu hw)

/-- Types are equivalent exactly if they are equal and no error stands in them, and so are lists of
types, item by item. So equivalence is symmetric and transitive, and just the types without errors
are equivalent to themselves. -/
theorem equivalent_is_eq :
    (∀ a b : Ty, a.equivalent b ↔ a = b ∧ ∀ message, ¬ (error message).Within a) ∧
    (∀ s t : List Ty, equivalentAll s t ↔
      s = t ∧ ∀ a ∈ s, ∀ message, ¬ (error message).Within a) ∧
    (∀ a b : Ty, a.equivalent b ↔ b.equivalent a) ∧
    (∀ a b c : Ty, a.equivalent b → b.equivalent c → a.equivalent c) ∧
    ∀ a : Ty, a.equivalent a ↔ ∀ message, ¬ (error message).Within a := by
  simp only [← errorFree_iff, ← errorFreeAll_iff]
  refine ⟨fun _ _ => equivalent_iff, fun _ _ => equivalentAll_iff, fun a b => ?_, ?_, fun a => ?_⟩
  · rw [equivalent_iff, equivalent_iff]
    constructor
    · rintro ⟨rfl, ha⟩
      exact ⟨rfl, ha⟩
    · rintro ⟨rfl, ha⟩
      exact ⟨rfl, ha⟩
  · intro a b c hab hbc
    obtain ⟨rfl, -⟩ := equivalent_iff.mp hab
    exact hbc
  · rw [equivalent_iff, and_iff_right rfl]

theorem equivalent_is_eq_nested :
    (func [.array 2 .int, .func [] .float] .void).equivalent
      (func [.array 2 .int, .func [] .float] .void) ∧
    ¬ (func [.array 2 (.error "m")] .void).equivalent (func [.array 2 (.error "m")] .void) := by
  obtain ⟨-, -, -, htrans, hrefl⟩ := equivalent_is_eq
  refine ⟨htrans _ (func [.array 2 .int, .func [] .float] .void) _ (by decide) (by decide), ?_⟩
  intro h
  have hwithin : (error "m").Within (func [.array 2 (.error "m")] .void) :=
    .part List.mem_cons_self (.part List.mem_cons_self .refl)
  exact (hrefl _).mp h "m" hwithin

end Ty

end Crux
