import Crux.Proofs.Scope.Accepted
import Crux.Proofs.Semantics
import Crux.Proofs.Typing.Sound

namespace Crux

theorem Ty.ofBinary_value {op : BinaryOp} {a b v : Value} (h : Value.binary op a b = some v) :
    Ty.ofBinary op a.ty b.ty = v.ty := by
  unfold Value.binary at h
  split at h
  case h_4 =>
    split at h
    · cases h
    · cases h
      rfl
  all_goals
    cases h
    try rfl

theorem Ty.compare_value {op : CompareOp} {a b v : Value} (h : Value.compare op a b = some v) :
    a.ty = .int ∧ Ty.compare a.ty b.ty = v.ty := by
  unfold Value.compare at h
  split at h <;> cases h <;> exact ⟨rfl, rfl⟩

theorem Ty.not_value {a v : Value} (h : a.not = some v) : Ty.not a.ty = v.ty := by
  cases a with
  | int => cases h
  | bool b =>
    cases h
    rfl

@[simp] theorem Value.isError_ty (v : Value) : v.ty.isError = false := by
  cases v <;> rfl

namespace Node

theorem infer_eval_place (S : Store) (e : Option Enclosing) (n : Node) :
    (∀ v, n.eval S = some v → n.infer e = v.ty) ∧
      ∀ p, n.place S = some p → (p.path = [] → p.ty.isError = false) →
        n.infer e = .address p.ty := by
  induction n using children_induction with
  | step n ih =>
    cases n with
    | int | bool =>
      refine ⟨fun v h => ?_, by simp [place]⟩
      cases h
      rfl
    | addressOf g s =>
      refine ⟨by simp [eval], fun p h he => ?_⟩
      cases h
      simp [infer, Ty.ofUse, show s.ty.isError = false from he rfl, Place.ofSymbol]
    | dereference g a =>
      refine ⟨fun v h => ?_, by simp [place]⟩
      obtain ⟨p, hp, hv⟩ := Option.bind_eq_some_iff.mp h
      obtain ⟨-, ht⟩ := Store.get?_eq_some hv
      have ha := (ih a (by simp [children])).2 p hp fun _ => ht ▸ v.isError_ty
      rw [infer, ha, ht, Ty.dereference, Ty.passing_eq (by simp)]
    | index g a b =>
      refine ⟨by simp [eval], fun q h _ => ?_⟩
      obtain ⟨p, hp, h⟩ := Option.bind_eq_some_iff.mp h
      obtain ⟨v, hv, h⟩ := Option.bind_eq_some_iff.mp h
      obtain ⟨i, extent, rfl, ht, -⟩ := Place.element?_eq_some h
      have ha := (ih a (by simp [children])).2 p hp fun _ => by rw [ht]; rfl
      have hb := (ih b (by simp [children])).1 _ hv
      rw [infer, ha, hb, ht]
      rfl
    | binary g op a b =>
      refine ⟨fun v h => ?_, by simp [place]⟩
      obtain ⟨x, hx, h⟩ := Option.bind_eq_some_iff.mp h
      obtain ⟨y, hy, h⟩ := Option.bind_eq_some_iff.mp h
      rw [infer, (ih a (by simp [children])).1 x hx, (ih b (by simp [children])).1 y hy]
      exact Ty.ofBinary_value h
    | compare g op a b =>
      refine ⟨fun v h => ?_, by simp [place]⟩
      obtain ⟨x, hx, h⟩ := Option.bind_eq_some_iff.mp h
      obtain ⟨y, hy, h⟩ := Option.bind_eq_some_iff.mp h
      rw [infer, (ih a (by simp [children])).1 x hx, (ih b (by simp [children])).1 y hy]
      exact (Ty.compare_value h).2
    | not g a =>
      refine ⟨fun v h => ?_, by simp [place]⟩
      obtain ⟨x, hx, h⟩ := Option.bind_eq_some_iff.mp h
      rw [infer, (ih a (by simp [children])).1 x hx]
      exact Ty.not_value h
    | _ => simp [eval, place]

theorem infer_eval {S : Store} {n : Node} {v : Value} (h : n.eval S = some v)
    (e : Option Enclosing) : n.infer e = v.ty :=
  (n.infer_eval_place S e).1 v h

theorem infer_place {S : Store} {n : Node} {p : Place} (h : n.place S = some p)
    (he : p.path = [] → p.ty.isError = false) (e : Option Enclosing) : n.infer e = .address p.ty :=
  (n.infer_eval_place S e).2 p h he

theorem findings_child {m n : Node} (h : m ∈ n.children) (e : Option Enclosing) :
    ∃ e', ∀ f ∈ m.findings e', f ∈ n.findings e := by
  cases n with
  | function g s params body =>
    obtain rfl := List.mem_singleton.mp h
    exact ⟨some s.enclosing, fun f hf => by simp [findings, hf]⟩
  | list g kind items =>
    refine ⟨e, fun f hf => ?_⟩
    rw [findings, findingsAll_eq_flatMap]
    exact List.mem_append_left _ (List.mem_flatMap.mpr ⟨m, h, hf⟩)
  | int | float | bool | addressOf | var | array | leave | error => cases h
  | _ =>
    refine ⟨e, fun f hf => ?_⟩
    simp only [children, List.mem_cons, List.not_mem_nil, or_false] at h
    simp only [findings, List.mem_append]
    grind

theorem mem_findings {m n : Node} (h : m ∈ n.preorder) (hl : m.isList = false)
    (e : Option Enclosing) : ∃ e', .type m.id (m.infer e') ∈ n.findings e := by
  induction n using children_induction generalizing e with
  | step n ih =>
    obtain rfl | ⟨c, hc, hm⟩ := mem_preorder.mp h
    · refine ⟨e, ?_⟩
      have hv (inputs : List Ty) : .type m.id (m.infer e) ∈ m.verdict (m.infer e) inputs :=
        List.mem_append_right _ List.mem_cons_self
      cases m with
      | list => cases hl
      | function => simp [findings, infer]
      | _ => simp [findings, hv]
    · obtain ⟨e', hf⟩ := findings_child hc e
      obtain ⟨e'', h⟩ := ih c hc hm e'
      exact ⟨e'', hf _ h⟩

def Typed (types : Nat → Option Ty) (n : Node) : Prop :=
  n.isList = false → ∃ e, types n.id = some (n.infer e)

theorem Accepted.typed {root : Node} (h : root.Accepted)
    (he : (Checker.empty.check root).errors = []) :
    ∀ n ∈ root.preorder, n.Typed ((Checker.empty.check root).types[·]?) := by
  intro n hn hl
  obtain ⟨e, hf⟩ := mem_findings hn hl none
  exact ⟨e, findings_hold h.nodup_ids he hf⟩

end Node

end Crux
