import Crux.Proofs.Scope.Variables
import Crux.Proofs.Typing.Operations

namespace Crux

def Symbol.IsDeclarable (s : Symbol) : Prop := ∃ t, s.type? = some t ∧ t.Declarable

theorem Symbol.ty_eq {s : Symbol} {t : Ty} (h : s.type? = some t) : s.ty = t := by
  rw [ty, h]
  rfl

theorem Symbol.IsVariable.declarable {s : Symbol} {t : Ty} (h : s.IsVariable t) :
    s.IsDeclarable := by
  obtain ⟨ht, hs⟩ := h
  refine ⟨t, ht, ?_⟩
  cases t with
  | int | float | bool => exact hs
  | _ => cases hs

theorem Symbol.IsArray.declarable {s : Symbol} {t : Ty} (h : s.IsArray t) : s.IsDeclarable := by
  obtain ⟨ht, ⟨extent, element, rfl⟩, hs⟩ := h
  exact ⟨_, ht, hs⟩

theorem Ty.ofVariable_eq {s : Symbol} {t : Ty} (h : s.IsVariable t) : ofVariable s = t := by
  rw [ofVariable, Symbol.ty_eq h.1, h.2, Bool.or_true, if_pos rfl]

theorem Ty.of_ofVariable {s : Symbol} (hs : s.type?.isSome)
    (h : (ofVariable s).isError = false) : ∃ t, s.IsVariable t := by
  obtain ⟨t, ht⟩ := Option.isSome_iff_exists.mp hs
  refine ⟨t, ht, ?_⟩
  unfold ofVariable at h
  rw [Symbol.ty_eq ht] at h
  split at h
  · rename_i hor
    simpa [h] using hor
  · cases h

theorem Ty.ofArray_eq {s : Symbol} {t : Ty} (h : s.IsArray t) : ofArray s = t := by
  obtain ⟨ht, ⟨extent, element, rfl⟩, hs⟩ := h
  have he := isError_of_errorFree (errorFree_of_isScalar hs)
  simp only [ofArray, Symbol.ty_eq ht, he, Bool.or_false]
  exact if_pos hs

theorem Ty.of_ofArray {s : Symbol} (hs : s.type?.isSome) (h : (ofArray s).isError = false) :
    ∃ t, s.IsArray t := by
  obtain ⟨t, ht⟩ := Option.isSome_iff_exists.mp hs
  refine ⟨t, ht, ?_⟩
  simp only [ofArray, Symbol.ty_eq ht] at h
  split at h
  · rename_i hor
    rw [h, Bool.or_false] at hor
    cases t with
    | error => cases h
    | _ => cases hor
  · split at h
    · split at h
      · exact ⟨⟨_, _, rfl⟩, ‹_›⟩
      · cases h
    · cases h

namespace Node

def Quiet (e : Option Enclosing) (n : Node) : Prop := ∀ x ∈ n.findings e, x.error? = none

theorem quiet_verdict {n : Node} {t : Ty} {inputs : List Ty} (h : inputs.any Ty.isError = false) :
    (∀ x ∈ n.verdict t inputs, x.error? = none) ↔ t.isError = false := by
  cases t with
  | error message => simp [verdict, h, Finding.error?, Ty.isError]
  | _ => simp [verdict, Finding.error?, Ty.isError]

def isPart : Node → Bool
  | .list .. | .function .. => false
  | _ => true

theorem quiet_part {n : Node} {e : Option Enclosing} (h : n.isPart) :
    n.Quiet e ↔ (∀ m ∈ n.children, m.Quiet e) ∧
      ∀ x ∈ n.verdict (n.infer e) (n.inputs e), x.error? = none := by
  cases n with
  | list | function => cases h
  | branch | loop =>
    simp only [Quiet, findings, List.forall_mem_append, children, List.forall_mem_cons,
      List.not_mem_nil, false_implies, implies_true, and_true]
    tauto
  | _ => simp [Quiet, findings, or_imp, forall_and, children, and_assoc]

theorem quiet_list {g : Tag} {kind : ListKind} {items : List Node} {e : Option Enclosing} :
    (list g kind items).Quiet e ↔ ∀ n ∈ items, n.Quiet e := by
  simp only [Quiet, findings, findingsAll_eq_flatMap, List.forall_mem_append, List.mem_flatMap,
    List.mem_singleton, forall_eq, Finding.error?, and_true]
  constructor
  · intro h n hn x hx
    exact h x ⟨n, hn, hx⟩
  · rintro h x ⟨n, hn, hx⟩
    exact h n hn x hx

theorem quiet_var {g : Tag} {s : Symbol} {e : Option Enclosing} (hs : s.type?.isSome) :
    (var g s).Quiet e ↔ ∃ t, s.IsVariable t := by
  refine (quiet_part rfl).trans ((and_iff_right nofun).trans ((quiet_verdict rfl).trans ?_))
  refine ⟨Ty.of_ofVariable hs, fun ⟨t, ht⟩ => ?_⟩
  rw [infer, Ty.ofVariable_eq ht]
  exact Ty.isError_of_errorFree (Ty.errorFree_of_isScalar ht.2)

theorem quiet_array {g : Tag} {s : Symbol} {e : Option Enclosing} (hs : s.type?.isSome) :
    (array g s).Quiet e ↔ ∃ t, s.IsArray t := by
  refine (quiet_part rfl).trans ((and_iff_right nofun).trans ((quiet_verdict rfl).trans ?_))
  refine ⟨Ty.of_ofArray hs, fun ⟨t, ht⟩ => ?_⟩
  rw [infer, Ty.ofArray_eq ht]
  exact Ty.isError_of_errorFree (Ty.errorFree_of_innermost ht.2.2)

/-- The check reports nothing exactly if the node has a type, and then it infers that type. -/
structure Decided (f : Enclosing) (n : Node) : Prop where
  quiet_iff : n.Quiet (some f) ↔ ∃ t, n.HasType f t
  infer_eq : ∀ {t}, n.HasType f t → n.infer (some f) = t ∧ t.errorFree

structure DecidedRow (f : Enclosing) (items : List Node) : Prop where
  quiet_iff : (∀ n ∈ items, n.Quiet (some f)) ↔ ∃ ts, List.Forall₂ (HasType f) items ts
  infer_eq : ∀ {ts}, List.Forall₂ (HasType f) items ts →
    items.map (infer (some f)) = ts ∧ ∀ t ∈ ts, t.errorFree

variable {f : Enclosing} {n : Node} {items : List Node} {A : Prop}

theorem DecidedRow.quiet_list_iff (h : DecidedRow f items) {g : Tag} {kind : ListKind} :
    (list g kind items).Quiet (some f) ↔ ∃ ts, List.Forall₂ (HasType f) items ts :=
  quiet_list.trans h.quiet_iff

theorem Decided.of_rule (hn : n.isPart) (hq : (∀ m ∈ n.children, m.Quiet (some f)) ↔ A)
    (hi : A → (n.inputs (some f)).any Ty.isError = false)
    (hrule : A → (n.infer (some f)).isError = false → ∃ t, n.HasType f t)
    (hinv : ∀ {t}, n.HasType f t → A ∧ n.infer (some f) = t ∧ t.errorFree) : n.Decided f := by
  refine ⟨(quiet_part hn).trans ⟨fun ⟨h, hv⟩ => ?_, fun ⟨t, ht⟩ => ?_⟩, fun ht => (hinv ht).2⟩
  · have ha := hq.mp h
    exact hrule ha ((quiet_verdict (hi ha)).mp hv)
  · obtain ⟨ha, e, hfree⟩ := hinv ht
    exact ⟨hq.mpr ha, (quiet_verdict (hi ha)).mpr (e ▸ Ty.isError_of_errorFree hfree)⟩

theorem Decided.of_first {a : Node} {op : Ty → Ty} (ha : a.Decided f) (hn : n.isPart)
    (hc : (∀ m ∈ n.children, m.Quiet (some f)) ↔ a.Quiet (some f) ∧ A)
    (hi : n.inputs (some f) = [a.infer (some f)])
    (hop : n.infer (some f) = op (a.infer (some f)))
    (hrule : ∀ {t}, a.HasType f t → A → t.errorFree → (op t).isError = false → ∃ u, n.HasType f u)
    (hinv : ∀ {u}, n.HasType f u →
      ∃ t, a.HasType f t ∧ A ∧ (t.errorFree → op t = u ∧ u.errorFree)) : n.Decided f := by
  refine .of_rule hn (hc.trans (and_congr_left' ha.quiet_iff)) ?_ ?_ ?_
  · rintro ⟨⟨t, ht⟩, -⟩
    obtain ⟨e, hfree⟩ := ha.infer_eq ht
    simp [hi, e, Ty.isError_of_errorFree hfree]
  · rintro ⟨⟨t, ht⟩, hA⟩ hok
    obtain ⟨e, hfree⟩ := ha.infer_eq ht
    exact hrule ht hA hfree (by rwa [hop, e] at hok)
  · intro u hu
    obtain ⟨t, ht, hA, h⟩ := hinv hu
    obtain ⟨e, hfree⟩ := ha.infer_eq ht
    exact ⟨⟨⟨t, ht⟩, hA⟩, by rw [hop, e, (h hfree).1], (h hfree).2⟩

theorem Decided.unary {a : Node} {op : Ty → Ty} (ha : a.Decided f) (hn : n.isPart)
    (hc : n.children = [a]) (hi : n.inputs (some f) = [a.infer (some f)])
    (hop : n.infer (some f) = op (a.infer (some f)))
    (hrule : ∀ {t}, a.HasType f t → t.errorFree → (op t).isError = false → ∃ u, n.HasType f u)
    (hinv : ∀ {u}, n.HasType f u →
      ∃ t, a.HasType f t ∧ (t.errorFree → op t = u ∧ u.errorFree)) : n.Decided f := by
  refine .of_first (A := True) ha hn (by simp [hc]) hi hop (fun ht _ => hrule ht) fun hu => ?_
  obtain ⟨t, ht, h⟩ := hinv hu
  exact ⟨t, ht, trivial, h⟩

theorem Decided.binary {a b : Node} {op : Ty → Ty → Ty} (ha : a.Decided f) (hb : b.Decided f)
    (hn : n.isPart) (hc : n.children = [a, b])
    (hi : n.inputs (some f) = [a.infer (some f), b.infer (some f)])
    (hop : n.infer (some f) = op (a.infer (some f)) (b.infer (some f)))
    (hrule : ∀ {t u}, a.HasType f t → b.HasType f u → t.errorFree → u.errorFree →
      (op t u).isError = false → ∃ v, n.HasType f v)
    (hinv : ∀ {v}, n.HasType f v → ∃ t u, a.HasType f t ∧ b.HasType f u ∧
      (t.errorFree → u.errorFree → op t u = v ∧ v.errorFree)) : n.Decided f := by
  refine .of_rule (A := (∃ t, a.HasType f t) ∧ ∃ t, b.HasType f t) hn ?_ ?_ ?_ ?_
  · rw [hc, List.forall_mem_cons, List.forall_mem_singleton, ha.quiet_iff, hb.quiet_iff]
  · rintro ⟨⟨t, ht⟩, u, hu⟩
    rw [hi, (ha.infer_eq ht).1, (hb.infer_eq hu).1]
    exact Ty.any_isError_pair (ha.infer_eq ht).2 (hb.infer_eq hu).2
  · rintro ⟨⟨t, ht⟩, u, hu⟩ hok
    obtain ⟨et, hft⟩ := ha.infer_eq ht
    obtain ⟨eu, hfu⟩ := hb.infer_eq hu
    exact hrule ht hu hft hfu (by rwa [hop, et, eu] at hok)
  · intro v hv
    obtain ⟨t, u, ht, hu, h⟩ := hinv hv
    obtain ⟨et, hft⟩ := ha.infer_eq ht
    obtain ⟨eu, hfu⟩ := hb.infer_eq hu
    exact ⟨⟨⟨t, ht⟩, u, hu⟩, by rw [hop, et, eu, (h hft hfu).1], (h hft hfu).2⟩

theorem Decided.row (h : ∀ n ∈ items, n.Decided f) : DecidedRow f items := by
  induction items with
  | nil =>
    refine ⟨⟨fun _ => ⟨[], .nil⟩, fun _ => nofun⟩, fun hts => ?_⟩
    cases hts
    exact ⟨rfl, nofun⟩
  | cons n items ih =>
    obtain ⟨hn, hitems⟩ := List.forall_mem_cons.mp h
    have hrow := ih hitems
    constructor
    · rw [List.forall_mem_cons, hn.quiet_iff, hrow.quiet_iff]
      constructor
      · rintro ⟨⟨t, ht⟩, ts, hts⟩
        exact ⟨t :: ts, .cons ht hts⟩
      · rintro ⟨_, hts⟩
        cases hts with
        | cons ht hts => exact ⟨⟨_, ht⟩, _, hts⟩
    · intro _ hts
      cases hts with
      | cons ht hts =>
        obtain ⟨et, ft⟩ := hn.infer_eq ht
        obtain ⟨ets, fts⟩ := hrow.infer_eq hts
        exact ⟨by rw [List.map_cons, et, ets], List.forall_mem_cons.mpr ⟨ft, fts⟩⟩

theorem decided_addressOf {g : Tag} {s : Symbol} (hs : s.IsDeclarable) :
    (addressOf g s).Decided f := by
  obtain ⟨t, ht, hd⟩ := hs
  have he := Ty.isError_of_errorFree hd.errorFree
  refine .of_rule rfl (iff_true_intro (List.forall_mem_nil _)) (fun _ => ?_)
    (fun _ _ => ⟨_, .addressOf ht⟩) fun h => ?_
  · simp [inputs, Symbol.ty_eq ht, he]
  · cases h with
    | addressOf ht' =>
      obtain rfl := Option.some.inj (ht.symm.trans ht')
      exact ⟨trivial, by simp [infer, Ty.ofUse, Symbol.ty_eq ht, he], hd.errorFree⟩

theorem decided_call {g g' : Tag} {s : Symbol} (hs : s.IsDeclarable) (hrow : DecidedRow f items) :
    (call g s (.list g' .expressions items)).Decided f := by
  obtain ⟨t, ht, hd⟩ := hs
  have hinfer {ts : List Ty} (hts : List.Forall₂ (HasType f) items ts) :
      infer (some f) (.call g s (.list g' .expressions items)) = t.call ts := by
    simp [infer, members, inferAll_eq_map, hrow.infer_eq hts, Symbol.ty_eq ht]
  refine .of_rule rfl (List.forall_mem_singleton.trans hrow.quiet_list_iff) ?_ ?_ ?_
  · rintro ⟨ts, hts⟩
    obtain ⟨e, hfree⟩ := hrow.infer_eq hts
    have := Ty.any_isError_call hd hfree
    simp only [inputs, members, inferAll_eq_map, e, Symbol.ty_eq ht, List.any_append,
      List.any_cons, hd.signature, Option.toList_none, List.any_nil, List.nil_append] at this ⊢
    simpa [Bool.or_comm] using this
  · rintro ⟨ts, hts⟩ hok
    rw [hinfer hts] at hok
    obtain ⟨result, rfl⟩ := Ty.of_call hd (hrow.infer_eq hts).2 hok
    exact ⟨_, .call ht hts⟩
  · intro u h
    cases h with
    | call ht' hts =>
      obtain rfl := Option.some.inj (ht.symm.trans ht')
      have hfree := hd.errorFree
      simp only [Ty.errorFree, Bool.and_eq_true] at hfree
      exact ⟨⟨_, hts⟩, (hinfer hts).trans (Ty.call_func hd), hfree.2⟩

theorem Decided.of_declared {P : Ty → Prop} (hq : n.Quiet (some f) ↔ ∃ t, P t)
    (hp : ∀ {t}, P t → n.infer (some f) = t ∧ t.errorFree) (hiff : ∀ t, n.HasType f t ↔ P t) :
    n.Decided f :=
  ⟨hq.trans (exists_congr fun t => (hiff t).symm), fun h => hp ((hiff _).mp h)⟩

theorem decided_var {g : Tag} {s : Symbol} (hs : s.type?.isSome) : (var g s).Decided f := by
  refine .of_declared (quiet_var hs)
    (fun h => ⟨Ty.ofVariable_eq h, Ty.errorFree_of_isScalar h.2⟩) fun t => ⟨fun h => ?_, .var⟩
  cases h with
  | var h => exact h

theorem decided_array {g : Tag} {s : Symbol} (hs : s.type?.isSome) : (array g s).Decided f := by
  refine .of_declared (quiet_array hs)
    (fun h => ⟨Ty.ofArray_eq h, Ty.errorFree_of_innermost h.2.2⟩) fun t => ⟨fun h => ?_, .array⟩
  cases h with
  | array h => exact h

variable {c : Node} {g g' g'' : Tag} {ys zs : List Node}

theorem decided_branch (hc : c.Decided f) (hy : DecidedRow f ys) (hz : DecidedRow f zs) :
    (branch g c (.list g' .statements ys) (.list g'' .statements zs)).Decided f := by
  refine .of_first (A := (∃ ts, List.Forall₂ (HasType f) ys ts) ∧
    ∃ ts, List.Forall₂ (HasType f) zs ts) hc rfl ?_ rfl rfl
    (fun ht hrows hfree hok => ?_) fun h => ?_
  · rw [children, List.forall_mem_cons, List.forall_mem_cons, List.forall_mem_singleton,
      hy.quiet_list_iff, hz.quiet_list_iff]
  · obtain ⟨⟨ts, hts⟩, us, hus⟩ := hrows
    obtain rfl := Ty.of_ofCondition hfree hok
    exact ⟨_, .branch ht hts hus⟩
  · cases h with
    | branch ht hts hus => exact ⟨_, ht, ⟨⟨_, hts⟩, _, hus⟩, fun _ => ⟨rfl, rfl⟩⟩

theorem decided_loop (hc : c.Decided f) (hb : DecidedRow f ys) :
    (loop g c (.list g' .statements ys)).Decided f := by
  refine .of_first (A := ∃ ts, List.Forall₂ (HasType f) ys ts) hc rfl ?_ rfl rfl
    (fun ht hrow hfree hok => ?_) fun h => ?_
  · rw [children, List.forall_mem_cons, List.forall_mem_singleton, hb.quiet_list_iff]
  · obtain ⟨ts, hts⟩ := hrow
    obtain rfl := Ty.of_ofCondition hfree hok
    exact ⟨_, .loop ht hts⟩
  · cases h with
    | loop ht hts => exact ⟨_, ht, ⟨_, hts⟩, fun _ => ⟨rfl, rfl⟩⟩

end Node

open Node in
def Role.Decides (f : Enclosing) (n : Node) : Role → Prop
  | .value | .address | .statement => n.Decided f
  | .arguments | .block => DecidedRow f n.children
  | .declaration => (∀ g s params body, n ≠ .function g s params body) → n.Decided f
  | .program => True

namespace Node

variable {f : Enclosing} {n : Node} {role : Role} {env : Env}

theorem Scoped.decides (h : Scoped role env n) (hf : f.result.isError = false)
    (hu : ∀ m ∈ n.preorder, ∀ s ∈ m.uses, s.IsDeclarable) : role.Decides f n := by
  induction h with
  | int | float | bool =>
    refine .of_rule rfl (iff_true_intro (List.forall_mem_nil _)) (fun _ => rfl)
      (fun _ _ => ⟨_, by constructor⟩) fun h => ?_
    cases h
    exact ⟨trivial, rfl, rfl⟩
  | error =>
    refine .of_rule rfl (iff_true_intro (List.forall_mem_nil _)) (fun _ => rfl) (fun _ h => ?_)
      fun h => ?_
    · cases h
    · cases h
  | addressOf => exact decided_addressOf (hu _ (mem_preorder_self _) _ List.mem_cons_self)
  | dereference _ ih =>
    refine .unary (ih (forall_child hu List.mem_cons_self)) rfl rfl rfl rfl (fun ht hfree hok => ?_)
      fun h => ?_
    · obtain ⟨u, rfl⟩ := Ty.of_dereference hfree hok
      exact ⟨u, .dereference ht⟩
    · cases h with
      | dereference ht => exact ⟨_, ht, fun hfree => ⟨Ty.dereference_address hfree, hfree⟩⟩
  | not _ ih =>
    refine .unary (ih (forall_child hu List.mem_cons_self)) rfl rfl rfl rfl (fun ht hfree hok => ?_)
      fun h => ?_
    · obtain rfl := Ty.of_not hfree hok
      exact ⟨_, .not ht⟩
    · cases h with
      | not ht => exact ⟨_, ht, fun _ => ⟨rfl, rfl⟩⟩
  | leave =>
    refine .of_rule rfl (iff_true_intro (List.forall_mem_nil _)) (fun _ => rfl) (fun _ hok => ?_)
      fun h => ?_
    · exact ⟨_, .leave (Ty.of_ofReturn rfl hf hok)⟩
    · cases h with
      | leave hr => exact ⟨trivial, Ty.ofReturn_eq rfl hr, rfl⟩
  | leaveWith _ ih =>
    refine .unary (ih (forall_child hu List.mem_cons_self)) rfl rfl rfl rfl (fun ht hfree hok => ?_)
      fun h => ?_
    · exact ⟨_, .leaveWith ht (Ty.of_ofReturn hfree hf hok)⟩
    · cases h with
      | leaveWith ht hr => exact ⟨_, ht, fun hfree => ⟨Ty.ofReturn_eq hfree hr, hfree⟩⟩
  | binary _ _ iha ihb =>
    have ha := iha (forall_child hu List.mem_cons_self)
    have hb := ihb (forall_child hu (List.mem_cons_of_mem _ List.mem_cons_self))
    refine .binary ha hb rfl rfl rfl rfl (fun ht hu hft hfu hok => ?_) fun h => ?_
    · obtain ⟨hj, rfl⟩ := Ty.of_ofBinary hft hfu hok
      exact ⟨_, .binary hj ht hu⟩
    · cases h with
      | binary hj ht hu => exact ⟨_, _, ht, hu, fun hft _ => ⟨Ty.ofBinary_eq hj, hft⟩⟩
  | compare _ _ iha ihb =>
    have ha := iha (forall_child hu List.mem_cons_self)
    have hb := ihb (forall_child hu (List.mem_cons_of_mem _ List.mem_cons_self))
    refine .binary ha hb rfl rfl rfl rfl (fun ht hu hft hfu hok => ?_) fun h => ?_
    · obtain ⟨hnum, rfl⟩ := Ty.of_compare hft hfu hok
      exact ⟨_, .compare hnum ht hu⟩
    · cases h with
      | compare hnum ht hu => exact ⟨_, _, ht, hu, fun _ _ => ⟨Ty.compare_number hnum, rfl⟩⟩
  | index _ _ iha ihb =>
    have ha := iha (forall_child hu List.mem_cons_self)
    have hb := ihb (forall_child hu (List.mem_cons_of_mem _ List.mem_cons_self))
    refine .binary ha hb rfl rfl rfl rfl (fun ht hu hft hfu hok => ?_) fun h => ?_
    · obtain ⟨extent, element, rfl, rfl⟩ := Ty.of_index hft hfu hok
      exact ⟨_, .index ht hu⟩
    · cases h with
      | index ht hu => exact ⟨_, _, ht, hu, fun hft _ => ⟨Ty.index_array, hft⟩⟩
  | assign _ _ iha ihb =>
    have ha := iha (forall_child hu List.mem_cons_self)
    have hb := ihb (forall_child hu (List.mem_cons_of_mem _ List.mem_cons_self))
    refine .binary ha hb rfl rfl rfl rfl (fun ht hu hft hfu hok => ?_) fun h => ?_
    · obtain ⟨rfl, hs⟩ := Ty.of_assign hft hfu hok
      exact ⟨_, .assign ht hs hu⟩
    · cases h with
      | assign ht hs hu => exact ⟨_, _, ht, hu, fun _ hfu => ⟨Ty.assign_scalar hs, hfu⟩⟩
  | call _ hargs ih =>
    cases hargs with
    | arguments =>
      exact decided_call (hu _ (mem_preorder_self _) _ List.mem_cons_self)
        (ih (forall_child hu List.mem_cons_self))
  | arguments _ ih => exact Decided.row fun m hm => ih m hm (forall_child hu hm)
  | block _ ih =>
    refine Decided.row fun m hm => ?_
    obtain ⟨before, rest, rfl⟩ := List.append_of_mem hm
    exact ih before m rest rfl (forall_child hu hm)
  | var _ hs => exact fun _ => decided_var hs
  | array _ hs => exact fun _ => decided_array hs
  | function => exact fun hn => absurd rfl (hn _ _ _ _)
  | «local» _ hn ih => exact ih hu hn
  | result _ ih => exact ih hu
  | branch _ hy hz ihc ihy ihz =>
    cases hy with
    | block =>
      cases hz with
      | block =>
        exact decided_branch (ihc (forall_child hu List.mem_cons_self))
          (ihy (forall_child hu (by simp [children]))) (ihz (forall_child hu (by simp [children])))
  | loop _ hb ihc ihb =>
    cases hb with
    | block =>
      exact decided_loop (ihc (forall_child hu List.mem_cons_self))
        (ihb (forall_child hu (by simp [children])))
  | program => trivial

end Node

end Crux
