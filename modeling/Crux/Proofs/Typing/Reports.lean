import Crux.Proofs.Typing.Program
import Mathlib.Data.List.Perm.Basic

/-! Where reports are made. A node whose operands are errors themselves is silent, but an error that
is only a part of an operand's type is reported again, unless the node hands it on. -/

namespace Crux

namespace Node

mutual
def located (e : Option Enclosing) (n : Node) : List (Option Enclosing × Node) :=
  (e, n) ::
    match n with
    | .dereference _ a | .not _ a | .call _ _ a | .leaveWith _ a => a.located e
    | .index _ a b | .binary _ _ a b | .compare _ _ a b | .assign _ a b | .loop _ a b =>
      a.located e ++ b.located e
    | .branch _ a b c => a.located e ++ b.located e ++ c.located e
    | .function _ s _ body => body.located (some s.enclosing)
    | .list _ _ items => locatedAll e items
    | .int .. | .float .. | .bool .. | .addressOf .. | .var .. | .array .. | .leave ..
    | .error .. => []

def locatedAll (e : Option Enclosing) : List Node → List (Option Enclosing × Node)
  | [] => []
  | n :: rest => n.located e ++ locatedAll e rest
end

variable {e e' : Option Enclosing} {m n : Node}

theorem locatedAll_eq_flatMap (e : Option Enclosing) (items : List Node) :
    locatedAll e items = items.flatMap (located e) := by
  induction items with
  | nil => simp [locatedAll]
  | cons n rest ih => simp [locatedAll, ih]

theorem located_eq (e : Option Enclosing) (n : Node) :
    n.located e = (e, n) :: n.children.flatMap (located (n.inside e)) := by
  cases n <;> simp [located, children, inside, locatedAll_eq_flatMap]

theorem mem_located {p : Option Enclosing × Node} :
    p ∈ n.located e ↔ p = (e, n) ∨ ∃ c ∈ n.children, p ∈ c.located (n.inside e) := by
  rw [located_eq, List.mem_cons, List.mem_flatMap]

theorem mem_preorder_of_located (h : (e', m) ∈ n.located e) : m ∈ n.preorder := by
  induction n using children_induction generalizing e with
  | step n ih =>
    obtain h | ⟨c, hc, h⟩ := mem_located.mp h
    · cases h
      exact mem_preorder_self _
    · exact mem_preorder.mpr (.inr ⟨c, hc, ih c hc h⟩)

theorem type_mem_of_located (h : (e', m) ∈ n.located e) (hl : m.isList = false) :
    .type m.id (m.infer e') ∈ n.findings e := by
  induction n using children_induction generalizing e with
  | step n ih =>
    obtain h | ⟨c, hc, h⟩ := mem_located.mp h
    · cases h
      exact type_mem_findings.mpr (.inl ⟨hl, rfl, rfl⟩)
    · exact type_mem_findings.mpr (.inr ⟨c, hc, ih c hc h⟩)

def reports (e : Option Enclosing) (n : Node) : List TypeError :=
  (match n with
    | .function _ s params body =>
      n.headErrors s params ++ n.returnErrors s (body.members (some s.enclosing))
    | .list .. => []
    | _ => n.verdict (n.infer e) (n.inputs e)).filterMap Finding.error?

theorem errors_perm (e : Option Enclosing) (n : Node) :
    ((n.findings e).filterMap Finding.error?).Perm
      (n.reports e ++ n.children.flatMap fun c =>
        (c.findings (n.inside e)).filterMap Finding.error?) := by
  have htype (id : Nat) (t : Ty) : [Finding.type id t].filterMap Finding.error? = [] := rfl
  have hlist (id : Nat) (ts : List Ty) : [Finding.list id ts].filterMap Finding.error? = [] := rfl
  refine List.perm_iff_count.mpr fun x => ?_
  cases n with
  | list =>
    simp only [findings, findingsAll_eq_flatMap, reports, children, inside, List.filterMap_append,
      List.filterMap_flatMap, hlist]
    simp
  | _ =>
    simp only [findings, reports, children, inside, List.filterMap_append, List.flatMap_cons,
      List.flatMap_nil, List.count_append, List.count_nil, htype]
    omega

theorem errors_located (e : Option Enclosing) (n : Node) :
    ((n.findings e).filterMap Finding.error?).Perm
      ((n.located e).flatMap fun p => p.2.reports p.1) := by
  induction n using children_induction generalizing e with
  | step n ih =>
    rw [located_eq, List.flatMap_cons, List.flatMap_assoc]
    refine (n.errors_perm e).trans (.append_left _ ?_)
    exact List.Perm.flatMap_left _ fun c hc => ih c hc _

end Node

namespace Ty

/-- An error that is no part of the type but the whole of it, or none. -/
def Plain (t : Ty) : Prop := t.errorFree ∨ t.isError

instance (t : Ty) : Decidable t.Plain := inferInstanceAs (Decidable (_ ∨ _))

variable {a b : Ty}

theorem arithmetic_isError (h : [a, b].any isError = false)
    (hn : ¬ ∀ t ∈ [a, b], t.errorFree) (c : Clash) : (arithmetic a b c).isError := by
  unfold arithmetic
  rw [passing_eq h]
  split
  · exact absurd (by decide) hn
  · exact absurd (by decide) hn
  · rfl

theorem logical_isError (h : [a, b].any isError = false)
    (hn : ¬ ∀ t ∈ [a, b], t.errorFree) (c : Clash) : (logical a b c).isError := by
  unfold logical
  rw [passing_eq h]
  split
  · exact absurd (by decide) hn
  · rfl

theorem ofBinary_isError (op : BinaryOp) (h : [a, b].any isError = false)
    (hn : ¬ ∀ t ∈ [a, b], t.errorFree) : (ofBinary op a b).isError := by
  cases op with
  | add | sub | mul | div => exact arithmetic_isError h hn _
  | and | or => exact logical_isError h hn _

theorem compare_isError (h : [a, b].any isError = false)
    (hn : ¬ ∀ t ∈ [a, b], t.errorFree) : (a.compare b).isError := by
  unfold compare
  rw [passing_eq h]
  split
  · exact absurd (by decide) hn
  · exact absurd (by decide) hn
  · rfl

theorem not_isError (h : [a].any isError = false) (hn : ¬ ∀ t ∈ [a], t.errorFree) :
    a.not.isError := by
  unfold Ty.not
  rw [passing_eq h]
  split
  · exact absurd (by decide) hn
  · rfl

theorem ofCondition_isError (construct : String) (h : [a].any isError = false)
    (hn : ¬ ∀ t ∈ [a], t.errorFree) : (ofCondition construct a).isError := by
  unfold ofCondition
  rw [passing_eq h]
  split
  · exact absurd (by decide) hn
  · rfl

theorem assign_isError (h : [a, b].any isError = false)
    (hn : ¬ ∀ t ∈ [a, b], t.errorFree) : (a.assign b).isError := by
  unfold assign
  rw [passing_eq h]
  split
  · split
    · rename_i t hs
      simp only [Bool.and_eq_true, equivalent_iff] at hs
      obtain ⟨-, rfl, hfree⟩ := hs
      exact absurd (by simp [errorFree, hfree]) hn
    · rfl
  · rfl

theorem result_of_signature {params : List Ty} {result : Ty}
    (h : (func params result).signatureError?.toList.any isError = false) :
    result.isError = false := by
  rw [signatureError?] at h
  cases hf : (params ++ [result]).find? isError with
  | none => simpa using List.find?_eq_none.mp hf result (by simp)
  | some t =>
    have ht := List.find?_some hf
    simp [hf, ht] at h

theorem plain_error {t : Ty} (h : t.isError) : t.Plain := .inr h

theorem plain_passing {inputs : List Ty} {rule : Ty} (hin : ∀ t ∈ inputs, t.Plain)
    (h : (∀ t ∈ inputs, t.errorFree) → rule.Plain) : (passing inputs rule).Plain := by
  unfold passing
  cases hf : inputs.find? isError with
  | some t => exact plain_error (List.find?_some hf)
  | none => exact h fun t ht => (hin t ht).resolve_right (List.find?_eq_none.mp hf t ht)

theorem plain_ofBinary (op : BinaryOp) (ha : a.Plain) (hb : b.Plain) :
    (ofBinary op a b).Plain := by
  have hin : ∀ t ∈ [a, b], t.Plain := by simp [ha, hb]
  cases op with
  | add | sub | mul | div | and | or =>
    refine plain_passing hin fun _ => ?_
    split <;> simp [Plain, errorFree, isError, clash]

theorem plain_compare (ha : a.Plain) (hb : b.Plain) : (a.compare b).Plain := by
  refine plain_passing (by simp [ha, hb]) fun _ => ?_
  split <;> simp [Plain, errorFree, isError, clash]

theorem plain_not (ha : a.Plain) : a.not.Plain := by
  refine plain_passing (by simp [ha]) fun _ => ?_
  split <;> simp [Plain, errorFree, isError, clash]

theorem plain_ofCondition (construct : String) (ha : a.Plain) :
    (ofCondition construct a).Plain := by
  refine plain_passing (by simp [ha]) fun _ => ?_
  split <;> simp [Plain, errorFree, isError, fault]

theorem plain_dereference (ha : a.Plain) : a.dereference.Plain := by
  refine plain_passing (by simp [ha]) fun h => ?_
  have hfree := h a List.mem_cons_self
  split
  · simp_all [Plain, errorFree]
  · exact .inr rfl

theorem plain_index (ha : a.Plain) (hb : b.Plain) : (a.index b).Plain := by
  refine plain_passing (by simp [ha, hb]) fun h => ?_
  have hfree := h a List.mem_cons_self
  split
  · simp_all [Plain, errorFree]
  · exact .inr rfl

theorem plain_assign (ha : a.Plain) (hb : b.Plain) : (a.assign b).Plain := by
  refine plain_passing (by simp [ha, hb]) fun _ => ?_
  split
  · split
    · exact hb
    · exact .inr rfl
  · exact .inr rfl

theorem isError_of_signature {t : Ty} (h : a.signatureError? = some t) : t.isError := by
  cases a with
  | func => exact List.find?_some h
  | _ => cases h

theorem plain_call {args : List Ty} (ha : a.Plain) (hargs : ∀ t ∈ args, t.Plain) :
    (a.call args).Plain := by
  have hsignature : ∀ t ∈ a.signatureError?.toList, t.Plain := fun t ht =>
    plain_error (isError_of_signature (Option.mem_toList.mp ht))
  refine plain_passing (List.forall_mem_cons.mpr
    ⟨ha, List.forall_mem_append.mpr ⟨hsignature, hargs⟩⟩) fun h => ?_
  have hfree := h a List.mem_cons_self
  split
  · split
    · simp_all [Plain, errorFree]
    · exact .inr rfl
  · exact .inr rfl

theorem plain_ofReturn (e : Option Enclosing) (ha : a.Plain) : (ofReturn e a).Plain := by
  unfold ofReturn
  split
  · split
    · exact ha
    · exact .inr rfl
  · exact ha

theorem plain_ofUse {s : Symbol} (h : s.ty.Plain) : (ofUse s).Plain := by
  unfold ofUse
  split
  · exact h
  · exact .inl (h.resolve_right ‹_›)

theorem plain_ofVariable {s : Symbol} (h : s.ty.Plain) : (ofVariable s).Plain := by
  unfold ofVariable
  split
  · exact h
  · exact .inr rfl

theorem plain_ofArray {s : Symbol} (h : s.ty.Plain) : (ofArray s).Plain := by
  unfold ofArray
  dsimp only
  split
  · rename_i hor
    refine plain_error ?_
    cases hs : s.ty with
    | array => simpa [hs, isError] using hor
    | error => rfl
    | _ => simp [hs, innermost, isError] at hor
  · split
    · split
      · exact h
      · exact .inr rfl
    · exact .inr rfl

end Ty

namespace Node

variable {e e' : Option Enclosing} {m n : Node}

/-- The type of the node is made of parts of its operands' types, whatever these parts are. -/
def handsOn (e : Option Enclosing) : Node → Bool
  | .addressOf .. => true
  | .dereference _ a =>
    match a.infer e with
    | .address t => !t.isError
    | _ => false
  | .index _ base amount =>
    match base.infer e, amount.infer e with
    | .address (.array ..), .int => true
    | _, _ => false
  | .call _ s args =>
    match s.ty with
    | .func params _ => Ty.equivalentAll params (args.members e)
    | _ => false
  | .leaveWith .. => e.all fun f => f.name = mainName || f.result.isError
  | _ => false

def isUse : Node → Bool
  | .var .. | .array .. | .function .. | .list .. | .error .. => false
  | _ => true

theorem verdict_reports (n : Node) (t : Ty) (inputs : List Ty) :
    (n.verdict t inputs).filterMap Finding.error? ≠ [] ↔
      t.isError ∧ inputs.any Ty.isError = false := by
  cases t with
  | error message =>
    have h : (Ty.error message).isError := rfl
    simp only [verdict, h, true_and]
    cases inputs.any Ty.isError <;> simp [Finding.error?]
  | _ => simp [verdict, Finding.error?, Ty.isError]

theorem reports_ne_nil (hu : n.isUse) :
    n.reports e ≠ [] ↔ (n.infer e).isError ∧ (n.inputs e).any Ty.isError = false := by
  cases n with
  | var | array | function | list | error => cases hu
  | _ => exact verdict_reports ..

theorem infer_isError_iff (hu : n.isUse) (h : (n.inputs e).any Ty.isError = false)
    (hn : ¬ ∀ t ∈ n.inputs e, t.errorFree) : (n.infer e).isError ↔ n.handsOn e = false := by
  cases n with
  | var | array | function | list | error => cases hu
  | int | float | bool => exact absurd (List.forall_mem_nil _) hn
  | leave => exact absurd (by simp [inputs, Ty.errorFree]) hn
  | addressOf g s =>
    have hs : s.ty.isError = false := by simpa [inputs] using h
    rw [infer, handsOn, Ty.ofUse, hs]
    exact ⟨Bool.noConfusion, Bool.noConfusion⟩
  | dereference g a =>
    simp only [infer, handsOn, inputs] at h ⊢
    generalize a.infer e = t at h
    unfold Ty.dereference
    rw [Ty.passing_eq h]
    cases t with
    | address t => simp
    | _ => exact ⟨fun _ => rfl, fun _ => rfl⟩
  | index g b a =>
    simp only [infer, handsOn, inputs] at h ⊢
    generalize b.infer e = s, a.infer e = t at h
    unfold Ty.index
    rw [Ty.passing_eq h]
    split
    · exact ⟨Bool.noConfusion, Bool.noConfusion⟩
    · simp_all [Ty.clash, Ty.isError]
  | binary g op a b => simp [infer, handsOn, Ty.ofBinary_isError op h hn]
  | compare g op a b => simp [infer, handsOn, Ty.compare_isError h hn]
  | not g a => simp [infer, handsOn, Ty.not_isError h hn]
  | branch g c y z | loop g c b => simp [infer, handsOn, Ty.ofCondition_isError _ h hn]
  | assign g a b => simp [infer, handsOn, Ty.assign_isError h hn]
  | call g s args =>
    simp only [infer, handsOn, inputs] at h ⊢
    generalize s.ty = t, args.members e = ts at h
    simp only [List.any_append, List.any_cons, Bool.or_eq_false_iff] at h
    obtain ⟨hts, ht, hs⟩ := h
    unfold Ty.call
    rw [Ty.passing_eq (by simp only [List.any_append, List.any_cons, ht, hs, hts, Bool.or_self])]
    cases t with
    | func params result =>
      have hr := Ty.result_of_signature hs
      dsimp only
      split
      · simp_all
      · simp_all [Ty.clash, Ty.isError]
    | _ => exact ⟨fun _ => rfl, fun _ => rfl⟩
  | leaveWith g v =>
    simp only [infer, handsOn, inputs, List.forall_mem_singleton] at h hn ⊢
    generalize v.infer e = t at h hn
    have ht : t.isError = false := by simpa using h
    cases e with
    | none => simp [Ty.ofReturn, ht]
    | some f =>
      have he : t.equivalent f.result = false :=
        Bool.eq_false_iff.mpr fun h => hn (Ty.equivalent_iff.mp h).2
      simp only [Ty.ofReturn, ht, he, Option.all_some, Bool.or_false]
      split
      · rename_i hor
        simp [ht, hor]
      · rename_i hor
        rw [Bool.eq_false_iff.mpr hor]
        exact ⟨fun _ => rfl, fun _ => rfl⟩

/-- A node whose operands have errors inside reports another one exactly if no operand is an error
itself, and it does not hand the errors on. -/
theorem reports_of_nested (hu : n.isUse) (hn : ¬ ∀ t ∈ n.inputs e, t.errorFree) :
    n.reports e ≠ [] ↔ (∀ t ∈ n.inputs e, t.isError = false) ∧ n.handsOn e = false := by
  have hany : (n.inputs e).any Ty.isError = false ↔ ∀ t ∈ n.inputs e, t.isError = false := by
    simp [List.any_eq_false]
  rw [reports_ne_nil hu, ← hany]
  constructor
  · rintro ⟨hi, h⟩
    exact ⟨h, (infer_isError_iff hu h hn).mp hi⟩
  · rintro ⟨h, hh⟩
    exact ⟨(infer_isError_iff hu h hn).mpr hh, h⟩

theorem plain_infer (h : ∀ m ∈ n.preorder, ∀ s ∈ m.symbols, s.ty.Plain) (e : Option Enclosing) :
    (n.infer e).Plain ∧ ∀ t ∈ n.members e, t.Plain := by
  induction n using children_induction generalizing e with
  | step n ih =>
    have hchild {m : Node} (hm : m ∈ n.children) := ih m hm (forall_child h hm) e
    have hc {m : Node} (hm : m ∈ n.children) : (m.infer e).Plain := (hchild hm).1
    have hself := h n (mem_preorder_self n)
    constructor
    · cases n with
      | int | float | bool | list => exact .inl rfl
      | error => exact .inr rfl
      | addressOf g s => exact Ty.plain_ofUse (hself s (by simp [symbols]))
      | var g s => exact Ty.plain_ofVariable (hself s (by simp [symbols]))
      | array g s => exact Ty.plain_ofArray (hself s (by simp [symbols]))
      | function g s => exact hself s (by simp [symbols])
      | dereference g a => exact Ty.plain_dereference (hc (by simp [children]))
      | index g a b => exact Ty.plain_index (hc (by simp [children])) (hc (by simp [children]))
      | binary g op a b =>
        exact Ty.plain_ofBinary op (hc (by simp [children])) (hc (by simp [children]))
      | compare g op a b =>
        exact Ty.plain_compare (hc (by simp [children])) (hc (by simp [children]))
      | not g a => exact Ty.plain_not (hc (by simp [children]))
      | call g s args =>
        exact Ty.plain_call (hself s (by simp [symbols])) (hchild (by simp [children])).2
      | assign g a b => exact Ty.plain_assign (hc (by simp [children])) (hc (by simp [children]))
      | branch g c y z | loop g c b => exact Ty.plain_ofCondition _ (hc (by simp [children]))
      | leave g => exact Ty.plain_ofReturn e (.inl rfl)
      | leaveWith g v => exact Ty.plain_ofReturn e (hc (by simp [children]))
    · cases n with
      | list g kind items =>
        rw [members, inferAll_eq_map]
        exact List.forall_mem_map.mpr fun m hm => hc hm
      | _ => exact List.forall_mem_nil _

theorem plain_inputs (h : ∀ m ∈ n.preorder, ∀ s ∈ m.symbols, s.ty.Plain) (e : Option Enclosing) :
    ∀ t ∈ n.inputs e, t.Plain := by
  have hchild {m : Node} (hm : m ∈ n.children) := plain_infer (forall_child h hm) e
  have hself := h n (mem_preorder_self n)
  cases n with
  | addressOf g s => exact List.forall_mem_singleton.mpr (hself s (by simp [symbols]))
  | call g s args =>
    have hs : s.ty.Plain := hself s (by simp [symbols])
    refine List.forall_mem_append.mpr
      ⟨(hchild (by simp [children])).2, List.forall_mem_cons.mpr ⟨hs, fun t ht => ?_⟩⟩
    exact Ty.plain_error (Ty.isError_of_signature (Option.mem_toList.mp ht))
  | leave => exact List.forall_mem_singleton.mpr (.inl rfl)
  | dereference g a | not g a | leaveWith g a | branch g a b c | loop g a b =>
    exact List.forall_mem_singleton.mpr (hchild (by simp [children])).1
  | index g a b | binary g op a b | compare g op a b | assign g a b =>
    exact List.forall_mem_cons.mpr ⟨(hchild (by simp [children])).1,
      List.forall_mem_singleton.mpr (hchild (by simp [children])).1⟩
  | _ => exact List.forall_mem_nil _

theorem Accepted.symbols {P : Symbol → Prop} {root : Node} (h : root.Accepted)
    (hb : ∀ scope ∈ Env.builtins, ∀ s ∈ scope, P s) (hd : ∀ s ∈ root.declared, P s) :
    ∀ m ∈ root.preorder, ∀ s ∈ m.symbols, P s := by
  intro m hm s hs
  have hdeclared (hs : s ∈ m.declares) : P s := hd s (List.mem_flatMap.mpr ⟨m, hm, hs⟩)
  cases m with
  | addressOf | call => exact h.fits.uses hb hd _ hm s hs
  | var | array | function => exact hdeclared hs
  | _ => cases hs

end Node

/-- The reports of a check are those that it makes at the nodes. A node is silent where one of its
operands is an error; where none is, but one has an error inside, it makes a report unless it hands
the error on. So no node reports an error of a declaration again, if declared types have no errors
inside. -/
theorem Checker.check_reports (source : String)
    (hp : (Parser.ofString source).parse.2.hasError = false) :
    let root := (Parser.ofString source).parse.1
    let checker := Checker.empty.check root
    checker.errors.Perm ((root.located none).flatMap fun p => p.2.reports p.1) ∧
      (∀ e n, (e, n) ∈ root.located none → n.isList = false →
        checker.typeOf? n = some (n.infer e)) ∧
      (∀ e n, (e, n) ∈ root.located none → n.isUse → (∃ t ∈ n.inputs e, t.errorFree = false) →
        (n.reports e ≠ [] ↔ (∀ t ∈ n.inputs e, t.isError = false) ∧ n.handsOn e = false)) ∧
      ((∀ s ∈ root.declared, s.ty.Plain) → ∀ e n, (e, n) ∈ root.located none → n.isUse →
        n.reports e ≠ [] → ∀ t ∈ n.inputs e, t.errorFree) := by
  intro root checker
  have ha : root.Accepted := Parser.parse_accepted (by simpa [Parser.hasError] using hp)
  refine ⟨?_, fun e n h hl => ha.types_iff.mpr (Node.type_mem_of_located h hl), ?_, ?_⟩
  · have herrors : checker.errors = (root.findings none).filterMap Finding.error? := by
      show (Checker.empty.check root).errors = _
      rw [ha.check_eq, Checker.errors_add]
      rfl
    rw [herrors]
    exact root.errors_located none
  · rintro e n - hu ⟨t, ht, hf⟩
    refine Node.reports_of_nested hu fun h => ?_
    rw [h t ht] at hf
    cases hf
  · intro hd e n h hu hr t ht
    have hb : ∀ scope ∈ Env.builtins, ∀ s ∈ scope, s.ty.Plain := by
      intro scope hscope s hs
      obtain ⟨u, hu, hdeclarable⟩ := Env.builtins_declarable scope hscope s hs
      exact .inl (Symbol.ty_eq hu ▸ hdeclarable.errorFree)
    have hsymbols := ha.symbols hb hd
    have hplain := Node.plain_inputs (n := n)
      (fun m hm => hsymbols m (Node.mem_preorder_trans hm (Node.mem_preorder_of_located h))) e t ht
    have hnone := List.any_eq_false.mp ((Node.reports_ne_nil hu).mp hr).2 t ht
    exact hplain.resolve_right hnone

def unknownText : String :=
  "var x : string; func main() : void \x7b if x \x7b let x = 1 + true; \x7d \x7d"

theorem Checker.check_reports_unknown :
    let root := (Parser.ofString unknownText).parse.1
    (Parser.ofString unknownText).parse.2.hasError = false ∧ (∀ s ∈ root.declared, s.ty.Plain) ∧
      ∀ e n, (e, n) ∈ root.located none → n.isUse → n.reports e ≠ [] →
        ∀ t ∈ n.inputs e, t.errorFree := by
  intro root
  have h : (Parser.ofString unknownText).parse.2.hasError = false ∧
      ∀ s ∈ (Parser.ofString unknownText).parse.1.declared, s.ty.Plain := by
    decide +kernel
  obtain ⟨-, -, -, hplain⟩ := Checker.check_reports unknownText h.1
  exact ⟨h.1, h.2, hplain h.2⟩

def nestedText : String :=
  "array a : string[3]; func main() : void \x7b let a[0] = 1; \x7d"

/-- An array of an unknown type is reported at its declaration and again where an element is set. -/
theorem Checker.check_repeats :
    let root := (Parser.ofString nestedText).parse.1
    (Parser.ofString nestedText).parse.2.hasError = false ∧
      (Checker.empty.check root).errors =
        [⟨⟨1, 1⟩, "Unknown type: string."⟩,
          ⟨⟨1, 43⟩, "Cannot assign int to Address(ErrorType(Unknown type: string.))."⟩] ∧
      ∃ p ∈ root.located none, p.2.isUse ∧ p.2.reports p.1 ≠ [] ∧
        ∃ t ∈ p.2.inputs p.1, t.errorFree = false := by
  decide +kernel

end Crux
