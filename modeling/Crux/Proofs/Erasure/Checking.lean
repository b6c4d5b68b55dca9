import Crux.Proofs.Erasure.Tree
import Crux.Proofs.Typing.Findings

namespace Crux

namespace Ty

variable {t u : Ty}

theorem isError_congr (h : t.erased = u.erased) : t.isError = u.isError := by
  rw [← isError_erased, h, isError_erased]

theorem isScalar_congr (h : t.erased = u.erased) : t.isScalar = u.isScalar := by
  rw [← isScalar_erased, h, isScalar_erased]

theorem isVoid_congr (h : t.erased = u.erased) : t.isVoid = u.isVoid := by
  rw [← isVoid_erased, h, isVoid_erased]

theorem equivalent_congr {v w : Ty} (h : t.erased = u.erased) (h' : v.erased = w.erased) :
    t.equivalent v = u.equivalent w := by
  rw [← equivalent_erased, h, h', equivalent_erased]

theorem find?_erased (ts : List Ty) :
    (ts.map erased).find? isError = (ts.find? isError).map erased := by
  rw [List.find?_map]
  congr 2
  funext t
  exact isError_erased t

theorem erased_passing (inputs : List Ty) {rule rule' : Ty} (h : rule.erased = rule'.erased) :
    (passing inputs rule).erased = (passing (inputs.map erased) rule').erased := by
  rw [passing, passing, find?_erased]
  cases inputs.find? isError with
  | none => exact h
  | some t => exact (erased_erased t).symm

-- With the messages as variables these are found without evaluating any text.
theorem erased_clash (c c' : Clash) : (clash c).erased = (clash c').erased := rfl

theorem erased_fault (f f' : TypeFault) : (fault f).erased = (fault f').erased := rfl

theorem erased_arithmetic (a b : Ty) (c c' : Clash) :
    (arithmetic a b c).erased = (arithmetic a.erased b.erased c').erased := by
  refine erased_passing [a, b] ?_
  cases a with
  | int =>
    cases b with
    | int => rfl
    | _ => exact erased_clash ..
  | float =>
    cases b with
    | float => rfl
    | _ => exact erased_clash ..
  | _ => exact erased_clash ..

theorem erased_logical (a b : Ty) (c c' : Clash) :
    (logical a b c).erased = (logical a.erased b.erased c').erased := by
  refine erased_passing [a, b] ?_
  cases a with
  | bool =>
    cases b with
    | bool => rfl
    | _ => exact erased_clash ..
  | _ => exact erased_clash ..

theorem erased_ofBinary (op : BinaryOp) (a b : Ty) :
    (ofBinary op a b).erased = (ofBinary op a.erased b.erased).erased := by
  cases op with
  | add | sub | mul | div => exact erased_arithmetic ..
  | and | or => exact erased_logical ..

theorem erased_not (a : Ty) : a.not.erased = a.erased.not.erased := by
  refine erased_passing [a] ?_
  cases a with
  | bool => rfl
  | _ => exact erased_clash ..

theorem erased_compare (a b : Ty) : (a.compare b).erased = (a.erased.compare b.erased).erased := by
  refine erased_passing [a, b] ?_
  cases a with
  | int =>
    cases b with
    | int => rfl
    | _ => exact erased_clash ..
  | float =>
    cases b with
    | float => rfl
    | _ => exact erased_clash ..
  | _ => exact erased_clash ..

theorem erased_dereference (a : Ty) : a.dereference.erased = a.erased.dereference.erased := by
  refine erased_passing [a] ?_
  cases a with
  | address t => exact (erased_erased t).symm
  | _ => exact erased_clash ..

theorem erased_index (a b : Ty) : (a.index b).erased = (a.erased.index b.erased).erased := by
  refine erased_passing [a, b] ?_
  cases a with
  | address t =>
    cases t with
    | array extent element =>
      cases b with
      | int => exact congrArg address (erased_erased element).symm
      | _ => exact erased_clash ..
    | _ => exact erased_clash ..
  | _ => exact erased_clash ..

theorem erased_assign (a b : Ty) : (a.assign b).erased = (a.erased.assign b.erased).erased := by
  refine erased_passing [a, b] ?_
  cases a with
  | address t =>
    simp only [erased, isScalar_erased, equivalent_erased]
    split
    · exact (erased_erased b).symm
    · exact erased_clash ..
  | _ => exact erased_clash ..

theorem signatureError?_erased (t : Ty) :
    t.erased.signatureError? = t.signatureError?.map erased := by
  cases t with
  | func params result =>
    rw [erased, signatureError?, signatureError?, ← find?_erased, erasedAll_eq_map,
      List.map_append]
    rfl
  | _ => rfl

theorem erased_call (a : Ty) (args : List Ty) :
    (a.call args).erased = (a.erased.call (args.map erased)).erased := by
  have hinputs : a.erased :: (a.erased.signatureError?.toList ++ args.map erased) =
      (a :: (a.signatureError?.toList ++ args)).map erased := by
    rw [signatureError?_erased, Option.toList_map, List.map_cons, List.map_append]
  unfold call
  rw [hinputs]
  refine erased_passing _ ?_
  cases a with
  | func params result =>
    simp only [erased, ← erasedAll_eq_map, equivalentAll_erasedAll]
    split
    · exact (erased_erased result).symm
    · exact erased_clash ..
  | _ => exact erased_clash ..

theorem erased_ofCondition (construct : String) (t : Ty) :
    (ofCondition construct t).erased = (ofCondition construct t.erased).erased := by
  refine erased_passing [t] ?_
  cases t with
  | bool => rfl
  | _ => exact erased_fault ..

theorem declaredResult_congr (h : t.erased = u.erased) :
    t.declaredResult.erased = u.declaredResult.erased := by
  have herased (t : Ty) : t.erased.declaredResult = t.declaredResult.erased := by
    cases t <;> rfl
  rw [← herased, h, herased]

end Ty

def Enclosing.erased (f : Enclosing) : Enclosing := { f with result := f.result.erased }

namespace Ty

theorem erased_ofUse (s : Symbol) : (ofUse s).erased = (ofUse s.erased).erased := by
  rw [ofUse, ofUse, isError_congr s.erased_ty_erased]
  split
  · exact s.erased_ty_erased.symm
  · exact congrArg address s.erased_ty_erased.symm

theorem erased_ofVariable (s : Symbol) : (ofVariable s).erased = (ofVariable s.erased).erased := by
  rw [ofVariable, ofVariable, isError_congr s.erased_ty_erased, isScalar_congr s.erased_ty_erased]
  split
  · exact s.erased_ty_erased.symm
  · exact erased_fault ..

theorem erased_ofArray (s : Symbol) : (ofArray s).erased = (ofArray s.erased).erased := by
  unfold ofArray
  obtain h | h := s.erased_ty
  · rw [h]
    rfl
  · simp only [h, innermost_erased, isError_erased, isScalar_erased]
    split
    · exact (erased_erased _).symm
    · cases s.ty with
      | array extent element =>
        simp only [erased]
        split
        · simp only [erased, erased_erased]
        · exact erased_fault ..
      | _ => exact erased_fault ..

theorem ofReturn_congr {e e' : Option Enclosing}
    (he : e.map Enclosing.erased = e'.map Enclosing.erased) {t u : Ty} (h : t.erased = u.erased) :
    (ofReturn e t).erased = (ofReturn e' u).erased := by
  cases e with
  | none =>
    cases e' with
    | none => exact h
    | some => cases he
  | some f =>
    cases e' with
    | none => cases he
    | some f' =>
      obtain ⟨hname, hresult⟩ := Enclosing.mk.inj (Option.some.inj he)
      simp only [ofReturn, hname, isError_congr h, isError_congr hresult,
        equivalent_congr h hresult]
      split
      · exact h
      · exact erased_fault ..

end Ty

namespace Node

variable {e e' : Option Enclosing}

/-- The type of a node without places is its type, but for messages. -/
theorem erased_infer (he : e.map Enclosing.erased = e'.map Enclosing.erased) (n : Node) :
    (n.erased.infer e).erased = (n.infer e').erased ∧
      (n.erased.members e).map Ty.erased = (n.members e').map Ty.erased := by
  induction n using children_induction with
  | step n ih =>
    have hc {m : Node} (hm : m ∈ n.children) :
        (m.erased.infer e).erased = (m.infer e').erased := (ih m hm).1
    refine ⟨?_, ?_⟩
    · cases n with
      | int | float | bool | error | list => simp only [erased, infer, Ty.erased]
      | addressOf g s => rw [erased, infer, infer, Ty.erased_ofUse s]
      | var g s => rw [erased, infer, infer, Ty.erased_ofVariable s]
      | array g s => rw [erased, infer, infer, Ty.erased_ofArray s]
      | function g s params body => rw [erased, infer, infer, s.erased_ty_erased]
      | leave g =>
        rw [erased, infer, infer]
        exact Ty.ofReturn_congr he rfl
      | leaveWith g a =>
        rw [erased, infer, infer]
        exact Ty.ofReturn_congr he (hc (by simp [children]))
      | dereference g a =>
        have ha := hc (m := a) (by simp [children])
        rw [erased, infer, Ty.erased_dereference, ha, ← Ty.erased_dereference, infer]
      | not g a =>
        have ha := hc (m := a) (by simp [children])
        rw [erased, infer, Ty.erased_not, ha, ← Ty.erased_not, infer]
      | index g a b =>
        have ha := hc (m := a) (by simp [children])
        have hb := hc (m := b) (by simp [children])
        rw [erased, infer, Ty.erased_index, ha, hb, ← Ty.erased_index, infer]
      | binary g op a b =>
        have ha := hc (m := a) (by simp [children])
        have hb := hc (m := b) (by simp [children])
        rw [erased, infer, Ty.erased_ofBinary, ha, hb, ← Ty.erased_ofBinary, infer]
      | compare g op a b =>
        have ha := hc (m := a) (by simp [children])
        have hb := hc (m := b) (by simp [children])
        rw [erased, infer, Ty.erased_compare, ha, hb, ← Ty.erased_compare, infer]
      | assign g a b =>
        have ha := hc (m := a) (by simp [children])
        have hb := hc (m := b) (by simp [children])
        rw [erased, infer, Ty.erased_assign, ha, hb, ← Ty.erased_assign, infer]
      | call g s args =>
        have ha := (ih args (by simp [children])).2
        rw [erased, infer, Ty.erased_call, ha, s.erased_ty_erased, ← Ty.erased_call, infer]
      | branch g a b c | loop g a b =>
        have ha := hc (m := a) (by simp [children])
        simp only [erased, infer, title]
        rw [Ty.erased_ofCondition, ha, ← Ty.erased_ofCondition]
    · cases n with
      | list g kind items =>
        rw [erased, members, members, inferAll_eq_map, inferAll_eq_map, erasedAll_eq_map,
          List.map_map, List.map_map, List.map_map]
        exact List.map_congr_left fun m hm => hc hm
      | _ => simp only [erased, members]

end Node

def TypeError.none : TypeError := ⟨.start, ""⟩

namespace Finding

def erased : Finding → Finding
  | .type id t => .type id t.erased
  | .list id ts => .list id (ts.map Ty.erased)
  | .error _ => .error .none

end Finding

theorem Finding.map_erased_errors (pos : Position) (messages : List String) :
    (messages.map fun message => Finding.error ⟨pos, message⟩).map erased =
      List.replicate messages.length (.error .none) := by
  rw [List.map_map]
  exact List.map_const'

theorem parameterFault?_erased (name : String) (i : Nat) (s : Symbol) :
    (parameterFault? name i s.erased).map (fun _ => ()) =
      (parameterFault? name i s).map fun _ => () := by
  unfold parameterFault?
  obtain h | h := s.erased_ty
  · rw [h]
  · rw [h]
    cases s.ty with
    | error message => simp only [Ty.erased, Option.map_some]
    | _ => rfl

theorem length_headFaults (name : String) (params : List Symbol) (t : Ty) :
    (headFaults name params t).length =
      if name = mainName then if t.isVoid && params.isEmpty then 0 else 1
      else (params.zipIdx.filterMap fun x => parameterFault? name x.2 x.1).length +
        if t.isError then 1 else 0 := by
  unfold headFaults
  split
  · split <;> rfl
  · rw [List.length_append]
    cases t with
    | _ => rfl

theorem length_headFaults_erased (name : String) (params : List Symbol) {t u : Ty}
    (h : t.erased = u.erased) :
    (headFaults name (params.map Symbol.erased) t).length = (headFaults name params u).length := by
  have hparams : (((params.map Symbol.erased).zipIdx.filterMap fun x =>
      parameterFault? name x.2 x.1).map fun _ => ()) =
      (params.zipIdx.filterMap fun x => parameterFault? name x.2 x.1).map fun _ => () := by
    rw [List.map_filterMap, List.map_filterMap, List.zipIdx_map, List.filterMap_map]
    congr 1
    funext x
    exact parameterFault?_erased name x.2 x.1
  have hlength := congrArg List.length hparams
  rw [List.length_map, List.length_map] at hlength
  rw [length_headFaults, length_headFaults, Ty.isVoid_congr h, Ty.isError_congr h, List.isEmpty_map,
    hlength]

namespace Node

variable {e e' : Option Enclosing}

theorem any_isError_congr {ts us : List Ty} (h : ts.map Ty.erased = us.map Ty.erased) :
    ts.any Ty.isError = us.any Ty.isError := by
  have hany (ts : List Ty) : (ts.map Ty.erased).any Ty.isError = ts.any Ty.isError := by
    rw [List.any_map]
    congr 1
    funext t
    exact t.isError_erased
  rw [← hany, h, hany]

theorem returnsResult_congr {ts us : List Ty} (h : ts.map Ty.erased = us.map Ty.erased) {t u : Ty}
    (hr : t.erased = u.erased) : returnsResult ts t = returnsResult us u := by
  have hany (ts : List Ty) (t : Ty) :
      returnsResult ts t = (ts.map Ty.erased).any fun v => v.isError || v.equivalent t.erased := by
    rw [returnsResult, List.any_map]
    congr 1
    funext v
    simp
  rw [hany, h, hr, ← hany]

theorem verdict_erased (n : Node) {t u : Ty} {ts us : List Ty} (h : t.erased = u.erased)
    (hs : ts.map Ty.erased = us.map Ty.erased) :
    (n.erased.verdict t ts).map Finding.erased = (n.verdict u us).map Finding.erased := by
  have hverdict (n : Node) (t : Ty) (ts : List Ty) : (n.verdict t ts).map Finding.erased =
      (if t.isError && !ts.any Ty.isError then [.error .none] else []) ++
        [.type n.id t.erased] := by
    cases t with
    | error message =>
      cases hany : ts.any Ty.isError with
      | true => simp [verdict, hany, Finding.erased]
      | false => simp [verdict, hany, Finding.erased, Ty.isError]
    | _ => rfl
  rw [hverdict, hverdict, Ty.isError_congr h, any_isError_congr hs, h, id_erased]

theorem erased_inputs (he : e.map Enclosing.erased = e'.map Enclosing.erased) (n : Node) :
    (n.erased.inputs e).map Ty.erased = (n.inputs e').map Ty.erased := by
  have hi (m : Node) := (erased_infer he m).1
  cases n with
  | addressOf g s => simp [inputs, erased]
  | call g s args =>
    have hs : s.erased.ty.signatureError?.map Ty.erased = s.ty.signatureError?.map Ty.erased := by
      rw [← Ty.signatureError?_erased, s.erased_ty_erased, Ty.signatureError?_erased]
    simp only [inputs, erased, List.map_append, List.map_cons, (erased_infer he args).2,
      s.erased_ty_erased, ← Option.toList_map, hs]
  | leaveWith | dereference | not | branch | loop => simp [inputs, erased, hi]
  | index | binary | compare | assign => simp [inputs, erased, hi]
  | _ => rfl

theorem headErrors_erased (n : Node) (s : Symbol) (params : List Symbol) :
    (n.erased.headErrors s.erased (params.map Symbol.erased)).map Finding.erased =
      (n.headErrors s params).map Finding.erased := by
  rw [headErrors, headErrors, Finding.map_erased_errors, Finding.map_erased_errors,
    ← length_headFaults_erased s.name params (Ty.declaredResult_congr s.erased_ty_erased)]
  rfl

theorem returnErrors_erased (n : Node) (s : Symbol) {ts us : List Ty}
    (h : ts.map Ty.erased = us.map Ty.erased) :
    (n.erased.returnErrors s.erased ts).map Finding.erased =
      (n.returnErrors s us).map Finding.erased := by
  have hr := Ty.declaredResult_congr s.erased_ty_erased
  have hneeds : needsResult s.erased.name s.erased.ty.declaredResult =
      needsResult s.name s.ty.declaredResult := by
    rw [needsResult, needsResult, Ty.isVoid_congr hr, Ty.isError_congr hr]
    rfl
  rw [returnErrors, returnErrors, hneeds, returnsResult_congr h hr]
  split <;> rfl

theorem findings_erased (he : e.map Enclosing.erased = e'.map Enclosing.erased) (n : Node) :
    (n.erased.findings e).map Finding.erased = (n.findings e').map Finding.erased := by
  induction n using children_induction generalizing e e' with
  | step n ih =>
    have hv := verdict_erased n (erased_infer he n).1 (erased_inputs he n)
    have hc {m : Node} (hm : m ∈ n.children) := ih m hm he
    cases n with
    | int | float | bool | addressOf | var | array | leave | error => exact hv
    | dereference g a | not g a | call g s a | leaveWith g a =>
      have ha := hc (m := a) (by simp [children])
      simp only [findings, erased, List.map_append, ha] at hv ⊢
      rw [hv]
    | index g a b | binary g op a b | compare g op a b | assign g a b | loop g a b =>
      have ha := hc (m := a) (by simp [children])
      have hb := hc (m := b) (by simp [children])
      simp only [findings, erased, List.map_append, ha, hb] at hv ⊢
      rw [hv]
    | branch g a b c =>
      have ha := hc (m := a) (by simp [children])
      have hb := hc (m := b) (by simp [children])
      have hc := hc (m := c) (by simp [children])
      simp only [findings, erased, List.map_append, ha, hb, hc] at hv ⊢
      rw [hv]
    | function g s params body =>
      have hs : (some s.erased.enclosing).map Enclosing.erased =
          (some s.enclosing).map Enclosing.erased :=
        congrArg (fun t => some (Enclosing.mk s.name t))
          (Ty.declaredResult_congr s.erased_ty_erased)
      have hb := ih body (by simp [children]) hs
      have hh := headErrors_erased (.function g s params body) s params
      have hr := returnErrors_erased (.function g s params body) s (erased_infer hs body).2
      simp only [findings, erased, List.map_append, List.map_cons, List.map_nil, Finding.erased, hb,
        s.erased_ty_erased] at hh hr ⊢
      rw [hh, hr]
      rfl
    | list g kind items =>
      have hm := (erased_infer he (.list g kind items)).2
      have hall : (findingsAll e (erasedAll items)).map Finding.erased =
          (findingsAll e' items).map Finding.erased := by
        rw [findingsAll_eq_flatMap, findingsAll_eq_flatMap, erasedAll_eq_map, List.map_flatMap,
          List.map_flatMap, List.flatMap_map, List.flatMap_def, List.flatMap_def]
        exact congrArg List.flatten (List.map_congr_left fun m hm => hc hm)
      simp only [findings, erased, List.map_append, List.map_cons, List.map_nil,
        Finding.erased] at hm ⊢
      rw [hall, hm]
      rfl

end Node

end Crux
