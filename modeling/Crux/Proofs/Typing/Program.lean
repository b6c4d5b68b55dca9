import Crux.Proofs.Compile
import Crux.Proofs.Typing.Decides
import Crux.Proofs.Typing.Values

namespace Crux

theorem returnsResult_iff {ts : List Ty} {result : Ty} (h : ∀ t ∈ ts, t.errorFree) :
    returnsResult ts result ↔ result ∈ ts := by
  simp only [returnsResult, List.any_eq_true, Bool.or_eq_true, Ty.equivalent_iff]
  constructor
  · rintro ⟨t, ht, he | ⟨rfl, -⟩⟩
    · rw [Ty.isError_of_errorFree (h t ht)] at he
      cases he
    · exact ht
  · exact fun hr => ⟨result, hr, .inr ⟨rfl, h result hr⟩⟩

theorem needsResult_iff {name : String} {result : Ty} (h : result.isError = false) :
    needsResult name result ↔ name ≠ mainName ∧ result ≠ .void := by
  cases result <;> simp_all [needsResult, Ty.isVoid, Ty.isError]

theorem Ty.isError_of_result {t : Ty} (h : t.isScalar ∨ t = .void) : t.isError = false := by
  obtain h | rfl := h
  · exact isError_of_errorFree (errorFree_of_isScalar h)
  · rfl

theorem headFaults_entry {params : List Symbol} {result : Ty} :
    headFaults mainName params result = [] ↔ params = [] ∧ result = .void := by
  unfold headFaults
  rw [if_pos rfl]
  cases params <;> cases result <;> simp [Ty.isVoid]

theorem headFaults_of_scalars {name : String} {params : List Symbol} {result : Ty}
    (hn : name ≠ mainName) (hp : ∀ p ∈ params, p.ty.isScalar) (hr : result.isError = false) :
    headFaults name params result = [] := by
  unfold headFaults
  rw [if_neg hn, List.append_eq_nil_iff, List.filterMap_eq_nil_iff]
  refine ⟨fun (p, i) hm => ?_, ?_⟩
  · have hs := hp p (List.fst_mem_of_mem_zipIdx hm)
    simp only [parameterFault?]
    cases ht : p.ty <;> rw [ht] at hs <;> first | rfl | cases hs
  · cases result with
    | error => cases hr
    | _ => rfl

namespace Node

def HasHead : Node → Prop
  | .var _ s | .array _ s => s.type?.isSome
  | .function _ s params _ => Head s params
  | _ => True

inductive HasTypes (f : Enclosing) : Node → Prop
  | node : n.HasType f t → HasTypes f n
  | row : List.Forall₂ (HasType f) items ts → HasTypes f (.list g kind items)

variable {f : Enclosing} {m n : Node} {e : Option Enclosing} {t : Ty}

theorem Head.faults_nil_iff {s : Symbol} {params : List Symbol} {result : Ty}
    (h : Head s params) (ht : s.type? = some (.func (params.map Symbol.ty) result)) :
    headFaults s.name params result = [] ↔ (s.name = mainName → params = [] ∧ result = .void) ∧
      (∀ p ∈ params, p.ty.isScalar) ∧ (result.isScalar ∨ result = .void) := by
  constructor
  · intro hnil
    obtain ⟨hp, hr⟩ := headFaults_nil hnil
    refine ⟨fun hm => headFaults_entry.mp (hm ▸ hnil), fun p hmem => ?_, ?_⟩
    · obtain ⟨t, hnamed, htype⟩ := h.named p hmem
      obtain ⟨he, hv⟩ := hp p hmem
      rw [Symbol.ty_eq htype] at he hv ⊢
      exact hnamed.isScalar he hv
    · obtain ⟨result', hnamed, ht'⟩ := h.type
      obtain ⟨-, rfl⟩ := Ty.func.inj (Option.some.inj (ht.symm.trans ht'))
      cases hv : result.isVoid with
      | true =>
        cases result with
        | void => exact .inr rfl
        | _ => cases hv
      | false => exact .inl (hnamed.isScalar hr hv)
  · rintro ⟨hm, hp, hr⟩
    by_cases hn : s.name = mainName
    · rw [hn]
      exact headFaults_entry.mpr (hm hn)
    · exact headFaults_of_scalars hn hp (Ty.isError_of_result hr)

theorem quiet_function {g : Tag} {s : Symbol} {params : List Symbol} {body : Node} {result : Ty}
    {ps : List Ty} (ht : s.type? = some (.func ps result)) :
    (function g s params body).Quiet e ↔ headFaults s.name params result = [] ∧
      body.Quiet (some ⟨s.name, result⟩) ∧ (needsResult s.name result →
        returnsResult (body.members (some ⟨s.name, result⟩)) result) := by
  have hr : s.ty.declaredResult = result := by rw [Symbol.ty_eq ht]; rfl
  simp only [Quiet, findings, headErrors, returnErrors, Symbol.enclosing, hr, List.forall_mem_append,
    List.forall_mem_map, Finding.error?, List.forall_mem_singleton, and_true, and_assoc]
  refine and_congr ?_ (and_congr_right' ?_)
  · simp [List.eq_nil_iff_forall_not_mem]
  · split <;> simp_all

theorem Scoped.hasHead {role : Role} {env : Env} (h : Scoped role env n) : n.HasHead := by
  induction h with
  | var _ h | array _ h | function _ h => exact h
  | «local» _ _ ih => exact ih
  | _ => trivial

theorem Head.declarable {s : Symbol} {params : List Symbol} {result : Ty} (h : Head s params)
    (ht : s.type? = some (.func (params.map Symbol.ty) result))
    (hp : ∀ p ∈ params, p.ty.isScalar) (hr : result.isScalar ∨ result = .void) :
    ∀ u ∈ s :: params, u.IsDeclarable := by
  refine List.forall_mem_cons.mpr ⟨⟨_, ht, by simpa [Ty.Declarable] using hp, hr⟩, fun p hmem => ?_⟩
  obtain ⟨t, -, htype⟩ := h.named p hmem
  have hs := hp p hmem
  rw [Symbol.ty_eq htype] at hs
  exact Symbol.IsVariable.declarable ⟨htype, hs⟩

theorem HasHead.declarable_of_quiet (h : n.HasHead) (hq : n.Quiet e) :
    ∀ s ∈ n.declares, s.IsDeclarable := by
  cases n with
  | var =>
    obtain ⟨t, ht⟩ := (quiet_var h).mp hq
    exact List.forall_mem_singleton.mpr ht.declarable
  | array =>
    obtain ⟨t, ht⟩ := (quiet_array h).mp hq
    exact List.forall_mem_singleton.mpr ht.declarable
  | function =>
    obtain ⟨result, -, ht⟩ := Head.type h
    obtain ⟨-, hp, hr⟩ := (Head.faults_nil_iff h ht).mp ((quiet_function ht).mp hq).1
    exact Head.declarable h ht hp hr
  | _ => nofun

theorem Quiet.part (h : n.Quiet e) : ∀ m ∈ n.preorder, ∃ e', m.Quiet e' := by
  induction n using children_induction generalizing e with
  | step n ih =>
    refine forall_preorder ⟨e, h⟩ fun c hc => ?_
    obtain ⟨e', hf⟩ := findings_child hc e
    exact ih c hc fun x hx => h x (hf x hx)

theorem HasTypes.child (h : n.HasTypes f) (hm : m ∈ n.children) : m.HasTypes f := by
  cases h with
  | node h =>
    cases h with
    | int | float | bool | addressOf | var | array | leave => cases hm
    | dereference h | not h | leaveWith h =>
      obtain rfl := List.mem_singleton.mp hm
      exact .node h
    | index ha hb | binary _ ha hb | compare _ ha hb | assign ha _ hb =>
      obtain rfl | hm := List.mem_cons.mp hm
      · exact .node ha
      · obtain rfl := List.mem_singleton.mp hm
        exact .node hb
    | call _ hts =>
      obtain rfl := List.mem_singleton.mp hm
      exact .row hts
    | loop hc hts =>
      obtain rfl | hm := List.mem_cons.mp hm
      · exact .node hc
      · obtain rfl := List.mem_singleton.mp hm
        exact .row hts
    | branch hc hts hus =>
      simp only [children, List.mem_cons, List.not_mem_nil, or_false] at hm
      obtain rfl | rfl | rfl := hm
      · exact .node hc
      · exact .row hts
      · exact .row hus
  | row hts =>
    rw [children] at hm
    induction hts with
    | nil => cases hm
    | cons ht _ ih =>
      obtain rfl | hm := List.mem_cons.mp hm
      · exact .node ht
      · exact ih hm

theorem HasTypes.part (h : n.HasTypes f) : ∀ m ∈ n.preorder, m.HasTypes f := by
  induction n using children_induction with
  | step n ih => exact forall_preorder h fun c hc => ih c hc (h.child hc)

theorem HasTypes.hasType (h : n.HasTypes f) (hl : n.isList = false) : ∃ t, n.HasType f t := by
  cases h with
  | node h => exact ⟨_, h⟩
  | row => cases hl

theorem HasTypes.declarable (h : n.HasTypes f) : ∀ s ∈ n.declares, s.IsDeclarable := by
  cases h with
  | node h =>
    cases h with
    | var h | array h => exact List.forall_mem_singleton.mpr h.declarable
    | _ => nofun
  | row => nofun

theorem Declares.declarable (h : n.Declares t) (hh : ∀ m ∈ n.preorder, m.HasHead) :
    ∀ s ∈ n.declared, s.IsDeclarable := by
  intro s hd
  obtain ⟨m, hm, hs⟩ := List.mem_flatMap.mp hd
  cases h with
  | var h | array h =>
    obtain rfl : m = _ := by simpa [preorder_eq, children] using hm
    obtain rfl := List.mem_singleton.mp hs
    exact h.declarable
  | function ht hmain hp hr hts _ =>
    obtain rfl | ⟨c, hc, hm⟩ := mem_preorder.mp hm
    · exact Head.declarable (hh _ (mem_preorder_self _)) ht hp hr s hs
    · obtain rfl := List.mem_singleton.mp hc
      exact ((HasTypes.row hts).part m hm).declarable s hs

theorem Scoped.decides_declaration {env : Env} (h : Scoped .declaration env n)
    (hu : ∀ m ∈ n.preorder, ∀ s ∈ m.uses, s.IsDeclarable) : n.Quiet none ↔ ∃ t, n.Declares t := by
  cases h with
  | var _ hs => exact (quiet_var hs).trans (exists_congr fun t => ⟨.var, fun | .var h => h⟩)
  | array _ hs => exact (quiet_array hs).trans (exists_congr fun t => ⟨.array, fun | .array h => h⟩)
  | function _ hhead hbody =>
    obtain ⟨result, -, ht⟩ := hhead.type
    rw [quiet_function ht, hhead.faults_nil_iff ht]
    have hbody' {f : Enclosing} (hr : f.result.isScalar ∨ f.result = .void) :=
      hbody.decides (Ty.isError_of_result hr) fun m hm =>
        hu m (mem_preorder.mpr (.inr ⟨_, List.mem_cons_self, hm⟩))
    cases hbody with
    | @block items _ g' _ =>
      have hrow {f : Enclosing} (hr : f.result.isScalar ∨ f.result = .void) : DecidedRow f items :=
        hbody' hr
      have hreturns {f : Enclosing} {ts : List Ty} (hr : f.result.isScalar ∨ f.result = .void)
          (hts : List.Forall₂ (HasType f) items ts) :
          (needsResult f.name f.result →
            returnsResult ((list g' .statements items).members (some f)) f.result) ↔
              (f.name ≠ mainName ∧ f.result ≠ .void → f.result ∈ ts) := by
        obtain ⟨hinfer, hfree⟩ := (hrow hr).infer_eq hts
        rw [needsResult_iff (Ty.isError_of_result hr), members, inferAll_eq_map, hinfer,
          returnsResult_iff hfree]
      constructor
      · rintro ⟨⟨hmain, hp, hr⟩, hq, hret⟩
        obtain ⟨ts, hts⟩ := (hrow hr).quiet_iff.mp (quiet_list.mp hq)
        refine ⟨_, .function ht hmain hp hr hts ?_⟩
        by_cases hv : result = .void
        · exact .inl hv
        · exact .inr ((hreturns hr hts).mp hret ⟨fun hm => hv (hmain hm).2, hv⟩)
      · rintro ⟨_, h⟩
        cases h with
        | function ht' hmain hp hr hts hret =>
          obtain ⟨-, rfl⟩ := Ty.func.inj (Option.some.inj (ht.symm.trans ht'))
          exact ⟨⟨hmain, hp, hr⟩, quiet_list.mpr ((hrow hr).quiet_iff.mpr ⟨_, hts⟩),
            (hreturns hr hts).mpr fun hn => hret.resolve_left hn.2⟩

theorem Declares.infer_eq (h : n.Declares t) : n.infer none = t ∧ t.errorFree := by
  cases h with
  | var h => exact ⟨Ty.ofVariable_eq h, Ty.errorFree_of_isScalar h.2⟩
  | array h => exact ⟨Ty.ofArray_eq h, Ty.errorFree_of_innermost h.2.2⟩
  | function ht _ hp hr _ _ =>
    refine ⟨Symbol.ty_eq ht, Ty.Declarable.errorFree ⟨?_, hr⟩⟩
    simpa using hp

end Node

theorem Env.builtins_declarable : ∀ scope ∈ Env.builtins, ∀ s ∈ scope, s.IsDeclarable := by
  have h (b : Builtin) : b.ty.Declarable := by
    cases b <;> exact ⟨by decide, by decide⟩
  intro scope hscope s hs
  rw [List.mem_singleton.mp hscope] at hs
  obtain ⟨i, hi, rfl⟩ := List.mem_mapIdx.mp hs
  exact ⟨_, rfl, h _⟩

namespace Node

variable {f : Enclosing} {m n : Node} {e : Option Enclosing} {t : Ty} {root : Node}

theorem Accepted.decides (h : root.Accepted) (hd : ∀ s ∈ root.declared, s.IsDeclarable) :
    root.Quiet none ↔ root.WellTyped := by
  have hu := h.fits.uses Env.builtins_declarable hd
  cases h.fits with
  | @program items _ _ hitems =>
    have hiff {n : Node} (hn : n ∈ items) : n.Quiet none ↔ ∃ t, n.Declares t := by
      obtain ⟨before, rest, rfl⟩ := List.append_of_mem hn
      exact (hitems before n rest rfl).decides_declaration fun m hm =>
        hu m (mem_preorder.mpr (.inr ⟨n, hn, hm⟩))
    rw [quiet_list]
    exact ⟨fun hq => .program fun n hn => (hiff hn).mp (hq n hn),
      fun | .program hw => fun n hn => (hiff hn).mpr (hw n hn)⟩

theorem Accepted.hasHead (h : root.Accepted) : ∀ m ∈ root.preorder, m.HasHead := by
  intro m hm
  obtain ⟨_, _, hs⟩ := h.fits.part m hm
  exact hs.hasHead

theorem Accepted.declarable_of_quiet (h : root.Accepted) (hq : root.Quiet none) :
    ∀ s ∈ root.declared, s.IsDeclarable := by
  intro s hd
  obtain ⟨m, hm, hs⟩ := List.mem_flatMap.mp hd
  obtain ⟨e, hq⟩ := hq.part m hm
  exact (h.hasHead m hm).declarable_of_quiet hq s hs

theorem Accepted.declarable_of_wellTyped (h : root.Accepted) (hw : root.WellTyped) :
    ∀ s ∈ root.declared, s.IsDeclarable := by
  have hh := h.hasHead
  cases hw with
  | program hw =>
    rw [declared_eq]
    intro s hs
    obtain ⟨n, hn, hs⟩ := List.mem_flatMap.mp hs
    obtain ⟨t, ht⟩ := hw n hn
    exact ht.declarable (forall_child hh hn) s hs

theorem Accepted.quiet_iff (h : root.Accepted) : root.Quiet none ↔ root.WellTyped :=
  ⟨fun hq => (h.decides (h.declarable_of_quiet hq)).mp hq,
    fun hw => (h.decides (h.declarable_of_wellTyped hw)).mpr hw⟩

theorem Accepted.check_eq (h : root.Accepted) :
    Checker.empty.check root = Checker.empty.add (root.findings none) :=
  check_eq_of_nodup h.nodup_ids

theorem Accepted.errors_eq_nil_iff (h : root.Accepted) :
    (Checker.empty.check root).errors = [] ↔ root.Quiet none := by
  rw [h.check_eq, Checker.errors_add]
  simp [Checker.empty, List.filterMap_eq_nil_iff, Quiet]

theorem Scoped.infer_eq {role : Role} {env : Env} (h : Scoped role env n)
    (hf : f.result.isError = false) (hu : ∀ m ∈ n.preorder, ∀ s ∈ m.uses, s.IsDeclarable)
    (ht : n.HasType f t) : n.infer (some f) = t ∧ t.errorFree := by
  have hd := h.decides hf hu
  cases role with
  | value | address | statement => exact hd.infer_eq ht
  | declaration => exact (hd (by rintro _ _ _ _ rfl; cases ht)).infer_eq ht
  | arguments | block | program =>
    cases h
    cases ht

theorem mem_verdict {id : Nat} {u : Ty} {inputs : List Ty} :
    .type id t ∈ n.verdict u inputs ↔ id = n.id ∧ t = u := by
  cases u with
  | error =>
    simp only [verdict]
    split <;> simp
  | _ => simp [verdict]

def inside (e : Option Enclosing) : Node → Option Enclosing
  | .function _ s _ _ => some s.enclosing
  | _ => e

theorem type_mem_findings {id : Nat} : .type id t ∈ n.findings e ↔
    (n.isList = false ∧ id = n.id ∧ t = n.infer e) ∨
      ∃ c ∈ n.children, .type id t ∈ c.findings (n.inside e) := by
  cases n with
  | function =>
    simp only [findings, headErrors, returnErrors, children, isList, inside, infer]
    split <;> simp [or_comm]
  | list => simp [findings, findingsAll_eq_flatMap, children, isList, inside]
  | _ => simp [findings, mem_verdict, children, isList, inside, or_assoc, or_comm]

theorem exists_of_type_mem {id : Nat} (h : .type id t ∈ n.findings e) :
    ∃ m ∈ n.preorder, m.isList = false ∧ m.id = id := by
  induction n using children_induction generalizing e with
  | step n ih =>
    obtain ⟨hl, rfl, -⟩ | ⟨c, hc, h⟩ := type_mem_findings.mp h
    · exact ⟨n, mem_preorder_self n, hl, rfl⟩
    · obtain ⟨m, hm, hl, hid⟩ := ih c hc h
      exact ⟨m, mem_preorder.mpr (.inr ⟨c, hc, hm⟩), hl, hid⟩

theorem type_mem_body (h : ∀ m ∈ n.preorder, m.InBody) (hm : m ∈ n.preorder)
    (hl : m.isList = false) : .type m.id (m.infer e) ∈ n.findings e := by
  induction n using children_induction with
  | step n ih =>
    refine type_mem_findings.mpr ?_
    obtain rfl | ⟨c, hc, hmc⟩ := mem_preorder.mp hm
    · exact .inl ⟨hl, rfl, rfl⟩
    · have hx := ih c hc (forall_child h hc) hmc
      refine .inr ⟨c, hc, ?_⟩
      cases n with
      | function => exact (h _ (mem_preorder_self _)).elim
      | _ => exact hx

theorem Gives.mem (h : root.Gives n t) : n ∈ root.preorder ∧ n.isList = false := by
  cases h with
  | declaration hn hd =>
    refine ⟨mem_preorder.mpr (.inr ⟨n, hn, mem_preorder_self n⟩), ?_⟩
    cases hd <;> rfl
  | part hf _ hm ht =>
    refine ⟨mem_preorder.mpr (.inr ⟨_, hf, mem_preorder.mpr (.inr ⟨_, List.mem_cons_self, hm⟩)⟩), ?_⟩
    cases ht <;> rfl

theorem WellTyped.gives (h : root.WellTyped) (hn : n ∈ root.preorder) (hl : n.isList = false) :
    ∃ t, root.Gives n t := by
  cases h with
  | program h =>
    obtain rfl | ⟨item, hitem, hn⟩ := mem_preorder.mp hn
    · cases hl
    · obtain ⟨t, ht⟩ := h item hitem
      obtain rfl | ⟨c, hc, hn⟩ := mem_preorder.mp hn
      · exact ⟨t, .declaration hitem ht⟩
      · cases ht with
        | var | array => cases hc
        | function hs _ _ _ hts =>
          obtain rfl := List.mem_singleton.mp hc
          obtain ⟨u, hu⟩ := ((HasTypes.row hts).part n hn).hasType hl
          exact ⟨u, .part hitem hs hn hu⟩

theorem Accepted.notes_given (h : root.Accepted) (hw : root.WellTyped) (hg : root.Gives n t) :
    t.errorFree ∧ .type n.id t ∈ root.findings none := by
  have hu := h.fits.uses Env.builtins_declarable (h.declarable_of_wellTyped hw)
  have hroot : root.inside none = none := by
    cases hw
    rfl
  rw [type_mem_findings, hroot]
  obtain ⟨-, hl⟩ := hg.mem
  cases hg with
  | declaration hn hd =>
    obtain ⟨rfl, hfree⟩ := hd.infer_eq
    exact ⟨hfree, .inr ⟨n, hn, type_mem_findings.mpr (.inl ⟨hl, rfl, rfl⟩)⟩⟩
  | @part g s params body ps result hf hs hn ht =>
    have hmem : n ∈ root.preorder :=
      mem_preorder.mpr (.inr ⟨_, hf, mem_preorder.mpr (.inr ⟨_, List.mem_cons_self, hn⟩)⟩)
    have hr : result.isError = false := by
      cases hw with
      | program hw =>
        obtain ⟨_, hd⟩ := hw _ hf
        cases hd with
        | function hs' _ _ hr _ _ =>
          obtain ⟨-, rfl⟩ := Ty.func.inj (Option.some.inj (hs.symm.trans hs'))
          exact Ty.isError_of_result hr
    obtain ⟨_, _, hscoped⟩ := h.fits.part n hmem
    obtain ⟨rfl, hfree⟩ := hscoped.infer_eq hr (fun m hm => hu m (mem_preorder_trans hm hmem)) ht
    have he : s.enclosing = ⟨s.name, result⟩ := by
      rw [Symbol.enclosing, Symbol.ty_eq hs]
      rfl
    refine ⟨hfree, .inr ⟨_, hf, type_mem_findings.mpr (.inr ⟨body, List.mem_cons_self, ?_⟩)⟩⟩
    rw [inside, he]
    exact type_mem_body (fun m hm => (h.parts hf m hm).1) hn hl

theorem Accepted.types_iff (h : root.Accepted) {id : Nat} :
    (Checker.empty.check root).types[id]? = some t ↔ .type id t ∈ root.findings none :=
  check_has_iff h.nodup_ids (.type id t)

end Node

/-- A text that is read without a report is checked without a report exactly if its program is well
typed. Then the table holds the type of every node but the lists, and nothing else. -/
theorem Checker.check_decides (source : String)
    (hp : (Parser.ofString source).parse.2.hasError = false) :
    let root := (Parser.ofString source).parse.1
    let checker := Checker.empty.check root
    (checker.hasError = false ↔ root.WellTyped) ∧
      (root.WellTyped →
        (∀ n ∈ root.preorder, n.isList = false →
          ∃ t, root.Gives n t ∧ ∀ u, root.Gives n u ↔ checker.typeOf? n = some u) ∧
        ∀ id t, checker.types[id]? = some t →
          t.errorFree ∧ ∃ n ∈ root.preorder, n.isList = false ∧ n.id = id ∧ root.Gives n t) := by
  intro root checker
  have ha : root.Accepted := Parser.parse_accepted (by simpa [Parser.hasError] using hp)
  have htable {n : Node} {t : Ty} (hw : root.WellTyped) (hg : root.Gives n t) :
      checker.typeOf? n = some t :=
    ha.types_iff.mpr (ha.notes_given hw hg).2
  refine ⟨?_, fun hw => ⟨fun n hn hl => ?_, fun id t ht => ?_⟩⟩
  · rw [← ha.quiet_iff, ← ha.errors_eq_nil_iff]
    simp [Checker.hasError, checker]
  · obtain ⟨t, hg⟩ := hw.gives hn hl
    refine ⟨t, hg, fun u => ⟨htable hw, fun hu => ?_⟩⟩
    obtain rfl := Option.some.inj ((htable hw hg).symm.trans hu)
    exact hg
  · obtain ⟨n, hn, hl, rfl⟩ := Node.exists_of_type_mem (ha.types_iff.mp ht)
    obtain ⟨u, hg⟩ := hw.gives hn hl
    obtain rfl := Option.some.inj ((htable hw hg).symm.trans ht)
    exact ⟨(ha.notes_given hw hg).1, n, hn, hl, rfl, hg⟩

def misusedText : String := "func odd(x : int) : bool { return ::odd(x, true); }"

theorem Checker.check_decides_samples :
    ((Parser.ofString sampleText).parse.2.hasError = false ∧
      (Parser.ofString sampleText).parse.1.WellTyped) ∧
      (Parser.ofString misusedText).parse.2.hasError = false ∧
      ¬ (Parser.ofString misusedText).parse.1.WellTyped := by
  have hs : (Parser.ofString sampleText).parse.2.hasError = false ∧
      (Checker.empty.check (Parser.ofString sampleText).parse.1).hasError = false := by
    decide +kernel
  have hm : (Parser.ofString misusedText).parse.2.hasError = false ∧
      (Checker.empty.check (Parser.ofString misusedText).parse.1).hasError = true := by
    decide +kernel
  refine ⟨⟨hs.1, (Checker.check_decides sampleText hs.1).1.mp hs.2⟩, hm.1, fun hw => ?_⟩
  exact Bool.noConfusion (hm.2.symm.trans ((Checker.check_decides misusedText hm.1).1.mpr hw))

end Crux
