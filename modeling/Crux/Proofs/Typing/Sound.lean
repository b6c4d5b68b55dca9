import Crux.Proofs.Emit.Total
import Crux.Proofs.Scope.Tree
import Crux.Proofs.Typing.Findings

namespace Crux

namespace Ty

def Sound : Ty → Prop
  | .func params result => (∀ p ∈ params, p.isError = false) ∧ result.isError = false
  | t => t.size?.isSome

@[simp] theorem isError_address (t : Ty) : (address t).isError = false := rfl

theorem Sound.isError_eq {t : Ty} (h : t.Sound) : t.isError = false := by
  cases t with
  | error message => cases h
  | _ => rfl

theorem Sound.signature {t : Ty} (h : t.Sound) : t.signatureError? = none := by
  cases t with
  | func params result =>
    obtain ⟨hp, hr⟩ := h
    refine List.find?_eq_none.mpr fun t ht => ?_
    obtain ht | ht := List.mem_append.mp ht
    · simp [hp t ht]
    · simp [List.mem_singleton.mp ht, hr]
  | _ => rfl

theorem sound_of_size {t : Ty} (h : t.size?.isSome) : t.Sound := by
  cases t with
  | func params result => cases h
  | _ => exact h

theorem size_of_isScalar {t : Ty} (h : t.isScalar) : t.size?.isSome := by
  cases t with
  | int | float | bool => rfl
  | _ => cases h

theorem size_of_innermost {t : Ty} (h : t.innermost.isScalar) : t.size?.isSome := by
  fun_induction innermost t with
  | case1 extent element ih => simpa [size?] using ih h
  | case2 t => exact size_of_isScalar h

theorem IsNamed.isScalar {t : Ty} (h : t.IsNamed) (he : t.isError = false) (hv : t.isVoid = false) :
    t.isScalar := by
  obtain ⟨name, rfl⟩ := h
  unfold ofName at he hv ⊢
  grind [isError, isVoid, isScalar]

theorem passing_eq {inputs : List Ty} (h : inputs.any isError = false) (rule : Ty) :
    passing inputs rule = rule := by
  rw [passing, List.find?_eq_none.mpr, Option.getD_none]
  simpa using h

theorem floatForm_of_isFloat {op : BinaryOp} {a b : Ty} (h : [a, b].any isError = false)
    (hf : (ofBinary op a b).isFloat) : op.floatForm?.isSome := by
  cases op with
  | and | or =>
    simp only [ofBinary, Ty.and, Ty.or, logical, passing_eq h] at hf
    split at hf <;> cases hf
  | _ => rfl

theorem index_target {t amount : Ty} (h : [address t, amount].any isError = false)
    (hi : ((address t).index amount).isError = false) :
    ∃ extent element, t = .array extent element ∧ (address t).index amount = .address element := by
  unfold index at hi ⊢
  rw [passing_eq h] at hi ⊢
  split at hi
  · rename_i extent element heq
    cases heq
    exact ⟨extent, element, rfl, rfl⟩
  · cases hi

end Ty

theorem Ty.size_of_ofVariable {s : Symbol} (h : (Ty.ofVariable s).isError = false) :
    s.ty.size?.isSome := by
  unfold Ty.ofVariable at h
  split at h
  · rename_i hs
    exact Ty.size_of_isScalar (by simpa [h] using hs)
  · cases h

theorem Ty.size_of_ofArray {s : Symbol} (h : (Ty.ofArray s).isError = false) :
    s.ty.size?.isSome := by
  unfold Ty.ofArray at h
  dsimp only at h
  split at h
  · rename_i hs
    rw [h, Bool.or_false] at hs
    cases hty : s.ty with
    | error message => rw [hty] at h; cases h
    | _ => rw [hty] at hs; cases hs
  · split at h
    · split at h
      · exact Ty.size_of_innermost ‹_›
      · cases h
    · cases h

def Env.Sound (env : Env) : Prop := ∀ scope ∈ env, ∀ s ∈ scope, s.ty.Sound

namespace Env.Sound

variable {env : Env}

theorem lookup (h : env.Sound) {name : String} {s : Symbol} (hs : env.lookup name = some s) :
    s.ty.Sound := by
  obtain ⟨scope, hscope, hmem⟩ := Env.mem_of_lookup hs
  exact h scope hscope s hmem

theorem push (h : env.Sound) {scope : List Symbol} (hs : ∀ s ∈ scope, s.ty.Sound) :
    Env.Sound (scope :: env) :=
  List.forall_mem_cons.mpr ⟨hs, h⟩

theorem declare (h : env.Sound) {s : Symbol} (hs : s.ty.Sound) : (env.declare s).Sound :=
  Env.forall_declare h hs

end Env.Sound

theorem headFaults_nil {name : String} {params : List Symbol} {result : Ty}
    (h : headFaults name params result = []) :
    (∀ p ∈ params, p.ty.isError = false ∧ p.ty.isVoid = false) ∧ result.isError = false := by
  unfold headFaults at h
  split at h
  · split at h
    · rename_i hm
      obtain ⟨hr, hp⟩ := Bool.and_eq_true_iff.mp hm
      rw [List.isEmpty_iff.mp hp]
      refine ⟨nofun, ?_⟩
      cases result <;> first | rfl | cases hr
    · cases h
  · obtain ⟨hp, hr⟩ := List.append_eq_nil_iff.mp h
    refine ⟨fun p hmem => ?_, ?_⟩
    · obtain ⟨i, hi, rfl⟩ := List.getElem_of_mem hmem
      have hfault := List.filterMap_eq_nil_iff.mp hp (params[i], i)
        (List.mk_mem_zipIdx_iff_getElem?.mpr (List.getElem?_eq_getElem hi))
      simp only [parameterFault?] at hfault
      cases hty : params[i].ty <;> rw [hty] at hfault <;> first | exact ⟨rfl, rfl⟩ | cases hfault
    · cases result <;> first | rfl | cases hr

namespace Node

variable {types : Nat → Option Ty} {e : Option Enclosing} {n : Node}

theorem Head.sound {s : Symbol} {params : List Symbol} (h : Head s params)
    (hf : headFaults s.name params s.ty.declaredResult = []) :
    (∀ p ∈ params, p.ty.size?.isSome) ∧ s.ty.Sound := by
  obtain ⟨⟨result, -, hs⟩, hnamed, -⟩ := h
  obtain ⟨hp, hr⟩ := headFaults_nil hf
  have hty : s.ty = .func (params.map Symbol.ty) result := by rw [Symbol.ty, hs]; rfl
  rw [hty] at hr ⊢
  refine ⟨fun p hmem => ?_, fun t ht => ?_, hr⟩
  · obtain ⟨t, ht, htype⟩ := hnamed p hmem
    have : p.ty = t := by rw [Symbol.ty, htype]; rfl
    obtain ⟨he, hv⟩ := hp p hmem
    rw [this] at he hv ⊢
    exact Ty.size_of_isScalar (ht.isScalar he hv)
  · obtain ⟨p, hmem, rfl⟩ := List.mem_map.mp ht
    exact (hp p hmem).1

theorem holds_verdict {t : Ty} {inputs : List Ty} (h : ∀ f ∈ n.verdict t inputs, f.Holds types)
    (hi : inputs.any Ty.isError = false) : types n.id = some t ∧ t.isError = false := by
  refine ⟨h (.type n.id t) (List.mem_append_right _ List.mem_cons_self), ?_⟩
  cases t with
  | error message =>
    refine (h (.error ⟨n.pos, message⟩) (List.mem_append_left _ ?_)).elim
    simp [hi]
  | _ => rfl

/-- What a check without errors says about a node, by what it stands for. -/
def Outcome (types : Nat → Option Ty) (e : Option Enclosing) (role : Role) (env : Env) (n : Node) :
    Prop :=
  match role with
  | .value => types n.id = some (n.infer e) ∧ (n.infer e).isError = false
  | .address => ∃ t, types n.id = some (.address t) ∧ n.infer e = .address t ∧ t.Sound
  | .arguments => (n.members e).any Ty.isError = false
  | .statement | .declaration => (n.after env).Sound
  | .block | .program => True

theorem ready_of_inOrder {items : List Node} {env : Env}
    (h : InOrder (fun env n => env.Sound → (∀ f ∈ n.findings e, f.Holds types) →
      (n.after env).Sound ∧ ∀ m ∈ n.preorder, m.Ready types) env items)
    (henv : env.Sound) (hf : ∀ n ∈ items, ∀ f ∈ n.findings e, f.Holds types) :
    ∀ n ∈ items, ∀ m ∈ n.preorder, m.Ready types := by
  induction items generalizing env with
  | nil => nofun
  | cons n rest ih =>
    obtain ⟨hn, hrest⟩ := h
    obtain ⟨hfn, hfr⟩ := List.forall_mem_cons.mp hf
    obtain ⟨henv', hready⟩ := hn henv hfn
    exact List.forall_mem_cons.mpr ⟨hready, ih hrest henv' hfr⟩

theorem holds_items {g : Tag} {kind : ListKind} {items : List Node}
    (h : ∀ f ∈ (list g kind items).findings e, f.Holds types) :
    ∀ n ∈ items, ∀ f ∈ n.findings e, f.Holds types := by
  intro n hn f hf
  simp only [findings, findingsAll_eq_flatMap] at h
  exact h f (List.mem_append_left _ (List.mem_flatMap.mpr ⟨n, hn, hf⟩))

theorem Scoped.checked {role : Role} {env : Env} (hs : Scoped role env n) (henv : env.Sound)
    (hf : ∀ f ∈ n.findings e, f.Holds types) :
    n.Outcome types e role env ∧ ∀ m ∈ n.preorder, m.Ready types := by
  induction hs generalizing e with
  | int | float | bool =>
    simp only [findings] at hf
    exact ⟨holds_verdict hf rfl, forall_leaf rfl trivial⟩
  | error =>
    simp only [findings] at hf
    cases (holds_verdict hf rfl).2
  | dereference _ ih =>
    simp only [findings, List.forall_mem_append] at hf
    obtain ⟨⟨t, -, ha, -⟩, hready⟩ := ih henv hf.1
    have h := holds_verdict hf.2 (by simp [inputs, ha])
    refine ⟨h, forall_preorder ?_ (by simpa [children] using hready)⟩
    simp [Ready, h.1]
  | binary _ _ ihl ihr =>
    simp only [findings, List.forall_mem_append] at hf
    obtain ⟨⟨-, hl⟩, hreadyl⟩ := ihl henv hf.1.1
    obtain ⟨⟨-, hr⟩, hreadyr⟩ := ihr henv hf.1.2
    have h := holds_verdict hf.2 (by simp [inputs, hl, hr])
    refine ⟨h, forall_preorder ⟨_, h.1, ?_⟩ (by simpa [children] using ⟨hreadyl, hreadyr⟩)⟩
    simp only [infer]
    exact Ty.floatForm_of_isFloat (by simp [hl, hr])
  | compare _ _ ihl ihr =>
    simp only [findings, List.forall_mem_append] at hf
    obtain ⟨⟨htl, hl⟩, hreadyl⟩ := ihl henv hf.1.1
    obtain ⟨⟨-, hr⟩, hreadyr⟩ := ihr henv hf.1.2
    have h := holds_verdict hf.2 (by simp [inputs, hl, hr])
    refine ⟨h, forall_preorder ?_ (by simpa [children] using ⟨hreadyl, hreadyr⟩)⟩
    simp [Ready, htl]
  | not _ ih =>
    simp only [findings, List.forall_mem_append] at hf
    obtain ⟨⟨-, ha⟩, hready⟩ := ih henv hf.1
    have h := holds_verdict hf.2 (by simp [inputs, ha])
    exact ⟨h, forall_preorder trivial (by simpa [children] using hready)⟩
  | call hl _ ih =>
    simp only [findings, List.forall_mem_append] at hf
    obtain ⟨hargs, hready⟩ := ih henv hf.1
    have hs := henv.lookup hl
    have h := holds_verdict hf.2 (by
      simpa [inputs, hs.isError_eq, hs.signature] using List.any_eq_false.mp hargs)
    refine ⟨h, forall_preorder ?_ (by simpa [children] using hready)⟩
    simp [Ready, h.1]
  | @addressOf s env g hl =>
    simp only [findings] at hf
    have hs := henv.lookup hl
    have h := holds_verdict hf (by simp [inputs, hs.isError_eq])
    have hi : infer e (.addressOf g s) = .address s.ty := by
      simp [infer, Ty.ofUse, hs.isError_eq]
    exact ⟨⟨s.ty, hi ▸ h.1, hi, hs⟩, forall_leaf rfl trivial⟩
  | index _ _ ihb iha =>
    simp only [findings, List.forall_mem_append] at hf
    obtain ⟨⟨t, -, hb, ht⟩, hreadyb⟩ := ihb henv hf.1.1
    obtain ⟨⟨-, ha⟩, hreadya⟩ := iha henv hf.1.2
    obtain ⟨htype, hi⟩ := holds_verdict hf.2 (by simp [inputs, ha, hb])
    simp only [infer, hb] at htype hi
    obtain ⟨extent, element, rfl, he⟩ := Ty.index_target (by simp [ha]) hi
    rw [he] at htype
    have hsize : element.size?.isSome := by simpa [Ty.Sound, Ty.size?] using ht
    refine ⟨⟨element, htype, by simp only [infer, hb, he], Ty.sound_of_size hsize⟩, ?_⟩
    exact forall_preorder ⟨element, htype, hsize⟩ (by simpa [children] using ⟨hreadyb, hreadya⟩)
  | arguments _ ih =>
    have h := fun n hn => ih n hn henv (holds_items hf n hn)
    refine ⟨?_, forall_preorder trivial fun n hn => (h n hn).2⟩
    simp only [Outcome, members, inferAll_eq_map, List.any_map, List.any_eq_false]
    exact fun n hn => by simp [(h n hn).1.2]
  | var hn hs =>
    simp only [findings] at hf
    obtain ⟨-, h⟩ := holds_verdict hf rfl
    simp only [infer] at h
    have hsize := Ty.size_of_ofVariable h
    exact ⟨henv.declare (Ty.sound_of_size hsize), forall_leaf rfl hsize⟩
  | array hn hs =>
    simp only [findings] at hf
    obtain ⟨-, h⟩ := holds_verdict hf rfl
    simp only [infer] at h
    have hsize := Ty.size_of_ofArray h
    exact ⟨henv.declare (Ty.sound_of_size hsize), forall_leaf rfl hsize⟩
  | function hn hhead _ ih =>
    simp only [findings, List.forall_mem_append] at hf
    obtain ⟨⟨⟨hfaults, hfb⟩, -⟩, -⟩ := hf
    obtain ⟨hparams, hs⟩ := hhead.sound (List.eq_nil_iff_forall_not_mem.mpr fun message hm =>
      hfaults _ (List.mem_map.mpr ⟨message, hm, rfl⟩))
    have hbody := ih ((henv.declare hs).push fun p hp => Ty.sound_of_size (hparams p hp)) hfb
    exact ⟨henv.declare hs, forall_preorder hparams (by simpa [children] using hbody.2)⟩
  | «local» _ _ ih => exact ih henv hf
  | result _ ih => exact ⟨henv, (ih henv hf).2⟩
  | assign _ _ iht ihs =>
    simp only [findings, List.forall_mem_append] at hf
    obtain ⟨-, hreadyt⟩ := iht henv hf.1.1
    obtain ⟨⟨htype, -⟩, hreadys⟩ := ihs henv hf.1.2
    refine ⟨henv, forall_preorder ?_ (by simpa [children] using ⟨hreadyt, hreadys⟩)⟩
    simp [Ready, htype]
  | branch _ _ _ ihc ihy ihz =>
    simp only [findings, List.forall_mem_append] at hf
    have hc := (ihc henv hf.1.1.1).2
    have hy := (ihy (henv.push (List.forall_mem_nil _)) hf.1.2).2
    have hz := (ihz (henv.push (List.forall_mem_nil _)) hf.2).2
    exact ⟨henv, forall_preorder trivial (by simpa [children] using ⟨hc, hy, hz⟩)⟩
  | loop _ _ ihc ihb =>
    simp only [findings, List.forall_mem_append] at hf
    have hc := (ihc henv hf.1.1).2
    have hb := (ihb (henv.push (List.forall_mem_nil _)) hf.2).2
    exact ⟨henv, forall_preorder trivial (by simpa [children] using ⟨hc, hb⟩)⟩
  | leave => exact ⟨henv, forall_leaf rfl trivial⟩
  | leaveWith _ ih =>
    simp only [findings, List.forall_mem_append] at hf
    exact ⟨henv, forall_preorder trivial (by simpa [children] using (ih henv hf.1).2)⟩
  | block _ ih | program _ ih =>
    refine ⟨trivial, forall_preorder trivial ?_⟩
    exact ready_of_inOrder (inOrder_iff.mpr fun before n rest h => ih before n rest h) henv
      (holds_items hf)

end Node

end Crux
