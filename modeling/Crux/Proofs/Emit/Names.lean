import Crux.Proofs.Compile
import Crux.Proofs.Machine.Layout
import Crux.Proofs.Scope.Words
import Crux.Proofs.Typing.Functions

namespace Crux

open Instr Asm Emit

/-- The program is the code of an accepted and well typed tree. -/
structure Node.Translated (types : Nat → Option Ty) (root : Node) (program : Program) : Prop where
  accepted : root.Accepted
  typed : root.WellTyped
  ready : ∀ n ∈ root.preorder, n.Ready types
  words : ∀ n ∈ root.preorder, ∀ s ∈ n.symbols, isWord s.name
  recorded : ∀ n t, root.Gives n t → types n.id = some t
  code : program.code = root.programCode types
  data : program.data = root.children.flatMap Node.unitData

theorem readProgram_ok {source : String} {root : Node} (h : readProgram source = .ok root) :
    (Parser.ofString source).parse.2.hasError = false ∧
      root = (Parser.ofString source).parse.1 := by
  rw [readProgram_eq] at h
  split at h
  · cases h
  · cases h
    exact ⟨Bool.eq_false_iff.mpr ‹_›, rfl⟩

theorem checkProgram_ok {root : Node} {c : Checker} (h : checkProgram root = .ok c) :
    c.hasError = false ∧ c = Checker.empty.check root := by
  rw [checkProgram_eq] at h
  split at h
  · cases h
  · cases h
    exact ⟨Bool.eq_false_iff.mpr ‹_›, rfl⟩

/-- The text is read and checked without a report. -/
def Faultless (source : String) : Prop :=
  (Parser.ofString source).parse.2.hasError = false ∧
    (Checker.empty.check (Parser.ofString source).parse.1).hasError = false

instance (source : String) : Decidable (Faultless source) := inferInstanceAs (Decidable (_ ∧ _))

theorem Faultless.checked {source : String} (h : Faultless source) :
    readProgram source = .ok (Parser.ofString source).parse.1 ∧
      checkProgram (Parser.ofString source).parse.1 =
        .ok (Checker.empty.check (Parser.ofString source).parse.1) := by
  constructor
  · rw [readProgram_eq, if_neg (by simp [h.1])]
  · rw [checkProgram_eq, if_neg (by simp [h.2])]

def Node.function? : Node → Option (Symbol × Node)
  | .function _ f _ body => some (f, body)
  | _ => none

theorem Node.exists_function_of_any {root : Node} {P : Symbol × Node → Bool}
    (h : root.children.any fun n => n.function?.any P) :
    ∃ g f params body, .function g f params body ∈ root.children ∧ P (f, body) := by
  obtain ⟨n, hn, h⟩ := List.any_eq_true.mp h
  cases n with
  | function g f params body => exact ⟨g, f, params, body, hn, h⟩
  | _ => cases h

theorem compile_translated {source : String} {root : Node} {c : Checker}
    (hread : readProgram source = .ok root) (hcheck : checkProgram root = .ok c) :
    ∃ program, compile source = .ok program ∧ root.Translated (c.types[·]?) program := by
  obtain ⟨hp, rfl⟩ := readProgram_ok hread
  obtain ⟨hc, rfl⟩ := checkProgram_ok hcheck
  have hnil : (Parser.ofString source).parse.2.diagnostics = [] := by
    simpa [Parser.hasError] using hp
  have hacc := Parser.parse_accepted hnil
  have hready := ready_of_quiet hp hc
  have hgives := hacc.gives hready
  have herrors := hacc.errors_eq_nil_iff.mp (by simpa [Checker.hasError] using hc)
  have htyped := hacc.quiet_iff.mp herrors
  refine ⟨_, by simp only [compile_eq, hp, hc]; rfl, hacc, htyped, hready,
    fun n hn s => Parser.isWord_name hnil hn,
    fun n t hg => hacc.types_iff.mpr (hacc.notes_given htyped hg).2, ?_, ?_⟩
  · rw [Generator.generate_gives hgives]
    rfl
  · rw [Generator.generate_gives hgives]
    rfl

def Symbol.IsFunction (s : Symbol) : Prop := ∃ params result, s.type? = some (.func params result)

theorem Symbol.IsFunction.of_ty {s : Symbol} {params : List Ty} {result : Ty}
    (h : s.ty = .func params result) : s.IsFunction := by
  cases ht : s.type? with
  | some t => exact ⟨params, result, ht.trans (congrArg some ((ty_eq ht).symm.trans h))⟩
  | none => simp [ty, ht] at h

theorem Symbol.IsVariable.not_isFunction {s : Symbol} {t : Ty} (h : s.IsVariable t) :
    ¬ s.IsFunction := by
  rintro ⟨ps, r, hf⟩
  cases hf.symm.trans h.1
  cases h.2

theorem Symbol.IsArray.not_isFunction {s : Symbol} {t : Ty} (h : s.IsArray t) :
    ¬ s.IsFunction := by
  obtain ⟨ht, ⟨extent, element, rfl⟩, -⟩ := h
  rintro ⟨ps, r, hf⟩
  cases hf.symm.trans ht

theorem Symbol.not_isFunction_of_scalar {s : Symbol} (h : s.ty.isScalar) : ¬ s.IsFunction := by
  rintro ⟨ps, r, hf⟩
  rw [ty_eq hf] at h
  cases h

namespace Node

variable {types : Nat → Option Ty} {root body n : Node} {g : Tag} {f s p : Symbol}
  {params : List Symbol} {program : Program}

theorem HasTypes.declares_not_isFunction {e : Enclosing} (h : n.HasTypes e) (hs : s ∈ n.declares) :
    ¬ s.IsFunction := by
  cases h with
  | node h =>
    cases h with
    | var h | array h =>
      cases List.mem_singleton.mp hs
      exact h.not_isFunction
    | _ => cases hs
  | row => cases hs

theorem WellTyped.declares (h : root.WellTyped) (hn : n ∈ root.children) : ∃ t, n.Declares t := by
  cases h with
  | program h => exact h n hn

theorem WellTyped.function_body (h : root.WellTyped)
    (hf : .function g f params body ∈ root.children) :
    ∃ ps result g' items, f.type? = some (.func ps result) ∧ body = .list g' .statements items ∧
      body.HasTypes ⟨f.name, result⟩ := by
  obtain ⟨t, ht⟩ := h.declares hf
  cases ht with
  | function hty _ _ _ hitems => exact ⟨_, _, _, _, hty, rfl, .row hitems⟩

theorem WellTyped.not_isFunction (h : root.WellTyped)
    (hf : .function g f params body ∈ root.children) (hs : s ∈ params ++ body.declared) :
    ¬ s.IsFunction := by
  obtain ⟨t, ht⟩ := h.declares hf
  cases ht with
  | function _ _ hp _ hitems =>
    obtain hs | hs := List.mem_append.mp hs
    · exact Symbol.not_isFunction_of_scalar (hp s hs)
    · obtain ⟨m, hm, hs⟩ := List.mem_flatMap.mp hs
      exact ((HasTypes.row hitems).part m hm).declares_not_isFunction hs

theorem WellTyped.stored_not_isFunction (h : root.WellTyped) (hn : n ∈ root.children)
    (hs : s ∈ n.stored) : ¬ s.IsFunction := by
  obtain ⟨t, ht⟩ := h.declares hn
  cases ht with
  | var h | array h =>
    cases List.mem_singleton.mp hs
    exact h.not_isFunction
  | function => cases hs

theorem WellTyped.function_mem (h : root.WellTyped) (hs : s ∈ root.declared) (hf : s.IsFunction) :
    ∃ g params body, .function g s params body ∈ root.children := by
  have hd : root.declares = [] := by
    cases h
    rfl
  rw [declared_eq, hd] at hs
  obtain ⟨n, hn, hs⟩ := List.mem_flatMap.mp hs
  obtain ⟨t, ht⟩ := h.declares hn
  cases n with
  | function g f params body =>
    have hs : s ∈ f :: (params ++ body.declared) := by
      simpa [declared_eq (.function ..), Node.declares, children] using hs
    obtain rfl | hs := List.mem_cons.mp hs
    · exact ⟨_, _, _, hn⟩
    · exact absurd hf (h.not_isFunction hn hs)
  | var | array =>
    rw [declared_eq, children, List.flatMap_nil, List.append_nil] at hs
    exact absurd hf (h.stored_not_isFunction hn hs)
  | _ => cases ht

theorem Accepted.uses (h : root.Accepted) (hn : n ∈ root.preorder) (hs : s ∈ n.uses) :
    (∃ scope ∈ Env.builtins, s ∈ scope) ∨ s ∈ root.declared :=
  h.fits.uses (P := fun s => (∃ scope ∈ Env.builtins, s ∈ scope) ∨ s ∈ root.declared)
    (fun scope hscope _ hs => .inl ⟨scope, hscope, hs⟩) (fun _ hd => .inr hd) n hn s hs

theorem mem_preorder_of_body (hf : .function g f params body ∈ root.children)
    (hn : n ∈ body.preorder) : n ∈ root.preorder :=
  mem_preorder.mpr (.inr ⟨_, hf, mem_preorder.mpr (.inr ⟨body, by simp [children], hn⟩)⟩)

theorem mem_declared_of_inside (hf : .function g f params body ∈ root.children)
    (hs : s ∈ params ++ body.declared) : s ∈ root.declared := by
  refine declared_of_child hf s ?_
  rw [declared_eq, children, List.flatMap_singleton]
  exact List.mem_cons_of_mem f hs

theorem Accepted.id_ne (h : root.Accepted) (hw : root.WellTyped) (hn : n ∈ root.preorder)
    (hs : s ∈ n.uses) (hfun : s.IsFunction) (hf : .function g f params body ∈ root.children)
    (hp : p ∈ params ++ body.declared) : p.id ≠ s.id := by
  intro e
  have hpd := mem_declared_of_inside hf hp
  obtain ⟨k, hi⟩ := h.ordered
  obtain ⟨scope, hscope, hb⟩ | hd := h.uses hn hs
  · rw [List.mem_singleton.mp hscope] at hb
    obtain ⟨i, hlt, rfl⟩ := List.mem_mapIdx.mp hb
    have := (hi.bounds p.id (List.mem_map_of_mem hpd)).1
    dsimp only at e
    omega
  · have hnodup : (root.declared.map Symbol.id).Nodup := hi.sorted.imp Nat.ne_of_lt
    exact hw.not_isFunction hf hp (List.inj_on_of_nodup_map hnodup hpd hd e ▸ hfun)

theorem label_mem_programCode (types : Nat → Option Ty)
    (hf : .function g f params body ∈ root.children) :
    .label (.function f.name) ∈ root.programCode types ∧
      .label (.epilogue f.name) ∈ root.programCode types := by
  obtain ⟨k, hk⟩ := infix_unitCodeAll types hf 0
  have hin {line : Line} (h : line ∈ unitCode types k (.function g f params body)) :
      line ∈ root.programCode types := (hk.trans (infix_wrap root _)).subset h
  exact ⟨hin ((infix_wrap _ _).subset (by simp)), hin ((infix_wrap _ _).subset (by simp))⟩

end Node

end Crux
