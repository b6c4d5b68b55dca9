import Crux.Proofs.Emit.Names
import Crux.Proofs.Emit.References

/-! Labels of whole files. Every label that a line refers to stands in the same file, but for one
kind: a return statement that gives back the name of a function asks for storage that the function
does not have. -/

namespace Crux

open Instr Asm Emit

def Datum.label? : Datum → Option Label
  | .space l _ | .quoted l _ => some l
  | .text _ => none

namespace Program

def references (p : Program) : List Label := (routines ++ p.code).flatMap Line.references

def placed (p : Program) : List Label :=
  (routines ++ p.code).filterMap Line.label? ++ (p.data ++ constants).filterMap Datum.label?

def Defines (p : Program) (l : Label) : Prop := ∃ l' ∈ p.placed, l'.render = l.render

instance (p : Program) (l : Label) : Decidable (p.Defines l) :=
  inferInstanceAs (Decidable (∃ l' ∈ p.placed, l'.render = l.render))

def Closed (p : Program) : Prop := ∀ l ∈ p.references, p.Defines l

instance (p : Program) : Decidable p.Closed :=
  inferInstanceAs (Decidable (∀ l ∈ p.references, p.Defines l))

variable {p : Program} {l : Label}

theorem defines_of_code (h : .label l ∈ routines ++ p.code) : p.Defines l :=
  ⟨l, List.mem_append_left _ (List.mem_filterMap.mpr ⟨_, h, rfl⟩), rfl⟩

theorem defines_of_space {size : Nat} (h : .space l size ∈ p.data) : p.Defines l :=
  ⟨l, List.mem_append_right _ (List.mem_filterMap.mpr ⟨_, List.mem_append_left _ h, rfl⟩), rfl⟩

theorem defines_of_routines (h : l ∈ routines.flatMap Line.references) : p.Defines l := by
  have hr : ∀ l ∈ routines.flatMap Line.references,
      .label l ∈ routines ∨ l ∈ constants.filterMap Datum.label? := by
    decide +kernel
  obtain h | h := hr l h
  · exact defines_of_code (List.mem_append_left _ h)
  · refine ⟨l, List.mem_append_right _ ?_, rfl⟩
    rw [List.filterMap_append]
    exact List.mem_append_right _ h

end Program

theorem Label.eq_global_of_render {l : Label} {name : String}
    (h : l.render = (global name).render) : l = global name := by
  have hi : l.initial = 'c' := initial_eq h
  cases l with
  | global name' => rw [render_global_inj h]
  | function name' | epilogue name' =>
    exact absurd hi (initial_function_ne name' (by decide) (by decide))
  | fresh _ | inside _ _ | constant _ => simp [initial] at hi

namespace Node

variable {types : Nat → Option Ty} {root body n : Node} {g : Tag} {f s : Symbol}
  {params : List Symbol} {program : Program}

def returnedFunctions (root : Node) : List Symbol := root.preorder.filterMap returnedFunction?

theorem Translated.slots (h : root.Translated types program)
    (hf : .function g f params body ∈ root.children) :
    ∃ r, (Node.function g f params body).frame = [r] ∧
      (∀ s ∈ params ++ body.declared,
        (r.arguments.lookup s.id).isSome ∨ (r.locals.lookup s.id).isSome) ∧
      ∀ id, (∀ p ∈ params ++ body.declared, p.id ≠ id) →
        r.arguments.lookup id = none ∧ r.locals.lookup id = none := by
  have hsize : ∀ p ∈ params, p.ty.size?.isSome :=
    h.ready _ (mem_preorder.mpr (.inr ⟨_, hf, mem_preorder_self _⟩))
  have hids := h.accepted.nodup_variables hf
  rw [Node.variables, List.map_append, List.map_append] at hids
  obtain ⟨hp, hb, -⟩ := List.nodup_append.mp (List.nodup_append.mp hids).1
  obtain ⟨slots, hslots, hmem, hnone⟩ := lookup_argumentSlots hsize hp
  have hargs := Record.arguments_start hslots f.name body.declared
  refine ⟨_, rfl, fun s hs => ?_, fun id hne => ?_⟩
  · obtain hs | hs := List.mem_append.mp hs
    · obtain ⟨o, ho, -⟩ := hmem s hs
      exact .inl (by rw [hargs, ho]; rfl)
    · exact .inr (by rw [Record.lookup_addAll_of_mem hs hb]; rfl)
  · obtain ⟨hne, hne'⟩ := List.forall_mem_append.mp hne
    exact ⟨hargs ▸ hnone id hne, Record.lookup_addAll hne'⟩

theorem Translated.address_cases (h : root.Translated types program)
    (hf : .function g f params body ∈ root.children) (r : Reg) (s : Symbol) :
    ((Node.function g f params body).frame.address r s).references = [] ∨
      s ∉ params ++ body.declared ∧
        (Node.function g f params body).frame.address r s = .la r (.global s.name) := by
  obtain ⟨slots, hframe, hmem, -⟩ := h.slots hf
  rw [hframe]
  cases ha : slots.arguments.lookup s.id with
  | some o => exact .inl (by simp [Frame.address, ha, references])
  | none =>
    cases hl : slots.locals.lookup s.id with
    | some o => exact .inl (by simp [Frame.address, ha, hl, references])
    | none =>
      refine .inr ⟨fun hs => ?_, by simp [Frame.address, ha, hl]⟩
      have := hmem s hs
      simp [ha, hl] at this

theorem Translated.address_function (h : root.Translated types program)
    (hf : .function g f params body ∈ root.children) (hn : n ∈ root.preorder) (hs : s ∈ n.uses)
    (hfun : s.IsFunction) (r : Reg) :
    (Node.function g f params body).frame.address r s = .la r (.global s.name) := by
  obtain ⟨slots, hframe, -, hnone⟩ := h.slots hf
  obtain ⟨ha, hl⟩ := hnone s.id fun p hp => h.accepted.id_ne h.typed hn hs hfun hf hp
  simp [hframe, Frame.address, ha, hl]

theorem Translated.defines_function (h : root.Translated types program) (hn : n ∈ root.preorder)
    (hs : s ∈ n.uses) (hfun : s.IsFunction) : program.Defines (.function s.name) := by
  obtain ⟨scope, hscope, hb⟩ | hd := h.accepted.uses hn hs
  · have hr : ∀ b ∈ Builtin.all, .label (.function b.name) ∈ Program.routines := by decide +kernel
    rw [List.mem_singleton.mp hscope] at hb
    obtain ⟨i, hi, rfl⟩ := List.mem_mapIdx.mp hb
    exact Program.defines_of_code (List.mem_append_left _ (hr _ (List.getElem_mem hi)))
  · obtain ⟨g, params, body, hf⟩ := h.typed.function_mem hd hfun
    refine Program.defines_of_code (List.mem_append_right _ ?_)
    rw [h.code]
    exact (label_mem_programCode types hf).1

theorem Translated.isCode (h : root.Translated types program) :
    ∀ line ∈ Program.routines ++ program.code, line.IsCode fun l => l.initial ≠ 'c' := by
  have hheads : ∀ n ∈ root.children, ∀ l ∈ n.heads, l.initial ≠ 'c' := by
    intro n _ l hl
    cases n with
    | function g f params body =>
      have hne := Label.initial_function_ne f.name (c := 'c') (by decide) (by decide)
      obtain rfl | hl := List.mem_cons.mp hl
      · exact hne
      · obtain rfl := List.mem_singleton.mp hl
        exact hne
    | _ => cases hl
  refine List.forall_mem_append.mpr ⟨by decide +kernel, fun line hl => ?_⟩
  rw [h.code] at hl
  exact (closed_programCode (P := fun _ => True) types root hheads (by simp) line hl).1

theorem Translated.defines_global (h : root.Translated types program) (name : String) :
    program.Defines (.global name) ↔ ∃ s ∈ root.globals, s.name = name := by
  have hdata : program.data =
      root.globals.map fun s => .space (.global s.name) (s.ty.room % 2 ^ 64) :=
    h.data.trans (flatMap_unitData root)
  constructor
  · rintro ⟨l, hl, e⟩
    rw [Label.eq_global_of_render e] at hl
    obtain hl | hl := List.mem_append.mp hl
    · obtain ⟨line, hline, hl⟩ := List.mem_filterMap.mp hl
      have hc := h.isCode line hline
      cases line with
      | label l =>
        cases hl
        exact absurd rfl hc
      | _ => cases hl
    · rw [List.filterMap_append, hdata, List.filterMap_map] at hl
      obtain hl | hl := List.mem_append.mp hl
      · obtain ⟨s, hs, e⟩ := List.mem_filterMap.mp hl
        cases e
        exact ⟨s, hs, rfl⟩
      · have hc : ∀ l ∈ Program.constants.filterMap Datum.label?, l.initial = 'd' := by
          decide +kernel
        exact absurd (hc _ hl) (by simp [Label.initial])
  · rintro ⟨s, hs, rfl⟩
    have hspace : .space (.global s.name) (s.ty.room % 2 ^ 64) ∈ program.data := by
      rw [hdata]
      exact List.mem_map.mpr ⟨s, hs, rfl⟩
    exact Program.defines_of_space hspace

theorem Translated.returned (h : root.Translated types program)
    (hf : .function g f params body ∈ root.children) {g' : Tag}
    (hm : .addressOf g' s ∈ body.preorder)
    (hfun : s.IsFunction) : s ∈ root.returnedFunctions := by
  obtain ⟨_, _, _, _, -, rfl, hbody⟩ := h.typed.function_body hf
  obtain ⟨_, _, hs⟩ := h.accepted.fits.part _ (mem_preorder_of_body hf (mem_preorder_self _))
  obtain ⟨_, _, hty⟩ := hfun
  have hu := h.accepted.fits.uses Env.builtins_declarable
    (h.accepted.declarable_of_wellTyped h.typed)
  obtain hheld | ⟨m, hm, hret⟩ :=
    hbody.holds_or_returned hs (fun m hm => hu m (mem_preorder_of_body hf hm)) hty hm
  · cases hheld
  · exact List.mem_filterMap.mpr ⟨m, mem_preorder_of_body hf hm, hret⟩

theorem Translated.mention (h : root.Translated types program)
    (hf : .function g f params body ∈ root.children) {l : Label}
    (hl : body.Mentions (Node.function g f params body).frame l) :
    program.Defines l ∨ ∃ s ∈ root.returnedFunctions, l = .global s.name := by
  obtain ⟨m, hm, hl⟩ := hl
  have hmr := mem_preorder_of_body hf hm
  cases m with
  | addressOf g' s =>
    obtain hnone | ⟨hnot, haddr⟩ := h.address_cases hf .t1 s
    · rw [mentions, hnone] at hl
      cases hl
    · rw [mentions, haddr] at hl
      obtain rfl := List.mem_singleton.mp hl
      obtain hvar | ⟨_, _, hty⟩ := (h.accepted.parts hf _ hm).2
      · have hglobal := (List.mem_append.mp hvar).resolve_left hnot
        exact .inl ((h.defines_global s.name).mpr ⟨s, hglobal, rfl⟩)
      · exact .inr ⟨s, h.returned hf hm (.of_ty hty), rfl⟩
  | call g' s args =>
    obtain rfl := List.mem_singleton.mp hl
    obtain ⟨_, _, _, _, -, -, hbody⟩ := h.typed.function_body hf
    obtain ⟨t, ht⟩ := (hbody.part _ hm).hasType rfl
    cases ht with
    | call hfun => exact .inl (h.defines_function hmr (List.mem_singleton_self s) ⟨_, _, hfun⟩)
  | leave | leaveWith =>
    obtain rfl := List.mem_singleton.mp hl
    rw [frame_name]
    refine .inl (Program.defines_of_code (List.mem_append_right _ ?_))
    rw [h.code]
    exact (label_mem_programCode types hf).2
  | _ => cases hl

theorem Translated.closed (h : root.Translated types program) {l : Label}
    (hl : l ∈ program.references) :
    program.Defines l ∨ ∃ s ∈ root.returnedFunctions, l = .global s.name := by
  rw [Program.references, List.flatMap_append] at hl
  obtain hl | hl := List.mem_append.mp hl
  · exact .inl (Program.defines_of_routines hl)
  · obtain ⟨line, hline, hl⟩ := List.mem_flatMap.mp hl
    rw [h.code] at hline
    obtain hm | hown := (closed_programCode (H := fun _ => True) types root (by simp)
      (fun _ _ _ _ hf _ => h.mention hf) line hline).2 l hl
    · exact hm
    · exact .inl (Program.defines_of_code (List.mem_append_right _ (h.code ▸ hown)))

theorem mem_returnedFunctions (h : root.WellTyped) (hs : s ∈ root.returnedFunctions) :
    s.IsFunction ∧ ∃ g f params body g', .function g f params body ∈ root.children ∧
      .addressOf g' s ∈ body.preorder := by
  obtain ⟨n, hn, hs⟩ := List.mem_filterMap.mp hs
  unfold returnedFunction? at hs
  split at hs
  · rename_i g₁ g₂ g₃ u
    split at hs
    · rename_i hty
      cases hs
      obtain ⟨t, ht⟩ := h.gives hn rfl
      cases ht with
      | declaration _ hd => cases hd
      | part hf _ hm =>
        have hin : .addressOf g₃ s ∈
            (leaveWith g₁ (.dereference g₂ (.addressOf g₃ s))).preorder := by
          simp [preorder_eq, children]
        exact ⟨.of_ty hty, _, _, _, _, _, hf, mem_preorder_trans hin hm⟩
    · cases hs
  · cases hs

/-- A function that is given back has no storage, but its label is used. -/
theorem Translated.stray (h : root.Translated types program) (hs : s ∈ root.returnedFunctions) :
    .global s.name ∈ program.references ∧ ¬ program.Defines (.global s.name) := by
  obtain ⟨hfun, g, f, params, body, g', hf, hm⟩ := mem_returnedFunctions h.typed hs
  have hmr := mem_preorder_of_body hf hm
  have hu : s ∈ (addressOf g' s).uses := List.mem_singleton_self s
  constructor
  · obtain ⟨k, hk⟩ := infix_programCode types hf hm fun m hm => (h.accepted.parts hf m hm).1
    refine List.mem_flatMap.mpr ⟨.plain (.la .t1 (.global s.name)), List.mem_append_right _ ?_,
      List.mem_singleton_self _⟩
    rw [h.code]
    refine hk.subset ?_
    rw [Node.code, h.address_function hf hmr hu hfun]
    exact (infix_wrap _ _).subset List.mem_cons_self
  · rw [h.defines_global]
    rintro ⟨u, hglobal, e⟩
    obtain ⟨hnew, hnodup⟩ := h.accepted.nodup_binds
    have hub := (stored_sublist root.children).subset hglobal
    obtain ⟨n, hn, hstored⟩ := List.mem_flatMap.mp hglobal
    have hne := h.typed.stored_not_isFunction hn hstored
    obtain ⟨scope, hscope, hb⟩ | hd := h.accepted.uses hmr hu
    · rw [List.mem_singleton.mp hscope] at hb
      exact hnew u hub s hb e.symm
    · obtain ⟨g₁, params₁, body₁, hf₁⟩ := h.typed.function_mem hd hfun
      have hsb : s ∈ root.children.filterMap binds := List.mem_filterMap.mpr ⟨_, hf₁, rfl⟩
      exact hne (List.inj_on_of_nodup_map hnodup hub hsb e ▸ hfun)

end Node

/-- A text that is read and checked without a report has a closed file exactly if no return
statement gives back the name of a function. The storage of such a function is all that is missing. -/
theorem compile_closed_iff {source : String} {root : Node} {c : Checker}
    (hread : readProgram source = .ok root) (hcheck : checkProgram root = .ok c) :
    ∃ program, compile source = .ok program ∧
      (program.Closed ↔ root.returnedFunctions = []) ∧
      (∀ text, .text text ∉ Program.routines ++ program.code) ∧
      (∀ l ∈ program.references,
        program.Defines l ∨ ∃ s ∈ root.returnedFunctions, l = .global s.name) ∧
      (∀ s ∈ root.returnedFunctions,
        .global s.name ∈ program.references ∧ ¬ program.Defines (.global s.name)) ∧
      ∀ name, program.Defines (.global name) ↔
        ∃ s ∈ root.globals, s.name = name ∧
          .space (.global name) (s.ty.room % 2 ^ 64) ∈ program.data := by
  obtain ⟨program, hc, h⟩ := compile_translated hread hcheck
  refine ⟨program, hc, ⟨fun hall => ?_, fun hnil l hl => ?_⟩, fun text hm => ?_,
    fun l => h.closed, fun s hs => h.stray hs, fun name => ?_⟩
  · refine List.eq_nil_iff_forall_not_mem.mpr fun s hs => ?_
    obtain ⟨hl, hnot⟩ := h.stray hs
    exact hnot (hall _ hl)
  · obtain hd | ⟨s, hs, -⟩ := h.closed hl
    · exact hd
    · rw [hnil] at hs
      cases hs
  · exact h.isCode _ hm
  · rw [h.defines_global]
    refine exists_congr fun s => and_congr_right fun hs => ⟨?_, And.left⟩
    rintro rfl
    rw [h.data, Node.flatMap_unitData]
    exact ⟨rfl, List.mem_map.mpr ⟨s, hs, rfl⟩⟩

def storedText : String :=
  "var n : int; func f(k : int) : void \x7b let n = k; \x7d " ++
    "func main() : void \x7b while n < 3 \x7b ::f(n); \x7d \x7d"

theorem compile_closed_iff_stored :
    ∃ root c program, readProgram storedText = .ok root ∧ checkProgram root = .ok c ∧
      compile storedText = .ok program ∧ program.Closed := by
  -- One evaluation for both, since most of it is the reading of the text.
  have h : Faultless storedText ∧ (Parser.ofString storedText).parse.1.returnedFunctions = [] := by
    decide +kernel
  obtain ⟨hread, hcheck⟩ := h.1.checked
  obtain ⟨program, hc, hclosed, -⟩ := compile_closed_iff hread hcheck
  exact ⟨_, _, program, hread, hcheck, hc, hclosed.mpr h.2⟩

def strayText : String := "func f() : void \x7b \x7d func main() : void \x7b return f; \x7d"

/-- The storage of a function that is given back is asked for, and not there. -/
theorem compile_stray :
    ∃ program, compile strayText = .ok program ∧ .global "f" ∈ program.references ∧
      ¬ program.Defines (.global "f") := by
  obtain ⟨hp, hc⟩ : Faultless strayText := by decide +kernel
  have hprogram := compile_eq strayText
  simp only [hp, hc] at hprogram
  exact ⟨_, hprogram, by decide +kernel⟩

end Crux
