import Crux.Proofs.Asm.Text
import Crux.Proofs.Emit.Unique
import Crux.Proofs.Node.Outline

namespace Crux

open Instr Asm Emit

namespace Line

def IsSpelled : Line → Prop
  | .instr i _ => ∀ r ∈ i.registers, r.isKnown
  | .mark _ node => Tidy node.toList
  | .label _ => True
  | .text _ => False

instance : DecidablePred IsSpelled
  | .instr i _ => inferInstanceAs (Decidable (∀ r ∈ i.registers, _))
  | .mark _ node => inferInstanceAs (Decidable (Tidy node.toList))
  | .label _ => inferInstanceAs (Decidable True)
  | .text _ => inferInstanceAs (Decidable False)

@[simp]
theorem isSpelled_plain {i : Instr} : (plain i).IsSpelled ↔ ∀ r ∈ i.registers, r.isKnown := .rfl

@[simp]
theorem isSpelled_aligned {i : Instr} : (aligned i).IsSpelled ↔ ∀ r ∈ i.registers, r.isKnown := .rfl

@[simp]
theorem isSpelled_label (l : Label) : (label l).IsSpelled := trivial

theorem IsSpelled.neat {line : Line} (h : line.IsSpelled) (hr : ∀ l ∈ line.references, l.Tidy)
    (hl : ∀ l, line = .label l → l.Tidy) : line.Neat := by
  cases line with
  | instr i spacing => exact ⟨h, hr⟩
  | label l => exact hl l rfl
  | mark edge node => exact h
  | text => exact h

end Line

def Spelled (ls : List Line) : Prop := ∀ line ∈ ls, line.IsSpelled

instance (ls : List Line) : Decidable (Spelled ls) :=
  inferInstanceAs (Decidable (∀ line ∈ ls, _))

@[simp]
theorem spelled_nil : Spelled [] := List.forall_mem_nil _

@[simp]
theorem spelled_append {ls ls' : List Line} : Spelled (ls ++ ls') ↔ Spelled ls ∧ Spelled ls' :=
  List.forall_mem_append

@[simp]
theorem spelled_cons {line : Line} {ls : List Line} :
    Spelled (line :: ls) ↔ line.IsSpelled ∧ Spelled ls :=
  List.forall_mem_cons

theorem Label.nodup_render_append {ls ls' : List Label} (h : (ls.map render).Nodup)
    (h' : (ls'.map render).Nodup) (hne : ∀ l ∈ ls, ∀ l' ∈ ls', l.initial ≠ l'.initial) :
    ((ls ++ ls').map render).Nodup := by
  rw [List.map_append]
  refine List.nodup_append.mpr ⟨h, h', fun text ht text' ht' e => ?_⟩
  obtain ⟨l, hl, rfl⟩ := List.mem_map.mp ht
  obtain ⟨l', hl', rfl⟩ := List.mem_map.mp ht'
  exact hne l hl l' hl' (initial_eq e)

namespace Node

variable {types : Nat → Option Ty} {root n : Node} {program : Program}

theorem tidy_title (n : Node) : Tidy n.title.toList :=
  ⟨n.shown.not_mem_title (by decide), n.shown.not_mem_title (by decide)⟩

theorem tidy_render (n : Node) : Tidy n.render.toList := by
  simp [render, Position.render, n.tidy_title, toString]

theorem spelled_wrap {ls : List Line} (h : Spelled ls) : Spelled (n.wrap ls) := by
  have hmark (edge : Edge) : (Line.mark edge n.render).IsSpelled := n.tidy_render
  unfold wrap
  split
  · simp [hmark, h]
  · exact h

theorem spelled_codeAll {F : Frame} {items : List Node}
    (h : ∀ n ∈ items, ∀ l, Spelled (n.code types F l)) (l : Nat) :
    Spelled (codeAll types F l items) := by
  induction items generalizing l with
  | nil => exact spelled_nil
  | cons n items ih =>
    obtain ⟨hn, hitems⟩ := List.forall_mem_cons.mp h
    exact spelled_append.mpr ⟨hn l, ih hitems _⟩

theorem spelled_dropCode (n : Node) : Spelled (n.dropCode types) := by
  unfold dropCode
  split
  · split <;> decide
  · decide

theorem spelled_rowCode {F : Frame} {items : List Node}
    (h : ∀ n ∈ items, ∀ l, Spelled (n.code types F l)) (l : Nat) :
    Spelled (rowCode types F l items) := by
  induction items generalizing l with
  | nil => exact spelled_nil
  | cons n items ih =>
    obtain ⟨hn, hitems⟩ := List.forall_mem_cons.mp h
    exact spelled_append.mpr ⟨hn l, spelled_append.mpr ⟨n.spelled_dropCode, ih hitems _⟩⟩

theorem spelled_loadThrough (x : Bool) : Spelled (loadThrough x) := by cases x <;> decide

theorem spelled_storeThrough (x : Bool) : Spelled (storeThrough x) := by cases x <;> decide

theorem spelled_operatorCode (x : Bool) (op : BinaryOp) : Spelled (operatorCode x op) := by
  cases x <;> cases op <;> decide

theorem spelled_compareCode (op : CompareOp) (x : Bool) (yes no join : Label) :
    Spelled (compareCode op x yes no join) := by
  have htest : (Line.plain (floatTest op)).IsSpelled := by cases op <;> decide
  cases x <;> simp [compareCode, branchWhen, popInt, popFloat, pushInt, htest]

theorem spelled_callCode (s : Symbol) (count : Nat) : Spelled (callCode s count) := by
  have hdrop : Spelled (if count = 0 then [] else
      [.plain (addi .sp .sp (count * Ty.wordSize : Nat))]) := by
    split <;> simp
  refine spelled_cons.mpr ⟨by simp, spelled_append.mpr ⟨hdrop, ?_⟩⟩
  split <;> decide

theorem spelled_code (types : Nat → Option Ty) (F : Frame) (n : Node) (l : Nat) :
    Spelled (n.code types F l) := by
  induction n using children_induction generalizing l with
  | step n ih =>
    rw [code.eq_def]
    apply spelled_wrap
    cases n with
    | int | float | bool => simp [pushInt, pushFloat]
    | addressOf g s =>
      obtain ⟨o, h⟩ | h := F.address_cases .t1 s <;> simp [h, pushInt]
    | dereference => simp_all [children, popInt, spelled_loadThrough]
    | not => simp_all [children, popInt, pushInt]
    | index => simp_all [children, indexCode, popInt, pushInt]
    | binary => simp_all [children, spelled_operatorCode]
    | compare => simp_all [children, spelled_compareCode]
    | call => simp_all [children, spelled_callCode]
    | assign => simp_all [children, spelled_storeThrough]
    | branch | loop => simp_all [children, popInt]
    | leave => simp [leaveLine]
    | leaveWith => simp_all [children, popInt, leaveLine]
    | list g kind items =>
      cases kind with
      | statements => exact spelled_rowCode ih l
      | expressions | declarations => exact spelled_codeAll ih l
    | var | array | function | error => exact spelled_nil

theorem spelled_unitCode (types : Nat → Option Ty) (l : Nat) (n : Node) :
    Spelled (n.unitCode types l) := by
  cases n with
  | function g f params body =>
    have hending : Spelled (ending f.name) := by
      unfold ending
      split <;> decide
    rw [unitCode]
    refine spelled_wrap ?_
    simp [prologue, epilogue, hending, spelled_code]
  | _ => exact spelled_nil

theorem spelled_programCode (types : Nat → Option Ty) (root : Node) :
    Spelled (root.programCode types) := by
  have hall (items : List Node) (l : Nat) : Spelled (unitCodeAll types l items) := by
    induction items generalizing l with
    | nil => exact spelled_nil
    | cons n items ih => exact spelled_append.mpr ⟨n.spelled_unitCode types l, ih _⟩
  exact spelled_wrap (hall root.children 0)

theorem Translated.tidy (h : root.Translated types program) (hn : n ∈ root.preorder) {s : Symbol}
    (hs : s ∈ n.symbols) : Tidy s.name.toList :=
  ⟨not_mem_of_isWord (h.words n hn s hs) (by decide +kernel),
    not_mem_of_isWord (h.words n hn s hs) (by decide +kernel)⟩

theorem Translated.tidy_mention (h : root.Translated types program) {g : Tag} {f : Symbol}
    {params : List Symbol} {body : Node} (hf : .function g f params body ∈ root.children)
    {l : Label} (hl : body.Mentions (Node.function g f params body).frame l) : l.Tidy := by
  obtain ⟨m, hm, hl⟩ := hl
  have hmr := mem_preorder_of_body hf hm
  cases m with
  | addressOf g' s =>
    rw [mentions] at hl
    obtain ⟨o, e⟩ | e := (Node.function g f params body).frame.address_cases .t1 s
    · rw [e] at hl
      cases hl
    · rw [e] at hl
      obtain rfl := List.mem_singleton.mp hl
      exact h.tidy hmr List.mem_cons_self
  | call g' s args =>
    obtain rfl := List.mem_singleton.mp hl
    exact h.tidy hmr List.mem_cons_self
  | leave | leaveWith =>
    obtain rfl := List.mem_singleton.mp hl
    rw [frame_name]
    exact h.tidy (mem_preorder.mpr (.inr ⟨_, hf, mem_preorder_self _⟩)) List.mem_cons_self
  | _ => cases hl

theorem Translated.tidy_heads (h : root.Translated types program) :
    ∀ n ∈ root.children, ∀ l ∈ n.heads, l.Tidy ∧ l.initial ≠ 'c' ∧ l.initial ≠ 'd' := by
  intro n hn l hl
  cases n with
  | function g f params body =>
    have htidy : Tidy f.name.toList :=
      h.tidy (mem_preorder.mpr (.inr ⟨_, hn, mem_preorder_self _⟩)) List.mem_cons_self
    have hne {c : Char} (hm : 'm' ≠ c) (hf : 'f' ≠ c) := Label.initial_function_ne f.name hm hf
    simp only [heads, List.mem_cons, List.not_mem_nil, or_false] at hl
    obtain rfl | rfl := hl
    · exact ⟨htidy, hne (by decide) (by decide), hne (by decide) (by decide)⟩
    · exact ⟨htidy, hne (by decide) (by decide), hne (by decide) (by decide)⟩
  | _ => cases hl

theorem Translated.neat_code (h : root.Translated types program) :
    ∀ line ∈ program.code, line.Neat ∧
      line.IsCode fun l => l.Tidy ∧ l.initial ≠ 'c' ∧ l.initial ≠ 'd' := by
  rw [h.code]
  have hclosed := closed_programCode (P := Label.Tidy) types root h.tidy_heads
    fun _ _ _ _ hf _ => h.tidy_mention hf
  have htidy {l : Label} (hl : .label l ∈ root.programCode types) : l.Tidy := by
    have hc := (hclosed _ hl).1
    cases l with
    | fresh => trivial
    | _ => exact hc.1
  intro line hm
  refine ⟨(spelled_programCode types root line hm).neat (fun l hl => ?_) fun l e => ?_,
    (hclosed line hm).1⟩
  · obtain hmention | hown := (hclosed line hm).2 l hl
    · exact hmention
    · exact htidy hown
  · exact htidy (e ▸ hm)

theorem Translated.data_eq (h : root.Translated types program) :
    program.data = root.globals.map fun s => .space (.global s.name) (s.ty.room % 2 ^ 64) :=
  h.data.trans (flatMap_unitData root)

theorem Translated.neat_data (h : root.Translated types program) :
    ∀ d ∈ program.data, d.Neat := by
  intro d hd
  rw [h.data_eq] at hd
  obtain ⟨s, hs, rfl⟩ := List.mem_map.mp hd
  obtain ⟨n, hn, hs⟩ := List.mem_flatMap.mp hs
  have hn := mem_preorder.mpr (.inr ⟨n, hn, mem_preorder_self n⟩)
  cases n with
  | var | array => exact h.tidy hn hs
  | _ => cases hs

theorem Translated.nodup_data (h : root.Translated types program) :
    (((program.data ++ Program.constants).filterMap Datum.label?).map Label.render).Nodup ∧
      ∀ l ∈ (program.data ++ Program.constants).filterMap Datum.label?,
        l.initial = 'c' ∨ l.initial = 'd' := by
  have hconstants : ((Program.constants.filterMap Datum.label?).map Label.render).Nodup ∧
      ∀ l ∈ Program.constants.filterMap Datum.label?, l.initial = 'd' := by
    decide +kernel
  have hglobals : program.data.filterMap Datum.label? =
      root.globals.map fun s => .global s.name := by
    rw [h.data_eq, List.filterMap_map, ← List.filterMap_eq_map]
    rfl
  have hinitial : ∀ l ∈ root.globals.map (fun s => Label.global s.name), l.initial = 'c' :=
    List.forall_mem_map.mpr fun _ _ => rfl
  rw [List.filterMap_append, hglobals]
  refine ⟨Label.nodup_render_append ?_ hconstants.1 fun l hl l' hl' => ?_,
    List.forall_mem_append.mpr
      ⟨fun l hl => .inl (hinitial l hl), fun l hl => .inr (hconstants.2 l hl)⟩⟩
  · have hnames := h.accepted.nodup_globals.map fun _ _ => Label.render_global_inj
    rw [List.map_map] at hnames ⊢
    exact hnames
  · rw [hinitial l hl, hconstants.2 l' hl']
    decide

theorem Translated.nodup_placed (h : root.Translated types program) :
    (((program.data ++ Program.constants).filterMap Datum.label? ++
      (Program.routines ++ program.code).filterMap Line.label?).map Label.render).Nodup := by
  obtain ⟨hdata, hinitial⟩ := h.nodup_data
  have hroutines : ∀ l ∈ Program.routines.filterMap Line.label?,
      l.initial ≠ 'c' ∧ l.initial ≠ 'd' := by
    decide +kernel
  have hcode : ∀ l ∈ program.code.filterMap Line.label?, l.initial ≠ 'c' ∧ l.initial ≠ 'd' := by
    intro l hl
    have hc := (h.neat_code _ (label_mem hl)).2
    cases l with
    | fresh => simp [Label.initial]
    | _ => exact hc.2
  refine Label.nodup_render_append hdata h.nodup_labels fun l hl l' hl' => ?_
  have hne : l'.initial ≠ 'c' ∧ l'.initial ≠ 'd' := by
    rw [List.filterMap_append] at hl'
    exact (List.mem_append.mp hl').elim (hroutines l') (hcode l')
  obtain hc | hd := hinitial l hl
  · exact hc ▸ hne.1.symm
  · exact hd ▸ hne.2.symm

end Node

/-- A text that is read and checked without a report has a file whose labels are all different. They
are those that stand before a colon in the text of the file: of the storage, of the constant texts,
of the routines and of the code. -/
theorem compile_labels_nodup {source : String} {root : Node} {c : Checker}
    (hread : readProgram source = .ok root) (hcheck : checkProgram root = .ok c) :
    ∃ program, compile source = .ok program ∧ (Asm.labels program.render).Nodup ∧
      Asm.labels program.render = ((program.data ++ Program.constants).filterMap Datum.label? ++
        (Program.routines ++ program.code).filterMap Line.label?).map (·.render.toList) := by
  obtain ⟨program, hc, h⟩ := compile_translated hread hcheck
  have hlabels := Program.labels_render h.neat_data fun line hl => (h.neat_code line hl).1
  refine ⟨program, hc, ?_, hlabels⟩
  have hmap := h.nodup_placed.map fun _ _ => String.toList_inj.mp
  rw [List.map_map] at hmap
  rw [hlabels]
  exact hmap

def placesText : String :=
  "var f : int; array g : bool[2]; func h(f : int) : bool \x7b return f < 3; \x7d " ++
    "func epilogue() : void \x7b while ::h(f) \x7b let f = f + 1; \x7d \x7d " ++
    "func main() : void \x7b ::epilogue(); \x7d"

theorem compile_labels_nodup_places :
    ∃ root c program, readProgram placesText = .ok root ∧ checkProgram root = .ok c ∧
      compile placesText = .ok program ∧ (Asm.labels program.render).Nodup := by
  have hquiet : Faultless placesText := by decide +kernel
  obtain ⟨hread, hcheck⟩ := hquiet.checked
  obtain ⟨program, hc, hnodup, -⟩ := compile_labels_nodup hread hcheck
  exact ⟨_, _, program, hread, hcheck, hc, hnodup⟩

end Crux
