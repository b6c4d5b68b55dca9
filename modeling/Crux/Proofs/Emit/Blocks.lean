import Crux.Proofs.Erasure.Compile
import Crux.Proofs.Machine.Layout

namespace Crux

open Instr Asm Emit

theorem Instr.render_aligned {i : Instr} {size : Nat}
    (h : i.operands = ["$sp", "$sp", toString size]) (hm : i.mnemonic.length = 4) :
    i.render .aligned = i.mnemonic ++ " $sp, $sp, " ++ toString size := by
  have hjoin : ("," ++ blanks 1).intercalate ["$sp", "$sp", toString size] =
      "$sp, $sp, " ++ toString size := by
    rw [String.intercalate_cons_cons, String.intercalate_cons_cons, String.intercalate_singleton,
      ← String.append_assoc, ← String.append_assoc, ← String.append_assoc]
    rfl
  have hpad : i.mnemonic ++ blanks (4 - 4) ++ " " ++ "$sp, $sp, " =
      i.mnemonic ++ " $sp, $sp, " := by
    rw [String.append_assoc, String.append_assoc]
    rfl
  rw [Instr.render, h]
  show i.mnemonic ++ blanks (4 - i.mnemonic.length) ++ " " ++ ("," ++ blanks 1).intercalate _ = _
  rw [hjoin, hm, ← String.append_assoc, hpad]

namespace Asm

def listing (ls : List Line) : List String :=
  (ls.map Line.render).filter fun line => !isComment line

@[simp] theorem listing_append (ls ls' : List Line) :
    listing (ls ++ ls') = listing ls ++ listing ls' := by
  rw [listing, List.map_append, List.filter_append]
  rfl

theorem listing_cons (line : Line) (ls : List Line) :
    listing (line :: ls) = listing [line] ++ listing ls :=
  listing_append [line] ls

theorem listing_line {H : Label → Prop} {line : Line} (h : line.IsCode H) :
    listing [line] = if line.isMark then [] else [line.render] := by
  rw [listing, List.map_singleton, List.filter_singleton, Line.isComment_render h]
  cases line.isMark <;> rfl

@[simp] theorem listing_mark (edge : Edge) (node : String) : listing [.mark edge node] = [] :=
  listing_line (H := fun _ => True) trivial

theorem listing_label (l : Label) : listing [.label l] = [l.render ++ ":"] :=
  listing_line (H := fun _ => True) (by cases l <;> trivial)

@[simp] theorem listing_wrap (n : Node) (ls : List Line) : listing (n.wrap ls) = listing ls := by
  unfold Node.wrap
  split
  · rw [listing_cons, listing_append, listing_mark, listing_mark, List.nil_append, List.append_nil]
  · rfl

theorem listing_instrs {ls : List Line} (h : ∀ line ∈ ls, ∃ i spacing, line = .instr i spacing) :
    listing ls = ls.map Line.render := by
  refine List.filter_eq_self.mpr fun text ht => ?_
  obtain ⟨line, hl, rfl⟩ := List.mem_map.mp ht
  obtain ⟨i, spacing, rfl⟩ := h line hl
  have hcode : (Line.instr i spacing).IsCode fun _ => True := trivial
  rw [Line.isComment_render hcode]
  rfl

theorem listing_prologue (size : Nat) :
    listing (prologue size) = ["subu $sp, $sp, 8", "sw   $fp, 0($sp)", "sw   $ra, 4($sp)",
      "addi $fp, $sp, 8", s!"subu $sp, $sp, {size}"] := by
  have hfixed : [Line.aligned (subu .sp .sp 8), .aligned (store .fp 0 .sp),
      .aligned (store .ra 4 .sp), .aligned (addi .fp .sp 8)].map Line.render =
      ["subu $sp, $sp, 8", "sw   $fp, 0($sp)", "sw   $ra, 4($sp)", "addi $fp, $sp, 8"] := by
    decide +kernel
  have hsize : (Line.aligned (subu .sp .sp size)).render = s!"subu $sp, $sp, {size}" :=
    Instr.render_aligned (i := subu .sp .sp size) rfl (show "subu".length = 4 by decide)
  rw [listing_instrs (by simp [prologue, Line.aligned]), ← hsize]
  exact congrArg (· ++ [(Line.aligned (subu .sp .sp size)).render]) hfixed

theorem listing_epilogue (size : Nat) :
    listing (epilogue size) = [s!"addu $sp, $sp, {size}", "lw   $ra, 4($sp)", "lw   $fp, 0($sp)",
      "addu $sp, $sp, 8"] := by
  have hfixed : [Line.aligned (load .ra 4 .sp), .aligned (load .fp 0 .sp),
      .aligned (addu .sp .sp 8)].map Line.render =
      ["lw   $ra, 4($sp)", "lw   $fp, 0($sp)", "addu $sp, $sp, 8"] := by
    decide +kernel
  have hsize : (Line.aligned (addu .sp .sp size)).render = s!"addu $sp, $sp, {size}" :=
    Instr.render_aligned (i := addu .sp .sp size) rfl (show "addu".length = 4 by decide)
  rw [listing_instrs (by simp [epilogue, Line.aligned]), ← hsize]
  exact congrArg ((Line.aligned (addu .sp .sp size)).render :: ·) hfixed

theorem listing_ending (name : String) : listing (ending name) =
    if name = "main" then ["li    $v0, 10", "syscall"] else ["jr   $ra"] := by
  unfold ending
  show listing (if name = "main" then _ else _) = _
  split <;> decide +kernel

def functionText (name : String) (size : Nat) (body : List String) : List String :=
  let label := if name = "main" then "main" else s!"func.{name}"
  [label ++ ":", "subu $sp, $sp, 8", "sw   $fp, 0($sp)", "sw   $ra, 4($sp)", "addi $fp, $sp, 8",
    s!"subu $sp, $sp, {size}"] ++ body ++
  [label ++ ".epilogue:", s!"addu $sp, $sp, {size}", "lw   $ra, 4($sp)", "lw   $fp, 0($sp)",
    "addu $sp, $sp, 8"] ++ if name = "main" then ["li    $v0, 10", "syscall"] else ["jr   $ra"]

theorem listing_function (name : String) (size : Nat) (body : List Line) :
    listing (.label (.function name) :: ((prologue size ++ body) ++
      (.label (.epilogue name) :: (epilogue size ++ ending name)))) =
      functionText name size (listing body) := by
  have hback : (Label.epilogue name).render ++ ":" = Label.functionText name ++ ".epilogue:" := by
    show Label.functionText name ++ ".epilogue" ++ ":" = _
    rw [String.append_assoc]
    rfl
  rw [listing_cons, listing_append, listing_append, listing_cons (.label (.epilogue name)),
    listing_append, listing_label, listing_label, hback, listing_prologue, listing_epilogue,
    listing_ending, functionText]
  simp only [List.append_assoc, List.cons_append, List.nil_append]
  rfl

theorem functionText_inj {name : String} {size size' : Nat} {body : List String}
    (h : functionText name size body = functionText name size' body) : size = size' := by
  have hline := congrArg (·[5]?) h
  exact Text.append_toString_inj (Option.some.inj hline)

end Asm

namespace Node

/-- The text of the functions in a row of declarations, in their order: what is put out for each
body, in a frame that holds the parameters, between the lines that make and release the room for the
variables in it, counted in some way. The bodies share one count of labels. -/
inductive FunctionsText (types : Nat → Option Ty) (count : Nat → Nat) :
    (labels : Nat) → List Node → List String → Prop
  | nil {labels : Nat} : FunctionsText types count labels [] []
  | variable {labels : Nat} {n : Node} {s : Symbol} {items : List Node} {text : List String}
      (stored : n.stored = [s]) (rest : FunctionsText types count labels items text) :
      FunctionsText types count labels (n :: items) text
  | function {labels labels' : Nat} {g : Tag} {f : Symbol} {params : List Symbol} {body : Node}
      {frame frame' : Frame} {code : List Line} {items : List Node} {text : List String}
      (entered : Frame.enter [] f.name params = .ok frame)
      (made : Emit.Gives (body.emit types) labels frame code [] labels' () frame')
      (rest : FunctionsText types count labels' items text) :
      FunctionsText types count labels (.function g f params body :: items)
        (functionText f.name (count (Symbol.roomAll body.declaredVariables)) (listing code) ++ text)

/-- The segments of a program: one line of storage for each variable declared outside functions, and
one block of lines for each function, with the bytes counted in some way. -/
structure Segments (types : Nat → Option Ty) (count : Nat → Nat) (root : Node)
    (program : Program) : Prop where
  data : program.dataLines =
    root.globals.map fun s => s!"cruxdata.{s.name}: .space {count s.ty.room}"
  code : FunctionsText types count 0 root.children
    (program.codeLines.filter fun line => !isComment line)

namespace FunctionsText

variable {types : Nat → Option Ty} {count count' : Nat → Nat} {labels : Nat} {items : List Node}
  {text text' : List String}

theorem congr (h : FunctionsText types count labels items text)
    (hc : ∀ n ∈ items, count (Symbol.roomAll n.declaredVariables) =
      count' (Symbol.roomAll n.declaredVariables)) :
    FunctionsText types count' labels items text := by
  induction h with
  | nil => exact .nil
  | «variable» stored _ ih => exact .variable stored (ih (List.forall_mem_cons.mp hc).2)
  | @function _ _ g f params body _ _ _ _ _ entered made _ ih =>
    obtain ⟨hn, hrest⟩ := List.forall_mem_cons.mp hc
    rw [declaredVariables_function] at hn
    rw [hn]
    exact .function entered made (ih hrest)

/-- The text tells how the bytes of each function are counted. -/
theorem count_eq (h : FunctionsText types count labels items text)
    (h' : FunctionsText types count' labels items text') (e : text = text') {g : Tag} {f : Symbol}
    {params : List Symbol} {body : Node} (hf : .function g f params body ∈ items) :
    count (Symbol.roomAll body.declaredVariables) =
      count' (Symbol.roomAll body.declaredVariables) := by
  induction h generalizing text' with
  | nil => cases hf
  | «variable» stored _ ih =>
    cases h' with
    | «variable» _ rest =>
      obtain rfl | hf := List.mem_cons.mp hf
      · cases stored
      · exact ih rest e hf
    | function => cases stored
  | function entered made _ ih =>
    cases h' with
    | «variable» stored => cases stored
    | function entered' made' rest =>
      cases entered.symm.trans entered'
      obtain ⟨rfl, rfl⟩ := made.unique made'
      obtain ⟨hblock, e⟩ := List.append_inj e (by simp [functionText])
      obtain hf | hf := List.mem_cons.mp hf
      · cases hf
        exact functionText_inj hblock
      · exact ih rest e hf

end FunctionsText

variable {types : Nat → Option Ty} {root n : Node} {program : Program}

theorem Accepted.exists_declaration (h : root.Accepted) (hn : n ∈ root.children) :
    ∃ env, Scoped .declaration env n := by
  cases h.fits with
  | program hitems =>
    obtain ⟨before, rest, e⟩ := List.append_of_mem hn
    exact ⟨_, hitems before n rest e⟩

theorem Translated.functionsText (h : root.Translated types program) {items : List Node}
    (hi : ∀ n ∈ items, n ∈ root.children) (labels : Nat) :
    FunctionsText types (· % 2 ^ 64) labels items (listing (unitCodeAll types labels items)) := by
  induction items generalizing labels with
  | nil => exact .nil
  | cons n items ih =>
    obtain ⟨hn, hrest⟩ := List.forall_mem_cons.mp hi
    have hih := ih hrest (labels + n.labelCount)
    cases n with
    | var | array => exact .variable rfl hih
    | function g f params body =>
      have hsize : ∀ p ∈ params, p.ty.size?.isSome :=
        h.ready _ (mem_preorder.mpr (.inr ⟨_, hn, mem_preorder_self _⟩))
      obtain ⟨hbody, -⟩ := h.accepted.gives_body h.ready hn
      have hvars := declaredVariables_eq fun m hm => (h.accepted.parts hn m hm).1
      rw [unitCodeAll, listing_append, unitCode, listing_wrap, listing_function, frame_size,
        ← hvars, UInt64.toNat_ofNat']
      exact .function (Frame.enter_eq hsize [] f.name) (hbody labels) hih
    | _ =>
      obtain ⟨env, hs⟩ := h.accepted.exists_declaration hn
      cases hs

theorem Translated.segments (h : root.Translated types program) :
    root.Segments types (· % 2 ^ 64) program := by
  constructor
  · rw [Program.dataLines, h.data, flatMap_unitData, List.map_map]
    rfl
  · have hcode := h.functionsText (fun n hn => hn) 0
    rw [Program.codeLines, h.code, programCode]
    rwa [← listing_wrap root] at hcode

end Node

end Crux
