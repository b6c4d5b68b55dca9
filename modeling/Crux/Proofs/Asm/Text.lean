import Crux.Proofs.Emit.Closure
import Crux.Proofs.Text.Lines

/-! Assembly texts, character by character. A line has a colon only behind a label, and no line is
broken by what stands on it, so the labels can be read back from the text. -/

namespace Crux

/-- The label that a line of an assembly text begins with: what stands before its first colon. -/
def Asm.label? (line : List Char) : Option (List Char) :=
  if ':' ∈ line then some (line.takeWhile (· ≠ ':')) else none

def Asm.labels (text : String) : List (List Char) :=
  (text.toList.splitOn '\n').filterMap Asm.label?

namespace Asm

theorem label?_of_colon {name rest : List Char} (h : ':' ∉ name) :
    label? (name ++ ':' :: rest) = some name := by
  have hall : ∀ c ∈ name, decide (c ≠ ':') = true := fun c hc =>
    decide_eq_true fun e => h (e ▸ hc)
  rw [label?, if_pos (by simp), List.takeWhile_append_of_pos hall]
  simp

theorem label?_of_not_mem {line : List Char} (h : ':' ∉ line) : label? line = none := if_neg h

end Asm

@[simp]
theorem tidy_blanks (n : Nat) : Tidy (blanks n).toList := by simp [blanks]

namespace Binary32

@[simp]
theorem tidy_immediate (value : Binary32) : Tidy value.immediate.toList := by
  simp only [immediate]
  split <;> simp

end Binary32

def Label.Tidy : Label → Prop
  | .function name | .epilogue name | .global name | .constant name => Crux.Tidy name.toList
  | .inside routine place => Crux.Tidy routine.toList ∧ Crux.Tidy place.toList
  | .fresh _ => True

instance : DecidablePred Label.Tidy
  | .function name | .epilogue name | .global name | .constant name =>
    inferInstanceAs (Decidable (Crux.Tidy name.toList))
  | .inside .. => inferInstanceAs (Decidable (_ ∧ _))
  | .fresh _ => inferInstanceAs (Decidable True)

theorem Label.Tidy.render {l : Label} (h : l.Tidy) : Crux.Tidy l.render.toList := by
  have hfunction {name : String} (h : Crux.Tidy name.toList) :
      Crux.Tidy (Label.function name).render.toList := by
    rw [toList_function]
    split
    · decide
    · simp [h]
  cases l with
  | function name => exact hfunction h
  | epilogue name => simp [toList_epilogue, hfunction h]
  | fresh n => simp [toList_fresh]
  | inside routine place => simp [toList_inside, h.1, h.2]
  | global name => simp [toList_global, show Crux.Tidy name.toList from h]
  | constant name => simp [toList_constant, show Crux.Tidy name.toList from h]

@[simp]
def Reg.isKnown : Reg → Bool
  | .named _ => false
  | _ => true

theorem Reg.tidy_render {r : Reg} (h : r.isKnown) : Tidy r.render.toList := by
  cases r with
  | named => cases h
  | _ => decide

namespace Instr

@[simp]
def registers : Instr → List Reg
  | .li r _ | .liFloat r _ | .la r _ | .branchZero r _ | .jumpTo r => [r]
  | .load r _ base | .store r _ base | .loadFloat r _ base | .storeFloat r _ base => [r, base]
  | .binary _ target left right | .binaryFloat _ target left right => [target, left, right]
  | .addi target source _ | .addu target source _ | .subu target source _ | .xori target source _
  | .moveBits target source => [target, source]
  | .branch _ left right _ | .testFloat _ left right => [left, right]
  | .branchFlag .. | .jump _ | .jumpLink _ | .syscall => []

variable {i : Instr}

theorem tidy_mnemonic (i : Instr) : Tidy i.mnemonic.toList := by
  unfold mnemonic
  split <;> decide

theorem tidy_operands (hr : ∀ r ∈ i.registers, r.isKnown) (hl : ∀ l ∈ i.references, l.Tidy) :
    ∀ text ∈ i.operands, Tidy text.toList := by
  have hr : ∀ r ∈ i.registers, Tidy r.render.toList := fun r h => Reg.tidy_render (hr r h)
  have hl : ∀ l ∈ i.references, Tidy l.render.toList := fun l h => (hl l h).render
  cases i <;> simp_all [references, operands, toString]

theorem tidy_render (hr : ∀ r ∈ i.registers, r.isKnown) (hl : ∀ l ∈ i.references, l.Tidy)
    (spacing : Spacing) : Tidy (i.render spacing).toList := by
  have hoperands := tidy_operands hr hl
  have hmnemonic := i.tidy_mnemonic
  unfold render
  split
  · exact hmnemonic
  · have hjoin := Tidy.intercalate (s := ',' :: (blanks spacing.gap).toList) (by simp)
      (List.forall_mem_map.mpr hoperands)
    simp [hmnemonic, String.toList_intercalate, hjoin]

end Instr

def Line.Neat : Line → Prop
  | .instr i _ => (∀ r ∈ i.registers, r.isKnown) ∧ ∀ l ∈ i.references, l.Tidy
  | .label l => l.Tidy
  | .mark _ node => Tidy node.toList
  | .text _ => False

instance : DecidablePred Line.Neat
  | .instr .. => inferInstanceAs (Decidable (_ ∧ _))
  | .label l => inferInstanceAs (Decidable l.Tidy)
  | .mark _ node => inferInstanceAs (Decidable (Tidy node.toList))
  | .text _ => inferInstanceAs (Decidable False)

theorem Line.Neat.read {line : Line} (h : line.Neat) :
    '\n' ∉ line.render.toList ∧
      Asm.label? line.render.toList = line.label?.map (·.render.toList) := by
  have hplain {text : List Char} (h : Tidy text) : '\n' ∉ text ∧ Asm.label? text = none :=
    ⟨h.1, Asm.label?_of_not_mem h.2⟩
  cases line with
  | instr i spacing => exact hplain (Instr.tidy_render h.1 h.2 spacing)
  | label l =>
    have hl := Label.Tidy.render h
    rw [Line.render, String.toList_append]
    exact ⟨by simpa using hl.1, Asm.label?_of_colon hl.2⟩
  | mark edge node =>
    have hnode : Tidy node.toList := h
    refine hplain ?_
    cases edge <;> simp [Line.render, hnode]
  | text => exact h.elim

def Datum.Neat : Datum → Prop
  | .space l _ => l.Tidy
  | .quoted l s => l.Tidy ∧ '\n' ∉ s.toList
  | .text _ => False

instance : DecidablePred Datum.Neat
  | .space l _ => inferInstanceAs (Decidable l.Tidy)
  | .quoted .. => inferInstanceAs (Decidable (_ ∧ _))
  | .text _ => inferInstanceAs (Decidable False)

theorem Datum.Neat.read {d : Datum} (h : d.Neat) :
    '\n' ∉ d.render.toList ∧ Asm.label? d.render.toList = d.label?.map (·.render.toList) := by
  cases d with
  | space l size =>
    have hl := Label.Tidy.render h
    have e : (Datum.space l size).render.toList =
        l.render.toList ++ ':' :: (" .space ".toList ++ Nat.toDigits 10 size) := by
      simp [Datum.render, toString]
    rw [e]
    exact ⟨by simp [hl.1, (tidy_digits size).1], Asm.label?_of_colon hl.2⟩
  | quoted l text =>
    have hl := Label.Tidy.render h.1
    simp only [Datum.render, String.toList_append, List.append_assoc]
    refine ⟨?_, Asm.label?_of_colon hl.2⟩
    simp [hl.1, h.2, (tidy_blanks _).1]
  | text => exact h.elim

def Asm.Reads (lines : List String) (names : List Label) : Prop :=
  (∀ line ∈ lines, '\n' ∉ line.toList) ∧
    lines.filterMap (fun line => label? line.toList) = names.map (·.render.toList)

namespace Asm.Reads

variable {lines lines' : List String} {names names' : List Label}

theorem append (h : Reads lines names) (h' : Reads lines' names') :
    Reads (lines ++ lines') (names ++ names') := by
  refine ⟨List.forall_mem_append.mpr ⟨h.1, h'.1⟩, ?_⟩
  rw [List.filterMap_append, h.2, h'.2, List.map_append]

theorem map {α : Type} {render : α → String} {place? : α → Option Label} {items : List α}
    (h : ∀ x ∈ items, '\n' ∉ (render x).toList ∧
      label? (render x).toList = (place? x).map (·.render.toList)) :
    Reads (items.map render) (items.filterMap place?) := by
  refine ⟨List.forall_mem_map.mpr fun x hx => (h x hx).1, ?_⟩
  rw [List.filterMap_map, List.map_filterMap]
  exact List.filterMap_congr fun x hx => (h x hx).2

theorem labels_join (h : Reads lines names) :
    labels (String.join (lines.map (· ++ "\n"))) = names.map (·.render.toList) := by
  rw [labels, Text.splitOn_join h.1, List.filterMap_append, List.filterMap_map, ← h.2]
  exact List.append_nil _

end Asm.Reads

/-- The labels of a file can be read back from its text. -/
theorem Program.labels_render {p : Program} (hdata : ∀ d ∈ p.data, d.Neat)
    (hcode : ∀ line ∈ p.code, line.Neat) :
    Asm.labels p.render = ((p.data ++ constants).filterMap Datum.label? ++
      (routines ++ p.code).filterMap Line.label?).map (·.render.toList) := by
  have hconstants : ∀ d ∈ constants, d.Neat := by decide +kernel
  have hroutines : ∀ line ∈ routines, line.Neat := by decide +kernel
  have h : Asm.Reads p.asmLines ([] ++ p.data.filterMap Datum.label? ++
      constants.filterMap Datum.label? ++ [] ++ routines.filterMap Line.label? ++ [] ++
      p.code.filterMap Line.label? ++ []) :=
    .append (.append (.append (.append (.append (.append (.append ⟨by decide, by decide⟩
      (.map fun d hd => (hdata d hd).read)) (.map fun d hd => (hconstants d hd).read))
      ⟨by decide, by decide⟩) (.map fun line hl => (hroutines line hl).read))
      ⟨by decide, by decide⟩) (.map fun line hl => (hcode line hl).read)) ⟨by decide, by decide⟩
  rw [render, h.labels_join]
  simp only [List.nil_append, List.append_nil, List.filterMap_append, List.append_assoc]

end Crux
