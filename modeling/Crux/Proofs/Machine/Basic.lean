import Crux.Asm.Program
import Crux.Proofs.Text.Lines
import Mathlib.Algebra.Group.Nat.Defs

/-! The machine that code runs on: registers and a memory of 32-bit words, and a place in the lines
of a program. It knows the instructions on words. At calls, at instructions on floats and at
requests to the operating system it stops. -/

namespace Crux

abbrev Word := BitVec 32

theorem Word.ofNat_mod (n : Nat) : (.ofNat 32 (n % 2 ^ 64) : Word) = .ofNat 32 n := by
  bv_omega

def Aligned (a : Word) : Prop := a.toNat % Ty.wordSize = 0

instance (a : Word) : Decidable (Aligned a) := inferInstanceAs (Decidable (_ = _))

theorem Aligned.sub_word {a : Word} (h : Aligned a) : Aligned (a - 4) := by
  unfold Aligned Ty.wordSize at *
  bv_omega

theorem Aligned.add_word {a : Word} (h : Aligned a) : Aligned (a + 4) := by
  unfold Aligned Ty.wordSize at *
  bv_omega

structure Core where
  regs : Reg → Word
  mem : Word → Word

namespace Core

def set (c : Core) (r : Reg) (w : Word) : Core :=
  { c with regs := fun q => if q = r then w else c.regs q }

def write (c : Core) (a w : Word) : Core := { c with mem := fun b => if b = a then w else c.mem b }

variable (c : Core) (r q : Reg) (a b w : Word)

@[simp] theorem regs_set : (c.set r w).regs q = if q = r then w else c.regs q := rfl

@[simp] theorem mem_set : (c.set r w).mem = c.mem := rfl

@[simp] theorem regs_write : (c.write a w).regs = c.regs := rfl

@[simp] theorem mem_write : (c.write a w).mem b = if b = a then w else c.mem b := rfl

end Core

def WordOp.onWords : WordOp → Word → Word → Option Word
  | .add, a, b => some (a + b)
  | .sub, a, b => some (a - b)
  | .mul, a, b => some (a * b)
  | .div, a, b => if b = 0 then none else some (a.sdiv b)
  | .and, a, b => some (a &&& b)
  | .or, a, b => some (a ||| b)

def Branch.taken : Branch → Word → Word → Bool
  | .beq, a, b => a == b
  | .bne, a, b => a != b
  | .blt, a, b => a.slt b
  | .ble, a, b => a.sle b
  | .bgt, a, b => b.slt a
  | .bge, a, b => b.sle a

/-- What an instruction does, and the label it goes to, if it does not go on to the next line. -/
def Instr.exec (storage : Label → Word) (c : Core) : Instr → Option (Core × Option Label)
  | .li r v => some (c.set r (.ofInt 32 v), none)
  | .la r label => some (c.set r (storage label), none)
  | .load r offset base =>
    let a := c.regs base + .ofInt 32 offset
    if Aligned a then some (c.set r (c.mem a), none) else none
  | .store r offset base =>
    let a := c.regs base + .ofInt 32 offset
    if Aligned a then some (c.write a (c.regs r), none) else none
  | .binary op target left right =>
    (op.onWords (c.regs left) (c.regs right)).map fun w => (c.set target w, none)
  | .addi target source v | .addu target source v =>
    some (c.set target (c.regs source + .ofInt 32 v), none)
  | .subu target source v => some (c.set target (c.regs source - .ofInt 32 v), none)
  | .xori target source v => some (c.set target (c.regs source ^^^ .ofInt 32 v), none)
  | .branch op left right label =>
    some (c, if op.taken (c.regs left) (c.regs right) then some label else none)
  | .branchZero r label => some (c, if c.regs r = 0 then some label else none)
  | .jump label => some (c, some label)
  | .liFloat .. | .loadFloat .. | .storeFloat .. | .binaryFloat .. | .testFloat .. | .branchFlag ..
  | .moveBits .. | .jumpLink .. | .jumpTo .. | .syscall => none

structure Image where
  code : List Line
  storage : Label → Word

def Line.defines (text : String) : Line → Bool
  | .label l => l.render = text
  | _ => false

structure Config where
  pc : Nat
  core : Core

namespace Image

def target (p : Image) (l : Label) : Option Nat := p.code.findIdx? (Line.defines l.render)

def step (p : Image) (s : Config) : Option Config :=
  match p.code[s.pc]? with
  | some (.instr i _) =>
    match i.exec p.storage s.core with
    | some (c, none) => some ⟨s.pc + 1, c⟩
    | some (c, some l) => (p.target l).map (⟨·, c⟩)
    | none => none
  | some (.label _) | some (.mark ..) => some ⟨s.pc + 1, s.core⟩
  | _ => none

inductive Runs (p : Image) : Config → Config → Prop
  | refl (s : Config) : Runs p s s
  | next {s s' s'' : Config} : p.step s = some s' → Runs p s' s'' → Runs p s s''

variable {p : Image}

theorem Runs.one {s s' : Config} (h : p.step s = some s') : p.Runs s s' := .next h (.refl s')

theorem Runs.trans {s s' s'' : Config} (h : p.Runs s s') (h' : p.Runs s' s'') : p.Runs s s'' := by
  induction h with
  | refl => exact h'
  | next hs _ ih => exact .next hs (ih h')

theorem Runs.tail {s s' t : Config} (h : p.Runs s t) (hs : p.step s = some s') (hne : s ≠ t) :
    p.Runs s' t := by
  cases h with
  | refl => exact absurd rfl hne
  | next hs' h' =>
    rw [hs] at hs'
    cases hs'
    exact h'

def Has (p : Image) (i : Nat) (ls : List Line) : Prop :=
  ∃ before after, p.code = before ++ ls ++ after ∧ before.length = i

namespace Has

variable {i : Nat} {l : Line} {ls ls' : List Line}

theorem left (h : p.Has i (ls ++ ls')) : p.Has i ls := by
  obtain ⟨before, after, hp, hi⟩ := h
  exact ⟨before, ls' ++ after, by simp [hp], hi⟩

theorem right (h : p.Has i (ls ++ ls')) : p.Has (i + ls.length) ls' := by
  obtain ⟨before, after, hp, hi⟩ := h
  exact ⟨before ++ ls, after, by simp [hp], by simp [hi]⟩

theorem line (h : p.Has i (l :: ls)) : p.code[i]? = some l := by
  obtain ⟨before, after, hp, rfl⟩ := h
  simp [hp]

theorem tail (h : p.Has i (l :: ls)) : p.Has (i + 1) ls := by
  have h' : p.Has i ([l] ++ ls) := h
  exact h'.right

end Has

end Image

def execAll (storage : Label → Word) : List Line → Core → Option Core
  | [], c => some c
  | .instr i _ :: rest, c =>
    match i.exec storage c with
    | some (c, none) => execAll storage rest c
    | _ => none
  | .label _ :: rest, c | .mark .. :: rest, c => execAll storage rest c
  | .text _ :: _, _ => none

theorem Image.Has.runs {p : Image} {i : Nat} {ls : List Line} (h : p.Has i ls) {c c' : Core}
    (he : execAll p.storage ls c = some c') : p.Runs ⟨i, c⟩ ⟨i + ls.length, c'⟩ := by
  induction ls generalizing i c with
  | nil =>
    cases he
    exact .refl _
  | cons l ls ih =>
    rw [List.length_cons, Nat.add_comm ls.length, ← Nat.add_assoc]
    cases l with
    | instr instr spacing =>
      simp only [execAll] at he
      split at he
      · rename_i c₁ hx
        exact .next (by simp [step, h.line, hx]) (ih h.tail he)
      · cases he
    | label l | mark edge node => exact .next (by simp [step, h.line]) (ih h.tail he)
    | text s => cases he

namespace Label

def initial : Label → Char
  | .function name | .epilogue name => if name = mainName then 'm' else 'f'
  | .fresh _ | .inside .. => 'l'
  | .global _ => 'c'
  | .constant _ => 'd'

theorem toList_function (name : String) :
    (function name).render.toList =
      if name = mainName then "main".toList else "func.".toList ++ name.toList := by
  rw [render, functionText]
  split
  · rfl
  · rw [← String.toList_append]
    rfl

theorem toList_epilogue (name : String) :
    (epilogue name).render.toList = (function name).render.toList ++ ".epilogue".toList := by
  rw [← String.toList_append]
  rfl

theorem toList_fresh (n : Nat) :
    (fresh n).render.toList = "label.".toList ++ Nat.toDigits 10 n := by
  rw [← Nat.toList_repr, ← String.toList_append]
  rfl

theorem toList_inside (routine place : String) : (inside routine place).render.toList =
    "label.".toList ++ (routine.toList ++ '.' :: place.toList) := by
  rw [show (inside routine place).render = "label." ++ routine ++ "." ++ place from rfl]
  simp [String.toList_append]

theorem toList_global (name : String) :
    (global name).render.toList = "cruxdata.".toList ++ name.toList := by
  rw [← String.toList_append]
  rfl

theorem toList_constant (name : String) :
    (constant name).render.toList = "data.".toList ++ name.toList := by
  rw [← String.toList_append]
  rfl

theorem head_render (l : Label) : l.render.toList.head? = some l.initial := by
  cases l with
  | function name =>
    rw [toList_function, initial]
    split <;> rfl
  | epilogue name =>
    rw [toList_epilogue, toList_function, initial]
    split <;> rfl
  | fresh n =>
    rw [toList_fresh]
    rfl
  | inside routine place =>
    rw [toList_inside]
    rfl
  | global name =>
    rw [toList_global]
    rfl
  | constant name =>
    rw [toList_constant]
    rfl

theorem initial_eq {l l' : Label} (h : l.render = l'.render) : l.initial = l'.initial :=
  Option.some.inj (by rw [← head_render, ← head_render, h])

theorem initial_function_ne (name : String) {c : Char} (hm : 'm' ≠ c) (hf : 'f' ≠ c) :
    initial (.function name) ≠ c := by
  rw [initial]
  split
  · exact hm
  · exact hf

theorem eq_fresh_of_render {l : Label} {n : Nat} (h : l.render = (fresh n).render) :
    l = fresh n := by
  have hi : l.initial = 'l' := initial_eq h
  have hl := congrArg String.toList h
  rw [toList_fresh] at hl
  cases l with
  | fresh m =>
    rw [toList_fresh] at hl
    rw [Text.toDigits_inj (List.append_cancel_left hl)]
  | function name | epilogue name =>
    exact absurd hi (initial_function_ne name (by decide) (by decide))
  | inside routine place =>
    -- The text has a point behind the first one, and digits have none.
    rw [toList_inside] at hl
    have hm : '.' ∈ Nat.toDigits 10 n := by
      rw [← List.append_cancel_left hl]
      simp
    exact absurd hm (Text.not_mem_toDigits (by decide) n)
  | global name | constant name => simp [initial] at hi

end Label

namespace Image

def Resolves (p : Image) : Prop :=
  ∀ k i, p.code[i]? = some (.label (.fresh k)) → p.target (.fresh k) = some i

theorem resolves_of_count {p : Image} (h : ∀ k, p.code.count (.label (.fresh k)) ≤ 1) :
    p.Resolves := by
  intro k i hi
  obtain ⟨hlt, hl⟩ := List.getElem?_eq_some_iff.mp hi
  refine List.findIdx?_eq_some_iff_getElem.mpr ⟨hlt, by simp [hl, Line.defines], fun j hj hd => ?_⟩
  have hj' : p.code[j] = .label (.fresh k) := by
    cases hx : p.code[j] with
    | label l =>
      have hr : l.render = (Label.fresh k).render := by simpa [hx, Line.defines] using hd
      rw [Label.eq_fresh_of_render hr]
    | _ => simp [hx, Line.defines] at hd
  have htake : .label (.fresh k) ∈ p.code.take i :=
    List.mem_take_iff_getElem.mpr ⟨j, by omega, hj'⟩
  have hdrop : .label (.fresh k) ∈ p.code.drop i :=
    List.mem_drop_iff_getElem.mpr ⟨0, by omega, by simpa using hl⟩
  have hcount := h k
  rw [← List.take_append_drop i p.code, List.count_append] at hcount
  have := List.count_pos_iff.mpr htake
  have := List.count_pos_iff.mpr hdrop
  omega

theorem Has.passes {p : Image} {i : Nat} {instr : Instr} {ls : List Line} {c c' : Core}
    (h : p.Has i (.plain instr :: ls)) (hx : instr.exec p.storage c = some (c', none)) :
    p.Runs ⟨i, c⟩ ⟨i + 1, c'⟩ := by
  refine .one ?_
  simp [step, h.line, Line.plain, hx]

theorem Has.goes {p : Image} {i j k : Nat} {instr : Instr} {ls ls' : List Line} {c c' : Core}
    (h : p.Has i (.plain instr :: ls)) (hx : instr.exec p.storage c = some (c', some (.fresh k)))
    (hr : p.Resolves) (hj : p.Has j (.label (.fresh k) :: ls')) : p.Runs ⟨i, c⟩ ⟨j, c'⟩ := by
  refine .one ?_
  simp [step, h.line, Line.plain, hx, hr k j hj.line]

end Image

end Crux
