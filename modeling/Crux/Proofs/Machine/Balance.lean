import Crux.Proofs.Emit.Unique
import Crux.Proofs.Machine.Effects

namespace Crux

open Instr Asm Emit

namespace Image

/-- Where a function stands: its statements start behind the prologue, and control stops at the
label of the epilogue. -/
structure Function (p : Image) (name : String) (size start stop : Nat) : Prop where
  first : ∃ entry, p.target (.function name) = some entry ∧
    p.Has entry (.label (.function name) :: prologue size) ∧
    start = entry + 1 + (prologue size).length
  last : p.target (.epilogue name) = some stop ∧
    p.Has stop (.label (.epilogue name) :: epilogue size)

/-- However control gets from the one place to the other, the stack pointer is as it was. -/
def Balanced (p : Image) (start stop : Nat) : Prop :=
  ∀ n w v, p.Path (· ≠ stop) n start w (stop, v) → v = w

end Image

section Frames

variable (storage : Label → Word) (size : Nat) {c : Core}

theorem exec_prologue (h : Aligned (c.regs .sp)) :
    ∃ c', execAll storage (prologue size) c = some c' ∧
      c'.regs .sp = c.regs .sp - 8#32 - .ofNat 32 size ∧
      c'.mem (c.regs .sp - 4#32) = c.regs .ra ∧ c'.mem (c.regs .sp - 8#32) = c.regs .fp ∧
      c'.regs .fp = c.regs .sp := by
  have h₀ : Aligned (c.regs .sp - 8#32) := by
    unfold Aligned Ty.wordSize at *
    bv_omega
  have h₄ : Aligned (c.regs .sp - 8#32 + 4#32) := by
    unfold Aligned Ty.wordSize at *
    bv_omega
  have hra : c.regs .sp - 4#32 = c.regs .sp - 8#32 + 4#32 := by bv_omega
  have hfp : c.regs .sp - 8#32 ≠ c.regs .sp - 8#32 + 4#32 := by bv_omega
  let saved := ((c.set .sp (c.regs .sp - 8#32)).write (c.regs .sp - 8#32) (c.regs .fp)).write
    (c.regs .sp - 8#32 + 4#32) (c.regs .ra)
  refine ⟨(saved.set .fp (c.regs .sp - 8#32 + 8#32)).set .sp (c.regs .sp - 8#32 - .ofNat 32 size),
    ?_, ?_, ?_, ?_, ?_⟩
  · simp [prologue, Line.aligned, execAll, Instr.exec, h₀, h₄, saved]
  · simp
  · simp [saved, hra]
  · simp [saved, hfp]
  · exact BitVec.sub_add_cancel ..

theorem exec_epilogue (h : Aligned (c.regs .sp + .ofNat 32 size)) :
    ∃ c', execAll storage (epilogue size) c = some c' ∧
      c'.regs .sp = c.regs .sp + .ofNat 32 size + 8#32 ∧
      c'.regs .ra = c.mem (c.regs .sp + .ofNat 32 size + 4#32) ∧
      c'.regs .fp = c.mem (c.regs .sp + .ofNat 32 size) := by
  have h₄ : Aligned (c.regs .sp + .ofNat 32 size + 4#32) := by
    unfold Aligned Ty.wordSize at *
    bv_omega
  let top := c.regs .sp + .ofNat 32 size
  refine ⟨(((c.set .sp top).set .ra (c.mem (top + 4#32))).set .fp (c.mem top)).set .sp
    (top + 8#32), ?_, ?_, ?_, ?_⟩
  · simp [epilogue, Line.aligned, execAll, Instr.exec, h, h₄, top]
  · simp [top]
  · simp [top]
  · simp [top]

/-- The last lines of a function read the saved words back, as far from their places as the stack
pointer is from where the first lines have left it. -/
theorem exec_frame (h : Aligned (c.regs .sp)) :
    ∃ c₁, execAll storage (prologue size) c = some c₁ ∧
      c₁.mem (c.regs .sp - 4#32) = c.regs .ra ∧ c₁.mem (c.regs .sp - 8#32) = c.regs .fp ∧
      ∀ d c₂, Aligned d → c₂.regs .sp = c₁.regs .sp + d →
        ∃ c₃, execAll storage (epilogue size) c₂ = some c₃ ∧
          c₃.regs .ra = c₂.mem (c.regs .sp - 4#32 + d) ∧
          c₃.regs .fp = c₂.mem (c.regs .sp - 8#32 + d) ∧ c₃.regs .sp = c.regs .sp + d := by
  have haligned (d : Word) (hd : Aligned d) : Aligned (c.regs .sp - 8#32 + d) := by
    unfold Aligned Ty.wordSize at *
    bv_omega
  have hback (a s d : Word) : a - 8#32 - s + d + s = a - 8#32 + d := by bv_omega
  have hslot (a d : Word) : a - 8#32 + d + 4#32 = a - 4#32 + d := by bv_omega
  have hend (a d : Word) : a - 8#32 + d + 8#32 = a + d := by bv_omega
  obtain ⟨c₁, h₁, hsp, hra, hfp, -⟩ := exec_prologue storage size h
  refine ⟨c₁, h₁, hra, hfp, fun d c₂ hd h₂ => ?_⟩
  have htop : c₂.regs .sp + .ofNat 32 size = c.regs .sp - 8#32 + d := by
    rw [h₂, hsp, hback]
  obtain ⟨c₃, h₃, hsp', hra', hfp'⟩ := exec_epilogue storage size (htop ▸ haligned d hd)
  rw [htop] at hsp' hra' hfp'
  exact ⟨c₃, h₃, hslot _ d ▸ hra', hfp', hend _ d ▸ hsp'⟩

end Frames

namespace Node

variable {types : Nat → Option Ty} {root body : Node} {g : Tag} {f : Symbol}
  {params : List Symbol} {program : Program}

theorem Translated.known (h : root.Translated types program)
    (hf : .function g f params body ∈ root.children) {ps : List Ty} {result : Ty}
    (ht : f.type? = some (.func ps result)) :
    ∀ m ∈ body.preorder, m.Known types ⟨f.name, result⟩ := by
  have hu := h.accepted.fits.uses Env.builtins_declarable
    (h.accepted.declarable_of_wellTyped h.typed)
  exact fun m hm => ⟨hu m (mem_preorder_of_body hf hm),
    fun t hm' => h.recorded m t (.part hf ht hm hm')⟩

theorem Translated.flow (h : root.Translated types program)
    (hf : .function g f params body ∈ root.children) (storage : Label → Word) :
    ∃ start stop,
      (program.image storage).Function f.name (Node.function g f params body).frame.size.toNat
        start stop ∧
      (program.image storage).Flow (· ≠ stop) stop start stop body.completes
        (body.exits.map surplus) := by
  obtain ⟨ps, result, g', items, hty, hlist, hbody⟩ := h.typed.function_body hf
  obtain ⟨role, env, hs⟩ := h.accepted.fits.part _ (mem_preorder_of_body hf (mem_preorder_self _))
  have hrole : role = .block := by
    subst hlist
    cases hs with
    | block => rfl
    | «local» h => cases h
  have hdrop : body.dropCode types = [] := by
    rw [hlist]
    rfl
  obtain ⟨l, hl⟩ := infix_unitCodeAll types hf 0
  rw [unitCode] at hl
  have hin := (infix_wrap _ _).trans (hl.trans (infix_wrap root _))
  rw [← programCode, ← h.code] at hin
  obtain ⟨entry, hlines⟩ := Program.has_of_infix hin storage
  have htarget {i : Nat} {l : Label} {ls : List Line}
      (hi : (program.image storage).Has i (.label l :: ls)) :
      (program.image storage).target l = some i :=
    Image.target_eq h.nodup_labels hi.line
  -- The lines of the body stand between the prologue and the label of the end.
  have hinner := hlines.tail
  have hlast := hinner.right
  have hfirst : (program.image storage).Has entry (.label (.function f.name) ::
      prologue (Node.function g f params body).frame.size.toNat) := hlines.left
  have hdirects (R : Nat → Prop) := hs.directs (F := (Node.function g f params body).frame)
    (R := R) (Program.resolves h.code storage) (by rw [frame_name]; exact htarget hlast)
    (.inr hrole) (h.known hf hty) hbody l
  rw [hdrop, List.append_nil] at hdirects
  refine ⟨_, _, ⟨⟨entry, htarget hlines, hfirst, rfl⟩, htarget hlast, hlast.left⟩, ?_⟩
  refine (hdirects _ _ ⟨hinner.left.right, fun k hk hlt => ?_⟩).cast ?_
  · rw [List.length_append]
    omega
  · rw [List.length_append, Nat.add_assoc]

theorem Translated.path_iff (h : root.Translated types program)
    (hf : .function g f params body ∈ root.children) (storage : Label → Word) :
    ∃ start stop,
      (program.image storage).Function f.name (Node.function g f params body).frame.size.toNat
        start stop ∧
      ∀ w v, (∃ n, (program.image storage).Path (· ≠ stop) n start w (stop, v)) ↔
        (body.completes ∧ v = w) ∨ ∃ n ∈ body.exits, v = w + n.surplus := by
  obtain ⟨start, stop, hfun, hflow⟩ := h.flow hf storage
  refine ⟨start, stop, hfun, fun w v => ?_⟩
  rw [hflow.path_iff]
  simp

theorem surplus_eq_zero {n : Node} : n.surplus = 0#32 ↔ n.returnsNothing = false := by
  rw [surplus]
  cases n.returnsNothing with
  | false => exact ⟨fun _ => rfl, fun _ => rfl⟩
  | true => decide

theorem aligned_surplus (n : Node) : Aligned n.surplus := by
  rw [surplus]
  cases n.returnsNothing with
  | _ => decide

theorem exists_function {name : String} {P : Node → Bool}
    (h : root.children.any fun
      | .function _ f _ body => f.name == name && P body
      | _ => false) :
    ∃ g f params body, .function g f params body ∈ root.children ∧ f.name = name ∧ P body := by
  obtain ⟨n, hn, h⟩ := List.any_eq_true.mp h
  cases n with
  | function g f params body =>
    obtain ⟨hname, hp⟩ := Bool.and_eq_true_iff.mp h
    exact ⟨g, f, params, body, hn, eq_of_beq hname, hp⟩
  | _ => cases h

end Node

/-- In a text that is read and checked without a report, a function keeps its stack balanced exactly
if no return statement that control can get to has a call of a function without a result. Such a
statement leaves the stack pointer four bytes too high, and no other does. By that much the epilogue
misses the words that the prologue has saved. -/
theorem compile_balanced_iff {source : String} {root : Node} {c : Checker}
    (hread : readProgram source = .ok root) (hcheck : checkProgram root = .ok c) :
    ∃ program, compile source = .ok program ∧
      ∀ g f params body, .function g f params body ∈ root.children → ∀ storage,
        let p := program.image storage
        let size := (Node.function g f params body).frame.size.toNat
        ∃ start stop, p.Function f.name size start stop ∧
          (p.Balanced start stop ↔ ∀ n ∈ body.exits, n.returnsNothing = false) ∧
          (∀ w v, (∃ n, p.Path (· ≠ stop) n start w (stop, v)) ↔
            (body.completes ∧ v = w) ∨ ∃ n ∈ body.exits, v = w + n.surplus) ∧
          ∀ c, Aligned (c.regs .sp) → ∃ c₁, execAll storage (prologue size) c = some c₁ ∧
            c₁.mem (c.regs .sp - 4#32) = c.regs .ra ∧ c₁.mem (c.regs .sp - 8#32) = c.regs .fp ∧
            ∀ n d c₂, c₂.regs .sp = c₁.regs .sp + d →
              p.Path (· ≠ stop) n start (c₁.regs .sp) (stop, c₂.regs .sp) →
              ∃ c₃, execAll storage (epilogue size) c₂ = some c₃ ∧
                c₃.regs .ra = c₂.mem (c.regs .sp - 4#32 + d) ∧
                c₃.regs .fp = c₂.mem (c.regs .sp - 8#32 + d) ∧
                c₃.regs .sp = c.regs .sp + d := by
  obtain ⟨program, hc, h⟩ := compile_translated hread hcheck
  refine ⟨program, hc, fun g f params body hf storage => ?_⟩
  intro p size
  obtain ⟨start, stop, hfun, hpaths⟩ := h.path_iff hf storage
  refine ⟨start, stop, hfun, ⟨fun hb n hn => ?_, fun hnone n w v hp => ?_⟩, hpaths, fun c ha => ?_⟩
  · obtain ⟨k, hp⟩ := (hpaths 0#32 n.surplus).mpr (.inr ⟨n, hn, (BitVec.zero_add _).symm⟩)
    exact Node.surplus_eq_zero.mp (hb k _ _ hp)
  · obtain ⟨-, rfl⟩ | ⟨m, hm, rfl⟩ := (hpaths w v).mp ⟨n, hp⟩
    · rfl
    · rw [Node.surplus_eq_zero.mpr (hnone m hm), BitVec.add_zero]
  · obtain ⟨c₁, h₁, hra, hfp, hback⟩ := exec_frame storage size ha
    refine ⟨c₁, h₁, hra, hfp, fun n d c₂ hd hp => hback d c₂ ?_ hd⟩
    obtain ⟨-, e⟩ | ⟨m, hm, e⟩ := (hpaths _ _).mp ⟨n, hp⟩
    · have hzero : d = 0#32 := by grind
      rw [hzero]
      decide
    · have hsurplus : d = m.surplus := by grind
      rw [hsurplus]
      exact m.aligned_surplus

def searchText : String :=
  "func f(k:int):int\x7bwhile k<3\x7bif k==1\x7breturn k;\x7dlet k=k+1;\x7dreturn 0;\x7d" ++
    "func main():void\x7b::f(1);return;\x7d"

theorem compile_balanced_iff_search :
    ∃ root c program, readProgram searchText = .ok root ∧ checkProgram root = .ok c ∧
      compile searchText = .ok program ∧ ∀ name ∈ ["f", "main"], ∀ storage, ∃ size start stop,
        (program.image storage).Function name size start stop ∧
        (program.image storage).Balanced start stop := by
  have hquiet : Faultless searchText ∧
      ∀ name ∈ ["f", "main"], (Parser.ofString searchText).parse.1.children.any fun
        | .function _ f _ body => f.name == name && body.exits.all (!·.returnsNothing)
        | _ => false := by
    decide +kernel
  obtain ⟨hread, hcheck⟩ := hquiet.1.checked
  obtain ⟨program, hc, h⟩ := compile_balanced_iff hread hcheck
  refine ⟨_, _, program, hread, hcheck, hc, fun name hn storage => ?_⟩
  obtain ⟨g, f, params, body, hf, rfl, hexits⟩ := Node.exists_function (hquiet.2 name hn)
  obtain ⟨start, stop, hplace, hbalanced, -⟩ := h g f params body hf storage
  exact ⟨_, start, stop, hplace, hbalanced.mpr (by simpa using hexits)⟩

def unevenText : String := "func f() : void \x7b \x7d func main() : void \x7b return ::f(); \x7d"

/-- A word is popped for a result that nothing has pushed. -/
theorem compile_unbalanced :
    ∃ program, compile unevenText = .ok program ∧ ∀ storage, ∃ size start stop,
      (program.image storage).Function "main" size start stop ∧
      ∀ w, ∃ n, (program.image storage).Path (· ≠ stop) n start w (stop, w + 4#32) := by
  have hquiet : Faultless unevenText ∧ (Parser.ofString unevenText).parse.1.children.any fun
      | .function _ f _ body => f.name == "main" && body.exits.any (·.returnsNothing)
      | _ => false := by
    decide +kernel
  obtain ⟨hread, hcheck⟩ := hquiet.1.checked
  obtain ⟨program, hc, h⟩ := compile_translated hread hcheck
  obtain ⟨g, f, params, body, hf, hname, hexits⟩ := Node.exists_function hquiet.2
  obtain ⟨m, hm, hnothing⟩ := List.any_eq_true.mp hexits
  refine ⟨program, hc, fun storage => ?_⟩
  obtain ⟨start, stop, hplace, hpaths⟩ := h.path_iff hf storage
  refine ⟨_, start, stop, hname ▸ hplace, fun w => (hpaths w _).mpr (.inr ⟨m, hm, ?_⟩)⟩
  rw [Node.surplus, hnothing]
  rfl

end Crux
