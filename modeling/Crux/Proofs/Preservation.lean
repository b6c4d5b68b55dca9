import Crux.Proofs.Compile
import Crux.Proofs.Machine.Layout
import Crux.Proofs.Machine.Statement

namespace Crux

open Emit

/-- The code of every part of a function does what that part means. Let `n` be a part of the body
of a function of a program that is compiled. Its lines stand somewhere in the program, and wherever
they do, in a call of the function whose memory holds a store, running them from the first line to
behind the last one leads to a memory that holds the store after the statement, with the stack and
frame pointers and the return address as they were; and the lines of an expression push its word. -/
theorem compile_preserves {source : String} {program : Program}
    (hc : compile source = .ok program) :
    let root := (Parser.ofString source).parse.1
    let types := ((Checker.empty.check root).types[·]?)
    ∀ g f params body, .function g f params body ∈ root.children →
      let function := Node.function g f params body
      (∃ start, Frame.enter [] f.name params = .ok start ∧
        ∀ p, ∃ p', body.emit types ⟨p, start⟩ = .ok () ⟨p', function.frame⟩) ∧
      ∀ n ∈ body.preorder, ∃ labels frame code labels' frame',
        Gives (n.emit types) labels frame code [] labels' () frame' ∧ code <:+: program.code ∧
        ∀ (base : Word) (i : Nat) (c : Core) (low : Nat) (S : Store),
          let storage := program.storage base
          let image := program.image storage
          let vars := root.variables function
          image.Has i code → Activation program base root function low c →
          low + 4 * n.depth ≤ (c.regs .sp).toNat →
          function.frame.Holds storage (c.regs .fp) vars S c.mem →
          (∀ S', Exec S (.one n) S' → ∃ c', image.Runs ⟨i, c⟩ ⟨i + code.length, c'⟩ ∧
            function.frame.Holds storage (c.regs .fp) vars S' c'.mem ∧
            c'.regs .sp = c.regs .sp ∧ c'.regs .fp = c.regs .fp ∧ c'.regs .ra = c.regs .ra) ∧
          ∀ w, function.frame.Denotes storage (c.regs .fp) S n w →
            ∃ c', image.Runs ⟨i, c⟩ ⟨i + code.length, c'⟩ ∧ c.Stacked low [w] c' := by
  obtain ⟨hp, hck, hprogram⟩ := compile_eq_ok hc
  intro root types g f params body hf function
  have hacc : root.Accepted := Parser.parse_accepted (by simpa [Parser.hasError] using hp)
  have hready := ready_of_quiet hp hck
  have htyped := hacc.typed (by simpa [Checker.hasError] using hck)
  have hgives := hacc.gives hready
  have hcode : program.code = root.programCode types := by
    rw [hprogram, Generator.generate_gives hgives]
    rfl
  have hdata : program.data = root.children.flatMap Node.unitData := by
    rw [hprogram, Generator.generate_gives hgives]
    rfl
  have hsize : ∀ p ∈ params, p.ty.size?.isSome :=
    hready _ (Node.mem_preorder.mpr (.inr ⟨_, hf, Node.mem_preorder_self _⟩))
  obtain ⟨hbody, hmade⟩ := hacc.gives_body hready hf
  have hparts := hacc.parts hf
  refine ⟨⟨_, Frame.enter_eq hsize [] f.name, fun p => ⟨_, (hbody p.labels).run_eq ..⟩⟩,
    fun n hn => ?_⟩
  obtain ⟨k, hk⟩ := Node.infix_programCode types hf hn fun m hm => (hparts m hm).1
  obtain ⟨frame, frame', hemit⟩ := hmade n hn
  rw [← hcode] at hk
  refine ⟨k, frame, _, _, frame', hemit k, hk, fun base i c low S => ?_⟩
  intro storage image vars hhas hact hl hholds
  let L := hact.layout hdata hsize (hacc.nodup_variables hf) hacc.nodup_globals
  have hS : L.Stands S c := ⟨hact.aligned.2.2, rfl, Nat.le_refl _, hholds⟩
  have hr : image.Resolves := Program.resolves hcode storage
  have hn' : ∀ m ∈ n.preorder, m.Typed types ∧ m.UsesVar L.vars := by
    intro m hm
    have hm := Node.mem_preorder_trans hm hn
    refine ⟨htyped m (Node.mem_preorder.mpr (.inr ⟨_, hf, ?_⟩)), (hparts m hm).2⟩
    exact Node.mem_preorder.mpr (.inr ⟨body, by simp [Node.children], hm⟩)
  refine ⟨fun S' hx => ?_, fun w hw => ?_⟩
  · obtain ⟨c', hruns, hS', hsp, hra⟩ := hx.runs hr hn' hS hhas hl
    exact ⟨c', hruns, hS'.holds, hsp, hS'.fp, hra⟩
  · exact hS.pushes hr hn' hw hhas (.refl (Nat.le_trans (Nat.le_add_right ..) hl))
      (by rw [List.length_nil, Nat.zero_add]; exact hl)

def counterText : String := "var n : int; func main() : void \x7b let n = n + 1; \x7d"

def counts : Node → Bool
  | .list _ .declarations [.var _ s, .function _ _ [] (.list _ .statements
      [.assign _ (.addressOf _ t) (.binary _ .add (.dereference _ (.addressOf _ u))
        (.int _ v))])] =>
    decide (s = ⟨6, "n", some .int⟩ ∧ t = s ∧ u = s ∧ v = 1)
  | _ => false

theorem compile_preserves_counter :
    ∃ program i j c c', compile counterText = .ok program ∧
      (program.image (program.storage 0x10010000)).Runs ⟨i, c⟩ ⟨j, c'⟩ ∧
      c.mem 0x10010000 = 41 ∧ c'.mem 0x10010000 = 42 ∧ c'.regs .sp = c.regs .sp := by
  have hp : (Parser.ofString counterText).parse.2.hasError = false := by decide +kernel
  have hc : (Checker.empty.check (Parser.ofString counterText).parse.1).hasError = false := by
    decide +kernel
  have hroot : counts (Parser.ofString counterText).parse.1 = true := by decide +kernel
  have hprogram := compile_eq counterText
  simp only [hp, hc] at hprogram
  have hdata : (Generator.empty.generate
      ((Checker.empty.check (Parser.ofString counterText).parse.1).types[·]?)
      (Parser.ofString counterText).parse.1).program.data = [.space (.global "n") 4] := by
    decide +kernel
  have h := compile_preserves hprogram
  generalize Assembly.program _ = program at *
  unfold counts at hroot
  split at hroot
  · rename_i g g₁ s g₂ f g₃ g₄ g₅ t g₆ g₇ g₈ u g₉ v heq
    obtain ⟨rfl, rfl, rfl, rfl⟩ := of_decide_eq_true hroot
    simp only [heq] at h
    obtain ⟨-, h⟩ := h g₂ f [] _ (List.mem_cons_of_mem _ List.mem_cons_self)
    obtain ⟨_, _, _, _, _, -, hin, h⟩ := h _ (Node.mem_preorder.mpr
      (.inr ⟨_, List.mem_cons_self, Node.mem_preorder_self _⟩))
    obtain ⟨i, hi⟩ := Program.has_of_infix hin (program.storage 0x10010000)
    let c : Core := ⟨fun r => if r = .sp then 0x7fff0000 else 0x7fff1000, fun _ => 41⟩
    have hn : Frame.locate [Record.start f.name []] (program.storage 0x10010000) (c.regs .fp)
        ⟨6, "n", some .int⟩ = 0x10010000 := by
      rw [Frame.locate_global rfl rfl, Program.storage, hdata]
      rfl
    have hclear : (Frame.locate [Record.start f.name []] (program.storage 0x10010000) (c.regs .fp)
        ⟨6, "n", some .int⟩).toNat + 4 ≤ 0x7ffe0000 := by
      rw [hn]
      decide
    obtain ⟨h, -⟩ := h 0x10010000 i c 0x7ffe0000 (fun _ _ => .int 41) hi
      { aligned := by decide
        data := show 0x10010000 + 4 < 2 ^ 32 by decide
        arguments := show 0x7fff1000 + 0 < 2 ^ 32 by decide
        locals := show 8 + 0 ≤ 0x7fff1000 by decide
        apart := .inl (show 0x10010000 + 4 + 8 + 0 ≤ 0x7fff1000 by decide)
        clear := List.forall_mem_singleton.mpr (.inl hclear) }
      (show 0x7ffe0000 + 4 * 3 ≤ 0x7fff0000 by decide) (fun _ _ _ _ _ _ => rfl)
    obtain ⟨c', hruns, hholds, hsp, -⟩ := h _ (.assign rfl rfl rfl)
    have hn' : c'.mem (Frame.locate [Record.start f.name []] (program.storage 0x10010000)
        (c.regs .fp) ⟨6, "n", some .int⟩ + 0#32) = 42 :=
      hholds ⟨6, "n", some .int⟩ List.mem_cons_self [] 0 (.int 0) rfl
    rw [hn] at hn'
    exact ⟨program, i, _, c, c', hprogram, hruns, rfl, hn', hsp⟩
  · cases hroot

end Crux
