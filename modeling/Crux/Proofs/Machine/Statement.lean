import Crux.Proofs.Machine.Expression

namespace Crux

open Instr Asm Emit

namespace Piece

def nodes : Piece → List Node
  | .one n => n.preorder
  | .row items => items.flatMap Node.preorder

def code (types : Nat → Option Ty) (f : Frame) (l : Nat) : Piece → List Line
  | .one n => n.code types f l
  | .row items => Node.rowCode types f l items

def depth : Piece → Nat
  | .one n => n.depth
  | .row items => Node.depthAll items

end Piece

theorem Exec.dropCode_eq {S S' : Store} {n : Node} (h : Exec S (.one n) S')
    (types : Nat → Option Ty) : n.dropCode types = [] := by
  cases h <;> rfl

theorem Image.Runs.at {p : Image} {s : Config} {j k : Nat} {c : Core} (h : p.Runs s ⟨j, c⟩)
    (e : j = k) : p.Runs s ⟨k, c⟩ :=
  e ▸ h

def Core.Kept (c c' : Core) : Prop := c'.regs .sp = c.regs .sp ∧ c'.regs .ra = c.regs .ra

namespace Core.Kept

theorem refl (c : Core) : c.Kept c := ⟨rfl, rfl⟩

theorem trans {c c' c'' : Core} (h : c.Kept c') (h' : c'.Kept c'') : c.Kept c'' :=
  ⟨h'.1.trans h.1, h'.2.trans h.2⟩

end Core.Kept

namespace Layout

variable {p : Image} {f : Frame} {L : Layout f p.storage} {types : Nat → Option Ty} {S : Store}
  {n : Node} {c c' : Core} {i j k l : Nat}

theorem Stands.of_stacked (h : L.Stands S c) (hc : c.Stacked L.low [] c') :
    L.Stands S c' ∧ c.Kept c' := by
  have hsp : c'.regs .sp = c.regs .sp := BitVec.eq_of_toNat_eq (by simpa using hc.sp)
  refine ⟨⟨hsp ▸ h.aligned, hc.fp.trans h.fp, hsp ▸ h.top, h.holds.of_outside fun a ha => ?_⟩,
    hsp, hc.ra⟩
  have := h.top
  exact hc.mem a (by omega)

theorem Stands.write (h : L.Stands S c) {q : Place} {v : Value} {o : Nat} (hs : q.symbol ∈ L.vars)
    (ho : q.symbol.ty.at? q.path = some (o, v.ty)) :
    L.Stands (S.set q v) (c.write (L.address q.symbol o) v.word) :=
  ⟨h.aligned, h.fp, h.top, h.holds.set hs ho⟩

theorem Stands.condition {b : Bool} {ls : List Line} (h : L.Stands S c) (hr : p.Resolves)
    (hn : ∀ m ∈ n.preorder, m.Typed types ∧ m.UsesVar L.vars) (hb : n.eval S = some (.bool b))
    (hp : p.Has i (n.code types f l))
    (hq : p.Has (i + (n.code types f l).length) (popInt .t0 ++ [.plain (branchZero .t0 (.fresh k))]))
    (hj : p.Has j (.label (.fresh k) :: ls)) (hl : L.low + 4 * n.depth ≤ (c.regs .sp).toNat) :
    ∃ c', p.Runs ⟨i, c⟩ ⟨if b then i + (n.code types f l).length + 3 else j, c'⟩ ∧
      L.Stands S c' ∧ c.Kept c' := by
  obtain ⟨c₁, h₁, hc₁⟩ := h.pushes hr hn (.inl ⟨_, hb, rfl⟩) hp
    (.refl (Nat.le_trans (Nat.le_add_right ..) hl)) (by simpa using hl)
  obtain ⟨c₂, e₂, hc₂, ht, -⟩ := hc₁.pop h.aligned (r := .t0) (by decide) p.storage
  refine ⟨c₂, h₁.trans ((hq.left.runs e₂).trans ?_), h.of_stacked hc₂⟩
  cases b with
  | true => exact hq.right.passes (by simp [Instr.exec, ht, Value.word])
  | false => exact hq.right.goes (by simp [Instr.exec, ht, Value.word]) hr hj

theorem Stands.assign {g : Tag} {target source : Node} {q : Place} {v : Value} (h : L.Stands S c)
    (hr : p.Resolves)
    (hn : ∀ m ∈ (Node.assign g target source).preorder, m.Typed types ∧ m.UsesVar L.vars)
    (ht : target.place S = some q) (hs : source.eval S = some v) (hv : v.ty = q.ty)
    (hp : p.Has i ((Node.assign g target source).code types f l))
    (hl : L.low + 4 * (Node.assign g target source).depth ≤ (c.regs .sp).toNat) :
    ∃ c', p.Runs ⟨i, c⟩ ⟨i + ((Node.assign g target source).code types f l).length, c'⟩ ∧
      L.Stands (S.set q v) c' ∧ c.Kept c' := by
  have hsub {m : Node} (hm : m ∈ [target, source]) :
      ∀ k ∈ m.preorder, k.Typed types ∧ k.UsesVar L.vars :=
    Node.forall_child hn hm
  have hf := Node.hasFloat_of_eval (hsub (by simp) source (Node.mem_preorder_self source)).1 hs
  rw [Node.code, hf] at hp ⊢
  rw [Node.depth] at hl
  obtain ⟨hin, -⟩ := hp.unwrap rfl
  obtain ⟨⟨o, ho⟩, -⟩ := Node.place_spec ht
  have hq := Node.symbol_mem_of_place ht (fun m hm => (hsub (by simp) m hm).2) hv
  rw [← hv] at ho
  obtain ⟨c₁, h₁, hc₁⟩ := h.pushes hr (hsub (by simp)) (.inr ⟨q, o, ht, hv ▸ ho, rfl⟩) hin.left
    (.refl (by omega)) (by simp; omega)
  obtain ⟨c₂, h₂, hc₂⟩ := h.pushes hr (hsub (by simp)) (.inl ⟨v, hs, rfl⟩) hin.right.left hc₁
    (by simp; omega)
  obtain ⟨c₃, e₃, hc₃⟩ := hc₂.storeThrough p.storage h.aligned
    (Layout.aligned_address hq ho v.isScalar_ty)
  obtain ⟨hS₃, hk⟩ := h.of_stacked hc₃
  refine ⟨_, hp.runs_wrap rfl ?_, hS₃.write hq ho, hk⟩
  rw [List.length_append, List.length_append, ← Nat.add_assoc, ← Nat.add_assoc]
  exact h₁.trans (h₂.trans (hin.right.right.runs e₃))

end Layout

/-- Where a statement takes one store to another, its code takes the machine from its first line
to behind its last one, and the memory from the one store to the other. -/
theorem Exec.runs {p : Image} {f : Frame} {L : Layout f p.storage} {types : Nat → Option Ty}
    {S S' : Store} {x : Piece} {c : Core} {i l : Nat} (h : Exec S x S') (hr : p.Resolves)
    (hn : ∀ m ∈ x.nodes, m.Typed types ∧ m.UsesVar L.vars) (hS : L.Stands S c)
    (hp : p.Has i (x.code types f l)) (hl : L.low + 4 * x.depth ≤ (c.regs .sp).toNat) :
    ∃ c', p.Runs ⟨i, c⟩ ⟨i + (x.code types f l).length, c'⟩ ∧ L.Stands S' c' ∧ c.Kept c' := by
  induction h generalizing c i l with
  | var | array => exact ⟨c, .refl _, hS, .refl c⟩
  | nil => exact ⟨c, .refl _, hS, .refl c⟩
  | assign ht hs hv => exact hS.assign hr hn ht hs hv hp hl
  | @branchTrue S yes S' g condition no hc hy ih =>
    have hsub {m : Node} (hm : m ∈ [condition, yes, no]) :
        ∀ k ∈ m.preorder, k.Typed types ∧ k.UsesVar L.vars :=
      Node.forall_child hn hm
    rw [Piece.code, Node.code] at hp ⊢
    rw [Piece.depth, Node.depth] at hl
    obtain ⟨hin, -⟩ := hp.unwrap rfl
    have hjump := hin.right.right.right.left
    have hexit := hin.right.right.right.right.right
    obtain ⟨c₁, h₁, hS₁, hk₁⟩ := hS.condition hr (hsub (by simp)) hc hin.left hin.right.left
      hjump.tail (by omega)
    obtain ⟨c₂, h₂, hS₂, hk₂⟩ := ih (hsub (by simp)) hS₁ hin.right.right.left
      (by rw [Piece.depth, hk₁.1]; omega)
    refine ⟨c₂, hp.runs_wrap rfl ((h₁.trans (h₂.trans ((hjump.goes rfl hr hexit).trans
      (hexit.runs rfl)))).at ?_), hS₂, hk₁.trans hk₂⟩
    simp only [List.length_append, ← Nat.add_assoc]
  | @branchFalse S no S' g condition yes hc hz ih =>
    have hsub {m : Node} (hm : m ∈ [condition, yes, no]) :
        ∀ k ∈ m.preorder, k.Typed types ∧ k.UsesVar L.vars :=
      Node.forall_child hn hm
    rw [Piece.code, Node.code] at hp ⊢
    rw [Piece.depth, Node.depth] at hl
    obtain ⟨hin, -⟩ := hp.unwrap rfl
    have hother := hin.right.right.right.left.tail
    have hexit := hin.right.right.right.right.right
    obtain ⟨c₁, h₁, hS₁, hk₁⟩ := hS.condition hr (hsub (by simp)) hc hin.left hin.right.left
      hother (by omega)
    obtain ⟨c₂, h₂, hS₂, hk₂⟩ := ih (hsub (by simp)) hS₁ hin.right.right.right.right.left
      (by rw [Piece.depth, hk₁.1]; omega)
    refine ⟨c₂, hp.runs_wrap rfl ((h₁.trans ((hother.runs rfl).trans (h₂.trans
      (hexit.runs rfl)))).at ?_), hS₂, hk₁.trans hk₂⟩
    simp only [List.length_append, ← Nat.add_assoc]
  | @loopDone S g condition body hc =>
    rw [Piece.code, Node.code] at hp ⊢
    rw [Piece.depth, Node.depth] at hl
    obtain ⟨hin, -⟩ := hp.unwrap rfl
    have hexit := hin.tail.right.right.right.tail
    obtain ⟨c₁, h₁, hS₁, hk₁⟩ := hS.condition hr (fun k hk => hn k (Node.mem_preorder.mpr
      (.inr ⟨condition, by simp [Node.children], hk⟩))) hc hin.tail.left hin.tail.right.left
      hexit (by omega)
    have hagain : p.Runs ⟨i + 1, c⟩ ⟨i + 1 + 1, c⟩ := .one (by simp [Image.step, hin.line])
    refine ⟨c₁, hp.runs_wrap rfl ((hagain.trans (h₁.trans (hexit.runs rfl))).at ?_), hS₁, hk₁⟩
    simp only [List.length_append, List.length_cons]
    omega
  | @loopNext S body S' g condition S'' hc hb hrest ihb ihr =>
    have hsub {m : Node} (hm : m ∈ [condition, body]) :
        ∀ k ∈ m.preorder, k.Typed types ∧ k.UsesVar L.vars :=
      Node.forall_child hn hm
    have hp' := hp
    rw [Piece.code, Node.code] at hp
    obtain ⟨hin, hs, -⟩ := hp.unwrap rfl
    have hexit := hin.tail.right.right.right
    have hd : L.low + 4 * max condition.depth body.depth ≤ (c.regs .sp).toNat := hl
    obtain ⟨c₁, h₁, hS₁, hk₁⟩ := hS.condition hr (hsub (by simp)) hc hin.tail.left
      hin.tail.right.left hexit.tail (by omega)
    obtain ⟨c₂, h₂, hS₂, hk₂⟩ := ihb (hsub (by simp)) hS₁ hin.tail.right.right.left
      (by rw [Piece.depth, hk₁.1]; omega)
    obtain ⟨c₃, h₃, hS₃, hk₃⟩ := ihr hn hS₂ hp' (by rw [hk₂.1, hk₁.1]; exact hl)
    have hagain : p.Runs ⟨i + 1, c⟩ ⟨i + 1 + 1, c⟩ := .one (by simp [Image.step, hin.line])
    -- The jump goes behind the mark that the code of the loop begins with.
    have hback := hexit.goes (c := c₂) rfl hr hin
    refine ⟨c₃, .next (hs c) (hagain.trans (h₁.trans (h₂.trans (hback.trans
      (h₃.tail (hs c₂) ?_))))), hS₃, hk₁.trans (hk₂.trans hk₃)⟩
    intro e
    have hlen := congrArg Config.pc e
    simp [Piece.code, Node.code, Node.wrap, isMarked] at hlen
  | @block S items S' g hitems ih =>
    rw [Piece.code, Node.code] at hp ⊢
    obtain ⟨c', h', hS', hk⟩ := ih (fun m hm => hn m (Node.mem_preorder.mpr
      (.inr (List.mem_flatMap.mp hm)))) hS (hp.unwrap rfl).1 hl
    exact ⟨c', hp.runs_wrap rfl h', hS', hk⟩
  | @cons S n S' rest S'' hx hrest ihn ihr =>
    rw [Piece.code, Node.rowCode, hx.dropCode_eq, List.nil_append] at hp ⊢
    rw [Piece.depth, Node.depthAll] at hl
    obtain ⟨c₁, h₁, hS₁, hk₁⟩ := ihn (fun m hm => hn m (List.mem_append_left _ hm)) hS hp.left
      (by rw [Piece.depth]; omega)
    obtain ⟨c₂, h₂, hS₂, hk₂⟩ := ihr (fun m hm => hn m (List.mem_append_right _ hm)) hS₁ hp.right
      (by rw [Piece.depth, hk₁.1]; omega)
    refine ⟨c₂, (h₁.trans h₂).at ?_, hS₂, hk₁.trans hk₂⟩
    rw [List.length_append, Nat.add_assoc]
    rfl

end Crux
