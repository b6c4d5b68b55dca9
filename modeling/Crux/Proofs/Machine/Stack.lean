import Crux.Proofs.Machine.Storage

namespace Crux

open Instr Asm Emit

namespace Value

variable {a b v : Value}

theorem binary_word {op : BinaryOp} (h : binary op a b = some v) :
    op.wordForm.onWords a.word b.word = some v.word := by
  unfold binary at h
  split at h
  case h_4 x y =>
    obtain ⟨hy, h⟩ := Option.ite_none_left_eq_some.mp h
    cases h
    refine (if_neg fun e => hy (Int32.toBitVec_inj.mp e)).trans ?_
    simp [word]
  case h_5 x y =>
    cases h
    cases x <;> cases y <;> rfl
  case h_6 x y =>
    cases h
    cases x <;> cases y <;> rfl
  all_goals
    cases h
    try rfl

theorem compare_word {op : CompareOp} (h : compare op a b = some v) :
    v = .bool (op.branchForm.taken a.word b.word) := by
  have heq (x y : Int32) : (x.toBitVec == y.toBitVec) = decide (x = y) := by
    rw [Bool.eq_iff_iff]
    simp [Int32.toBitVec_inj]
  unfold compare at h
  split at h <;> cases h <;>
    simp [CompareOp.branchForm, Branch.taken, word, bne, heq, Int32.lt_iff_toBitVec_slt,
      Int32.le_iff_toBitVec_sle]

theorem not_word (h : a.not = some v) : a.word ^^^ 1 = v.word := by
  cases a with
  | int => cases h
  | bool x =>
    cases h
    cases x <;> rfl

end Value

def Reg.IsFree (r : Reg) : Prop := r ≠ .sp ∧ r ≠ .fp ∧ r ≠ .ra

instance (r : Reg) : Decidable r.IsFree := inferInstanceAs (Decidable (_ ∧ _ ∧ _))

/-- From `c₀`, the words have been pushed, the first one last; below the operands, memory has kept
all but the area above `low`. -/
structure Core.Stacked (low : Nat) (c₀ : Core) (ws : List Word) (c : Core) : Prop where
  sp : (c.regs .sp).toNat + 4 * ws.length = (c₀.regs .sp).toNat
  room : low ≤ (c.regs .sp).toNat
  fp : c.regs .fp = c₀.regs .fp
  ra : c.regs .ra = c₀.regs .ra
  words : ∀ i w, ws[i]? = some w → c.mem (c.regs .sp + .ofNat 32 (4 * i)) = w
  mem : ∀ a : Word, a.toNat < low ∨ (c₀.regs .sp).toNat ≤ a.toNat → c.mem a = c₀.mem a

theorem execAll_append (storage : Label → Word) (ls ls' : List Line) (c : Core) :
    execAll storage (ls ++ ls') c = (execAll storage ls c).bind (execAll storage ls') := by
  induction ls generalizing c with
  | nil => rfl
  | cons l ls ih =>
    cases l with
    | instr i spacing =>
      simp only [List.cons_append, execAll]
      split
      · exact ih _
      · rfl
    | label | mark => exact ih c
    | text => rfl

namespace Core.Stacked

variable {low : Nat} {c₀ c : Core} {w : Word} {ws : List Word} {r : Reg}

theorem refl (h : low ≤ (c.regs .sp).toNat) : Stacked low c [] c :=
  ⟨rfl, h, rfl, rfl, nofun, fun _ _ => rfl⟩

theorem set (h : Stacked low c₀ ws c) (hr : r.IsFree) (w : Word) : Stacked low c₀ ws (c.set r w) := by
  obtain ⟨hsp, hfp, hra⟩ := hr
  obtain ⟨sp, room, fp, ra, words, mem⟩ := h
  refine ⟨?_, ?_, ?_, ?_, ?_, mem⟩ <;> simpa [Ne.symm hsp, Ne.symm hfp, Ne.symm hra]

theorem aligned (h : Stacked low c₀ ws c) (ha : Aligned (c₀.regs .sp)) : Aligned (c.regs .sp) := by
  have := h.sp
  unfold Aligned Ty.wordSize at *
  omega

theorem pop (h : Stacked low c₀ (w :: ws) c) (ha : Aligned (c₀.regs .sp)) (hr : r.IsFree)
    (storage : Label → Word) :
    ∃ c', execAll storage (popInt r) c = some c' ∧ Stacked low c₀ ws c' ∧ c'.regs r = w ∧
      ∀ q, q ≠ r → q.IsFree → c'.regs q = c.regs q := by
  obtain ⟨hsp, hfp, hra⟩ := hr
  have halign := h.aligned ha
  have htop : c.mem (c.regs .sp) = w := by simpa using h.words 0 w rfl
  have hroom := h.room
  refine ⟨(c.set r w).set .sp (c.regs .sp + 4), ?_, ⟨?_, ?_, ?_, ?_, ?_, ?_⟩, ?_, ?_⟩
  · simp [popInt, execAll, Instr.exec, Line.plain, halign, htop, Ne.symm hsp]
  · have := h.sp
    have := (c₀.regs .sp).isLt
    rw [List.length_cons] at *
    simp only [regs_set, if_true]
    bv_omega
  · have := h.sp
    have := (c₀.regs .sp).isLt
    rw [List.length_cons] at *
    simp only [regs_set, if_true]
    bv_omega
  · simp [Ne.symm hfp, h.fp]
  · simp [Ne.symm hra, h.ra]
  · intro i x hx
    have := h.words (i + 1) x hx
    simp only [regs_set, if_true, mem_set]
    rw [← this]
    congr 1
    bv_omega
  · exact h.mem
  · simp [hsp]
  · intro q hq hfree
    simp [hq, hfree.1]

theorem push (h : Stacked low c₀ ws c) (ha : Aligned (c₀.regs .sp))
    (hl : low + 4 * (ws.length + 1) ≤ (c₀.regs .sp).toNat) (hr : r.IsFree)
    (storage : Label → Word) :
    ∃ c', execAll storage (pushInt r) c = some c' ∧ Stacked low c₀ (c.regs r :: ws) c' := by
  obtain ⟨hsp, hfp, hra⟩ := hr
  have halign : Aligned (c.regs .sp - 4#32) := (h.aligned ha).sub_word
  have hlen := h.sp
  refine ⟨(c.set .sp (c.regs .sp - 4)).write (c.regs .sp - 4) (c.regs r), ?_,
    ⟨?_, ?_, ?_, ?_, ?_, ?_⟩⟩
  · simp [pushInt, execAll, Instr.exec, Line.plain, halign, hsp]
  · rw [List.length_cons]
    simp only [regs_write, regs_set, if_true]
    bv_omega
  · simp only [regs_write, regs_set, if_true]
    bv_omega
  · simp [h.fp]
  · simp [h.ra]
  · intro i x hx
    cases i with
    | zero =>
      cases hx
      simp
    | succ i =>
      rw [List.getElem?_cons_succ] at hx
      have hi : i < ws.length := (List.getElem?_eq_some_iff.mp hx).1
      have := h.words i x hx
      simp only [regs_write, regs_set, if_true, mem_write, mem_set]
      rw [if_neg (by bv_omega), ← this]
      congr 1
      bv_omega
  · intro a hout
    simp only [mem_write, mem_set]
    rw [if_neg ?_, h.mem a hout]
    rintro rfl
    bv_omega

theorem setPush (h : Stacked low c₀ ws c) (ha : Aligned (c₀.regs .sp))
    (hl : low + 4 * (ws.length + 1) ≤ (c₀.regs .sp).toNat) (hr : r.IsFree) (w : Word)
    (storage : Label → Word) :
    ∃ c', execAll storage (pushInt r) (c.set r w) = some c' ∧ Stacked low c₀ (w :: ws) c' := by
  simpa using (h.set hr w).push ha hl hr storage

theorem length_le (h : Stacked low c₀ ws c) : low + 4 * ws.length ≤ (c₀.regs .sp).toNat := by
  have := h.sp
  have := h.room
  omega

variable {x y v : Word} (storage : Label → Word)

theorem binaryCode {op : BinaryOp} (h : Stacked low c₀ (y :: x :: ws) c)
    (ha : Aligned (c₀.regs .sp)) (hv : op.wordForm.onWords x y = some v) :
    ∃ c', execAll storage (binaryCode op) c = some c' ∧ Stacked low c₀ (v :: ws) c' := by
  obtain ⟨c₁, e₁, h₁, hy, -⟩ := h.pop ha (r := .t1) (by decide) storage
  obtain ⟨c₂, e₂, h₂, hx, hk⟩ := h₁.pop ha (r := .t0) (by decide) storage
  have hy' : c₂.regs .t1 = y := (hk .t1 (by decide) (by decide)).trans hy
  obtain ⟨c₃, e₃, h₃⟩ := h₂.setPush ha h₁.length_le (r := .t0) (by decide) v storage
  refine ⟨c₃, ?_, h₃⟩
  simp [Emit.binaryCode, execAll_append, e₁, e₂, execAll, Line.plain, Instr.exec, hx, hy', hv, e₃]

theorem indexCode (h : Stacked low c₀ (y :: x :: ws) c) (ha : Aligned (c₀.regs .sp))
    (bytes : Nat) :
    ∃ c', execAll storage (indexCode bytes) c = some c' ∧
      Stacked low c₀ ((x + y * .ofNat 32 bytes) :: ws) c' := by
  obtain ⟨c₁, e₁, h₁, hy, -⟩ := h.pop ha (r := .t2) (by decide) storage
  obtain ⟨c₂, e₂, h₂, hx, hk⟩ := h₁.pop ha (r := .t1) (by decide) storage
  have hy' : c₂.regs .t2 = y := (hk .t2 (by decide) (by decide)).trans hy
  have h₃ := (h₂.set (r := .t3) (by decide) (.ofNat 32 bytes)).set (r := .t2) (by decide)
    (y * .ofNat 32 bytes)
  obtain ⟨c₃, e₃, h₄⟩ := h₃.setPush ha h₁.length_le (r := .t1) (by decide)
    (x + y * .ofNat 32 bytes) storage
  refine ⟨c₃, ?_, h₄⟩
  simp [Emit.indexCode, execAll_append, e₁, e₂, execAll, Line.plain, Instr.exec,
    WordOp.onWords, hx, hy', e₃]

theorem loadThrough (h : Stacked low c₀ (x :: ws) c) (ha : Aligned (c₀.regs .sp))
    (hx : Aligned x) (hout : x.toNat < low ∨ (c₀.regs .sp).toNat ≤ x.toNat) :
    ∃ c', execAll storage (popInt .t1 ++ loadThrough false) c = some c' ∧
      Stacked low c₀ (c₀.mem x :: ws) c' := by
  obtain ⟨c₁, e₁, h₁, hr, -⟩ := h.pop ha (r := .t1) (by decide) storage
  obtain ⟨c₂, e₂, h₂⟩ := h₁.setPush ha h.length_le (r := .t1) (by decide) (c₀.mem x) storage
  refine ⟨c₂, ?_, h₂⟩
  simp [Emit.loadThrough, execAll_append, e₁, execAll, Line.plain, Instr.exec, hr, hx,
    h₁.mem x hout, e₂]

theorem storeThrough (h : Stacked low c₀ [y, x] c) (ha : Aligned (c₀.regs .sp)) (hx : Aligned x) :
    ∃ c', execAll storage (storeThrough false) c = some (c'.write x y) ∧ Stacked low c₀ [] c' := by
  obtain ⟨c₁, e₁, h₁, hy, -⟩ := h.pop ha (r := .t1) (by decide) storage
  obtain ⟨c₂, e₂, h₂, hr, hk⟩ := h₁.pop ha (r := .t2) (by decide) storage
  have hy' : c₂.regs .t1 = y := (hk .t1 (by decide) (by decide)).trans hy
  refine ⟨c₂, ?_, h₂⟩
  simp [Emit.storeThrough, execAll_append, e₁, e₂, execAll, Line.plain, Instr.exec, hr, hx, hy']

theorem flip (h : Stacked low c₀ (x :: ws) c) (ha : Aligned (c₀.regs .sp)) :
    ∃ c', execAll storage (popInt .t0 ++ .plain (xori .t0 .t0 1) :: pushInt .t0) c = some c' ∧
      Stacked low c₀ ((x ^^^ 1) :: ws) c' := by
  obtain ⟨c₁, e₁, h₁, hr, -⟩ := h.pop ha (r := .t0) (by decide) storage
  obtain ⟨c₂, e₂, h₂⟩ := h₁.setPush ha h.length_le (r := .t0) (by decide) (x ^^^ 1) storage
  refine ⟨c₂, ?_, h₂⟩
  have e₂' : execAll storage (pushInt .t0) (c₁.set .t0 (x ^^^ 1#32)) = some c₂ := e₂
  simp [execAll_append, e₁, execAll, Line.plain, Instr.exec, hr, e₂']

end Core.Stacked

namespace Image

variable {p : Image} {i : Nat}

theorem Has.unwrap {n : Node} {ls : List Line} (h : p.Has i (n.wrap ls)) (hm : isMarked n) :
    p.Has (i + 1) ls ∧ (∀ c, p.step ⟨i, c⟩ = some ⟨i + 1, c⟩) ∧
      ∀ c, p.Runs ⟨i + 1 + ls.length, c⟩ ⟨i + (n.wrap ls).length, c⟩ := by
  have hw : n.wrap ls = .mark .opening n.render :: (ls ++ [.mark .closing n.render]) := if_pos hm
  have hlen : i + (n.wrap ls).length = i + 1 + ls.length + 1 := by
    rw [hw]
    simp
    omega
  rw [hlen]
  rw [hw] at h
  refine ⟨h.tail.left, fun c => by simp [step, h.line], fun c => .one ?_⟩
  simp [step, h.tail.right.line]

theorem Has.runs_wrap {n : Node} {ls : List Line} {c c' : Core} (h : p.Has i (n.wrap ls))
    (hm : isMarked n) (hr : p.Runs ⟨i + 1, c⟩ ⟨i + 1 + ls.length, c'⟩) :
    p.Runs ⟨i, c⟩ ⟨i + (n.wrap ls).length, c'⟩ := by
  obtain ⟨-, hs, he⟩ := h.unwrap hm
  exact .next (hs c) (hr.trans (he c'))

theorem Has.pushOne {n : Node} {instr : Instr} {low : Nat} {c₀ c : Core} {w : Word}
    {ws : List Word} (h : p.Has i (n.wrap (.plain instr :: pushInt .t1))) (hm : isMarked n)
    (hx : instr.exec p.storage c = some (c.set .t1 w, none)) (hc : c₀.Stacked low ws c)
    (ha : Aligned (c₀.regs .sp)) (hl : low + 4 * (ws.length + 1) ≤ (c₀.regs .sp).toNat) :
    ∃ c', p.Runs ⟨i, c⟩ ⟨i + (n.wrap (.plain instr :: pushInt .t1)).length, c'⟩ ∧
      c₀.Stacked low (w :: ws) c' := by
  obtain ⟨c', e, h'⟩ := hc.setPush ha hl (r := .t1) (by decide) w p.storage
  refine ⟨c', h.runs_wrap hm ((h.unwrap hm).1.runs ?_), h'⟩
  simp [execAll, Line.plain, hx, e]

theorem Has.compare {op : CompareOp} {yes no join : Nat} {low : Nat} {c₀ c : Core} {x y : Word}
    {ws : List Word} (h : p.Has i (compareCode op false (.fresh yes) (.fresh no) (.fresh join)))
    (hr : p.Resolves) (hc : c₀.Stacked low (y :: x :: ws) c) (ha : Aligned (c₀.regs .sp)) :
    ∃ c', p.Runs ⟨i, c⟩ ⟨i + 14, c'⟩ ∧
      c₀.Stacked low ((Value.bool (op.branchForm.taken x y)).word :: ws) c' := by
  obtain ⟨c₁, e₁, h₁, hy, -⟩ := hc.pop ha (r := .t1) (by decide) p.storage
  obtain ⟨c₂, e₂, h₂, hx, hk⟩ := h₁.pop ha (r := .t0) (by decide) p.storage
  have hy' : c₂.regs .t1 = y := (hk .t1 (by decide) (by decide)).trans hy
  have hpops : p.Runs ⟨i, c⟩ ⟨i + 4, c₂⟩ :=
    h.left.left.left.runs (by simp [execAll_append, e₁, e₂])
  have hb : p.Has (i + 4) [.plain (.branch op.branchForm .t0 .t1 (.fresh yes))] := h.left.left.right
  have hmid := h.left.right
  have hpush : p.Has (i + 12) (pushInt .t0) := h.right
  cases ho : op.branchForm.taken x y with
  | true =>
    obtain ⟨c₃, e₃, h₃⟩ := h₂.setPush ha h₁.length_le (r := .t0) (by decide) 1 p.storage
    refine ⟨c₃, ?_, h₃⟩
    have hyes : p.Has (i + 6) ([.label (.fresh yes), .plain (li .t0 1)] ++ _) := hmid.tail
    have hjump : p.Has (i + 8) (.plain (jump (.fresh join)) :: _) := hyes.right
    have hjoin : p.Has (i + 11) [.label (.fresh join)] := hjump.tail.tail.tail
    refine hpops.trans ((hb.goes ?_ hr hmid.tail).trans ((hyes.left.runs rfl).trans
      ((hjump.goes rfl hr hjoin).trans ((hjoin.runs rfl).trans (hpush.runs e₃)))))
    simp [Instr.exec, hx, hy', ho]
  | false =>
    obtain ⟨c₃, e₃, h₃⟩ := h₂.setPush ha h₁.length_le (r := .t0) (by decide) 0 p.storage
    refine ⟨c₃, ?_, h₃⟩
    have hno : p.Has (i + 9) [.label (.fresh no), .plain (li .t0 0), .label (.fresh join)] :=
      hmid.tail.tail.tail.tail
    refine hpops.trans ((hb.passes ?_).trans ((hmid.goes rfl hr hno).trans
      ((hno.runs rfl).trans (hpush.runs e₃))))
    simp [Instr.exec, hx, hy', ho]

end Image

end Crux
