import Crux.Proofs.Machine.Basic

/-! Paths of control through the lines of a program, with the word in the stack pointer along them.
Branches may go either way, and calls come back with the stack as it was. A piece of code is
described by the paths that go on where it ends. -/

namespace Crux

namespace Instr

def target? : Instr → Option Reg
  | .li r _ | .liFloat r _ | .la r _ | .load r _ _ | .loadFloat r _ _ | .binary _ r _ _
  | .binaryFloat _ r _ _ | .addi r _ _ | .addu r _ _ | .subu r _ _ | .xori r _ _
  | .moveBits r _ => some r
  | _ => none

def shift? : Instr → Option Word
  | .addi .sp .sp v | .addu .sp .sp v => some (.ofInt 32 v)
  | .subu .sp .sp v => some (-.ofInt 32 v)
  | i => if i.target? = some .sp then none else some 0#32

def goal? : Instr → Option Label
  | .branch _ _ _ l | .branchZero _ l | .branchFlag _ l | .jump l => some l
  | _ => none

def isJump : Instr → Bool
  | .jump _ | .jumpTo _ => true
  | _ => false

variable {i : Instr} {storage : Label → Word} {c c' : Core}

theorem exec_shift {next : Option Label} {d : Word} (h : i.exec storage c = some (c', next))
    (hs : i.shift? = some d) : c'.regs .sp = c.regs .sp + d := by
  unfold shift? at hs
  split at hs
  · cases h
    cases hs
    rfl
  · cases h
    cases hs
    rfl
  · cases h
    cases hs
    exact BitVec.sub_eq_add_neg ..
  · obtain ⟨hne, hs⟩ := Option.ite_none_left_eq_some.mp hs
    cases hs
    rw [BitVec.add_zero]
    have hset {r : Reg} (w : Word) (hr : some r ≠ some .sp) :
        (c.set r w).regs .sp = c.regs .sp := if_neg fun e => hr (congrArg some e.symm)
    cases i with
    | li | la | addi | addu | subu | xori =>
      cases h
      exact hset _ hne
    | load =>
      obtain ⟨-, h⟩ := Option.ite_none_right_eq_some.mp h
      cases h
      exact hset _ hne
    | store =>
      obtain ⟨-, h⟩ := Option.ite_none_right_eq_some.mp h
      cases h
      rfl
    | binary =>
      obtain ⟨w, -, h⟩ := Option.map_eq_some_iff.mp h
      cases h
      exact hset _ hne
    | branch | branchZero | jump =>
      cases h
      rfl
    | _ => cases h

theorem exec_next (h : i.exec storage c = some (c', none)) : i.isJump = false := by
  cases i with
  | jump | jumpTo => cases h
  | _ => rfl

theorem exec_goal {l : Label} (h : i.exec storage c = some (c', some l)) :
    c' = c ∧ i.goal? = some l := by
  cases i with
  | branch op a b l' | branchZero a l' =>
    obtain ⟨rfl, e⟩ := Prod.mk.inj (Option.some.inj h)
    obtain ⟨-, e⟩ := Option.ite_none_right_eq_some.mp e
    exact ⟨rfl, e⟩
  | jump l' =>
    cases h
    exact ⟨rfl, rfl⟩
  | load | store =>
    obtain ⟨-, h⟩ := Option.ite_none_right_eq_some.mp h
    cases h
  | binary =>
    obtain ⟨w, -, h⟩ := Option.map_eq_some_iff.mp h
    cases h
  | _ => cases h

end Instr

namespace Line

def Lets (w w' : Word) : Line → Prop
  | .instr i _ => i.isJump = false ∧ ∀ d, i.shift? = some d → w' = w + d
  | .label _ | .mark .. => w' = w
  | .text _ => False

def shift? : Line → Option Word
  | .instr i _ => if i.isJump || i.goal?.isSome then none else i.shift?
  | .label _ | .mark .. => some 0#32
  | .text _ => none

def shiftAll? : List Line → Option Word
  | [] => some 0#32
  | line :: ls => do return (← line.shift?) + (← shiftAll? ls)

end Line

namespace Image

inductive Moves (p : Image) : Nat → Word → Nat → Word → Prop
  | next : p.code[i]? = some line → line.Lets w w' → Moves p i w (i + 1) w'
  | goes : p.code[i]? = some (.instr instr spacing) → instr.goal? = some l → p.target l = some j →
      Moves p i w j w

inductive Path (p : Image) (R : Nat → Prop) : Nat → Nat → Word → Nat × Word → Prop
  | stay : ¬ R i → Path p R 0 i w (i, w)
  | move : R i → p.Moves i w j w' → Path p R n j w' e → Path p R (n + 1) i w e

def Lies (p : Image) (R : Nat → Prop) (i : Nat) (ls : List Line) : Prop :=
  p.Has i ls ∧ ∀ k, i ≤ k → k < i + ls.length → R k

/-- Every path from the first place goes on from the second, with so much added to the stack
pointer, and the other way round. -/
structure Passes (p : Image) (R : Nat → Prop) (i j : Nat) (d : Word) : Prop where
  on : ∀ {n w e}, p.Path R n i w e → ∃ m ≤ n, p.Path R m j (w + d) e
  back : ∀ {n w e}, p.Path R n j (w + d) e → ∃ m, p.Path R m i w e

/-- Every path from the first place goes on from one of the others, and the other way round. -/
structure Forks (p : Image) (R : Nat → Prop) (i j k : Nat) : Prop where
  on : ∀ {n w e}, p.Path R n i w e → ∃ m ≤ n, p.Path R m j w e ∨ p.Path R m k w e
  left : ∀ {n w e}, p.Path R n j w e → ∃ m, p.Path R m i w e
  right : ∀ {n w e}, p.Path R n k w e → ∃ m, p.Path R m i w e

/-- Every path from the first place goes on from the second, if control gets there, or from the
place to stop at, with one of the words added to the stack pointer, and the other way round. -/
structure Flow (p : Image) (R : Nat → Prop) (stop i j : Nat) (done : Bool) (exits : List Word) :
    Prop where
  on : ∀ {n w e}, p.Path R n i w e → (done ∧ ∃ m ≤ n, p.Path R m j w e) ∨
    ∃ d ∈ exits, ∃ m ≤ n, p.Path R m stop (w + d) e
  back : done → ∀ {n w e}, p.Path R n j w e → ∃ m, p.Path R m i w e
  exit : ∀ d ∈ exits, ∀ {n w e}, p.Path R n stop (w + d) e → ∃ m, p.Path R m i w e

variable {p : Image} {R : Nat → Prop} {stop i j k : Nat} {d d' : Word} {l : Label} {line : Line}
  {ls ls' : List Line} {done done' : Bool} {exits exits' : List Word}

namespace Lies

theorem left (h : p.Lies R i (ls ++ ls')) : p.Lies R i ls :=
  ⟨h.1.left, fun k hi hk => h.2 k hi (by rw [List.length_append]; omega)⟩

theorem right (h : p.Lies R i (ls ++ ls')) : p.Lies R (i + ls.length) ls' :=
  ⟨h.1.right, fun k hi hk => h.2 k (by omega) (by rw [List.length_append]; omega)⟩

theorem inside (h : p.Lies R i (line :: ls)) : R i :=
  h.2 i (Nat.le_refl i) (by rw [List.length_cons]; omega)

theorem tail (h : p.Lies R i (line :: ls)) : p.Lies R (i + 1) ls := by
  have h' : p.Lies R i ([line] ++ ls) := h
  exact h'.right

end Lies

/-- Every step of the machine is a move of control. -/
theorem step_moves {s s' : Config} (h : p.step s = some s') :
    p.Moves s.pc (s.core.regs .sp) s'.pc (s'.core.regs .sp) := by
  unfold step at h
  split at h
  · rename_i i spacing hline
    split at h
    · rename_i c' hx
      cases h
      exact .next hline ⟨Instr.exec_next hx, fun d => Instr.exec_shift hx⟩
    · rename_i c' l hx
      obtain ⟨j, hj, h⟩ := Option.map_eq_some_iff.mp h
      cases h
      obtain ⟨rfl, hg⟩ := Instr.exec_goal hx
      exact .goes hline hg hj
    · cases h
  · rename_i hline
    cases h
    exact .next hline rfl
  · rename_i hline
    cases h
    exact .next hline rfl
  · cases h

theorem Moves.of_shift {w w' : Word} (h : p.Moves i w j w') (hl : p.code[i]? = some line)
    (hs : line.shift? = some d) : j = i + 1 ∧ w' = w + d := by
  cases h with
  | next hl' hlets =>
    cases hl.symm.trans hl'
    refine ⟨rfl, ?_⟩
    cases line with
    | instr instr spacing =>
      rw [Line.shift?] at hs
      split at hs
      · cases hs
      · exact hlets.2 d hs
    | label | mark =>
      cases hs
      rw [hlets, BitVec.add_zero]
    | text => cases hs
  | goes hl' hg _ =>
    cases hl.symm.trans hl'
    simp [Line.shift?, hg] at hs

theorem Moves.shift (hl : p.code[i]? = some line) (hs : line.shift? = some d) (w : Word) :
    p.Moves i w (i + 1) (w + d) := by
  refine .next hl ?_
  cases line with
  | instr instr spacing =>
    rw [Line.shift?] at hs
    split at hs
    · cases hs
    · rename_i hj
      refine ⟨by simp_all, fun d' hd' => ?_⟩
      cases hs.symm.trans hd'
      rfl
  | label | mark =>
    cases hs
    exact BitVec.add_zero w
  | text => cases hs

theorem Path.next {n : Nat} {w : Word} {e : Nat × Word} (hp : p.Path R n i w e)
    (h : p.Lies R i (line :: ls)) (hs : line.shift? = some d) :
    ∃ m < n, p.Path R m (i + 1) (w + d) e := by
  cases hp with
  | stay hn => exact absurd h.inside hn
  | move _ hm hp =>
    obtain ⟨rfl, rfl⟩ := hm.of_shift h.1.line hs
    exact ⟨_, Nat.lt_succ_self _, hp⟩

namespace Passes

theorem refl : p.Passes R i i 0#32 where
  on h := ⟨_, Nat.le_refl _, by rwa [BitVec.add_zero]⟩
  back h := ⟨_, by rwa [BitVec.add_zero] at h⟩

theorem trans (h : p.Passes R i j d) (h' : p.Passes R j k d') : p.Passes R i k (d + d') where
  on hp := by
    obtain ⟨m, hm, hp⟩ := h.on hp
    obtain ⟨m', hm', hp⟩ := h'.on hp
    exact ⟨m', Nat.le_trans hm' hm, by rwa [BitVec.add_assoc] at hp⟩
  back hp := by
    rw [← BitVec.add_assoc] at hp
    obtain ⟨m, hp⟩ := h'.back hp
    exact h.back hp

theorem next (h : p.Lies R i (line :: ls)) (hs : line.shift? = some d) :
    p.Passes R i (i + 1) d where
  on hp := by
    obtain ⟨m, hm, hp⟩ := hp.next h hs
    exact ⟨m, Nat.le_of_lt hm, hp⟩
  back hp := ⟨_, .move h.inside (.shift h.1.line hs _) hp⟩

theorem jump {spacing : Spacing} (h : p.Lies R i (.instr (.jump l) spacing :: ls))
    (ht : p.target l = some j) : p.Passes R i j 0#32 where
  on hp := by
    cases hp with
    | stay hn => exact absurd h.inside hn
    | move _ hm hp =>
      cases hm with
      | next hl hlets =>
        cases h.1.line.symm.trans hl
        cases hlets.1
      | goes hl hg ht' =>
        cases h.1.line.symm.trans hl
        cases hg
        cases ht.symm.trans ht'
        exact ⟨_, Nat.le_succ _, by rwa [BitVec.add_zero]⟩
  back hp := by
    rw [BitVec.add_zero] at hp
    exact ⟨_, .move h.inside (.goes h.1.line rfl ht) hp⟩

theorem fork (h : p.Forks R i j k) {e : Nat} (hj : p.Passes R j e d) (hk : p.Passes R k e d) :
    p.Passes R i e d where
  on hp := by
    obtain ⟨m, hm, hp | hp⟩ := h.on hp
    · obtain ⟨m', hm', hp⟩ := hj.on hp
      exact ⟨m', Nat.le_trans hm' hm, hp⟩
    · obtain ⟨m', hm', hp⟩ := hk.on hp
      exact ⟨m', Nat.le_trans hm' hm, hp⟩
  back hp := by
    obtain ⟨m, hp⟩ := hj.back hp
    exact h.left hp

theorem straight (h : p.Lies R i ls) (hs : Line.shiftAll? ls = some d) :
    p.Passes R i (i + ls.length) d := by
  induction ls generalizing i d with
  | nil =>
    cases hs
    exact .refl
  | cons line ls ih =>
    obtain ⟨d₁, h₁, hs⟩ := Option.bind_eq_some_iff.mp hs
    obtain ⟨d₂, h₂, hs⟩ := Option.bind_eq_some_iff.mp hs
    cases hs
    rw [List.length_cons, Nat.add_comm ls.length, ← Nat.add_assoc]
    exact (next h h₁).trans (ih h.tail h₂)

end Passes

theorem Forks.branch {instr : Instr} {spacing : Spacing}
    (h : p.Lies R i (.instr instr spacing :: ls)) (hj : instr.isJump = false)
    (hs : instr.shift? = some 0#32) (hg : instr.goal? = some l) (ht : p.target l = some k) :
    p.Forks R i (i + 1) k where
  on hp := by
    cases hp with
    | stay hn => exact absurd h.inside hn
    | move _ hm hp =>
      refine ⟨_, Nat.le_succ _, ?_⟩
      cases hm with
      | next hl hlets =>
        cases h.1.line.symm.trans hl
        rw [hlets.2 0#32 hs, BitVec.add_zero] at hp
        exact .inl hp
      | goes hl hg' ht' =>
        cases h.1.line.symm.trans hl
        cases hg.symm.trans hg'
        cases ht.symm.trans ht'
        exact .inr hp
  left hp := by
    refine ⟨_, .move h.inside (.next h.1.line ⟨hj, fun d hd => ?_⟩) hp⟩
    cases hs.symm.trans hd
    exact (BitVec.add_zero _).symm
  right hp := ⟨_, .move h.inside (.goes h.1.line hg ht) hp⟩

namespace Flow

theorem cast (h : p.Flow R stop i j done exits) (e : j = k) : p.Flow R stop i k done exits := e ▸ h

theorem of_passes (h : p.Passes R i j 0#32) : p.Flow R stop i j true [] where
  on hp := by
    obtain ⟨m, hm, hp⟩ := h.on hp
    exact .inl ⟨rfl, m, hm, by rwa [BitVec.add_zero] at hp⟩
  back _ _ _ _ hp := h.back (by rwa [BitVec.add_zero])
  exit := nofun

theorem leave (h : p.Passes R i stop d) : p.Flow R stop i j false [d] where
  on hp := by
    obtain ⟨m, hm, hp⟩ := h.on hp
    exact .inr ⟨d, List.mem_singleton_self d, m, hm, hp⟩
  back := nofun
  exit d' hd' _ _ _ hp := by
    obtain rfl := List.mem_singleton.mp hd'
    exact h.back hp

theorem seq (h : p.Flow R stop i j done exits) (h' : p.Flow R stop j k done' exits') :
    p.Flow R stop i k (done && done') (exits ++ if done then exits' else []) where
  on hp := by
    obtain ⟨rfl, m, hm, hp⟩ | ⟨d, hd, hx⟩ := h.on hp
    · obtain ⟨hd, m', hm', hp⟩ | ⟨d, hd, m', hm', hp⟩ := h'.on hp
      · exact .inl ⟨hd, m', Nat.le_trans hm' hm, hp⟩
      · exact .inr ⟨d, List.mem_append_right _ hd, m', Nat.le_trans hm' hm, hp⟩
    · exact .inr ⟨d, List.mem_append_left _ hd, hx⟩
  back hd _ _ _ hp := by
    obtain ⟨hd, hd'⟩ := Bool.and_eq_true_iff.mp hd
    obtain ⟨m, hp⟩ := h'.back hd' hp
    exact h.back hd hp
  exit d hd _ _ _ hp := by
    obtain hd | hd := List.mem_append.mp hd
    · exact h.exit d hd hp
    · cases done with
      | true =>
        obtain ⟨m, hp⟩ := h'.exit d hd hp
        exact h.back rfl hp
      | false => cases hd

theorem after (h : p.Flow R stop i j done exits) (h' : p.Passes R j k 0#32) :
    p.Flow R stop i k done exits := by
  have h := h.seq (.of_passes h')
  simpa using h

theorem before (h : p.Passes R i j 0#32) (h' : p.Flow R stop j k done exits) :
    p.Flow R stop i k done exits := by
  have h := (of_passes h).seq h'
  simpa using h

theorem fork (h : p.Forks R i j k) {e : Nat} (hj : p.Flow R stop j e done exits)
    (hk : p.Flow R stop k e done' exits') :
    p.Flow R stop i e (done || done') (exits ++ exits') where
  on hp := by
    obtain ⟨m, hm, hp | hp⟩ := h.on hp
    · obtain ⟨hd, m', hm', hp⟩ | ⟨d, hd, m', hm', hp⟩ := hj.on hp
      · exact .inl ⟨by simp [hd], m', Nat.le_trans hm' hm, hp⟩
      · exact .inr ⟨d, List.mem_append_left _ hd, m', Nat.le_trans hm' hm, hp⟩
    · obtain ⟨hd, m', hm', hp⟩ | ⟨d, hd, m', hm', hp⟩ := hk.on hp
      · exact .inl ⟨by simp [hd], m', Nat.le_trans hm' hm, hp⟩
      · exact .inr ⟨d, List.mem_append_right _ hd, m', Nat.le_trans hm' hm, hp⟩
  back hd _ _ _ hp := by
    obtain hd | hd := Bool.or_eq_true_iff.mp hd
    · obtain ⟨m, hp⟩ := hj.back hd hp
      exact h.left hp
    · obtain ⟨m, hp⟩ := hk.back hd hp
      exact h.right hp
  exit d hd _ _ _ hp := by
    obtain hd | hd := List.mem_append.mp hd
    · obtain ⟨m, hp⟩ := hj.exit d hd hp
      exact h.left hp
    · obtain ⟨m, hp⟩ := hk.exit d hd hp
      exact h.right hp

/-- A loop: what comes back to its first line goes on from there again. -/
theorem loop (h : p.Lies R i (.label l :: ls)) {a b : Nat} (hc : p.Passes R (i + 1) a 0#32)
    (hf : p.Forks R a b j) (hb : p.Flow R stop b i done exits) :
    p.Flow R stop i j true exits := by
  have hfirst : p.Passes R i (i + 1) 0#32 := .next h rfl
  have hup {n : Nat} {w : Word} {e : Nat × Word} (hp : p.Path R n a w e) :
      ∃ m, p.Path R m i w e := by
    obtain ⟨m, hp⟩ := hc.back (by rwa [BitVec.add_zero])
    exact hfirst.back (by rwa [BitVec.add_zero])
  constructor
  · intro n w e hp
    induction n using Nat.strongRecOn with
    | ind n ih =>
      -- The way round passes the first line, so it is shorter.
      obtain ⟨m₁, h₁, hp⟩ := hp.next h rfl
      obtain ⟨m₂, h₂, hp⟩ := hc.on hp
      rw [BitVec.add_zero, BitVec.add_zero] at hp
      obtain ⟨m₃, h₃, hp | hp⟩ := hf.on hp
      · obtain ⟨-, m₄, h₄, hp⟩ | ⟨d, hd, m₄, h₄, hp⟩ := hb.on hp
        · obtain ⟨hd, m₅, h₅, hp⟩ | ⟨d, hd, m₅, h₅, hp⟩ := ih m₄ (by omega) hp
          · exact .inl ⟨hd, m₅, by omega, hp⟩
          · exact .inr ⟨d, hd, m₅, by omega, hp⟩
        · exact .inr ⟨d, hd, m₄, by omega, hp⟩
      · exact .inl ⟨rfl, m₃, by omega, hp⟩
  · intro _ n w e hp
    obtain ⟨m, hp⟩ := hf.right hp
    exact hup hp
  · intro d hd n w e hp
    obtain ⟨m, hp⟩ := hb.exit d hd hp
    obtain ⟨m', hp⟩ := hf.left hp
    exact hup hp

theorem path_iff {w v : Word} (h : p.Flow (· ≠ stop) stop i stop done exits) :
    (∃ n, p.Path (· ≠ stop) n i w (stop, v)) ↔ (done ∧ v = w) ∨ ∃ d ∈ exits, v = w + d := by
  have hend {n : Nat} {w v : Word} (hp : p.Path (· ≠ stop) n stop w (stop, v)) : v = w := by
    cases hp with
    | stay => rfl
    | move hne => exact absurd rfl hne
  have hstay (w : Word) : p.Path (· ≠ stop) 0 stop w (stop, w) := .stay (· rfl)
  constructor
  · rintro ⟨n, hp⟩
    obtain ⟨hd, m, -, hp⟩ | ⟨d, hd, m, -, hp⟩ := h.on hp
    · exact .inl ⟨hd, hend hp⟩
    · exact .inr ⟨d, hd, hend hp⟩
  · rintro (⟨hd, rfl⟩ | ⟨d, hd, rfl⟩)
    · exact h.back hd (hstay v)
    · exact h.exit d hd (hstay (w + d))

end Flow

def Crosses (p : Image) (R : Nat → Prop) (ls : List Line) (d : Word) : Prop :=
  ∀ i, p.Lies R i ls → p.Passes R i (i + ls.length) d

def Directs (p : Image) (R : Nat → Prop) (stop : Nat) (ls : List Line) (done : Bool)
    (exits : List Word) : Prop :=
  ∀ i, p.Lies R i ls → p.Flow R stop i (i + ls.length) done exits

theorem Crosses.straight (hs : Line.shiftAll? ls = some d) : p.Crosses R ls d :=
  fun _ h => .straight h hs

theorem Crosses.append (h : p.Crosses R ls d) (h' : p.Crosses R ls' d') :
    p.Crosses R (ls ++ ls') (d + d') := by
  intro i hl
  rw [List.length_append, ← Nat.add_assoc]
  exact (h i hl.left).trans (h' _ hl.right)

theorem Directs.append (h : p.Directs R stop ls done exits)
    (h' : p.Directs R stop ls' done' exits') :
    p.Directs R stop (ls ++ ls') (done && done') (exits ++ if done then exits' else []) := by
  intro i hl
  rw [List.length_append, ← Nat.add_assoc]
  exact (h i hl.left).seq (h' _ hl.right)

theorem Crosses.directs (h : p.Crosses R ls 0#32) : p.Directs R stop ls true [] :=
  fun i hl => .of_passes (h i hl)

end Image

end Crux
