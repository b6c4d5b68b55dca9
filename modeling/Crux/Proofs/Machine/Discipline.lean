import Crux.Proofs.Machine.Calls

namespace Crux

open Instr Asm Emit

namespace Image

/-- Control goes through the lines from `i` up to `j`: it starts at the first one, stays among them,
and leaves behind the last one. -/
structure Course (p : Image) (i j : Nat) (w : Word) (s : List (Nat × Word)) (v : Word) : Prop where
  trace : p.Trace (fun k => i ≤ k ∧ k < j) i w s (j, v)
  last : ∀ x, s.getLast? = some x → x.1 + 1 = j

/-- On all ways through the lines the stack grows by `n` words. On the way it has never less words
than at the start, and not more than one for each line on top of them. -/
structure Disciplined (p : Image) (i j n : Nat) (done : Bool) : Prop where
  /-- There is a way through the lines, unless they always leave the function. -/
  passes : ∀ w, (∃ s v, p.Course i j w s v) ↔ done
  ends : ∀ {w s v}, p.Course i j w s v → v = sunk w n
  within : ∀ {w s v}, p.Course i j w s v → ∀ x ∈ s, (∃ k ≤ j - i, x.2 = sunk w k) ∧
    ((j - i) * Ty.wordSize ≤ w.toNat → x.2 ≤ w)

def Within (w : Word) (cap : Nat) (x : Nat × Word) : Prop := ∃ k ≤ cap, x.2 = sunk w k

def Quits (p : Image) (stop : Nat) (x : Nat × Word) : Prop :=
  x.1 = stop ∨ ∃ l spacing, p.code[x.1]? = some (.instr (.jump l) spacing) ∧ p.target l = some stop

variable {p : Image} {R : Nat → Prop} {P : Nat × Word → Prop} {u v w d : Word}
  {i j k z n cap stop : Nat} {s : List (Nat × Word)} {e x : Nat × Word} {ls ls' : List Line}
  {done : Bool} {exits : List Word} {l l' : Label}

theorem Within.mono {cap' : Nat} (h : Within w cap x) (hcap : cap ≤ cap') : Within w cap' x := by
  obtain ⟨k, hk, e⟩ := h
  exact ⟨k, Nat.le_trans hk hcap, e⟩

theorem OnTop.within (h : p.OnTop w cap x) : Within w cap x := by
  obtain ⟨k, hk, e, -⟩ := h
  exact ⟨k, hk, e⟩

theorem Within.zero (w : Word) (cap i : Nat) : Within w cap (i, w) :=
  ⟨0, Nat.zero_le cap, (sunk_zero w).symm⟩

theorem Within.le (h : Within w cap x) (hw : cap * Ty.wordSize ≤ w.toNat) : x.2 ≤ w := by
  obtain ⟨k, hk, e⟩ := h
  rw [e, sunk]
  unfold Ty.wordSize at *
  bv_omega

namespace Trace

theorem eq_nil (h : p.Trace R i w s e) (hi : ¬ R i) : s = [] ∧ e = (i, w) := by
  cases h with
  | stay => exact ⟨rfl, rfl⟩
  | move hin => exact absurd hin hi

theorem inside (h : p.Trace R i w s e) : ∀ x ∈ s, R x.1 := by
  induction h with
  | stay => exact List.forall_mem_nil _
  | move hi _ _ ih => exact List.forall_mem_cons.mpr ⟨hi, ih⟩

theorem getLast?_of_quits (h : p.Trace R i w s e) (hstop : ¬ R stop) (hx : x ∈ s)
    (hq : p.Quits stop x) : s.getLast? = some x := by
  obtain hq | ⟨l, spacing, hl, ht⟩ := hq
  · exact absurd (hq ▸ h.inside x hx) hstop
  induction h with
  | stay => cases hx
  | @move i w j w' s e hi hm h ih =>
    obtain rfl | hx := List.mem_cons.mp hx
    · have hj : j = stop := by
        cases hm with
        | next hl' hlets =>
          cases hl.symm.trans hl'
          cases hlets.1
        | goes hl' hg ht' =>
          cases hl.symm.trans hl'
          cases hg
          exact (Option.some.inj (ht.symm.trans ht')).symm
      obtain ⟨rfl, -⟩ := h.eq_nil (hj ▸ hstop)
      rfl
    · rw [List.getLast?_cons, ih hx]
      rfl

theorem path_to_mark {edge : Edge} {node : String} (hz : p.code[z]? = some (.mark edge node))
    (h : p.Trace (fun k => i ≤ k ∧ k < z + 1) k u s (z + 1, v)) (hk : k ≠ z + 1)
    (hlast : ∀ x, s.getLast? = some x → x.1 + 1 = z + 1) :
    ∃ n, p.Path (fun k => i ≤ k ∧ k < z) n k u (z, v) := by
  generalize he : (z + 1, v) = e at h
  induction h with
  | stay =>
    cases he
    exact absurd rfl hk
  | @move k u m u' s e hin hm h ih =>
    subst he
    by_cases hkz : k = z
    · obtain ⟨rfl, rfl⟩ := hm.of_shift (hkz ▸ hz) rfl
      obtain ⟨-, e⟩ := h.eq_nil (by omega)
      cases e
      rw [BitVec.add_zero, hkz]
      exact ⟨0, .stay (by omega)⟩
    · have hm' : m ≠ z + 1 := by
        rintro rfl
        obtain ⟨rfl, -⟩ := h.eq_nil (by omega)
        exact hkz (Nat.succ.inj (hlast (k, u) rfl))
      have hrest : ∀ x, s.getLast? = some x → x.1 + 1 = z + 1 := by
        intro x hx
        refine hlast x ?_
        rw [List.getLast?_cons, hx]
        rfl
      obtain ⟨n, hn⟩ := ih hm' hrest rfl
      exact ⟨n + 1, .move ⟨hin.1, by omega⟩ hm hn⟩

end Trace

theorem Path.through_mark {edge : Edge} {node : String} (hz : p.code[z]? = some (.mark edge node))
    (hi : i ≤ z) (h : p.Path (fun k => i ≤ k ∧ k < z) n k u (z, v)) :
    ∃ s, p.Trace (fun k => i ≤ k ∧ k < z + 1) k u (s ++ [(z, v)]) (z + 1, v) := by
  generalize he : (z, v) = e at h
  induction h with
  | stay =>
    cases he
    have hm : p.Moves z v (z + 1) (v + 0#32) := .shift hz rfl v
    rw [BitVec.add_zero] at hm
    exact ⟨[], .move ⟨hi, Nat.lt_succ_self z⟩ hm .stay⟩
  | move hin hm _ ih =>
    obtain ⟨s, hs⟩ := ih he
    subst he
    exact ⟨_ :: s, .move ⟨hin.1, Nat.lt_succ_of_lt hin.2⟩ hm hs⟩

/-- The ways through lines between two marks are the paths between the marks. -/
theorem course_iff {o c : Edge} {a b : String}
    (h : p.Has i (.mark o a :: (ls ++ [.mark c b]))) :
    (∃ s, p.Course i (i + 1 + ls.length + 1) w s v) ↔
      ∃ n, p.Path (fun k => i ≤ k ∧ k < i + 1 + ls.length) n (i + 1) w (i + 1 + ls.length, v) := by
  have hz : p.code[i + 1 + ls.length]? = some (.mark c b) := h.tail.right.line
  constructor
  · rintro ⟨s, hs, hlast⟩
    have hlines : p.Has i ((.mark o a :: ls) ++ [.mark c b]) := h
    obtain ⟨n, hn⟩ := hs.path_to_mark hz (by omega) hlast
    obtain ⟨m, -, hm⟩ := hn.next ⟨hlines.left, fun k hk hlt => ⟨hk, by grind⟩⟩ rfl
    exact ⟨m, by rwa [BitVec.add_zero] at hm⟩
  · rintro ⟨n, hn⟩
    have hm : p.Moves i w (i + 1) (w + 0#32) := .shift h.line rfl w
    rw [BitVec.add_zero] at hm
    obtain ⟨s, hs⟩ := Path.through_mark hz (by omega) (.move ⟨Nat.le_refl i, by omega⟩ hm hn)
    refine ⟨_, hs, fun x hx => ?_⟩
    rw [List.getLast?_append, List.getLast?_singleton] at hx
    cases hx
    rfl

theorem Course.all (h : p.Course i j w s v)
    (hl : p.Leads (fun k => i ≤ k ∧ k < j) P i w j u) : ∀ x ∈ s, P x := by
  obtain hall | ⟨s₁, s₂, rfl, h₁, h₂⟩ := hl.on h.trace
  · exact (List.forall_mem_cons.mp hall).2
  · obtain ⟨rfl, -⟩ := h₂.eq_nil (by omega)
    rwa [List.append_nil]

theorem Course.not_quits {edge : Edge} {node : String} (h : p.Course i (z + 1) w s v)
    (hz : p.code[z]? = some (.mark edge node)) (hstop : ¬ (i ≤ stop ∧ stop < z + 1)) :
    ∀ x ∈ s, ¬ p.Quits stop x := by
  intro x hx hq
  have hxz : x.1 = z := Nat.succ.inj (h.last x (h.trace.getLast?_of_quits hstop hx hq))
  obtain hq | ⟨l, spacing, hl, -⟩ := hq
  · exact hstop (hq ▸ h.trace.inside x hx)
  · rw [hxz, hz] at hl
    cases hl

namespace Disciplined

theorem of_passes {o c : Edge} {a b : String} (h : p.Has i (.mark o a :: (ls ++ [.mark c b])))
    (hj : j = i + 1 + ls.length + 1) (hd : ∀ w, w + d = sunk w n)
    (hp : p.Passes (fun k => i ≤ k ∧ k < i + 1 + ls.length) (i + 1) (i + 1 + ls.length) d)
    (hl : ∀ w, p.Leads (fun k => i ≤ k ∧ k < j) (Within w (j - i)) i w j (sunk w n)) :
    p.Disciplined i j n true := by
  have hout : ¬ (i ≤ i + 1 + ls.length ∧ i + 1 + ls.length < i + 1 + ls.length) := by omega
  have hends {w v : Word} : (∃ s, p.Course i j w s v) ↔ v = sunk w n := by
    rw [hj, course_iff h, ← hd]
    constructor
    · rintro ⟨m, hm⟩
      obtain ⟨m', -, hm'⟩ := hp.on hm
      cases hm' with
      | stay => rfl
      | move hin => exact absurd hin hout
    · rintro rfl
      exact hp.back (n := 0) (.stay hout)
  refine ⟨fun w => ⟨fun _ => rfl, fun _ => ?_⟩, fun hc => hends.mp ⟨_, hc⟩, fun hc x hx => ?_⟩
  · obtain ⟨s, hs⟩ := hends.mpr (rfl : sunk w n = _)
    exact ⟨s, _, hs⟩
  · have hx := hc.all (hl _) x hx
    exact ⟨hx, hx.le⟩

theorem of_flow {o c : Edge} {a b : String} (h : p.Has i (.mark o a :: (ls ++ [.mark c b])))
    (hj : j = i + 1 + ls.length + 1) (hstop : ¬ (i ≤ stop ∧ stop < j))
    (hp : p.Flow (fun k => i ≤ k ∧ k < i + 1 + ls.length) stop (i + 1) (i + 1 + ls.length) done
      exits)
    (hl : ∀ w, p.Leads (fun k => i ≤ k ∧ k < j)
      (fun x => Within w (j - i) x ∨ p.Quits stop x) i w j w) :
    p.Disciplined i j 0 done := by
  subst hj
  have hout : ¬ (i ≤ i + 1 + ls.length ∧ i + 1 + ls.length < i + 1 + ls.length) := by omega
  have hz : p.code[i + 1 + ls.length]? = some (.mark c b) := h.tail.right.line
  have hends {w v : Word} :
      (∃ s, p.Course i (i + 1 + ls.length + 1) w s v) ↔ done ∧ v = w := by
    rw [course_iff h]
    constructor
    · rintro ⟨m, hm⟩
      obtain ⟨hd, m', -, hm'⟩ | ⟨d, -, m', -, hm'⟩ := hp.on hm
      · cases hm' with
        | stay => exact ⟨hd, rfl⟩
        | move hin => exact absurd hin hout
      · cases hm' with
        | stay => exact absurd ⟨by omega, by omega⟩ hstop
        | move hin => exact absurd ⟨hin.1, by omega⟩ hstop
    · rintro ⟨hd, rfl⟩
      exact hp.back hd (n := 0) (.stay hout)
  refine ⟨fun w => ⟨?_, fun hd => ?_⟩, fun hc => ?_, fun hc x hx => ?_⟩
  · rintro ⟨s, v, hc⟩
    exact (hends.mp ⟨s, hc⟩).1
  · obtain ⟨s, hs⟩ := hends.mpr ⟨hd, rfl⟩
    exact ⟨s, w, hs⟩
  · rw [sunk_zero]
    exact (hends.mp ⟨_, hc⟩).2
  · have hx := (hc.all (hl _) x hx).resolve_right (hc.not_quits hz hstop x hx)
    exact ⟨hx, hx.le⟩

theorem empty : p.Disciplined i i 0 true := by
  have hnil {w v : Word} {s : List (Nat × Word)} (hc : p.Course i i w s v) : s = [] ∧ v = w := by
    obtain ⟨hs, e⟩ := hc.trace.eq_nil (by omega)
    cases e
    exact ⟨hs, rfl⟩
  refine ⟨fun w => ⟨fun _ => rfl, fun _ => ⟨[], w, .stay, by simp⟩⟩, fun hc => ?_, fun hc x hx => ?_⟩
  · rw [(hnil hc).2, sunk_zero]
  · rw [(hnil hc).1] at hx
    cases hx

end Disciplined

/-- Wherever the lines stand, the stack behind them is as it was before, and has never less words on
the way, unless control leaves the function. -/
def Keeps (p : Image) (R : Nat → Prop) (stop : Nat) (ls : List Line) : Prop :=
  ∀ w i P, p.Has i ls → (∀ x, Within w ls.length x → P x) → (∀ x, p.Quits stop x → P x) →
    p.Leads R P i w (i + ls.length) w

namespace Leads

theorem cast (h : p.Leads R P i u j v) (e : j = k) : p.Leads R P i u k v := e ▸ h

theorem quit {spacing : Spacing} (hl : p.code[i]? = some (.instr (.jump l) spacing))
    (ht : p.target l = some stop) (hstop : ¬ R stop) (hP : ∀ x, p.Quits stop x → P x) :
    p.Leads R P i u j v := by
  refine (jump hl ht (hP _ (.inr ⟨l, spacing, hl, ht⟩))).trans ⟨fun h => .inl ?_⟩
  obtain ⟨rfl, rfl⟩ := h.eq_nil hstop
  exact List.forall_mem_singleton.mpr (hP _ (.inl rfl))

theorem loop {a : Nat} {instr : Instr} {spacing : Spacing} (hl : p.code[i]? = some (.label l))
    (hi : P (i, u)) (hc : p.Leads R P (i + 1) u a u)
    (ha : p.code[a]? = some (.instr instr spacing)) (hs : instr.shift? = some 0#32)
    (hg : instr.goal? = some l') (ht : p.target l' = some j) (hPa : P (a, u))
    (hb : p.Leads R P (a + 1) u i u) : p.Leads R P i u j u := by
  constructor
  intro s e h
  induction hn : s.length using Nat.strongRecOn generalizing s with
  | ind n ih =>
    cases h with
    | stay => exact .inl (List.forall_mem_singleton.mpr hi)
    | move _ hm h =>
      obtain ⟨rfl, rfl⟩ := hm.of_shift hl rfl
      rw [BitVec.add_zero] at h
      refine of_append (List.forall_mem_singleton.mpr hi) ?_
      obtain h | ⟨s₁, s₂, rfl, h₁, h⟩ := hc.on h
      · exact .inl h
      refine of_append h₁ ?_
      cases h with
      | stay => exact .inl (List.forall_mem_singleton.mpr hPa)
      | move _ hm h =>
        refine of_append (List.forall_mem_singleton.mpr hPa) ?_
        cases hm with
        | next hl' hlets =>
          cases ha.symm.trans hl'
          rw [hlets.2 0#32 hs, BitVec.add_zero] at h
          obtain h | ⟨s₃, s₄, rfl, h₃, h⟩ := hb.on h
          · exact .inl h
          refine of_append h₃ (ih s₄.length ?_ h rfl)
          simp only [List.length_cons, List.length_append] at hn
          omega
        | goes hl' hg' ht' =>
          cases ha.symm.trans hl'
          cases hg.symm.trans hg'
          cases ht.symm.trans ht'
          exact refl.on h

end Leads

namespace Keeps

theorem of_stacks (h : p.Stacks ls 0 0) : p.Keeps R stop ls := by
  intro w i P hl hP _
  have hleads := h.leads R w i hl
  rw [sunk_zero, Nat.zero_add] at hleads
  exact hleads.mono fun x hx => hP x hx.within

theorem append (h : p.Keeps R stop ls) (h' : p.Keeps R stop ls') : p.Keeps R stop (ls ++ ls') := by
  intro w i P hl hP hq
  rw [List.length_append] at hP ⊢
  rw [← Nat.add_assoc]
  exact (h w i P hl.left (fun x hx => hP x (hx.mono (by omega))) hq).trans
    (h' w _ P hl.right (fun x hx => hP x (hx.mono (by omega))) hq)

theorem still {line : Line} (hs : line.shift? = some 0#32) : p.Keeps R stop [line] :=
  fun w _ _ hl hP _ => .still hl.line hs (hP _ (.zero w _ _))

end Keeps

end Image

theorem Ty.Declarable.element {extent : Nat} {t : Ty} (h : (Ty.array extent t).Declarable) :
    t.Declarable := by
  cases t with
  | func => cases h
  | _ => exact h

namespace Node

/-- The words that the code of a node leaves on the stack: one for a value, unless its recorded type
is void, and one for each argument in a list. -/
def gain (types : Nat → Option Ty) (n : Node) : Nat :=
  match n with
  | .int .. | .float .. | .bool .. | .addressOf .. | .dereference .. | .index .. | .binary ..
  | .compare .. | .not .. | .call .. => if (types n.id).any Ty.isVoid then 0 else 1
  | .list _ .expressions items => items.length
  | _ => 0

variable {p : Image} {R : Nat → Prop} {types : Nat → Option Ty} {F : Frame} {f : Enclosing}
  {role : Role} {env : Env} {n : Node} {t : Ty} {stop : Nat} {ls : List Line}

theorem keeps_wrap (h : p.Keeps R stop ls) : p.Keeps R stop (n.wrap ls) := by
  unfold wrap
  split
  · exact .append (.of_stacks (.still rfl rfl)) (h.append (.of_stacks (.still rfl rfl)))
  · exact h

theorem keeps_branch {cs ys zs : List Line} {a b : Nat} (hr : p.Resolves) (hc : p.Stacks cs 0 1)
    (hy : p.Keeps R stop ys) (hz : p.Keeps R stop zs) :
    p.Keeps R stop (cs ++ ((popInt .t0 ++ [.plain (branchZero .t0 (.fresh a))]) ++
      (ys ++ ([.plain (jump (.fresh b)), .label (.fresh a)] ++ (zs ++ [.label (.fresh b)]))))) := by
  intro w i P h hP hq
  simp only [List.length_append, List.length_cons, List.length_nil] at hP ⊢
  have hzero (k : Nat) : P (k, w) := hP _ (.zero w _ k)
  have hcond : p.Keeps R stop (cs ++ popInt .t0) := .of_stacks (hc.append (.popInt (by decide)))
  have h₁ := h.right
  have h₂ := h₁.right
  have h₃ : p.Has _ (.plain (.jump (.fresh b)) :: _) := h₂.right
  have h₄ : p.Has _ (.label (.fresh a) :: _) := h₃.tail
  have h₅ : p.Has _ (zs ++ [.label (.fresh b)]) := h₄.tail
  have h₆ := h₅.right
  have hbranch := h₁.left.right
  rw [List.append_assoc (popInt .t0), ← List.append_assoc] at h
  have hfirst := hcond w i P h.left
    (fun x hx => hP x (hx.mono (by rw [List.length_append]; omega))) hq
  have hyes := (hy w _ P h₂.left (fun x hx => hP x (hx.mono (by omega))) hq).trans
    ((Image.Leads.jump h₃.line (hr b _ h₆.line) (hzero _)).trans (.still h₆.line rfl (hzero _)))
  have hno := (Image.Leads.still h₄.line rfl (hzero _)).trans
    ((hz w _ P h₅.left (fun x hx => hP x (hx.mono (by omega))) hq).trans
      (.still h₆.line rfl (hzero _)))
  rw [List.length_append, ← Nat.add_assoc] at hfirst
  refine (hfirst.trans (.fork hbranch.line rfl rfl (hr a _ h₄.line) (hzero _) ?_ hno)).cast ?_
  · rw [List.length_append, ← Nat.add_assoc] at hyes
    exact hyes
  · simp only [List.length_append, List.length_cons, List.length_nil]
    omega

theorem keeps_loop {cs bs : List Line} {a b : Nat} (hr : p.Resolves) (hc : p.Stacks cs 0 1)
    (hb : p.Keeps R stop bs) :
    p.Keeps R stop (.label (.fresh a) :: (cs ++
      ((popInt .t0 ++ [.plain (branchZero .t0 (.fresh b))]) ++
        (bs ++ [.plain (jump (.fresh a)), .label (.fresh b)])))) := by
  intro w i P h hP hq
  simp only [List.length_append, List.length_cons, List.length_nil] at hP ⊢
  have hzero (k : Nat) : P (k, w) := hP _ (.zero w _ k)
  have hcond : p.Keeps R stop (cs ++ popInt .t0) := .of_stacks (hc.append (.popInt (by decide)))
  have h₁ := h.tail
  have h₂ := h₁.right
  have h₃ := h₂.right
  have h₄ : p.Has _ (.plain (.jump (.fresh a)) :: _) := h₃.right
  have h₅ : p.Has _ [.label (.fresh b)] := h₄.tail
  have hbranch := h₂.left.right
  rw [List.append_assoc (popInt .t0), ← List.append_assoc] at h₁
  have hfirst := hcond w _ P h₁.left
    (fun x hx => hP x (hx.mono (by rw [List.length_append]; omega))) hq
  have hbody := (hb w _ P h₃.left (fun x hx => hP x (hx.mono (by omega))) hq).trans
    (.jump h₄.line (hr a _ h.line) (hzero _))
  rw [List.length_append, ← Nat.add_assoc] at hfirst hbody
  refine ((Image.Leads.loop h.line (hzero _) hfirst hbranch.line rfl rfl (hr b _ h₅.line)
    (hzero _) hbody).trans (.still h₅.line rfl (hzero _))).cast ?_
  simp only [List.length_append, List.length_cons, List.length_nil]
  omega

/-- A return statement pops its value, whether or not there is one, and leaves the function. -/
theorem keeps_leaveWith {vs : List Line} {b : Nat} {l : Label} (hv : p.Stacks vs 0 b)
    (hstop : p.target l = some stop) (hout : ¬ R stop) :
    p.Keeps R stop (vs ++ (popInt .v0 ++ [.plain (jump l)])) := by
  intro w i P h hP hq
  have hle := hv.le
  simp only [List.length_append] at hP
  have hvalue := hv.leads R w i h.left
  rw [sunk_zero] at hvalue
  have hpop : p.Has _ (_ :: _ :: [.plain (jump l)]) := h.right
  have htop (k : Nat) : P (k, sunk w b) := hP _ ⟨b, by omega, rfl⟩
  exact (hvalue.mono fun x hx => hP x (hx.within.mono (by omega))).trans
    ((Image.Leads.still hpop.line rfl (htop _)).trans
      ((Image.Leads.next hpop.tail.line rfl rfl (htop _)).trans
        (.quit hpop.tail.tail.line hstop hout hq)))

theorem Scoped.target_declarable (h : Scoped .address env n)
    (hk : ∀ m ∈ n.preorder, m.Known types f) (ht : n.HasType f (.address t)) : t.Declarable := by
  generalize hrole : Role.address = role at h
  induction h generalizing t with
  | @addressOf s env =>
    obtain ⟨u, hu, hd⟩ := (hk _ (mem_preorder_self _)).uses s (List.mem_singleton_self s)
    cases ht with
    | addressOf hs =>
      cases hs.symm.trans hu
      exact hd
  | index _ _ ih =>
    cases ht with
    | index hb _ => exact (ih (forall_child hk (by simp [children])) hb rfl).element
  | _ => cases hrole

theorem Scoped.call_of_void (h : Scoped role env n) (hrole : role = .value ∨ role = .address)
    (hk : ∀ m ∈ n.preorder, m.Known types f) (ht : n.HasType f .void) :
    Scoped .value env n ∧ ∃ g s args, n = .call g s args := by
  cases h with
  | call hl hargs => exact ⟨.call hl hargs, _, _, _, rfl⟩
  | dereference ha =>
    cases ht with
    | dereference hta => cases ha.target_declarable (forall_child hk (by simp [children])) hta
  | binary =>
    cases ht with
    | binary hj => cases hj.isScalar
  | int | float | bool | error | compare | not | addressOf | index => cases ht
  | _ => obtain h | h := hrole <;> cases h

theorem Scoped.gain_eq (h : Scoped role env n) (hrole : role = .value ∨ role = .address)
    (hk : n.Known types f) (ht : n.HasType f t) :
    n.gain types = if t.isVoid then 0 else 1 := by
  have hrecorded := hk.recorded t ht
  cases h with
  | int | float | bool | dereference | binary | compare | not | call | addressOf | index =>
    rw [gain, hrecorded]
    rfl
  | error => cases ht
  | _ => obtain h | h := hrole <;> cases h

theorem Scoped.add_pushed (h : Scoped role env n) (hrole : role = .value ∨ role = .address)
    (hk : ∀ m ∈ n.preorder, m.Known types f) (ht : n.HasType f t) (w : Word) :
    w + n.pushed = sunk w (n.gain types) := by
  rw [h.gain_eq hrole (hk n (mem_preorder_self n)) ht]
  by_cases hv : t = .void
  · subst hv
    obtain ⟨-, g, s, args, rfl⟩ := h.call_of_void hrole hk ht
    rw [pushed_of_void ht, BitVec.add_zero]
    exact (sunk_zero w).symm
  · rw [pushed_of_hasType ht hv, Ty.isVoid_eq_false hv]
    have hpush := sunk_push w 0
    rwa [sunk_zero] at hpush

theorem Scoped.stacks_gain (hr : p.Resolves) (h : Scoped role env n)
    (hrole : role = .value ∨ role = .address) (hk : ∀ m ∈ n.preorder, m.Known types f)
    (ht : n.HasType f t) (l a : Nat) : p.Stacks (n.code types F l) a (a + n.gain types) := by
  rw [h.gain_eq hrole (hk n (mem_preorder_self n)) ht]
  by_cases hv : t = .void
  · subst hv
    obtain ⟨hvalue, g, s, args, rfl⟩ := h.call_of_void hrole hk ht
    obtain ⟨params, hs, hts, hscalar⟩ := (hk _ (mem_preorder_self _)).call ht
    have hne : ∀ t ∈ params, t ≠ .void := by
      rintro _ hm rfl
      cases hscalar _ hm
    cases hvalue with
    | call _ hargs =>
      have hargs : p.Stacks (args.code types F l) a (a + args.children.length) :=
        hargs.stacks hr (forall_child hk (by simp [children])) params l a hts hne
      have hcall : p.Stacks (callCode s args.children.length) (a + args.children.length) a := by
        rw [callCode_eq hs]
        exact .cons rfl rfl ((stacks_releaseCode _).append .nil)
      rw [code]
      exact stacks_wrap (hargs.append hcall)
  · rw [Ty.isVoid_eq_false hv]
    obtain rfl | rfl := hrole
    · exact h.stacks hr hk t l a ht hv
    · exact h.stacks hr hk t l a ht hv

theorem keeps_rowCode {items : List Node}
    (h : ∀ n ∈ items, ∀ l, p.Keeps R stop (n.code types F l ++ n.dropCode types)) (l : Nat) :
    p.Keeps R stop (rowCode types F l items) := by
  induction items generalizing l with
  | nil => exact .of_stacks .nil
  | cons n items ih =>
    obtain ⟨hn, hitems⟩ := List.forall_mem_cons.mp h
    rw [rowCode, ← List.append_assoc]
    exact (hn l).append (ih hitems _)

/-- A statement never takes words that were on the stack before, unless it leaves the function. -/
theorem Scoped.keeps (hr : p.Resolves)
    (hstop : p.target (.epilogue (F.name?.getD mainName)) = some stop) (hout : ¬ R stop)
    (h : Scoped role env n) (hrole : role = .statement ∨ role = .block)
    (hk : ∀ m ∈ n.preorder, m.Known types f) (ht : n.HasTypes f) (l : Nat) :
    p.Keeps R stop (n.code types F l ++ n.dropCode types) := by
  induction h generalizing l with
  | «local» h hf =>
    cases h with
    | function => exact absurd rfl (hf _ _ _ _)
    | var | array => exact .of_stacks .nil
  | result h =>
    obtain ⟨t, ht⟩ := ht.hasType rfl
    have hrecorded := (hk _ (mem_preorder_self _)).recorded t ht
    have hcode := h.stacks_gain (F := F) hr (.inl rfl) hk ht l 0
    rw [h.gain_eq (.inl rfl) (hk _ (mem_preorder_self _)) ht] at hcode
    refine .of_stacks (hcode.append ?_)
    rw [dropCode, hrecorded]
    cases t with
    | void => exact .nil
    | _ => exact .popInt (by decide)
  | assign ha hb =>
    obtain ⟨t, ht⟩ := ht.hasType rfl
    cases ht with
    | assign hta hscalar htb =>
      have hne : t ≠ .void := by
        rintro rfl
        cases hscalar
      have ha := ha.stacks (F := F) hr (forall_child hk (by simp [children])) _ l 0 hta (by simp)
      have hb (l : Nat) := hb.stacks (F := F) hr (forall_child hk (by simp [children])) _ l 1 htb hne
      have hstore (x : Bool) : ∃ pops line, storeThrough x = pops ++ [line] ∧ p.Stacks pops 2 0 ∧
          line.shift? = some 0#32 := by
        cases x with
        | false =>
          exact ⟨_, _, rfl, .append (.popInt (by decide)) (.popInt (by decide)), rfl⟩
        | true =>
          exact ⟨_, _, rfl, .append (.popFloat (by decide)) (.popInt (by decide)), rfl⟩
      simp only [dropCode, List.append_nil]
      rw [code]
      obtain ⟨pops, line, e, hpops, hline⟩ := hstore (hasFloat types _)
      rw [e, ← List.append_assoc, ← List.append_assoc]
      refine keeps_wrap (.append (.of_stacks ?_) (.still hline))
      exact (ha.append (hb _)).append hpops
  | branch hc hy hz _ ihy ihz =>
    have hty := ihy (.inr rfl) (forall_child hk (by simp [children]))
      (ht.child (by simp [children]))
    have htz := ihz (.inr rfl) (forall_child hk (by simp [children]))
      (ht.child (by simp [children]))
    obtain ⟨t, ht⟩ := ht.hasType rfl
    cases ht with
    | branch htc _ _ =>
      have hc (l : Nat) := hc.stacks (F := F) hr (forall_child hk (by simp [children])) _ l 0 htc
        (by simp)
      simp only [dropCode, List.append_nil] at hty htz ⊢
      rw [code]
      exact keeps_wrap (keeps_branch hr (hc _) (hty _) (htz _))
  | loop hc hb _ ihb =>
    have htb := ihb (.inr rfl) (forall_child hk (by simp [children]))
      (ht.child (by simp [children]))
    obtain ⟨t, ht⟩ := ht.hasType rfl
    cases ht with
    | loop htc _ =>
      have hc (l : Nat) := hc.stacks (F := F) hr (forall_child hk (by simp [children])) _ l 0 htc
        (by simp)
      simp only [dropCode, List.append_nil] at htb ⊢
      rw [code]
      exact keeps_wrap (keeps_loop hr (hc _) (htb _))
  | leave =>
    simp only [dropCode, List.append_nil]
    rw [code]
    exact keeps_wrap fun w i P hl _ hq => .quit hl.line hstop hout hq
  | @leaveWith _ v g hv =>
    obtain ⟨t, ht⟩ := ht.hasType rfl
    cases ht with
    | leaveWith htv _ =>
      have hv := hv.stacks_gain (F := F) hr (.inl rfl) (forall_child hk (by simp [children])) htv l 0
      simp only [dropCode, List.append_nil]
      rw [code]
      exact keeps_wrap (keeps_leaveWith hv hstop hout)
  | block h ih =>
    simp only [dropCode, List.append_nil]
    rw [code]
    refine keeps_wrap (keeps_rowCode (fun m hm l => ?_) l)
    obtain ⟨before, rest, e⟩ := List.append_of_mem hm
    exact ih before m rest e (.inl rfl) (forall_child hk hm) (ht.child hm) l
  | _ => obtain h | h := hrole <;> cases h

theorem wrap_of_isMarked (h : isMarked n) (ls : List Line) :
    n.wrap ls = .mark .opening n.render :: (ls ++ [.mark .closing n.render]) :=
  if_pos h

theorem length_code {l : Nat} (h : isMarked n) (hcode : n.code types F l = n.wrap ls) (i : Nat) :
    i + (n.code types F l).length = i + 1 + ls.length + 1 := by
  rw [hcode, wrap_of_isMarked h]
  simp only [List.length_cons, List.length_append, List.length_nil]
  omega

theorem disciplined_of_crosses {l i k : Nat} {d : Word} (hm : isMarked n)
    (h : p.Has i (n.code types F l)) (hd : ∀ w, w + d = sunk w k)
    (hc : ∀ R, ∃ ls, n.code types F l = n.wrap ls ∧ p.Crosses R ls d)
    (hs : p.Stacks (n.code types F l) 0 k) :
    p.Disciplined i (i + (n.code types F l).length) k true := by
  obtain ⟨ls, hcode, hcross⟩ := hc fun k => i ≤ k ∧ k < i + (n.code types F l).length - 1
  have hlength := length_code (i := i) hm hcode
  have hlines := h
  rw [hcode, wrap_of_isMarked hm] at hlines
  rw [hlength, Nat.add_sub_cancel] at hcross
  refine .of_passes hlines hlength hd (hcross _ ⟨hlines.tail.left, fun k hk hlt => ⟨?_, hlt⟩⟩)
    fun w => ?_
  · omega
  · have hleads := hs.leads (fun k => i ≤ k ∧ k < i + (n.code types F l).length) w i h
    rw [sunk_zero] at hleads
    exact hleads.mono fun x hx => hx.within.mono (by omega)

theorem Scoped.disciplined_value (hr : p.Resolves) (h : Scoped role env n)
    (hrole : role = .value ∨ role = .address) (hk : ∀ m ∈ n.preorder, m.Known types f)
    (ht : n.HasTypes f) {l i : Nat} (hl : p.Has i (n.code types F l)) :
    p.Disciplined i (i + (n.code types F l).length) (n.gain types) n.completes := by
  have hmarked : Emit.isMarked n ∧ n.completes ∧ n.isList = false := by
    cases h with
    | int | float | bool | error | dereference | binary | compare | not | call | addressOf | index =>
      exact ⟨rfl, rfl, rfl⟩
    | _ => obtain h | h := hrole <;> cases h
  obtain ⟨t, ht⟩ := ht.hasType hmarked.2.2
  have hcross (R : Nat → Prop) :
      ∃ ls, n.code types F l = n.wrap ls ∧ p.Crosses R ls n.pushed := by
    obtain rfl | rfl := hrole
    · exact h.crosses hr hk t l ht
    · exact h.crosses hr hk t l ht
  have hstacks := h.stacks_gain (F := F) hr hrole hk ht l 0
  rw [Nat.zero_add] at hstacks
  rw [hmarked.2.1]
  exact disciplined_of_crosses hmarked.1 hl (h.add_pushed hrole hk ht) hcross hstacks

theorem completesAll_of_values {items : List Node} (h : ∀ x ∈ items, Scoped .value env x) :
    completesAll items := by
  induction items with
  | nil => rfl
  | cons x items ih =>
    obtain ⟨hx, hitems⟩ := List.forall_mem_cons.mp h
    have hcompletes : x.completes := by
      cases hx with
      | _ => rfl
    rw [completesAll, hcompletes, ih hitems]
    rfl

theorem Scoped.disciplined_arguments {g : Tag} {items : List Node} {params : List Ty}
    (hr : p.Resolves) (h : Scoped .arguments env (.list g .expressions items))
    (hk : ∀ m ∈ (list g .expressions items).preorder, m.Known types f)
    (hts : List.Forall₂ (HasType f) items params) (hscalar : ∀ t ∈ params, t.isScalar) {l i : Nat}
    (hl : p.Has i ((list g .expressions items).code types F l)) :
    p.Disciplined i (i + ((list g .expressions items).code types F l).length) items.length
      (completesAll items) := by
  have hne : ∀ t ∈ params, t ≠ .void := by
    rintro _ hm rfl
    cases hscalar _ hm
  have hstacks : p.Stacks _ 0 (0 + items.length) := h.stacks (F := F) hr hk params l 0 hts hne
  rw [Nat.zero_add] at hstacks
  cases h with
  | arguments hitems =>
    rw [completesAll_of_values hitems]
    exact disciplined_of_crosses rfl hl (sunk_pushedAll · items)
      (fun R => (Scoped.arguments hitems).crosses hr hk params l hts hscalar) hstacks

theorem Scoped.disciplined_statement (hr : p.Resolves)
    (hstop : p.target (.epilogue (F.name?.getD mainName)) = some stop) (h : Scoped role env n)
    (hrole : role = .statement ∨ role = .block) (hk : ∀ m ∈ n.preorder, m.Known types f)
    (ht : n.HasTypes f) (hcall : ∀ g s args, n ≠ .call g s args) {l i : Nat}
    (hl : p.Has i (n.code types F l))
    (hout : ¬ (i ≤ stop ∧ stop < i + (n.code types F l).length)) :
    p.Disciplined i (i + (n.code types F l).length) (n.gain types) n.completes := by
  have hgain : n.gain types = 0 := by
    cases h with
    | result => exact absurd rfl (hcall _ _ _)
    | «local» h =>
      cases h with
      | _ => rfl
    | assign | branch | loop | leave | leaveWith | block => rfl
    | _ => obtain h | h := hrole <;> cases h
  rw [hgain]
  by_cases hmarked : Emit.isMarked n
  · obtain ⟨ls, hcode, hdirects⟩ := (h.directs_lines
      (R := fun k => i ≤ k ∧ k < i + (n.code types F l).length - 1) hr hstop hrole hk ht l).2 hcall
    have hlength := length_code (i := i) hmarked hcode
    have hlines := hl
    rw [hcode, wrap_of_isMarked hmarked] at hlines
    rw [hlength, Nat.add_sub_cancel] at hdirects
    refine .of_flow hlines hlength hout
      (hdirects _ ⟨hlines.tail.left, fun k hk hlt => ⟨?_, hlt⟩⟩) fun w => ?_
    · omega
    · have hkeeps := h.keeps (R := fun k => i ≤ k ∧ k < i + (n.code types F l).length) hr hstop
        hout hrole hk ht l
      have hdrop : n.dropCode types = [] := by
        cases n with
        | call => exact absurd rfl (hcall _ _ _)
        | _ => rfl
      rw [hdrop, List.append_nil] at hkeeps
      exact hkeeps w i _ hl (fun x hx => .inl (hx.mono (by omega))) fun x hx => .inr hx
  · cases n with
    | var | array => exact .empty
    | _ => exact absurd rfl hmarked

theorem Scoped.disciplined (hr : p.Resolves)
    (hstop : p.target (.epilogue (F.name?.getD mainName)) = some stop) (h : Scoped role env n)
    (hbody : n.InBody) (hk : ∀ m ∈ n.preorder, m.Known types f) (ht : n.HasTypes f)
    (hargs : ∀ g items, n = .list g .expressions items →
      ∃ params, List.Forall₂ (HasType f) items params ∧ ∀ t ∈ params, t.isScalar)
    {l i : Nat} (hl : p.Has i (n.code types F l))
    (hout : ¬ (i ≤ stop ∧ stop < i + (n.code types F l).length)) :
    p.Disciplined i (i + (n.code types F l).length) (n.gain types) n.completes := by
  have hstatement {role : Role} (h : Scoped role env n)
      (hrole : role = .statement ∨ role = .block) (hcall : ∀ g s args, n ≠ .call g s args) :=
    h.disciplined_statement hr hstop hrole hk ht hcall hl hout
  cases role with
  | value => exact h.disciplined_value hr (.inl rfl) hk ht hl
  | address => exact h.disciplined_value hr (.inr rfl) hk ht hl
  | arguments =>
    cases h with
    | arguments hitems =>
      obtain ⟨params, hts, hscalar⟩ := hargs _ _ rfl
      exact (Scoped.arguments hitems).disciplined_arguments hr hk hts hscalar hl
  | statement =>
    by_cases hcall : ∃ g s args, n = .call g s args
    · obtain ⟨g, s, args, rfl⟩ := hcall
      cases h with
      | result hv => exact hv.disciplined_value hr (.inl rfl) hk ht hl
      | «local» h => cases h
    · exact hstatement h (.inl rfl) fun g s args e => hcall ⟨g, s, args, e⟩
  | block =>
    refine hstatement h (.inr rfl) ?_
    rintro g s args rfl
    cases h
  | declaration =>
    refine hstatement (.local h ?_) (.inl rfl) ?_
    · rintro g s params body rfl
      exact hbody
    · rintro g s args rfl
      cases h
  | program =>
    cases h with
    | program => exact hbody.elim

theorem label_epilogue_not_mem (types : Nat → Option Ty) (F : Frame) (n : Node) (l : Nat)
    (name : String) : .label (.epilogue name) ∉ n.code types F l := by
  intro hm
  have hnone := List.filterMap_eq_nil_iff.mp (heads_code types F n l) _ hm
  cases hnone

theorem stop_outside {name : String} {rest : List Line} {l i : Nat}
    (hl : p.Has i (n.code types F l)) (hs : p.Has stop (.label (.epilogue name) :: rest)) :
    ¬ (i ≤ stop ∧ stop < i + (n.code types F l).length) := by
  rintro ⟨hle, hlt⟩
  obtain ⟨before, after, hp, rfl⟩ := hl
  have hline := hs.line
  rw [hp, List.append_assoc, List.getElem?_append_right hle,
    List.getElem?_append_left (by omega)] at hline
  exact label_epilogue_not_mem types F n l name (List.mem_of_getElem? hline)

theorem exists_parent {m : Node} (h : m ∈ n.preorder) :
    m = n ∨ ∃ k ∈ n.preorder, m ∈ k.children := by
  induction n using children_induction with
  | step n ih =>
    obtain rfl | ⟨c, hc, hm⟩ := mem_preorder.mp h
    · exact .inl rfl
    · obtain rfl | ⟨k, hk, hm⟩ := ih c hc hm
      · exact .inr ⟨n, mem_preorder_self n, hc⟩
      · exact .inr ⟨k, mem_preorder.mpr (.inr ⟨c, hc, hk⟩), hm⟩

theorem Scoped.parent_of_arguments {k : Node} {g : Tag} {items : List Node} (h : Scoped role env k)
    (ht : k.HasTypes f) (hc : .list g .expressions items ∈ k.children) :
    ∃ g' s, k = .call g' s (.list g .expressions items) := by
  have hrole : ∀ role env, Scoped role env (.list g .expressions items) →
      role = .value ∨ role = .address ∨ role = .arguments := by
    intro role env hs
    cases hs with
    | arguments => exact .inr (.inr rfl)
    | «local» hs => cases hs
  have htype : ∀ t, HasType f (.list g .expressions items) t →
      t = .func [] .void ∨ t = .address (.func [] .void) := by
    intro t ht
    cases ht
  obtain ⟨g', rfl⟩ | ⟨g', rfl⟩ | ⟨g', s, rfl⟩ | ⟨g', items', rfl⟩ := ht.parent h hc htype hrole
  · cases h with
    | dereference ha => cases ha
    | «local» h => cases h
  · cases h with
    | leaveWith hv => cases hv
    | «local» h => cases h
  · exact ⟨g', s, rfl⟩
  · cases h with
    | arguments hitems => cases hitems _ hc
    | «local» h => cases h

section Programs

variable {root body m : Node} {g : Tag} {f : Symbol} {params : List Symbol} {program : Program}

theorem Translated.disciplined (h : root.Translated types program)
    (hf : .function g f params body ∈ root.children) (hm : m ∈ body.preorder)
    (storage : Label → Word) {l i : Nat}
    (hl : (program.image storage).Has i
      (m.code types (Node.function g f params body).frame l)) :
    (program.image storage).Disciplined i
      (i + (m.code types (Node.function g f params body).frame l).length) (m.gain types)
      m.completes := by
  obtain ⟨ps, result, g', items, hty, hlist, hbody⟩ := h.typed.function_body hf
  obtain ⟨role, env, hs⟩ := h.accepted.fits.part _ (mem_preorder_of_body hf hm)
  obtain ⟨start, stop, hfun, -⟩ := h.flow hf storage
  have hknown := h.known hf hty
  refine hs.disciplined (Program.resolves h.code storage)
    (by rw [frame_name]; exact hfun.last.1) (h.accepted.parts hf m hm).1
    (fun k hk => hknown k (mem_preorder_trans hk hm)) (hbody.part m hm) (fun g₁ args e => ?_) hl
    (stop_outside hl hfun.last.2)
  -- A list of arguments has the types of the parameters of the call above it.
  subst e
  obtain e | ⟨k, hk, hc⟩ := exists_parent hm
  · cases e.trans hlist
  · obtain ⟨role, env', hsk⟩ := h.accepted.fits.part _ (mem_preorder_of_body hf hk)
    obtain ⟨g₂, s, rfl⟩ := hsk.parent_of_arguments (hbody.part k hk) hc
    obtain ⟨t, ht⟩ := (hbody.part _ hk).hasType rfl
    obtain ⟨params, -, hts, hscalar⟩ := (hknown _ hk).call ht
    exact ⟨params, hts, hscalar⟩

end Programs

end Node

/-- In a text that is read and checked without a report, every part of a function keeps to the
discipline of the operand stack. The code of a value pushes one word, unless its recorded type is
void, a list of arguments pushes one word for each, and a statement leaves the stack as it was. On
the way no code takes a word that it has not pushed itself. -/
theorem compile_disciplined {source : String} {root : Node} {c : Checker}
    (hread : readProgram source = .ok root) (hcheck : checkProgram root = .ok c) :
    ∃ program, compile source = .ok program ∧
      ∀ g f params body, .function g f params body ∈ root.children → ∀ m ∈ body.preorder,
      ∀ storage,
        let p := program.image storage
        let F := (Node.function g f params body).frame
        (∃ l first, p.Has first (m.code (c.types[·]?) F l)) ∧
        ∀ l first, p.Has first (m.code (c.types[·]?) F l) →
          p.Disciplined first (first + (m.code (c.types[·]?) F l).length) (m.gain (c.types[·]?))
            m.completes := by
  obtain ⟨program, hc, h⟩ := compile_translated hread hcheck
  refine ⟨program, hc, fun g f params body hf m hm storage => ⟨?_, fun l first hl => ?_⟩⟩
  · obtain ⟨l, hin⟩ := Node.infix_programCode (c.types[·]?) hf hm
      fun k hk => (h.accepted.parts hf k hk).1
    rw [← h.code] at hin
    obtain ⟨first, hlines⟩ := Program.has_of_infix hin storage
    exact ⟨l, first, hlines⟩
  · exact h.disciplined hf hm storage hl

theorem compile_disciplined_search :
    ∃ root c program, readProgram searchText = .ok root ∧ checkProgram root = .ok c ∧
      compile searchText = .ok program ∧
      ∃ g f params body, .function g f params body ∈ root.children ∧ f.name = "f" ∧
        (body.preorder.any fun | .loop .. => true | _ => false) ∧
        ∀ m ∈ body.preorder, ∀ storage, ∃ first size,
          (program.image storage).Disciplined first (first + size) (m.gain (c.types[·]?))
            m.completes := by
  have hquiet : Faultless searchText ∧ (Parser.ofString searchText).parse.1.children.any fun n =>
      n.function?.any fun x => x.1.name == "f" &&
        x.2.preorder.any fun | .loop .. => true | _ => false := by
    decide +kernel
  obtain ⟨hread, hcheck⟩ := hquiet.1.checked
  obtain ⟨program, hc, h⟩ := compile_disciplined hread hcheck
  obtain ⟨g, f, params, body, hf, hany⟩ := Node.exists_function_of_any hquiet.2
  obtain ⟨hname, hloop⟩ := Bool.and_eq_true_iff.mp hany
  refine ⟨_, _, program, hread, hcheck, hc, g, f, params, body, hf, eq_of_beq hname, hloop,
    fun m hm storage => ?_⟩
  obtain ⟨⟨l, first, hlines⟩, hall⟩ := h g f params body hf m hm storage
  exact ⟨first, _, hall l first hlines⟩

end Crux
