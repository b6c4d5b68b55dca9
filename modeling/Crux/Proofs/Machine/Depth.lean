import Crux.Proofs.Machine.Effects

/-! The operand stack inside the code of values, counted in words. Until the value is there, control
never takes a word from below the place where the code has started, and all that it stores goes on
top of the stack. -/

namespace Crux

open Instr Asm Emit

def sunk (w : Word) (n : Nat) : Word := w - .ofNat 32 (n * Ty.wordSize)

theorem sunk_zero (w : Word) : sunk w 0 = w := by simp [sunk]

theorem sunk_push (w : Word) (a : Nat) : sunk w a + -4#32 = sunk w (a + 1) := by
  unfold sunk Ty.wordSize
  bv_omega

theorem sunk_pop (w : Word) (a : Nat) : sunk w (a + 1) + 4#32 = sunk w a := by
  unfold sunk Ty.wordSize
  bv_omega

theorem sunk_release (w : Word) (a n : Nat) :
    sunk w (a + n) + .ofNat 32 (n * Ty.wordSize) = sunk w a := by
  unfold sunk Ty.wordSize
  bv_omega

namespace Line

def stores : Line → Bool
  | .instr (.store ..) _ | .instr (.storeFloat ..) _ => true
  | _ => false

def tops : Line → Bool
  | .instr (.store _ offset base) _ | .instr (.storeFloat _ offset base) _ =>
    offset = 0 && base = .sp
  | _ => false

theorem stores_of_goal {instr : Instr} {spacing : Spacing} {l : Label} (h : instr.goal? = some l) :
    (Line.instr instr spacing).stores = false := by
  cases instr with
  | store | storeFloat => cases h
  | _ => rfl

end Line

namespace Image

/-- The stack has grown from `w` by `cap` words at most, and if the line stores a word then it is
the top one. -/
def OnTop (p : Image) (w : Word) (cap : Nat) (e : Nat × Word) : Prop :=
  ∃ n ≤ cap, e.2 = sunk w n ∧
    ∀ line, p.code[e.1]? = some line → line.stores → line.tops ∧ 1 ≤ n

inductive Trace (p : Image) (R : Nat → Prop) : Nat → Word → List (Nat × Word) → Nat × Word → Prop
  | stay : Trace p R i w [] (i, w)
  | move : R i → p.Moves i w j w' → Trace p R j w' s e → Trace p R i w ((i, w) :: s) e

/-- Every trace from the one place goes on from the other, unless it ends before. What it has come
past by then has the property. -/
structure Leads (p : Image) (R : Nat → Prop) (P : Nat × Word → Prop) (i : Nat) (u : Word) (j : Nat)
    (v : Word) : Prop where
  on : ∀ {s e}, p.Trace R i u s e → (∀ x ∈ e :: s, P x) ∨
    ∃ s₁ s₂, s = s₁ ++ s₂ ∧ (∀ x ∈ s₁, P x) ∧ p.Trace R j v s₂ e

/-- Wherever the lines stand, control that starts with `a` words on the stack gets to their end with
`b`. No line adds more than one word. -/
structure Stacks (p : Image) (ls : List Line) (a b : Nat) : Prop where
  le : b ≤ a + ls.length
  leads : ∀ R w i, p.Has i ls →
    p.Leads R (p.OnTop w (a + ls.length)) i (sunk w a) (i + ls.length) (sunk w b)

variable {p : Image} {R : Nat → Prop} {P Q : Nat × Word → Prop} {u v w x : Word}
  {cap cap' i j k a b c : Nat} {line : Line} {ls ls' : List Line} {l : Label}

theorem OnTop.mono {e : Nat × Word} (h : p.OnTop w cap e) (hcap : cap ≤ cap') :
    p.OnTop w cap' e := by
  obtain ⟨n, hn, h⟩ := h
  exact ⟨n, Nat.le_trans hn hcap, h⟩

theorem OnTop.of_line (hl : p.code[i]? = some line) (hcap : a ≤ cap)
    (h : line.stores → line.tops ∧ 1 ≤ a) : p.OnTop w cap (i, sunk w a) := by
  refine ⟨a, hcap, rfl, fun line' hl' => ?_⟩
  cases hl.symm.trans hl'
  exact h

theorem Path.trace {n : Nat} {e : Nat × Word} (h : p.Path R n i w e) : ∃ s, p.Trace R i w s e := by
  induction h with
  | stay => exact ⟨[], .stay⟩
  | move hi hm _ ih =>
    obtain ⟨s, hs⟩ := ih
    exact ⟨_, .move hi hm hs⟩

namespace Leads

theorem refl : p.Leads R P i u i u := ⟨fun {s _} h => .inr ⟨[], s, rfl, List.forall_mem_nil _, h⟩⟩

theorem mono (h : p.Leads R P i u j v) (hP : ∀ x, P x → Q x) : p.Leads R Q i u j v := by
  constructor
  intro s e ht
  obtain h | ⟨s₁, s₂, rfl, h₁, h₂⟩ := h.on ht
  · exact .inl fun x hx => hP x (h x hx)
  · exact .inr ⟨s₁, s₂, rfl, fun x hx => hP x (h₁ x hx), h₂⟩

theorem of_append {s₁ s₂ : List (Nat × Word)} {e : Nat × Word} (h₁ : ∀ x ∈ s₁, P x)
    (h : (∀ x ∈ e :: s₂, P x) ∨
      ∃ t₁ t₂, s₂ = t₁ ++ t₂ ∧ (∀ x ∈ t₁, P x) ∧ p.Trace R j v t₂ e) :
    (∀ x ∈ e :: (s₁ ++ s₂), P x) ∨
      ∃ t₁ t₂, s₁ ++ s₂ = t₁ ++ t₂ ∧ (∀ x ∈ t₁, P x) ∧ p.Trace R j v t₂ e := by
  obtain h | ⟨t₁, t₂, rfl, ht₁, ht₂⟩ := h
  · obtain ⟨he, h₂⟩ := List.forall_mem_cons.mp h
    exact .inl (List.forall_mem_cons.mpr ⟨he, List.forall_mem_append.mpr ⟨h₁, h₂⟩⟩)
  · exact .inr ⟨s₁ ++ t₁, t₂, (List.append_assoc ..).symm, List.forall_mem_append.mpr ⟨h₁, ht₁⟩, ht₂⟩

theorem trans (h : p.Leads R P i u j v) (h' : p.Leads R P j v k x) : p.Leads R P i u k x := by
  constructor
  intro s e ht
  obtain h | ⟨s₁, s₂, rfl, h₁, h₂⟩ := h.on ht
  · exact .inl h
  · exact of_append h₁ (h'.on h₂)

theorem of_moves (hP : P (i, u))
    (h : ∀ {k x}, p.Moves i u k x → p.Leads R P k x j v) : p.Leads R P i u j v := by
  have hfirst : ∀ y ∈ [(i, u)], P y := List.forall_mem_singleton.mpr hP
  constructor
  intro s e ht
  cases ht with
  | stay => exact .inl hfirst
  | move _ hm ht => exact of_append hfirst ((h hm).on ht)

theorem next {d : Word} (hl : p.code[i]? = some line) (hs : line.shift? = some d)
    (hd : u + d = v) (hP : P (i, u)) : p.Leads R P i u (i + 1) v := by
  refine of_moves hP fun hm => ?_
  obtain ⟨rfl, rfl⟩ := hm.of_shift hl hs
  exact hd ▸ refl

theorem still (hl : p.code[i]? = some line) (hs : line.shift? = some 0#32) (hP : P (i, u)) :
    p.Leads R P i u (i + 1) u :=
  next hl hs (BitVec.add_zero u) hP

theorem jump {spacing : Spacing} (hl : p.code[i]? = some (.instr (.jump l) spacing))
    (ht : p.target l = some j) (hP : P (i, u)) : p.Leads R P i u j u := by
  refine of_moves hP fun hm => ?_
  cases hm with
  | next hl' hlets =>
    cases hl.symm.trans hl'
    cases hlets.1
  | goes hl' hg ht' =>
    cases hl.symm.trans hl'
    cases hg
    cases ht.symm.trans ht'
    exact refl

theorem fork {instr : Instr} {spacing : Spacing} (hl : p.code[i]? = some (.instr instr spacing))
    (hs : instr.shift? = some 0#32) (hg : instr.goal? = some l) (ht : p.target l = some j)
    (hP : P (i, u)) (hn : p.Leads R P (i + 1) u k v) (hy : p.Leads R P j u k v) :
    p.Leads R P i u k v := by
  refine of_moves hP fun hm => ?_
  cases hm with
  | next hl' hlets =>
    cases hl.symm.trans hl'
    rwa [hlets.2 0#32 hs, BitVec.add_zero]
  | goes hl' hg' ht' =>
    cases hl.symm.trans hl'
    cases hg.symm.trans hg'
    cases ht.symm.trans ht'
    exact hy

end Leads

namespace Stacks

theorem nil : p.Stacks [] a a := ⟨Nat.le_refl _, fun _ _ _ _ => .refl⟩

theorem append (h : p.Stacks ls a b) (h' : p.Stacks ls' b c) : p.Stacks (ls ++ ls') a c := by
  have hb := h.le
  have hc := h'.le
  have hlength : (ls ++ ls').length = ls.length + ls'.length := List.length_append
  refine ⟨by omega, fun R w i hl => ?_⟩
  rw [hlength, ← Nat.add_assoc i]
  exact .trans ((h.leads R w i hl.left).mono fun x hx => hx.mono (by omega))
    ((h'.leads R w _ hl.right).mono fun x hx => hx.mono (by omega))

theorem single {d : Word} (hs : line.shift? = some d) (hd : ∀ w, sunk w a + d = sunk w b)
    (hb : b ≤ a + 1) (ht : line.stores → line.tops ∧ 1 ≤ a) : p.Stacks [line] a b :=
  ⟨hb, fun _ w _ hl => .next hl.line hs (hd w) (.of_line hl.line (Nat.le_add_right a 1) ht)⟩

theorem still (hs : line.shift? = some 0#32) (ht : line.stores = false) : p.Stacks [line] a a :=
  single hs (fun _ => BitVec.add_zero _) (Nat.le_add_right a 1)
    fun h => Bool.noConfusion (ht.symm.trans h)

theorem cons (hs : line.shift? = some 0#32) (ht : line.stores = false) (h : p.Stacks ls a b) :
    p.Stacks (line :: ls) a b :=
  (still hs ht).append h

theorem push (hs : line.shift? = some 0#32) (ht : line.tops) :
    p.Stacks [.plain (.subu .sp .sp 4), line] a (a + 1) := by
  have hsink : p.Stacks [.plain (.subu .sp .sp 4)] a (a + 1) :=
    single rfl (sunk_push · a) (Nat.le_refl _) Bool.noConfusion
  exact hsink.append (single hs (fun _ => BitVec.add_zero _) (by omega)
    fun _ => ⟨ht, Nat.le_add_left 1 a⟩)

theorem pushInt (r : Reg) : p.Stacks (pushInt r) a (a + 1) := push rfl rfl

theorem pushFloat (r : Reg) : p.Stacks (pushFloat r) a (a + 1) := push rfl rfl

theorem pop (hs : line.shift? = some 0#32) (ht : line.stores = false) :
    p.Stacks [line, .plain (.addi .sp .sp 4)] (a + 1) a :=
  .cons hs ht (single rfl (sunk_pop · a) (by omega) Bool.noConfusion)

theorem popInt {r : Reg} (h : r ≠ .sp) : p.Stacks (popInt r) (a + 1) a :=
  pop (by simp [Line.plain, Line.shift?, isJump, goal?, shift?, target?, h]) rfl

theorem popFloat {r : Reg} (h : r ≠ .sp) : p.Stacks (popFloat r) (a + 1) a :=
  pop (by simp [Line.plain, Line.shift?, isJump, goal?, shift?, target?, h]) rfl

end Stacks

end Image

namespace Node

variable {p : Image} {types : Nat → Option Ty} {F : Frame} {f : Enclosing} {role : Role}
  {env : Env} {n : Node} {a b : Nat} {ls : List Line}

theorem stacks_wrap (h : p.Stacks ls a b) : p.Stacks (n.wrap ls) a b := by
  unfold wrap
  split
  · exact .cons rfl rfl (h.append (.still rfl rfl))
  · exact h

theorem stacks_loadThrough (x : Bool) : p.Stacks (loadThrough x) a (a + 1) := by
  cases x with
  | false => exact .cons rfl rfl (.pushInt _)
  | true => exact .cons rfl rfl (.pushFloat _)

theorem stacks_indexCode (bytes : Nat) : p.Stacks (indexCode bytes) (a + 2) (a + 1) :=
  .append (.append (.append (.popInt (by decide)) (.popInt (by decide)))
    (.cons rfl rfl (.cons rfl rfl (.still rfl rfl)))) (.pushInt _)

theorem stacks_operatorCode (x : Bool) (op : BinaryOp) (hx : x → op.floatForm?.isSome) :
    p.Stacks (operatorCode x op) (a + 2) (a + 1) := by
  have hfloat (op : FloatOp) : p.Stacks (binaryFloatCode op) (a + 2) (a + 1) :=
    .append (.append (.append (.popFloat (by decide)) (.popFloat (by decide))) (.still rfl rfl))
      (.pushFloat _)
  cases x with
  | false =>
    exact .append (.append (.append (.popInt (by decide)) (.popInt (by decide))) (.still rfl rfl))
      (.pushInt _)
  | true =>
    cases op with
    | and | or => cases hx rfl
    | add | sub | mul | div => exact hfloat _

theorem branchWhen_stacks (op : CompareOp) (x : Bool) (l : Label) :
    ∃ ls instr, branchWhen op x l = ls ++ [.plain instr] ∧ p.Stacks ls (a + 2) a ∧
      instr.shift? = some 0#32 ∧ instr.goal? = some l := by
  cases x with
  | false =>
    exact ⟨popInt .t1 ++ popInt .t0, _, rfl, .append (.popInt (by decide)) (.popInt (by decide)),
      rfl, rfl⟩
  | true =>
    have htest : p.Stacks [.plain (floatTest op)] a a := by
      cases op <;> exact .still rfl rfl
    refine ⟨popFloat .f1 ++ popFloat .f0 ++ [.plain (floatTest op)], .branchFlag (op ≠ .ne) l,
      ?_, .append (.append (.popFloat (by decide)) (.popFloat (by decide))) htest, rfl, rfl⟩
    simp [branchWhen]

theorem stacks_compareCode (hr : p.Resolves) (op : CompareOp) (x : Bool) (y z v : Nat) :
    p.Stacks (compareCode op x (.fresh y) (.fresh z) (.fresh v)) (a + 2) (a + 1) := by
  obtain ⟨ls, instr, hwhen, hs, hshift, hgoal⟩ :=
    branchWhen_stacks (p := p) (a := a) op x (.fresh y)
  have hlength : (compareCode op x (.fresh y) (.fresh z) (.fresh v)).length = ls.length + 10 := by
    rw [compareCode, hwhen]
    simp [pushInt]
  refine ⟨by omega, fun R w i h => ?_⟩
  rw [hlength]
  rw [compareCode, hwhen, List.append_assoc, List.append_assoc] at h
  have h₀ := h.right
  have h₁ : p.Has _ (.plain (.jump (.fresh z)) :: _) := h₀.tail
  have h₂ : p.Has _ (.label (.fresh y) :: _) := h₁.tail
  have h₃ : p.Has _ (.plain (.li .t0 1) :: _) := h₂.tail
  have h₄ : p.Has _ (.plain (.jump (.fresh v)) :: _) := h₃.tail
  have h₅ : p.Has _ (.label (.fresh z) :: _) := h₄.tail
  have h₆ : p.Has _ (.plain (.li .t0 0) :: _) := h₅.tail
  have h₇ : p.Has _ (.label (.fresh v) :: pushInt .t0) := h₆.tail
  have htop {i : Nat} {line : Line} (hl : p.code[i]? = some line) (hn : line.stores = false) :
      p.OnTop w (a + 2 + (ls.length + 10)) (i, sunk w a) :=
    .of_line hl (by omega) fun hs => Bool.noConfusion (hn.symm.trans hs)
  -- Both ways meet at the last label.
  have hend : p.Leads R (p.OnTop w (a + 2 + (ls.length + 10))) _ (sunk w a) _ (sunk w (a + 1)) :=
    ((Image.Stacks.cons rfl rfl (.pushInt .t0)).leads R w _ h₇).mono fun x hx =>
      hx.mono (by simp [pushInt]; omega)
  have hyes := ((Image.Leads.still h₂.line rfl (htop h₂.line rfl)).trans
    (.still h₃.line rfl (htop h₃.line rfl))).trans
      ((Image.Leads.jump h₄.line (hr v _ h₇.line) (htop h₄.line rfl)).trans hend)
  have hno := (Image.Leads.jump h₁.line (hr z _ h₅.line) (htop h₁.line rfl)).trans
    ((Image.Leads.still h₅.line rfl (htop h₅.line rfl)).trans
      ((Image.Leads.still h₆.line rfl (htop h₆.line rfl)).trans hend))
  exact ((hs.leads R w i h.left).mono fun x hx => hx.mono (by omega)).trans
    (.fork h₀.line hshift hgoal (hr y _ h₂.line) (htop h₀.line (Line.stores_of_goal hgoal)) hno hyes)

theorem stacks_releaseCode (count : Nat) : p.Stacks (releaseCode count) (a + count) a := by
  unfold releaseCode
  split
  · rename_i hz
    rw [hz]
    exact .nil
  · refine .single rfl (fun w => ?_) (by omega) Bool.noConfusion
    rw [BitVec.ofInt_natCast]
    exact sunk_release w a count

theorem stacks_callCode (s : Symbol) (count : Nat) {params : List Ty} {result : Ty}
    (h : s.type? = some (.func params result)) (hne : result ≠ .void) :
    p.Stacks (callCode s count) (a + count) (a + 1) := by
  rw [callCode_eq h, Ty.isVoid_eq_false hne]
  exact .cons rfl rfl ((stacks_releaseCode count).append (.pushInt _))

theorem stacks_codeAll {items : List Node} {ts : List Ty} (h : List.Forall₂ (HasType f) items ts)
    (hts : ∀ t ∈ ts, t ≠ .void)
    (hc : ∀ n ∈ items, ∀ t l a, n.HasType f t → t ≠ .void →
      p.Stacks (n.code types F l) a (a + 1)) (l a : Nat) :
    p.Stacks (codeAll types F l items) a (a + items.length) := by
  induction h generalizing l a with
  | nil => exact .nil
  | @cons n t items ts ht _ ih =>
    obtain ⟨hne, hrest⟩ := List.forall_mem_cons.mp hts
    obtain ⟨hn, hitems⟩ := List.forall_mem_cons.mp hc
    have h := (hn t l a ht hne).append (ih hrest hitems (l + n.labelCount) (a + 1))
    rwa [Nat.add_assoc, Nat.add_comm 1] at h

end Node

def Role.Stacks (p : Image) (types : Nat → Option Ty) (F : Frame) (f : Enclosing) :
    Role → Node → Prop
  | .value, n | .address, n =>
    ∀ t l a, n.HasType f t → t ≠ .void → p.Stacks (n.code types F l) a (a + 1)
  | .arguments, n => ∀ ts l a, List.Forall₂ (Node.HasType f) n.children ts → (∀ t ∈ ts, t ≠ .void) →
      p.Stacks (n.code types F l) a (a + n.children.length)
  | _, _ => True

namespace Node

variable {p : Image} {types : Nat → Option Ty} {F : Frame} {f : Enclosing} {role : Role}
  {env : Env} {n : Node}

/-- Until a value is there, its code never takes words that it has not pushed itself. -/
theorem Scoped.stacks (hr : p.Resolves) (h : Scoped role env n)
    (hk : ∀ m ∈ n.preorder, m.Known types f) : role.Stacks p types F f n := by
  induction h with
  | int | bool =>
    intro t l a _ _
    rw [code]
    exact stacks_wrap (.cons rfl rfl (.pushInt _))
  | float =>
    intro t l a _ _
    rw [code]
    exact stacks_wrap (.cons rfl rfl (.pushFloat _))
  | @addressOf s =>
    intro t l a _ _
    have hstores : (Line.plain (F.address .t1 s)).stores = false := by
      obtain ⟨o, e⟩ | e := F.address_cases .t1 s <;> rw [e] <;> rfl
    rw [code]
    exact stacks_wrap (.cons (shift_address F s) hstores (.pushInt _))
  | dereference _ ih =>
    intro t l a ht _
    cases ht with
    | dereference ha =>
      rw [code]
      have ha := ih (forall_child hk (by simp [children])) _ l a ha (by simp)
      exact stacks_wrap (ha.append (.append (.popInt (by decide)) (stacks_loadThrough _)))
  | index _ _ iha ihb =>
    intro t l a ht _
    cases ht with
    | index ha hb =>
      rw [code]
      have ha := iha (forall_child hk (by simp [children])) _ l a ha (by simp)
      have hb (k : Nat) := ihb (forall_child hk (by simp [children])) _ k (a + 1) hb (by simp)
      exact stacks_wrap (ha.append ((hb _).append (stacks_indexCode _)))
  | @binary _ l r g op _ _ iha ihb =>
    intro t labels a ht hne
    have hfloat := (hk _ (mem_preorder_self _)).floatForm ht
    cases ht with
    | binary hj ha hb =>
      rw [code]
      have ha := iha (forall_child hk (by simp [children])) _ labels a ha hne
      have hb (k : Nat) := ihb (forall_child hk (by simp [children])) _ k (a + 1) hb hne
      exact stacks_wrap (ha.append ((hb _).append (stacks_operatorCode _ op hfloat)))
  | compare _ _ iha ihb =>
    intro t l a ht hvoid
    cases ht with
    | compare hnum ha hb =>
      rename_i u
      have hne : u ≠ .void := by
        rintro rfl
        simp at hnum
      rw [code]
      have ha := iha (forall_child hk (by simp [children])) _ l a ha hne
      have hb (k : Nat) := ihb (forall_child hk (by simp [children])) _ k (a + 1) hb hne
      exact stacks_wrap (ha.append ((hb _).append (stacks_compareCode hr _ _ _ _ _)))
  | not _ ih =>
    intro t l a ht _
    cases ht with
    | not ha =>
      rw [code]
      have ha := ih (forall_child hk (by simp [children])) _ l a ha (by simp)
      exact stacks_wrap (ha.append (.append (.popInt (by decide)) (.cons rfl rfl (.pushInt _))))
  | @call s env args g _ _ ih =>
    intro t l a ht hne
    obtain ⟨params, hs, hargs, hscalar⟩ := (hk _ (mem_preorder_self _)).call ht
    have hnone : ∀ t ∈ params, t ≠ .void := by
      rintro _ hm rfl
      cases hscalar _ hm
    have ha := ih (forall_child hk (by simp [children])) params l a hargs hnone
    rw [code]
    exact stacks_wrap (ha.append (stacks_callCode s _ hs hne))
  | arguments _ ih =>
    intro ts l a hts hne
    rw [code]
    exact stacks_wrap (stacks_codeAll hts hne (fun m hm => ih m hm (forall_child hk hm)) l a)
  | error =>
    intro t l a ht
    cases ht
  | _ => trivial

end Node

end Crux
