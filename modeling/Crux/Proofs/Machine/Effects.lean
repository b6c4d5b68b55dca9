import Crux.Proofs.Emit.Code
import Crux.Proofs.Machine.Paths
import Crux.Proofs.Typing.Functions

namespace Crux

open Instr Asm Emit

def Emit.releaseCode (count : Nat) : List Line :=
  if count = 0 then [] else [.plain (.addi .sp .sp (count * Ty.wordSize : Nat))]

theorem callCode_eq {s : Symbol} {params : List Ty} {result : Ty}
    (h : s.type? = some (.func params result)) (count : Nat) :
    callCode s count = .plain (.jumpLink (.function s.name)) ::
      (releaseCode count ++ if result.isVoid then [] else pushInt .v0) := by
  rw [callCode, Symbol.ty_eq h, releaseCode]
  cases result with
  | _ => rfl

theorem Ty.isVoid_eq_false {t : Ty} (h : t ≠ .void) : t.isVoid = false := by
  cases t with
  | void => exact absurd rfl h
  | _ => rfl

theorem BinaryOp.Joins.floatForm {op : BinaryOp} (h : op.Joins .float) :
    op.floatForm?.isSome := by
  cases op with
  | and | or => cases h
  | _ => rfl

namespace Node

def givesNothing : Node → Bool
  | .call _ s _ =>
    match s.ty with
    | .func _ .void => true
    | _ => false
  | _ => false

def pushed (n : Node) : Word := if n.givesNothing then 0#32 else -4#32

def pushedAll (items : List Node) : Word := -.ofNat 32 (items.length * Ty.wordSize)

variable {p : Image} {R : Nat → Prop} {types : Nat → Option Ty} {F : Frame} {f : Enclosing}
  {role : Role} {env : Env} {n : Node} {t : Ty} {d : Word} {ls : List Line}

theorem pushed_of_hasType (h : n.HasType f t) (ht : t ≠ .void) : n.pushed = -4#32 := by
  cases h with
  | call hs =>
    rw [pushed, givesNothing, Symbol.ty_eq hs]
    cases t with
    | void => exact absurd rfl ht
    | _ => rfl
  | _ => rfl

theorem pushed_of_void {g : Tag} {s : Symbol} {args : Node}
    (h : HasType f (.call g s args) .void) : (call g s args).pushed = 0#32 := by
  cases h with
  | call hs =>
    rw [pushed, givesNothing, Symbol.ty_eq hs]
    rfl

theorem crosses_wrap (h : p.Crosses R ls d) : p.Crosses R (n.wrap ls) d := by
  unfold wrap
  split
  · have hmark (edge : Edge) : p.Crosses R [.mark edge n.render] 0#32 := .straight rfl
    have h := (hmark .opening).append (h.append (hmark .closing))
    rwa [BitVec.add_zero, BitVec.zero_add] at h
  · exact h

theorem crosses_code {l : Nat} (h : ∃ ls, n.code types F l = n.wrap ls ∧ p.Crosses R ls d) :
    p.Crosses R (n.code types F l) d := by
  obtain ⟨ls, e, h⟩ := h
  exact e ▸ crosses_wrap h

theorem crosses_push (ht : n.HasType f t) (hne : t ≠ .void)
    (h : ∀ t l, n.HasType f t → ∃ ls, n.code types F l = n.wrap ls ∧ p.Crosses R ls n.pushed)
    (l : Nat) : p.Crosses R (n.code types F l) (-4#32) :=
  pushed_of_hasType ht hne ▸ crosses_code (h t l ht)

theorem crosses_operatorCode (x : Bool) (op : BinaryOp) (hx : x → op.floatForm?.isSome) :
    p.Crosses R (operatorCode x op) 4#32 := by
  refine .straight ?_
  cases x with
  | false => rfl
  | true =>
    cases op with
    | and | or => cases hx rfl
    | _ => rfl

theorem shift_address (F : Frame) (s : Symbol) :
    (Line.plain (F.address .t1 s)).shift? = some 0#32 := by
  induction F with
  | nil => rfl
  | cons r rest ih =>
    rw [Frame.address]
    split
    · rfl
    · split
      · rfl
      · exact ih

theorem shift_loadThrough (x : Bool) :
    Line.shiftAll? (popInt .t1 ++ loadThrough x) = some 0#32 := by
  cases x <;> rfl

theorem branchWhen_eq (op : CompareOp) (x : Bool) (l : Label) :
    ∃ ls instr, branchWhen op x l = ls ++ [.plain instr] ∧ Line.shiftAll? ls = some 8#32 ∧
      instr.isJump = false ∧ instr.shift? = some 0#32 ∧ instr.goal? = some l := by
  cases x with
  | false => exact ⟨popInt .t1 ++ popInt .t0, _, rfl, rfl, rfl, rfl, rfl⟩
  | true =>
    refine ⟨popFloat .f1 ++ popFloat .f0 ++ [.plain (floatTest op)], .branchFlag (op ≠ .ne) l,
      ?_, ?_, rfl, rfl, rfl⟩
    · simp [branchWhen]
    · cases op <;> rfl

theorem crosses_compareCode (hr : p.Resolves) (op : CompareOp) (x : Bool) (a b c : Nat) :
    p.Crosses R (compareCode op x (.fresh a) (.fresh b) (.fresh c)) 4#32 := by
  obtain ⟨ls, instr, hwhen, hs, hjump, hshift, hgoal⟩ := branchWhen_eq op x (.fresh a)
  intro i h
  rw [compareCode, hwhen, List.append_assoc, List.append_assoc] at h
  have h₀ := h.right
  have h₁ : p.Lies R _ (.plain (.jump (.fresh b)) :: _) := h₀.tail
  have h₂ : p.Lies R _ (.label (.fresh a) :: _) := h₁.tail
  have h₃ : p.Lies R _ (.plain (.li .t0 1) :: _) := h₂.tail
  have h₄ : p.Lies R _ (.plain (.jump (.fresh c)) :: _) := h₃.tail
  have h₅ : p.Lies R _ (.label (.fresh b) :: _) := h₄.tail
  have h₆ : p.Lies R _ (.plain (.li .t0 0) :: _) := h₅.tail
  have h₇ : p.Lies R _ (.label (.fresh c) :: pushInt .t0) := h₆.tail
  -- Both ways meet at the last label.
  have hyes := ((Image.Passes.next h₂ rfl).trans (.next h₃ rfl)).trans
    (.jump h₄ (hr c _ h₇.1.line))
  have hno := ((Image.Passes.jump h₁ (hr b _ h₅.1.line)).trans (.next h₅ rfl)).trans (.next h₆ rfl)
  have hfork := Image.Passes.fork (.branch h₀ hjump hshift hgoal (hr a _ h₂.1.line)) hno hyes
  have hend := ((Image.Passes.straight h.left hs).trans hfork).trans (.straight h₇ rfl)
  have hlength : (compareCode op x (.fresh a) (.fresh b) (.fresh c)).length = ls.length + 10 := by
    rw [compareCode, hwhen]
    simp [pushInt]
  rw [hlength]
  exact hend

theorem crosses_releaseCode (items : List Node) :
    p.Crosses R (releaseCode items.length) (-pushedAll items) := by
  unfold releaseCode
  split
  · rename_i hz
    exact .straight (by simp [pushedAll, hz, Line.shiftAll?])
  · refine .straight (congrArg some ?_)
    rw [pushedAll, BitVec.neg_neg, BitVec.add_zero, BitVec.ofInt_natCast]

theorem crosses_callCode (g : Tag) (s : Symbol) (args : Node) {params : List Ty} {result : Ty}
    (h : s.type? = some (.func params result)) :
    p.Crosses R (callCode s args.children.length)
      (-pushedAll args.children + (call g s args).pushed) := by
  have hcall : p.Crosses R [.plain (.jumpLink (.function s.name))] 0#32 := .straight rfl
  have hresult : p.Crosses R (if result.isVoid then [] else pushInt .v0)
      (call g s args).pushed := by
    rw [pushed, givesNothing, Symbol.ty_eq h]
    cases result with
    | _ => exact .straight rfl
  have hall := hcall.append ((crosses_releaseCode args.children).append hresult)
  rw [BitVec.zero_add] at hall
  rw [callCode_eq h]
  exact hall

structure Known (types : Nat → Option Ty) (f : Enclosing) (n : Node) : Prop where
  uses : ∀ s ∈ n.uses, s.IsDeclarable
  recorded : ∀ t, n.HasType f t → types n.id = some t

theorem Known.floatForm {g : Tag} {op : BinaryOp} {a b : Node}
    (hk : (binary g op a b).Known types f) (ht : (binary g op a b).HasType f t)
    (hx : (binary g op a b).hasFloat types) : op.floatForm?.isSome := by
  rw [hasFloat, hk.recorded t ht] at hx
  cases ht with
  | binary hj =>
    cases t with
    | float => exact hj.floatForm
    | _ => cases hx

theorem Known.call {g : Tag} {s : Symbol} {args : Node} (hk : (call g s args).Known types f)
    (ht : (call g s args).HasType f t) :
    ∃ params, s.type? = some (.func params t) ∧ List.Forall₂ (HasType f) args.children params ∧
      ∀ u ∈ params, u.isScalar := by
  obtain ⟨u, hu, hd⟩ := hk.uses s (List.mem_singleton_self s)
  cases ht with
  | call hs hargs =>
    cases hs.symm.trans hu
    exact ⟨_, hs, hargs, hd.1⟩

theorem pushedAll_cons (n : Node) (items : List Node) :
    pushedAll (n :: items) = -4#32 + pushedAll items := by
  simp only [pushedAll, List.length_cons, Ty.wordSize]
  bv_omega

theorem crosses_codeAll {items : List Node} {ts : List Ty} (h : List.Forall₂ (HasType f) items ts)
    (hts : ∀ t ∈ ts, t.isScalar)
    (hc : ∀ n ∈ items, ∀ t l, n.HasType f t →
      ∃ ls, n.code types F l = n.wrap ls ∧ p.Crosses R ls n.pushed) (l : Nat) :
    p.Crosses R (codeAll types F l items) (pushedAll items) := by
  induction h generalizing l with
  | nil => exact .straight rfl
  | @cons n t items ts ht _ ih =>
    obtain ⟨hscalar, hrest⟩ := List.forall_mem_cons.mp hts
    obtain ⟨hn, hitems⟩ := List.forall_mem_cons.mp hc
    have hne : t ≠ .void := by
      rintro rfl
      cases hscalar
    have h := (crosses_code (hn t l ht)).append (ih hrest hitems (l + n.labelCount))
    rwa [pushed_of_hasType ht hne, ← pushedAll_cons] at h

end Node

def Role.Crosses (p : Image) (R : Nat → Prop) (types : Nat → Option Ty) (F : Frame)
    (f : Enclosing) : Role → Node → Prop
  | .value, n | .address, n => ∀ t l, n.HasType f t →
      ∃ ls, n.code types F l = n.wrap ls ∧ p.Crosses R ls n.pushed
  | .arguments, n => ∀ ts l, List.Forall₂ (Node.HasType f) n.children ts → (∀ t ∈ ts, t.isScalar) →
      ∃ ls, n.code types F l = n.wrap ls ∧ p.Crosses R ls (Node.pushedAll n.children)
  | _, _ => True

namespace Node

variable {p : Image} {R : Nat → Prop} {types : Nat → Option Ty} {F : Frame} {f : Enclosing}
  {role : Role} {env : Env} {n : Node}

theorem Scoped.crosses (hr : p.Resolves) (h : Scoped role env n)
    (hk : ∀ m ∈ n.preorder, m.Known types f) : role.Crosses p R types F f n := by
  induction h with
  | int | float | bool =>
    intro t l _
    rw [code]
    exact ⟨_, rfl, .straight rfl⟩
  | @addressOf _ s =>
    intro t l _
    rw [code]
    exact ⟨_, rfl, .straight (by rw [Line.shiftAll?, shift_address]; rfl)⟩
  | dereference _ ih =>
    intro t l ht
    cases ht with
    | dereference ha =>
      rw [code]
      have ha := crosses_push ha (by simp) (ih (forall_child hk (by simp [children])))
      exact ⟨_, rfl, (ha _).append (.straight (shift_loadThrough _))⟩
  | index _ _ iha ihb =>
    intro t l ht
    cases ht with
    | index ha hb =>
      rw [code]
      have ha := crosses_push ha (by simp) (iha (forall_child hk (by simp [children])))
      have hb := crosses_push hb (by simp) (ihb (forall_child hk (by simp [children])))
      exact ⟨_, rfl, (ha _).append ((hb _).append (.straight (d := 4#32) rfl))⟩
  | @binary _ l r g op _ _ iha ihb =>
    intro t labels ht
    have hfloat := (hk _ (mem_preorder_self _)).floatForm ht
    cases ht with
    | binary hj ha hb =>
      have hne : t ≠ .void := by
        rintro rfl
        cases BinaryOp.Joins.isScalar hj
      rw [code]
      have ha := crosses_push ha hne (iha (forall_child hk (by simp [children])))
      have hb := crosses_push hb hne (ihb (forall_child hk (by simp [children])))
      exact ⟨_, rfl, (ha _).append ((hb _).append (crosses_operatorCode _ op hfloat))⟩
  | compare _ _ iha ihb =>
    intro t l ht
    cases ht with
    | compare hnum ha hb =>
      rename_i u
      have hne : u ≠ .void := by
        rintro rfl
        simp at hnum
      rw [code]
      have ha := crosses_push ha hne (iha (forall_child hk (by simp [children])))
      have hb := crosses_push hb hne (ihb (forall_child hk (by simp [children])))
      exact ⟨_, rfl, (ha _).append ((hb _).append (crosses_compareCode hr _ _ _ _ _))⟩
  | not _ ih =>
    intro t l ht
    cases ht with
    | not ha =>
      rw [code]
      have ha := crosses_push ha (by simp) (ih (forall_child hk (by simp [children])))
      exact ⟨_, rfl, (ha _).append (.straight (d := 0#32) rfl)⟩
  | @call s env args g _ _ ih =>
    intro t l ht
    obtain ⟨params, hs, hargs, hscalar⟩ := (hk _ (mem_preorder_self _)).call ht
    have ha := ih (forall_child hk (by simp [children])) params l hargs hscalar
    have h := (crosses_code ha).append (crosses_callCode g s args hs)
    rw [← BitVec.add_assoc, BitVec.add_right_neg, BitVec.zero_add] at h
    rw [code]
    exact ⟨_, rfl, h⟩
  | arguments _ ih =>
    intro ts l hts hscalar
    rw [code]
    exact ⟨_, rfl, crosses_codeAll hts hscalar (fun m hm => ih m hm (forall_child hk hm)) l⟩
  | error =>
    intro t l ht
    cases ht
  | _ => trivial

mutual
/-- Whether control can get to the end of a part of a function body. -/
def completes : Node → Bool
  | .leave _ | .leaveWith .. => false
  | .branch _ _ y z => y.completes || z.completes
  | .list _ _ items => completesAll items
  | _ => true

def completesAll : List Node → Bool
  | [] => true
  | n :: rest => n.completes && completesAll rest
end

mutual
def exits : Node → List Node
  | .leave g => [.leave g]
  | .leaveWith g v => [.leaveWith g v]
  | .branch _ _ y z => y.exits ++ z.exits
  | .loop _ _ b => b.exits
  | .list _ _ items => exitsAll items
  | _ => []

def exitsAll : List Node → List Node
  | [] => []
  | n :: rest => n.exits ++ if n.completes then exitsAll rest else []
end

def returnsNothing : Node → Bool
  | .leaveWith _ v => v.givesNothing
  | _ => false

/-- What a return statement leaves on top of the stack pointer: the word that it pops for a result
that nothing has pushed. -/
def surplus (n : Node) : Word := if n.returnsNothing then 4#32 else 0#32

variable {stop : Nat} {ls : List Line} {done : Bool} {words : List Word}

theorem directs_wrap (h : p.Directs R stop ls done words) :
    p.Directs R stop (n.wrap ls) done words := by
  unfold wrap
  split
  · have hmark (edge : Edge) : p.Crosses R [.mark edge n.render] 0#32 := .straight rfl
    have h := (hmark .opening).directs.append (h.append (hmark .closing).directs)
    simpa using h
  · exact h

theorem directs_branch {cs ys zs : List Line} {a b : Nat} {done' : Bool} {words' : List Word}
    (hr : p.Resolves) (hc : p.Crosses R cs (-4#32)) (hy : p.Directs R stop ys done words)
    (hz : p.Directs R stop zs done' words') :
    p.Directs R stop (cs ++ ((popInt .t0 ++ [.plain (branchZero .t0 (.fresh a))]) ++
      (ys ++ ([.plain (jump (.fresh b)), .label (.fresh a)] ++ (zs ++ [.label (.fresh b)])))))
      (done || done') (words ++ words') := by
  intro i h
  have h₁ := h.right
  have h₂ := h₁.right
  have h₃ : p.Lies R _ (.plain (.jump (.fresh b)) :: _) := h₂.right
  have h₄ : p.Lies R _ (.label (.fresh a) :: _) := h₃.tail
  have h₅ : p.Lies R _ (zs ++ [.label (.fresh b)]) := h₄.tail
  have h₆ := h₅.right
  have hcond := (hc i h.left).trans (.straight (d := 4#32) h₁.left.left rfl)
  have hfork := Image.Forks.branch h₁.left.right rfl rfl rfl (hr a _ h₄.1.line)
  have hyes := (hy _ h₂.left).after (.jump h₃ (hr b _ h₆.1.line))
  have hno := Image.Flow.before (.next h₄ rfl) (hz _ h₅.left)
  have hall := ((Image.Flow.fork hfork hyes hno).after (.next h₆ rfl)).before hcond
  refine hall.cast ?_
  simp only [List.length_append, List.length_cons, List.length_nil]
  omega

theorem directs_loop {cs bs : List Line} {a b : Nat} (hr : p.Resolves)
    (hc : p.Crosses R cs (-4#32)) (hb : p.Directs R stop bs done words) :
    p.Directs R stop (.label (.fresh a) :: (cs ++
      ((popInt .t0 ++ [.plain (branchZero .t0 (.fresh b))]) ++
        (bs ++ [.plain (jump (.fresh a)), .label (.fresh b)])))) true words := by
  intro i h
  have h₁ := h.tail
  have h₂ := h₁.right
  have h₃ := h₂.right
  have h₄ : p.Lies R _ (.plain (.jump (.fresh a)) :: _) := h₃.right
  have h₅ : p.Lies R _ [.label (.fresh b)] := h₄.tail
  have hcond := (hc _ h₁.left).trans (.straight (d := 4#32) h₂.left.left rfl)
  have hfork := Image.Forks.branch h₂.left.right rfl rfl rfl (hr b _ h₅.1.line)
  have hbody := (hb _ h₃.left).after (.jump h₄ (hr a _ h.1.line))
  have hall := (Image.Flow.loop h hcond hfork hbody).after (.next h₅ rfl)
  refine hall.cast ?_
  simp only [List.length_append, List.length_cons, List.length_nil]
  omega

theorem directs_rowCode {items : List Node} (h : ∀ n ∈ items, ∀ l, p.Directs R stop
      (n.code types F l ++ n.dropCode types) n.completes (n.exits.map surplus)) (l : Nat) :
    p.Directs R stop (rowCode types F l items) (completesAll items)
      ((exitsAll items).map surplus) := by
  induction items generalizing l with
  | nil => exact Image.Crosses.directs (.straight rfl)
  | cons n items ih =>
    obtain ⟨hn, hitems⟩ := List.forall_mem_cons.mp h
    have hall := (hn l).append (ih hitems (l + n.labelCount))
    rw [rowCode, completesAll, exitsAll, List.map_append, apply_ite (List.map surplus),
      List.map_nil, ← List.append_assoc]
    exact hall

theorem crosses_result {g : Tag} {s : Symbol} {args : Node} {t : Ty} {l : Nat}
    (ht : HasType f (.call g s args) t) (hrec : types (Node.call g s args).id = some t)
    (h : p.Crosses R ((Node.call g s args).code types F l) (Node.call g s args).pushed) :
    p.Crosses R ((Node.call g s args).code types F l ++ (Node.call g s args).dropCode types)
      0#32 := by
  rw [dropCode, hrec]
  by_cases hv : t = .void
  · subst hv
    rw [pushed_of_void ht] at h
    exact h.append (.straight (d := 0#32) rfl)
  · rw [pushed_of_hasType ht hv] at h
    have hdrop : (some t).any Ty.isVoid = false := Ty.isVoid_eq_false hv
    rw [hdrop]
    exact h.append (.straight (d := 4#32) rfl)

theorem surplus_leaveWith (g : Tag) (v : Node) : (leaveWith g v).surplus = v.pushed + 4#32 := by
  rw [surplus, returnsNothing, pushed]
  split <;> rfl

theorem directs_code {l : Nat} (hdrop : n.dropCode types = [])
    (h : ∃ ls, n.code types F l = n.wrap ls ∧ p.Directs R stop ls done words) :
    p.Directs R stop (n.code types F l ++ n.dropCode types) done words ∧
      ((∀ g s args, n ≠ .call g s args) →
        ∃ ls, n.code types F l = n.wrap ls ∧ p.Directs R stop ls done words) := by
  refine ⟨?_, fun _ => h⟩
  obtain ⟨ls, e, h⟩ := h
  rw [hdrop, List.append_nil, e]
  exact directs_wrap h

/-- Statements leave the stack as it was, or go to the end of the function, and so do the lines
between their marks. Behind a call its result is still to be dropped. -/
theorem Scoped.directs_lines (hr : p.Resolves)
    (hstop : p.target (.epilogue (F.name?.getD mainName)) = some stop) (h : Scoped role env n)
    (hrole : role = .statement ∨ role = .block) (hk : ∀ m ∈ n.preorder, m.Known types f)
    (ht : n.HasTypes f) (l : Nat) :
    p.Directs R stop (n.code types F l ++ n.dropCode types) n.completes (n.exits.map surplus) ∧
      ((∀ g s args, n ≠ .call g s args) → ∃ ls, n.code types F l = n.wrap ls ∧
        p.Directs R stop ls n.completes (n.exits.map surplus)) := by
  induction h generalizing l with
  | «local» h hf =>
    cases h with
    | function => exact absurd rfl (hf _ _ _ _)
    | var | array =>
      refine directs_code rfl ⟨[], ?_, Image.Crosses.directs (.straight rfl)⟩
      rw [code]
  | result h =>
    obtain ⟨t, ht⟩ := ht.hasType rfl
    have hrec := (hk _ (mem_preorder_self _)).recorded t ht
    exact ⟨(crosses_result ht hrec (crosses_code (h.crosses hr hk t l ht))).directs,
      fun hno => absurd rfl (hno _ _ _)⟩
  | assign ha hb =>
    obtain ⟨t, ht⟩ := ht.hasType rfl
    cases ht with
    | assign hta hscalar htb =>
      have hne : t ≠ .void := by
        rintro rfl
        cases hscalar
      have ha := crosses_push (R := R) (F := F) hta (by simp)
        (ha.crosses hr (forall_child hk (by simp [children])))
      have hb := crosses_push (R := R) (F := F) htb hne
        (hb.crosses hr (forall_child hk (by simp [children])))
      have hstore (x : Bool) : p.Crosses R (storeThrough x) 8#32 := .straight (by cases x <;> rfl)
      refine directs_code rfl ?_
      rw [code]
      exact ⟨_, rfl, ((ha _).append ((hb _).append (hstore _))).directs⟩
  | branch hc hy hz _ ihy ihz =>
    have hty (l : Nat) := (ihy (.inr rfl) (forall_child hk (by simp [children]))
      (ht.child (by simp [children])) l).1
    have htz (l : Nat) := (ihz (.inr rfl) (forall_child hk (by simp [children]))
      (ht.child (by simp [children])) l).1
    obtain ⟨t, ht⟩ := ht.hasType rfl
    cases ht with
    | branch htc _ _ =>
      have hc := crosses_push (R := R) (F := F) htc (by simp)
        (hc.crosses hr (forall_child hk (by simp [children])))
      refine directs_code rfl ?_
      simp only [dropCode, List.append_nil] at hty htz
      rw [code, completes, exits, List.map_append]
      exact ⟨_, rfl, directs_branch hr (hc _) (hty _) (htz _)⟩
  | loop hc hb _ ihb =>
    have htb (l : Nat) := (ihb (.inr rfl) (forall_child hk (by simp [children]))
      (ht.child (by simp [children])) l).1
    obtain ⟨t, ht⟩ := ht.hasType rfl
    cases ht with
    | loop htc _ =>
      have hc := crosses_push (R := R) (F := F) htc (by simp)
        (hc.crosses hr (forall_child hk (by simp [children])))
      refine directs_code rfl ?_
      simp only [dropCode, List.append_nil, completes, exits] at htb ⊢
      rw [code]
      exact ⟨_, rfl, directs_loop hr (hc _) (htb _)⟩
  | leave =>
    refine directs_code rfl ?_
    rw [code]
    exact ⟨_, rfl, fun i h => .leave (.jump h hstop)⟩
  | @leaveWith _ v g hv =>
    obtain ⟨t, ht⟩ := ht.hasType rfl
    cases ht with
    | leaveWith htv _ =>
      have hv : p.Crosses R (v.code types F l) v.pushed :=
        crosses_code (hv.crosses hr (forall_child hk (by simp [children])) t l htv)
      have hpop : p.Crosses R (popInt .v0) 4#32 := .straight rfl
      refine directs_code rfl ?_
      rw [code, exits, List.map_singleton, surplus_leaveWith]
      refine ⟨_, rfl, fun i h => .leave ?_⟩
      rw [← List.append_assoc] at h
      have hall := ((hv.append hpop) i h.left).trans (.jump h.right hstop)
      rwa [BitVec.add_zero] at hall
  | block h ih =>
    refine directs_code rfl ?_
    rw [code, completes, exits]
    refine ⟨_, rfl, directs_rowCode (fun m hm l => ?_) l⟩
    obtain ⟨before, rest, e⟩ := List.append_of_mem hm
    exact (ih before m rest e (.inl rfl) (forall_child hk hm) (ht.child hm) l).1
  | _ => obtain h | h := hrole <;> cases h

theorem Scoped.directs (hr : p.Resolves)
    (hstop : p.target (.epilogue (F.name?.getD mainName)) = some stop) (h : Scoped role env n)
    (hrole : role = .statement ∨ role = .block) (hk : ∀ m ∈ n.preorder, m.Known types f)
    (ht : n.HasTypes f) (l : Nat) :
    p.Directs R stop (n.code types F l ++ n.dropCode types) n.completes (n.exits.map surplus) :=
  (h.directs_lines hr hstop hrole hk ht l).1

end Node

end Crux
