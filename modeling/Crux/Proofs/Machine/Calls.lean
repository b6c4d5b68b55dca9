import Crux.Proofs.Machine.Balance
import Crux.Proofs.Machine.Depth

/-! Calls, as the caller and the callee see them. The caller leaves its arguments on the stack, the
last one on top. Where the prologue of the callee sets the frame pointer, the places that the callee
has for its parameters are the words of the arguments. -/

namespace Crux

open Instr Asm Emit

def Pushes (ls : List Line) : Prop :=
  ∃ before r, ls = before ++ pushInt r ∨ ls = before ++ pushFloat r

namespace Pushes

variable {ls : List Line}

theorem pushInt (r : Reg) : Pushes (pushInt r) := ⟨[], r, .inl rfl⟩

theorem pushFloat (r : Reg) : Pushes (pushFloat r) := ⟨[], r, .inr rfl⟩

theorem append (before : List Line) (h : Pushes ls) : Pushes (before ++ ls) := by
  obtain ⟨before', r, rfl | rfl⟩ := h
  · exact ⟨before ++ before', r, .inl (List.append_assoc ..).symm⟩
  · exact ⟨before ++ before', r, .inr (List.append_assoc ..).symm⟩

theorem cons (line : Line) (h : Pushes ls) : Pushes (line :: ls) := h.append [line]

end Pushes

namespace Image

/-- Control that starts at line `i` leaves the lines up to line `j` only for that line, with `n`
words more on the stack. -/
def Gains (p : Image) (i j n : Nat) : Prop :=
  ∀ w e, (∃ m, p.Path (fun k => i ≤ k ∧ k < j) m i w e) ↔ e = (j, sunk w n)

/-- A call whose lines start at `first` and which goes to the function from line `jal`. The code of
the arguments ends at one line after the other. -/
structure CallSite (p : Image) (types : Nat → Option Ty) (F : Frame) (l : Nat) (call : Node)
    (name : String) (items : List Node) (void : Bool) (first : Nat) (ends : Nat → Nat)
    (jal : Nat) : Prop where
  /-- Behind each argument there is one word more on the stack. -/
  arrives : ∀ k ≤ items.length, p.Gains first (ends k) k
  /-- The code of the argument has just pushed that word. -/
  pushes : ∀ k (hk : k < items.length), ∃ l i r node,
    p.Has (ends k) ((items[k]).code types F l) ∧
    ends (k + 1) = ends k + ((items[k]).code types F l).length ∧ ends (k + 1) = i + 3 ∧
    (p.Has i (pushInt r ++ [.mark .closing node]) ∨ p.Has i (pushFloat r ++ [.mark .closing node]))
  /-- Until the call, words are stored on top of it only. -/
  stays : ∀ k ≤ items.length, ∀ i n w v, i ≠ jal →
    p.Path (fun j => j ≠ i ∧ j ≠ jal) n (ends k) w (i, v) → p.OnTop w (jal - ends k) (i, v)
  called : p.Gains first jal items.length
  /-- The code of the call goes on to its own mark, with a push of the result or with none. -/
  lines : p.Has jal (.plain (.jumpLink (.function name)) :: (releaseCode items.length ++
    ((if void then [] else pushInt .v0) ++ [.mark .closing call.render])))
  /-- Behind the call the arguments are dropped. -/
  released : p.Gains first (jal + 1 + (releaseCode items.length).length) 0
  /-- Behind the mark, where the code of the call ends, there is one word for the result. -/
  returned : p.Gains first (first + (call.code types F l).length) (if void then 0 else 1) ∧
    first + (call.code types F l).length =
      jal + 1 + (releaseCode items.length).length + (if void then 0 else 2) + 1

/-- The entry of a function with the parameters. Control comes to it with one word for each on the
stack, the first one pushed from `w` on. -/
structure Entry (p : Image) (F : Frame) (name : String) (ps : List Symbol) : Prop where
  first : ∃ entry, p.target (.function name) = some entry ∧
    p.Has entry (.label (.function name) :: prologue F.size.toNat)
  /-- The code of the function takes the last parameter from the frame pointer on, and each one
  before it from one word above the next. Like all sizes, the distances are modulo `2 ^ 64`. -/
  address : ∀ k (hk : k < ps.length) r,
    F.address r ps[k] = .addi r .fp ((ps.length - 1 - k) * Ty.wordSize % 2 ^ 64 : Nat)
  /-- Once the prologue has set the frame pointer, these are the places of the words. -/
  finds : ∀ w c, Aligned (c.regs .sp) → c.regs .sp = sunk w ps.length →
    ∃ c', execAll p.storage (prologue F.size.toNat) c = some c' ∧ ∀ k < ps.length,
      c'.regs .fp + .ofNat 32 ((ps.length - 1 - k) * Ty.wordSize) = sunk w (k + 1)

variable {p : Image} {i : Nat} {d : Word} {ls : List Line}

theorem Gains.of_crosses {n : Nat} (hc : ∀ R, p.Crosses R ls d) (h : p.Has i ls)
    (hd : ∀ w, w + d = sunk w n) {j : Nat} (hj : i + ls.length = j) : p.Gains i j n := by
  subst hj
  intro w e
  have hp := hc (fun k => i ≤ k ∧ k < i + ls.length) i ⟨h, fun k hi hk => ⟨hi, hk⟩⟩
  have hout : ¬ (i ≤ i + ls.length ∧ i + ls.length < i + ls.length) := by omega
  constructor
  · rintro ⟨m, hpath⟩
    obtain ⟨m', -, hpath⟩ := hp.on hpath
    cases hpath with
    | stay => rw [hd]
    | move hin => exact absurd hin hout
  · rintro rfl
    refine hp.back (n := 0) ?_
    rw [hd]
    exact .stay hout

end Image

namespace Node

variable {p : Image} {types : Nat → Option Ty} {F : Frame} {f : Enclosing} {role : Role}
  {env : Env} {n : Node} {t : Ty}

theorem codeAll_append (types : Nat → Option Ty) (F : Frame) (l : Nat) (xs ys : List Node) :
    codeAll types F l (xs ++ ys) =
      codeAll types F l xs ++ codeAll types F (l + labelCountAll xs) ys := by
  induction xs generalizing l with
  | nil => rfl
  | cons x xs ih =>
    simp only [List.cons_append, codeAll, labelCountAll, ih, List.append_assoc, Nat.add_assoc]

theorem sunk_pushedAll (w : Word) (items : List Node) :
    w + pushedAll items = sunk w items.length := by
  rw [pushedAll, sunk, BitVec.sub_eq_add_neg]

theorem pushes_loadThrough (x : Bool) : Pushes (loadThrough x) := by
  cases x with
  | false => exact .cons _ (.pushInt _)
  | true => exact .cons _ (.pushFloat _)

theorem pushes_operatorCode (x : Bool) (op : BinaryOp) (hx : x → op.floatForm?.isSome) :
    Pushes (operatorCode x op) := by
  cases x with
  | false => exact .append _ (.pushInt _)
  | true =>
    cases op with
    | and | or => cases hx rfl
    | add | sub | mul | div => exact .append _ (.pushFloat _)

theorem Scoped.pushes (h : Scoped .value env n) (hk : n.Known types f) (ht : n.HasType f t)
    (hne : t ≠ .void) (l : Nat) : ∃ ls, n.code types F l = n.wrap ls ∧ Pushes ls := by
  rw [code.eq_def]
  refine ⟨_, rfl, ?_⟩
  cases h with
  | int | bool => exact .cons _ (.pushInt _)
  | float => exact .cons _ (.pushFloat _)
  | error => cases ht
  | dereference => exact .append _ (.append _ (pushes_loadThrough _))
  | binary => exact .append _ (.append _ (pushes_operatorCode _ _ (hk.floatForm ht)))
  | compare => exact .append _ (.append _ (.append _ (.pushInt _)))
  | not => exact .append _ (.append _ (.cons _ (.pushInt _)))
  | @call s _ args =>
    cases ht with
    | call hs =>
      have hpushes (count : Nat) : Pushes (callCode s count) := by
        rw [callCode_eq hs, Ty.isVoid_eq_false hne]
        exact .cons _ (.append _ (.pushInt _))
      exact .append _ (hpushes _)

theorem Scoped.arguments_of_call {g : Tag} {s : Symbol} {args : Node}
    (h : Scoped role env (.call g s args)) :
    ∃ env g' items, args = .list g' .expressions items ∧ ∀ x ∈ items, Scoped .value env x := by
  cases h with
  | call _ h =>
    cases h with
    | arguments h => exact ⟨_, _, _, rfl, h⟩
  | «local» h => cases h
  | result h =>
    cases h with
    | call _ h =>
      cases h with
      | arguments h => exact ⟨_, _, _, rfl, h⟩

theorem Scoped.isMarked (h : Scoped .value env n) : isMarked n := by
  cases h with
  | _ => rfl

theorem code_call (types : Nat → Option Ty) (F : Frame) (l : Nat) (g g' : Tag) (s : Symbol)
    (items : List Node) :
    (call g s (.list g' .expressions items)).code types F l =
      [.mark .opening (call g s (.list g' .expressions items)).render,
        .mark .opening (list g' .expressions items).render] ++
      (codeAll types F l items ++ ([.mark .closing (list g' .expressions items).render] ++
        (callCode s items.length ++
          [.mark .closing (call g s (.list g' .expressions items)).render]))) := by
  rw [code, code]
  simp [wrap, isMarked, children]

section Sites

variable {g g' : Tag} {s : Symbol} {items : List Node} {params : List Ty} {first l : Nat}

def argumentEnd (types : Nat → Option Ty) (F : Frame) (l : Nat) (items : List Node)
    (first k : Nat) : Nat :=
  first + 2 + (codeAll types F l (items.take k)).length

theorem codeAll_take_succ (types : Nat → Option Ty) (F : Frame) (l : Nat) {k : Nat}
    (hk : k < items.length) :
    codeAll types F l (items.take (k + 1)) = codeAll types F l (items.take k) ++
      (items[k]).code types F (l + labelCountAll (items.take k)) := by
  rw [← List.take_append_getElem hk, codeAll_append, codeAll, codeAll, List.append_nil]

theorem codeAll_take_drop (types : Nat → Option Ty) (F : Frame) (l k : Nat) (items : List Node) :
    codeAll types F l items = codeAll types F l (items.take k) ++
      codeAll types F (l + labelCountAll (items.take k)) (items.drop k) := by
  rw [← codeAll_append, List.take_append_drop]

theorem argument_pushes (h : p.Has (first + 2) (codeAll types F l items))
    (hitems : ∀ x ∈ items, Scoped .value env x) (hknown : ∀ x ∈ items, x.Known types f)
    (hts : List.Forall₂ (HasType f) items params) (hne : ∀ u ∈ params, u ≠ .void) {k : Nat}
    (hk : k < items.length) :
    ∃ l' i r node,
      p.Has (argumentEnd types F l items first k) ((items[k]).code types F l') ∧
      argumentEnd types F l items first (k + 1) =
        argumentEnd types F l items first k + ((items[k]).code types F l').length ∧
      argumentEnd types F l items first (k + 1) = i + 3 ∧
      (p.Has i (pushInt r ++ [.mark .closing node]) ∨
        p.Has i (pushFloat r ++ [.mark .closing node])) := by
  have hp : k < params.length := hts.length_eq ▸ hk
  have hm := List.getElem_mem hk
  obtain ⟨ls, hcode, before, r, hpush⟩ := (hitems _ hm).pushes (F := F) (hknown _ hm)
    (hts.get hk hp) (hne _ (List.getElem_mem hp)) (l + labelCountAll (items.take k))
  have hwrap : (items[k]).wrap ls =
      .mark .opening (items[k]).render :: (ls ++ [.mark .closing (items[k]).render]) :=
    if_pos (hitems _ hm).isMarked
  rw [codeAll_take_drop types F l (k + 1), codeAll_take_succ types F l hk, List.append_assoc] at h
  have hhas := h.right.left
  have hcodes := hhas
  rw [hcode, hwrap] at hhas
  have hend : argumentEnd types F l items first (k + 1) =
      first + 2 + (codeAll types F l (items.take k)).length + 1 + ls.length + 1 := by
    rw [argumentEnd, codeAll_take_succ types F l hk, hcode, hwrap]
    simp only [List.length_append, List.length_cons, List.length_nil]
    omega
  have hlast := hhas.tail
  refine ⟨_, first + 2 + (codeAll types F l (items.take k)).length + 1 + before.length, r,
    (items[k]).render, hcodes, ?_, ?_, ?_⟩
  · rw [argumentEnd, codeAll_take_succ types F l hk, List.length_append, argumentEnd,
      ← Nat.add_assoc]
  · rw [hend]
    obtain rfl | rfl := hpush
    · simp [pushInt, Nat.add_assoc]
    · simp [pushFloat, Nat.add_assoc]
  · obtain rfl | rfl := hpush
    · rw [List.append_assoc] at hlast
      exact .inl hlast.right
    · rw [List.append_assoc] at hlast
      exact .inr hlast.right

theorem crosses_arguments (hr : p.Resolves) (hitems : ∀ x ∈ items, Scoped .value env x)
    (hknown : ∀ x ∈ items, ∀ m ∈ x.preorder, m.Known types f)
    (hts : List.Forall₂ (HasType f) items params) (hscalar : ∀ u ∈ params, u.isScalar) (k : Nat)
    (R : Nat → Prop) :
    p.Crosses R (codeAll types F l (items.take k)) (pushedAll (items.take k)) :=
  crosses_codeAll (List.forall₂_take k hts) (fun u hu => hscalar u (List.mem_of_mem_take hu))
    (fun x hx => (hitems x (List.mem_of_mem_take hx)).crosses hr
      (hknown x (List.mem_of_mem_take hx))) l

theorem stays_arguments (hr : p.Resolves) (hitems : ∀ x ∈ items, Scoped .value env x)
    (hknown : ∀ x ∈ items, ∀ m ∈ x.preorder, m.Known types f)
    (hts : List.Forall₂ (HasType f) items params) (hne : ∀ u ∈ params, u ≠ .void)
    {edge : Edge} {node : String} {w v : Word} {i k n : Nat}
    (h : p.Has (first + 2) (codeAll types F l items ++ [.mark edge node]))
    (hi : i ≠ first + 3 + (codeAll types F l items).length)
    (hp : p.Path (fun j => j ≠ i ∧ j ≠ first + 3 + (codeAll types F l items).length) n
      (argumentEnd types F l items first k) w (i, v)) :
    p.OnTop w (first + 3 + (codeAll types F l items).length - argumentEnd types F l items first k)
      (i, v) := by
  have hrest : p.Stacks (codeAll types F (l + labelCountAll (items.take k)) (items.drop k)) 0 _ :=
    stacks_codeAll (List.forall₂_drop k hts) (fun u hu => hne u (List.mem_of_mem_drop hu))
      (fun x hx => (hitems x (List.mem_of_mem_drop hx)).stacks hr
        (hknown x (List.mem_of_mem_drop hx))) _ 0
  have hlength : (codeAll types F l items).length = (codeAll types F l (items.take k)).length +
      (codeAll types F (l + labelCountAll (items.take k)) (items.drop k)).length := by
    rw [← List.length_append, ← codeAll_take_drop]
  rw [codeAll_take_drop types F l k, List.append_assoc] at h
  have hmark (a : Nat) : p.Stacks [.mark edge node] a a := .still rfl rfl
  have hleads (R : Nat → Prop) := (hrest.append (hmark _)).leads R w _ h.right
  obtain ⟨s, hp⟩ := hp.trace
  obtain htop | ⟨-, s, -, -, hp⟩ := (hleads _).on ((sunk_zero w).symm ▸ hp)
  · refine (htop _ List.mem_cons_self).mono ?_
    simp only [List.length_append, List.length_cons, List.length_nil, argumentEnd]
    omega
  · have hend : first + 2 + (codeAll types F l (items.take k)).length +
        (codeAll types F (l + labelCountAll (items.take k)) (items.drop k) ++
          [Line.mark edge node]).length = first + 3 + (codeAll types F l items).length := by
      simp only [List.length_append, List.length_cons, List.length_nil]
      omega
    rw [hend] at hp
    cases hp with
    | stay => exact absurd rfl hi
    | move hin => exact absurd rfl hin.2

theorem crosses_released (hall : ∀ R, p.Crosses R (codeAll types F l items) (pushedAll items))
    (s : Symbol) (opening arguments closing : String) (R : Nat → Prop) :
    p.Crosses R ([.mark .opening opening, .mark .opening arguments] ++ codeAll types F l items ++
      [.mark .closing closing] ++ [.plain (.jumpLink (.function s.name))] ++
      releaseCode items.length) 0#32 := by
  have hopen : p.Crosses R [.mark .opening opening, .mark .opening arguments] 0#32 := .straight rfl
  have hclose : p.Crosses R [.mark .closing closing] 0#32 := .straight rfl
  have hjump : p.Crosses R [.plain (.jumpLink (.function s.name))] 0#32 := .straight rfl
  have h := (((hopen.append (hall R)).append hclose).append hjump).append (crosses_releaseCode items)
  simpa only [BitVec.zero_add, BitVec.add_zero, ← BitVec.sub_eq_add_neg, BitVec.sub_self] using h

theorem crosses_pushResult (void : Bool) (R : Nat → Prop) :
    p.Crosses R (if void then [] else pushInt .v0) (if void then 0#32 else -4#32) := by
  cases void with
  | _ => exact .straight rfl

theorem length_code_call (types : Nat → Option Ty) (F : Frame) (l : Nat) (g g' : Tag)
    (items : List Node) (hs : s.type? = some (.func params t)) :
    ((call g s (.list g' .expressions items)).code types F l).length =
      (codeAll types F l items).length + (releaseCode items.length).length +
        (if t.isVoid then 0 else 2) + 5 := by
  rw [code_call, callCode_eq hs]
  cases t.isVoid with
  | _ => simp [pushInt]; omega

/-- Wherever the code of a call stands, its arguments are on the stack when it goes to the function,
and they are dropped behind it. -/
theorem call_site (hr : p.Resolves) (hitems : ∀ x ∈ items, Scoped .value env x)
    (hknown : ∀ x ∈ items, ∀ m ∈ x.preorder, m.Known types f)
    (hs : s.type? = some (.func params t)) (hts : List.Forall₂ (HasType f) items params)
    (hscalar : ∀ u ∈ params, u.isScalar)
    (h : p.Has first ((call g s (.list g' .expressions items)).code types F l)) :
    p.CallSite types F l (.call g s (.list g' .expressions items)) s.name items t.isVoid first
      (argumentEnd types F l items first) (first + 3 + (codeAll types F l items).length) := by
  have hne : ∀ u ∈ params, u ≠ .void := by
    rintro _ hm rfl
    cases hscalar _ hm
  have hcrosses (k : Nat) (R : Nat → Prop) :=
    crosses_arguments (p := p) (F := F) (l := l) hr hitems hknown hts hscalar k R
  have hall (R : Nat → Prop) : p.Crosses R (codeAll types F l items) (pushedAll items) := by
    simpa only [List.take_length] using hcrosses items.length R
  have hopen (R : Nat → Prop) : p.Crosses R
      [.mark .opening (call g s (.list g' .expressions items)).render,
        .mark .opening (list g' .expressions items).render] 0#32 := .straight rfl
  have hcode : callCode s items.length = [.plain (.jumpLink (.function s.name))] ++
      (releaseCode items.length ++ if t.isVoid then [] else pushInt .v0) := callCode_eq hs _
  have hlength := length_code_call types F l g g' items hs
  -- The fields are about longer and longer parts of these lines, so each groups them anew.
  rw [code_call, hcode] at h
  constructor
  case arrives =>
    intro k hk
    rw [codeAll_take_drop types F l k, List.append_assoc, ← List.append_assoc] at h
    refine .of_crosses (fun R => (hopen R).append (hcrosses k R)) h.left (fun w => ?_) ?_
    · rw [BitVec.zero_add, sunk_pushedAll, List.length_take_of_le hk]
    · rw [List.length_append, argumentEnd, ← Nat.add_assoc]
      rfl
  case pushes =>
    intro k hk
    exact argument_pushes h.right.left hitems (fun x hx => hknown x hx x (mem_preorder_self x))
      hts hne hk
  case stays =>
    intro k hk i n w v hi hp
    rw [← List.append_assoc (codeAll types F l items)] at h
    exact stays_arguments hr hitems hknown hts hne h.right.left hi hp
  case called =>
    rw [← List.append_assoc (codeAll types F l items), ← List.append_assoc] at h
    have hclose (R : Nat → Prop) :
        p.Crosses R [.mark .closing (list g' .expressions items).render] 0#32 := .straight rfl
    refine .of_crosses (fun R => (hopen R).append ((hall R).append (hclose R))) h.left
      (fun w => ?_) ?_
    · rw [BitVec.zero_add, BitVec.add_zero, sunk_pushedAll]
    · simp only [List.length_append, List.length_cons, List.length_nil]
      omega
  case lines =>
    have hlines := h.right.right.right
    rw [List.append_assoc, List.append_assoc] at hlines
    rw [← Nat.add_right_comm (first + 2) _ 1]
    exact hlines
  case released =>
    simp only [← List.append_assoc] at h
    refine .of_crosses (crosses_released hall s _ _ _) h.left.left (fun w => ?_) ?_
    · rw [BitVec.add_zero, sunk_zero]
    · simp only [List.length_append, List.length_cons, List.length_nil]
      omega
  case returned =>
    refine ⟨?_, by omega⟩
    have hmark (R : Nat → Prop) : p.Crosses R
        [.mark .closing (call g s (.list g' .expressions items)).render] 0#32 := .straight rfl
    simp only [← List.append_assoc] at h
    refine .of_crosses (fun R => ((crosses_released hall s _ _ _ R).append
      (crosses_pushResult t.isVoid R)).append (hmark R)) h (fun w => ?_) ?_
    · rw [BitVec.zero_add, BitVec.add_zero]
      cases t.isVoid with
      | true => rw [if_pos rfl, if_pos rfl, BitVec.add_zero, sunk_zero]
      | false =>
        have hpush := sunk_push w 0
        rwa [sunk_zero] at hpush
    · rw [code_call, hcode]
      simp only [List.append_assoc]

end Sites

end Node

namespace Symbol

variable {ps : List Symbol}

theorem roomAll_scalars (h : ∀ p ∈ ps, p.ty.isScalar) : roomAll ps = ps.length * Ty.wordSize := by
  induction ps with
  | nil => rfl
  | cons p rest ih =>
    obtain ⟨hp, hrest⟩ := List.forall_mem_cons.mp h
    rw [roomAll, Ty.room_of_isScalar hp, ih hrest, List.length_cons, Nat.succ_mul, Nat.add_comm]

theorem offset_getElem (h : ∀ p ∈ ps, p.ty.isScalar) (hn : ps.Nodup) {k : Nat}
    (hk : k < ps.length) : (ps[k]).offset ps = k * Ty.wordSize := by
  induction ps generalizing k with
  | nil => cases hk
  | cons p rest ih =>
    obtain ⟨hp, hrest⟩ := List.forall_mem_cons.mp h
    obtain ⟨hnot, hn⟩ := List.nodup_cons.mp hn
    cases k with
    | zero => rw [List.getElem_cons_zero, offset, if_pos rfl, Nat.zero_mul]
    | succ k =>
      have hlt : k < rest.length := Nat.lt_of_succ_lt_succ hk
      have hne : p ≠ rest[k] := by
        intro e
        exact hnot (e ▸ List.getElem_mem hlt)
      rw [List.getElem_cons_succ, offset, if_neg hne, Ty.room_of_isScalar hp, ih hrest hn,
        Nat.succ_mul, Nat.add_comm]

end Symbol

theorem lookup_scalarSlots {ps : List Symbol} (h : ∀ p ∈ ps, p.ty.isScalar)
    (hn : (ps.map Symbol.id).Nodup) :
    ∃ slots, argumentSlots ps = .ok (slots, .ofNat (ps.length * Ty.wordSize)) ∧
      ∀ k (hk : k < ps.length),
        slots.lookup (ps[k]).id = some (.ofNat ((ps.length - 1 - k) * Ty.wordSize)) := by
  have hsize : ∀ p ∈ ps, p.ty.size?.isSome := by
    intro p hp
    have hscalar := h p hp
    cases ht : p.ty with
    | int | float | bool => rfl
    | _ => simp [ht, Ty.isScalar] at hscalar
  obtain ⟨slots, hslots, hmem, -⟩ := lookup_argumentSlots hsize hn
  rw [Symbol.roomAll_scalars h] at hslots hmem
  refine ⟨slots, hslots, fun k hk => ?_⟩
  obtain ⟨o, ho, hsum⟩ := hmem _ (List.getElem_mem hk)
  rw [Symbol.offset_getElem h hn.of_map hk, Ty.room_of_isScalar (h _ (List.getElem_mem hk))] at hsum
  have hplace : o = (ps.length - 1 - k) * Ty.wordSize := by
    unfold Ty.wordSize at *
    omega
  rw [ho, hplace]

theorem sunk_argument (w : Word) {n k : Nat} (hk : k < n) :
    sunk w n + .ofNat 32 ((n - 1 - k) * Ty.wordSize) = sunk w (k + 1) := by
  have h := sunk_release w (k + 1) (n - 1 - k)
  rwa [show k + 1 + (n - 1 - k) = n by omega] at h

namespace Node

variable {types : Nat → Option Ty} {root body callee : Node} {g g' g₁ : Tag} {f s : Symbol}
  {params ps : List Symbol} {program : Program}

theorem Translated.parameters (h : root.Translated types program)
    (hs : .function g₁ s ps callee ∈ root.children) :
    (∃ result, s.type? = some (.func (ps.map Symbol.ty) result)) ∧ ∀ p ∈ ps, p.ty.isScalar := by
  obtain ⟨t, ht⟩ := h.typed.declares hs
  cases ht with
  | function hty _ hscalar => exact ⟨⟨_, hty⟩, hscalar⟩

theorem Translated.argument_slots (h : root.Translated types program)
    (hs : .function g₁ s ps callee ∈ root.children) :
    ∃ slots, argumentSlots ps = .ok (slots, .ofNat (ps.length * Ty.wordSize)) ∧
      ∀ k (hk : k < ps.length),
        slots.lookup (ps[k]).id = some (.ofNat ((ps.length - 1 - k) * Ty.wordSize)) := by
  have hids := h.accepted.nodup_variables hs
  rw [Node.variables, List.map_append, List.map_append] at hids
  exact lookup_scalarSlots (h.parameters hs).2
    (List.nodup_append.mp (List.nodup_append.mp hids).1).1

theorem Translated.entry (h : root.Translated types program)
    (hs : .function g₁ s ps callee ∈ root.children) (storage : Label → Word) :
    (program.image storage).Entry (Node.function g₁ s ps callee).frame s.name ps := by
  constructor
  case first =>
    obtain ⟨_, _, hfun, -⟩ := h.flow hs storage
    obtain ⟨entry, ht, hlines, -⟩ := hfun.first
    exact ⟨entry, ht, hlines⟩
  case address =>
    intro k hk r
    obtain ⟨slots, hslots, hlookup⟩ := h.argument_slots hs
    have hargs := Record.arguments_start hslots s.name callee.declared
    have hframe : (Node.function g₁ s ps callee).frame =
        [(Record.start s.name ps).addAll callee.declared] := rfl
    simp only [hframe, Frame.address, hargs, hlookup k hk, UInt64.toNat_ofNat']
  case finds =>
    intro w c ha hsp
    obtain ⟨c', hrun, -, -, -, hfp⟩ := exec_prologue storage _ ha
    refine ⟨c', hrun, fun k hk => ?_⟩
    rw [hfp, hsp, sunk_argument w hk]

theorem Translated.call (h : root.Translated types program)
    (hf : .function g f params body ∈ root.children)
    (hs : .function g₁ s ps callee ∈ root.children) {args : Node}
    (hcall : .call g' s args ∈ body.preorder) :
    ∃ env e t g'' items, args = .list g'' .expressions items ∧
      s.type? = some (.func (ps.map Symbol.ty) t) ∧ types (Node.call g' s args).id = some t ∧
      List.Forall₂ (HasType e) items (ps.map Symbol.ty) ∧ (∀ x ∈ items, Scoped .value env x) ∧
      ∀ x ∈ items, ∀ m ∈ x.preorder, m.Known types e := by
  obtain ⟨us, result, _, _, hty, -, hbody⟩ := h.typed.function_body hf
  obtain ⟨role, env, hscoped⟩ := h.accepted.fits.part _ (mem_preorder_of_body hf hcall)
  obtain ⟨env, g'', items, rfl, hitems⟩ := hscoped.arguments_of_call
  obtain ⟨⟨t, ht⟩, -⟩ := h.parameters hs
  have hknown := h.known hf hty
  obtain ⟨u, hu⟩ := (hbody.part _ hcall).hasType rfl
  have hrecorded := (hknown _ hcall).recorded u hu
  cases hu with
  | call hs' hts =>
    cases ht.symm.trans hs'
    refine ⟨env, _, t, g'', items, rfl, ht, hrecorded, hts, hitems, fun x hx m hm => hknown m ?_⟩
    have hm : m ∈ (list g'' .expressions items).preorder := mem_preorder.mpr (.inr ⟨x, hx, hm⟩)
    exact mem_preorder_trans (mem_preorder.mpr (.inr ⟨_, List.mem_singleton_self _, hm⟩)) hcall

end Node

/-- In a text that is read and checked without a report, caller and callee agree on the arguments.
A call has as many as the function has parameters. When it goes to the function, the word that was
pushed for an argument lies where the function, once its prologue has set the frame pointer, takes
the parameter from. Behind the call these words are dropped, and a result is pushed exactly if the
recorded type of the call is not void. -/
theorem compile_argument_slots {source : String} {root : Node} {c : Checker}
    (hread : readProgram source = .ok root) (hcheck : checkProgram root = .ok c) :
    ∃ program, compile source = .ok program ∧
      ∀ g f params body, .function g f params body ∈ root.children →
      ∀ g₁ s ps callee, .function g₁ s ps callee ∈ root.children →
      ∀ g' args, .call g' s args ∈ body.preorder →
        let F := (Node.function g f params body).frame
        args.children.length = ps.length ∧
        (∃ slots, argumentSlots ps = .ok (slots, .ofNat (ps.length * Ty.wordSize)) ∧
          ∀ k (hk : k < ps.length),
            slots.lookup (ps[k]).id = some (.ofNat ((ps.length - 1 - k) * Ty.wordSize))) ∧
        ∃ t, c.typeOf? (.call g' s args) = some t ∧ ∀ storage,
          let p := program.image storage
          p.Entry (Node.function g₁ s ps callee).frame s.name ps ∧
          (∃ l first, p.Has first ((Node.call g' s args).code (c.types[·]?) F l)) ∧
          ∀ l first, p.Has first ((Node.call g' s args).code (c.types[·]?) F l) →
            ∃ ends jal, p.CallSite (c.types[·]?) F l (.call g' s args) s.name args.children
              t.isVoid first ends jal := by
  obtain ⟨program, hc, h⟩ := compile_translated hread hcheck
  refine ⟨program, hc, fun g f params body hf g₁ s ps callee hs g' args hcall => ?_⟩
  intro F
  obtain ⟨env, e, t, g'', items, rfl, ht, hrecorded, hts, hitems, hknown⟩ := h.call hf hs hcall
  have hscalar : ∀ u ∈ ps.map Symbol.ty, u.isScalar := List.forall_mem_map.mpr (h.parameters hs).2
  refine ⟨hts.length_eq.trans (List.length_map _), h.argument_slots hs, t, hrecorded,
    fun storage => ⟨h.entry hs storage, ?_, fun l first hlines => ?_⟩⟩
  · obtain ⟨l, hin⟩ := Node.infix_programCode (c.types[·]?) hf hcall
      fun m hm => (h.accepted.parts hf m hm).1
    rw [← h.code] at hin
    obtain ⟨first, hlines⟩ := Program.has_of_infix hin storage
    exact ⟨l, first, hlines⟩
  · exact ⟨_, _, Node.call_site (Program.resolves h.code storage) hitems hknown ht hts hscalar
      hlines⟩

def innerText : String :=
  "func f(a:int,b:float):int\x7breturn a;\x7dfunc g(a:int,b:float):void\x7b\x7d" ++
    "func main():void\x7b::g(::f(1,2.0),3.0);\x7d"

def nestsCalls (types : Nat → Option Ty) : Node → Bool
  | .list _ .declarations [.function _ f [_, _] _, .function _ g [_, _] _,
      .function _ _ _ (.list _ .statements [.call i g' (.list _ .expressions
        [.call j f' (.list _ .expressions [_, _]), _])])] =>
    decide (f' = f ∧ g' = g ∧ types i.id = some .void ∧ types j.id = some .int)
  | _ => false

theorem compile_argument_slots_nested :
    ∃ root c program, readProgram innerText = .ok root ∧ checkProgram root = .ok c ∧
      compile innerText = .ok program ∧
      ∃ g f params body g₁ s ps callee i args g₂ s₂ ps₂ callee₂ j args₂,
        .function g f params body ∈ root.children ∧
        .function g₁ s ps callee ∈ root.children ∧ .call i s args ∈ body.preorder ∧
        args.children.length = 2 ∧ ps.length = 2 ∧
        .function g₂ s₂ ps₂ callee₂ ∈ root.children ∧ .call j s₂ args₂ ∈ args.children ∧
        args₂.children.length = 2 ∧ ps₂.length = 2 ∧ ∀ storage,
          let p := program.image storage
          let F := (Node.function g f params body).frame
          p.Entry (Node.function g₁ s ps callee).frame s.name ps ∧
          p.Entry (Node.function g₂ s₂ ps₂ callee₂).frame s₂.name ps₂ ∧
          (∃ l first ends jal, p.CallSite (c.types[·]?) F l (.call i s args) s.name args.children
            true first ends jal) ∧
          ∃ l first ends jal, p.CallSite (c.types[·]?) F l (.call j s₂ args₂) s₂.name args₂.children
            false first ends jal := by
  have hquiet : Faultless innerText ∧
      nestsCalls ((Checker.empty.check (Parser.ofString innerText).parse.1).types[·]?)
        (Parser.ofString innerText).parse.1 := by
    decide +kernel
  obtain ⟨hread, hcheck⟩ := hquiet.1.checked
  have hroot := hquiet.2
  obtain ⟨program, hc, h⟩ := compile_argument_slots hread hcheck
  refine ⟨_, _, program, hread, hcheck, hc, ?_⟩
  generalize Checker.empty.check _ = c at *
  unfold nestsCalls at hroot
  split at hroot
  · rename_i g₀ g₂ s₂ p₂ q₂ callee₂ g₁ s p₁ q₁ callee g f params g₃ i s' g₄ j s₂' g₅ x y z heq
    obtain ⟨rfl, rfl, hvoid, hint⟩ := of_decide_eq_true hroot
    rw [heq] at h ⊢
    have hchild {n : Node} (m : Node) (hm : m ∈ n.children) : m ∈ n.preorder :=
      Node.mem_preorder.mpr (.inr ⟨m, hm, Node.mem_preorder_self m⟩)
    have houter := hchild (n := .list g₃ .statements [.call i s' (.list g₄ .expressions
      [.call j s₂' (.list g₅ .expressions [x, y]), z])]) _ List.mem_cons_self
    have hinner := Node.mem_preorder_trans (hchild (n := .list g₄ .expressions
      [.call j s₂' (.list g₅ .expressions [x, y]), z]) _ List.mem_cons_self)
      (Node.mem_preorder_trans (hchild _ List.mem_cons_self) houter)
    obtain ⟨-, -, t, ht, hsite⟩ := h g f params _ (by simp [Node.children]) g₁ s' [p₁, q₁] callee
      (by simp [Node.children]) i _ houter
    obtain ⟨-, -, t₂, ht₂, hsite₂⟩ := h g f params _ (by simp [Node.children]) g₂ s₂' [p₂, q₂]
      callee₂ (by simp [Node.children]) j _ hinner
    obtain rfl : .void = t := Option.some.inj (hvoid.symm.trans ht)
    obtain rfl : .int = t₂ := Option.some.inj (hint.symm.trans ht₂)
    refine ⟨g, f, params, _, g₁, s', [p₁, q₁], callee, i, _, g₂, s₂', [p₂, q₂], callee₂, j, _,
      by simp [Node.children], by simp [Node.children], houter, rfl, rfl, by simp [Node.children],
      List.mem_cons_self, rfl, rfl, fun storage => ?_⟩
    obtain ⟨hentry, ⟨l, first, hlines⟩, hcode⟩ := hsite storage
    obtain ⟨hentry₂, ⟨l₂, first₂, hlines₂⟩, hcode₂⟩ := hsite₂ storage
    exact ⟨hentry, hentry₂, ⟨l, first, hcode l first hlines⟩,
      l₂, first₂, hcode₂ l₂ first₂ hlines₂⟩
  · cases hroot

end Crux
