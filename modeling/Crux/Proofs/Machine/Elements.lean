import Crux.Proofs.Emit.Names
import Crux.Proofs.Machine.Stack
import Crux.Proofs.Scope.Arrays
import Mathlib.Data.BitVec

namespace Crux

open Instr Asm Emit

/-- The bytes between neighbours in each dimension, for the extents of an array. -/
def strides : List Nat → List Nat
  | [] => []
  | _ :: ns => Ty.wordSize * ns.prod :: strides ns

def elementOffset (ns is : List Nat) : Nat := (List.zipWith (· * ·) is (strides ns)).sum

/-- The elements of an array, and theirs in turn, take less than `2 ^ 64` bytes each. -/
def Ty.elementsFit : Ty → Bool
  | .array _ element => element.room < 2 ^ 64 && element.elementsFit
  | _ => true

def elementAddress (base : Word) (ns : List Nat) (ws : List Word) : Word :=
  base + (List.zipWith (fun w k => w * .ofNat 32 k) ws (strides ns)).sum

section Strides

variable {ns is is' : List Nat} {t : Ty}

theorem getElem?_strides {m : Nat} (h : m < ns.length) :
    (strides ns)[m]? = some (Ty.wordSize * (ns.drop (m + 1)).prod) := by
  induction ns generalizing m with
  | nil => cases h
  | cons n ns ih =>
    cases m with
    | zero => rfl
    | succ m => exact ih (Nat.lt_of_succ_lt_succ h)

theorem Ty.room_foldr (h : t.isScalar) (ns : List Nat) :
    (ns.foldr array t).room = wordSize * ns.prod := by
  induction ns with
  | nil => exact room_of_isScalar h
  | cons n ns ih => rw [List.foldr_cons, room, ih, List.prod_cons, Nat.mul_left_comm]

theorem Ty.size_foldr (h : t.isScalar) (ns : List Nat) :
    (ns.foldr array t).size? = some (.ofNat (wordSize * ns.prod)) := by
  induction ns with
  | nil =>
    cases t with
    | int | float | bool => rfl
    | _ => cases h
  | cons n ns ih =>
    rw [List.foldr_cons, size?, ih, List.prod_cons, Option.map_some, ← UInt64.ofNat_mul,
      Nat.mul_left_comm]

theorem Ty.foldr_array_inj {ns' : List Nat} {t' : Ty} (ht : t.isScalar) (ht' : t'.isScalar)
    (h : ns.foldr array t = ns'.foldr array t') : ns = ns' := by
  induction ns generalizing ns' with
  | nil =>
    cases ns' with
    | nil => rfl
    | cons =>
      cases h
      cases ht
  | cons n ns ih =>
    cases ns' with
    | nil =>
      cases h
      cases ht'
    | cons n' ns' =>
      obtain ⟨rfl, htail⟩ := array.inj h
      rw [ih htail]

theorem Ty.strides_lt (h : t.isScalar) (hfit : (ns.foldr array t).elementsFit) :
    ∀ k ∈ strides ns, k < 2 ^ 64 := by
  induction ns with
  | nil => exact List.forall_mem_nil _
  | cons n ns ih =>
    rw [List.foldr_cons, elementsFit, Bool.and_eq_true, decide_eq_true_iff, room_foldr h] at hfit
    exact List.forall_mem_cons.mpr ⟨hfit.1, ih hfit.2⟩

theorem Ty.at?_foldr (h : t.isScalar) (hi : List.Forall₂ (· < ·) is ns) :
    (ns.foldr array t).at? is = some (elementOffset ns is, t) := by
  induction hi with
  | nil => rfl
  | @cons i n is ns hin _ ih =>
    rw [List.foldr_cons, at?, if_pos hin, ih, room_foldr h]
    rfl

theorem elementOffset_le (hi : List.Forall₂ (· < ·) is ns) :
    elementOffset ns is + Ty.wordSize ≤ Ty.wordSize * ns.prod := by
  have h := Ty.at?_le (Ty.at?_foldr (t := .int) rfl hi)
  rwa [Ty.room_foldr rfl] at h

theorem elementOffset_apart (hi : List.Forall₂ (· < ·) is ns) (hi' : List.Forall₂ (· < ·) is' ns)
    (hne : is ≠ is') :
    elementOffset ns is + Ty.wordSize ≤ elementOffset ns is' ∨
      elementOffset ns is' + Ty.wordSize ≤ elementOffset ns is := by
  have h := Ty.at?_foldr (t := .int) rfl hi
  have h' := Ty.at?_foldr (t := .int) rfl hi'
  have := Ty.at?_ne h h' rfl rfl hne
  have := Ty.at?_mod h
  have := Ty.at?_mod h'
  unfold Ty.wordSize at *
  omega

theorem elementAddress_ofNat (base : Word) (ns is : List Nat) :
    elementAddress base ns (is.map (.ofNat 32)) = base + .ofNat 32 (elementOffset ns is) := by
  rw [elementAddress, elementOffset, List.zipWith_map_left]
  congr 1
  generalize strides ns = ks
  induction is generalizing ks with
  | nil => simp
  | cons i is ih =>
    cases ks with
    | nil => simp
    | cons k ks => simp [ih, BitVec.ofNat_add, BitVec.ofNat_mul]

theorem toNat_elementAddress {base : Word} (hfits : base.toNat + Ty.wordSize * ns.prod ≤ 2 ^ 32)
    (hi : List.Forall₂ (· < ·) is ns) :
    (elementAddress base ns (is.map (.ofNat 32))).toNat = base.toNat + elementOffset ns is := by
  have := elementOffset_le hi
  unfold Ty.wordSize at *
  rw [elementAddress_ofNat, BitVec.toNat_add, BitVec.toNat_ofNat]
  omega

theorem zipWith_concat {α β γ : Type} (f : α → β → γ) {as : List α} {bs : List β} {b : β}
    (h : bs[as.length]? = some b) (a : α) :
    List.zipWith f (as ++ [a]) bs = List.zipWith f as bs ++ [f a b] := by
  induction as generalizing bs with
  | nil =>
    cases bs with
    | nil => cases h
    | cons =>
      cases h
      simp
  | cons _ as ih =>
    cases bs with
    | nil => cases h
    | cons _ bs => simp [ih h]

theorem elementAddress_concat (base : Word) {ws : List Word} (h : ws.length < ns.length)
    (w : Word) :
    elementAddress base ns (ws ++ [w]) = elementAddress base ns ws +
      w * .ofNat 32 (Ty.wordSize * (ns.drop (ws.length + 1)).prod) := by
  rw [elementAddress, zipWith_concat _ (getElem?_strides h), List.sum_append, List.sum_singleton,
    ← BitVec.add_assoc]
  rfl

end Strides

def Symbol.IsArrayOf (s : Symbol) (ns : List Nat) (t : Ty) : Prop :=
  s.type? = some (ns.foldr .array t) ∧ t.isScalar

theorem Symbol.not_isVariable {s : Symbol} {extent : Nat} {element t : Ty}
    (hs : s.type? = some (.array extent element)) : ¬ s.IsVariable t := by
  rintro ⟨hv, hscalar⟩
  obtain rfl := Option.some.inj (hs.symm.trans hv)
  cases hscalar

namespace Node

inductive Designates (s : Symbol) : Node → List Node → Prop
  | name {g : Tag} : Designates s (.addressOf g s) []
  | element {g : Tag} {b e : Node} {es : List Node} :
      Designates s b es → Designates s (.index g b e) (es ++ [e])

def indices? (s : Symbol) : Node → Option (List Node)
  | .addressOf _ u => if u = s then some [] else none
  | .index _ b e => (b.indices? s).map (· ++ [e])
  | _ => none

theorem designates_iff {s : Symbol} {n : Node} {es : List Node} :
    n.Designates s es ↔ n.indices? s = some es := by
  constructor
  · intro h
    induction h with
    | name => exact if_pos rfl
    | element _ ih => simp [indices?, ih]
  · intro h
    fun_induction indices? s n generalizing es with
    | case1 =>
      cases h
      exact .name
    | case2 => cases h
    | case3 g b e ih =>
      obtain ⟨es', hb, rfl⟩ := Option.map_eq_some_iff.mp h
      exact .element (ih hb)
    | case4 => cases h

def Recorded (types : Nat → Option Ty) (f : Enclosing) (n : Node) : Prop :=
  ∀ m ∈ n.preorder, ∀ t, HasType f m t → types m.id = some t

theorem Recorded.base {types : Nat → Option Ty} {f : Enclosing} {g : Tag} {b e : Node}
    (h : (index g b e).Recorded types f) : b.Recorded types f :=
  fun m hm => h m (mem_preorder.mpr (.inr ⟨b, by simp [children], hm⟩))

def indexLines (types : Nat → Option Ty) (F : Frame) : Nat → List Node → List Nat → List Line
  | l, e :: es, k :: ks =>
    e.code types F l ++ (indexCode k ++ indexLines types F (l + e.labelCount) es ks)
  | _, _, _ => []

theorem labelCountAll_concat (es : List Node) (e : Node) :
    labelCountAll (es ++ [e]) = labelCountAll es + e.labelCount := by
  induction es with
  | nil => simp [labelCountAll]
  | cons x es ih => simp [labelCountAll, ih, Nat.add_assoc]

theorem indexLines_concat {types : Nat → Option Ty} {F : Frame} {es : List Node} {k : Nat}
    {ks : List Nat} (h : ks[es.length]? = some k) (e : Node) (l : Nat) :
    indexLines types F l (es ++ [e]) ks = indexLines types F l es ks ++
      (e.code types F (l + labelCountAll es) ++ indexCode k) := by
  induction es generalizing ks l with
  | nil =>
    cases ks with
    | nil => cases h
    | cons =>
      cases h
      simp [indexLines, labelCountAll]
  | cons x es ih =>
    cases ks with
    | nil => cases h
    | cons k' ks => simp [indexLines, labelCountAll, ih h, Nat.add_assoc]

end Node

structure Core.Pushed (c : Core) (w : Word) (c' : Core) : Prop where
  sp : c'.regs .sp = c.regs .sp - 4
  top : c'.mem (c'.regs .sp) = w
  kept : c'.mem (c.regs .sp) = c.mem (c.regs .sp)

/-- The machine runs through the code of a designator, from the line `i` on, whatever word each
index pushes. In the end the property holds of these words and of the machine. The code of an index
may hold calls, which the machine does not know, so it counts only for the word that it pushes. -/
def Image.Indexes (p : Image) (types : Nat → Option Ty) (F : Frame) (l i : Nat) (c : Core)
    (n : Node) (P : List Word → Core → Prop) : Prop :=
  match n with
  | .index _ b e =>
    p.Runs ⟨i, c⟩ ⟨i + 1, c⟩ ∧
      p.Indexes types F l (i + 1) c b fun ws a => ∀ w a', a.Pushed w a' →
        ∃ c', p.Runs
          ⟨i + 1 + (b.code types F l).length + (e.code types F (l + b.labelCount)).length, a'⟩
          ⟨i + (n.code types F l).length, c'⟩ ∧ P (ws ++ [w]) c'
  | _ => ∃ c', p.Runs ⟨i, c⟩ ⟨i + (n.code types F l).length, c'⟩ ∧ P [] c'

namespace Core

variable {c a : Core} {x y : Word}

theorem exec_popInt (storage : Label → Word) (ha : Aligned (c.regs .sp)) {r : Reg} (hr : r ≠ .sp) :
    ∃ c', execAll storage (popInt r) c = some c' ∧ c'.regs .sp = c.regs .sp + 4 ∧
      c'.regs r = c.mem (c.regs .sp) ∧ c'.mem = c.mem ∧
      ∀ q, q ≠ r → q ≠ .sp → c'.regs q = c.regs q := by
  refine ⟨(c.set r (c.mem (c.regs .sp))).set .sp (c.regs .sp + 4), ?_, by simp, by simp [hr], rfl,
    fun q hq hsp => by simp [hq, hsp]⟩
  simp [popInt, execAll, Instr.exec, Line.plain, ha, Ne.symm hr]

theorem exec_pushInt (storage : Label → Word) (ha : Aligned (c.regs .sp)) {r : Reg} (hr : r ≠ .sp) :
    ∃ c', execAll storage (pushInt r) c = some c' ∧ c'.regs .sp = c.regs .sp - 4 ∧
      c'.mem (c'.regs .sp) = c.regs r := by
  have ha' : Aligned (c.regs .sp - 4#32) := ha.sub_word
  refine ⟨(c.set .sp (c.regs .sp - 4)).write (c.regs .sp - 4) (c.regs r), ?_, by simp, by simp⟩
  simp [pushInt, execAll, Instr.exec, Line.plain, ha', hr]

theorem Pushed.exec_indexCode (h : c.Pushed y a) (ha : Aligned (c.regs .sp))
    (hx : c.mem (c.regs .sp) = x) (storage : Label → Word) (bytes : Nat) :
    ∃ c', execAll storage (indexCode bytes) a = some c' ∧ c'.regs .sp = c.regs .sp ∧
      c'.mem (c'.regs .sp) = x + y * .ofNat 32 bytes := by
  obtain ⟨hsp, htop, hkept⟩ := h
  obtain ⟨c₁, e₁, hsp₁, hy₁, hm₁, -⟩ := exec_popInt storage (hsp ▸ ha.sub_word) (r := .t2)
    (by decide)
  rw [hsp, BitVec.sub_add_cancel] at hsp₁
  obtain ⟨c₂, e₂, hsp₂, hx₂, -, hk⟩ := exec_popInt storage (hsp₁ ▸ ha) (r := .t1) (by decide)
  have hy₂ : c₂.regs .t2 = y := by rw [hk .t2 (by decide) (by decide), hy₁, htop]
  have hx₂ : c₂.regs .t1 = x := by rw [hx₂, hm₁, hsp₁, hkept, hx]
  let d := ((c₂.set .t3 (.ofNat 32 bytes)).set .t2 (y * .ofNat 32 bytes)).set .t1
    (x + y * .ofNat 32 bytes)
  have hd : d.regs .sp = c.regs .sp + 4 := hsp₂.trans (by rw [hsp₁])
  obtain ⟨c₃, e₃, hsp₃, htop₃⟩ := exec_pushInt storage (hd ▸ ha.add_word) (r := .t1) (by decide)
  refine ⟨c₃, ?_, ?_, by simpa [d] using htop₃⟩
  · simp [indexCode, execAll_append, e₁, e₂, execAll, Line.plain, Instr.exec, WordOp.onWords,
      hx₂, hy₂, ← e₃, d]
  · rw [hsp₃, hd]
    exact BitVec.add_sub_cancel ..

end Core

namespace Node.Designates

variable {types : Nat → Option Ty} {F : Frame} {f : Enclosing} {n : Node} {s : Symbol}
  {es : List Node} {ns : List Nat} {t u : Ty}

theorem labelCount_eq (h : n.Designates s es) : n.labelCount = labelCountAll es := by
  induction h with
  | name => rfl
  | element _ ih => rw [labelCount, ih, labelCountAll_concat]

theorem hasType (h : n.Designates s es) (hs : s.IsArrayOf ns u) (ht : HasType f n t) :
    es.length ≤ ns.length ∧ t = .address ((ns.drop es.length).foldr .array u) := by
  obtain ⟨hs, hu⟩ := hs
  induction h generalizing t with
  | name =>
    cases ht with
    | addressOf hs' =>
      rw [Option.some.inj (hs'.symm.trans hs)]
      exact ⟨Nat.zero_le _, rfl⟩
  | @element g b e es h ih =>
    cases ht with
    | index hb he =>
      obtain ⟨hle, hty⟩ := ih hb
      rw [List.length_append, List.length_singleton]
      cases hd : ns.drop es.length with
      | nil =>
        rw [hd] at hty
        cases hty
        cases hu
      | cons k rest =>
        rw [hd] at hty
        cases hty
        have hlen := congrArg List.length hd
        rw [List.length_drop, List.length_cons] at hlen
        rw [← List.drop_drop, hd]
        exact ⟨by omega, rfl⟩

theorem elementBytes_eq {g : Tag} {b e : Node} (h : b.Designates s es) (hs : s.IsArrayOf ns u)
    (hfit : ∀ k ∈ strides ns, k < 2 ^ 64) (ht : HasType f (.index g b e) t)
    (hr : (Node.index g b e).Recorded types f) :
    es.length < ns.length ∧ (Node.index g b e).elementBytes types =
      Ty.wordSize * (ns.drop (es.length + 1)).prod := by
  have hty := hr _ (mem_preorder_self _) t ht
  obtain ⟨hle, rfl⟩ := (element h).hasType hs ht
  rw [List.length_append, List.length_singleton] at hle hty
  refine ⟨hle, ?_⟩
  rw [elementBytes, hty]
  show Ty.room _ % _ = _
  rw [Ty.room_foldr hs.2]
  exact Nat.mod_eq_of_lt (hfit _ (List.mem_of_getElem? (getElem?_strides hle)))

theorem unmarked_code (h : n.Designates s es) (hs : s.IsArrayOf ns u)
    (hfit : ∀ k ∈ strides ns, k < 2 ^ 64) (ht : HasType f n t) (hr : n.Recorded types f)
    (l : Nat) :
    unmarked (n.code types F l) = .plain (F.address .t1 s) :: (pushInt .t1 ++
      unmarked (indexLines types F l es (strides ns))) := by
  induction h generalizing t with
  | name =>
    rw [code, unmarked_wrap]
    rfl
  | @element g b e es h ih =>
    obtain ⟨hlt, hbytes⟩ := h.elementBytes_eq hs hfit ht hr
    cases ht with
    | index hb he =>
      rw [code, unmarked_wrap, unmarked_append, ih hb hr.base, h.labelCount_eq, hbytes,
        indexLines_concat (getElem?_strides hlt)]
      simp

/-- Whatever the indices push, the code of a designator leaves the address of the element. -/
theorem indexes {p : Image} {l i : Nat} {c : Core} {P : List Word → Core → Prop}
    (h : n.Designates s es) (hs : s.IsArrayOf ns u) (hfit : ∀ k ∈ strides ns, k < 2 ^ 64)
    (ht : HasType f n t) (hr : n.Recorded types f) (hp : p.Has i (n.code types F l))
    (ha : Aligned (c.regs .sp))
    (hP : ∀ ws c', ws.length = es.length → c'.regs .sp = c.regs .sp - 4 →
      c'.mem (c'.regs .sp) = elementAddress (F.locate p.storage (c.regs .fp) s) ns ws → P ws c') :
    p.Indexes types F l i c n P := by
  -- The induction is over the indices, so the property is taken for all prefixes of them.
  induction h generalizing t i P with
  | name =>
    rw [code] at hp
    obtain ⟨c', e, hsp, htop⟩ := Core.exec_pushInt (r := .t1) p.storage
      (c := c.set .t1 (F.locate p.storage (c.regs .fp) s)) (by simpa) (by decide)
    have hrun : execAll p.storage (.plain (F.address .t1 s) :: pushInt .t1) c = some c' := by
      simp [execAll, Line.plain, F.exec_address, e]
    refine ⟨c', ?_, hP [] c' rfl (by simpa using hsp) (by simp [htop, elementAddress])⟩
    rw [code]
    exact hp.runs_wrap rfl ((hp.unwrap rfl).1.runs hrun)
  | @element g b e es h ih =>
    obtain ⟨hlt, hbytes⟩ := h.elementBytes_eq hs hfit ht hr
    cases ht with
    | index hb he =>
      rw [code] at hp
      obtain ⟨hin, hopen, hclose⟩ := hp.unwrap rfl
      refine ⟨.one (hopen c), ih hb hr.base hin.left fun ws a hlen hsp htop w a' hpush => ?_⟩
      obtain ⟨c', hexec, hsp', htop'⟩ := hpush.exec_indexCode (hsp ▸ ha.sub_word) htop p.storage
        ((Node.index g b e).elementBytes types)
      refine ⟨c', ?_, hP _ _ (by simp [hlen]) (hsp'.trans hsp) ?_⟩
      · have hend := hclose c'
        rw [List.length_append, List.length_append, ← Nat.add_assoc, ← Nat.add_assoc] at hend
        rw [code]
        exact (hin.right.right.runs hexec).trans hend
      · rw [htop', hbytes, ← hlen, elementAddress_concat _ (hlen ▸ hlt)]

theorem isArray (h : n.Designates s es) (hne : es ≠ []) (ht : HasType f n t) :
    ∃ extent element, s.type? = some (.array extent element) := by
  induction h generalizing t with
  | name => exact absurd rfl hne
  | element h ih =>
    cases ht with
    | index hb =>
      cases h with
      | name =>
        cases hb with
        | addressOf hs => exact ⟨_, _, hs⟩
      | element => exact ih (by simp) hb

theorem addressOf_mem (h : n.Designates s es) : ∃ g, .addressOf g s ∈ n.preorder := by
  induction h with
  | @name g => exact ⟨g, mem_preorder_self _⟩
  | @element g b e es _ ih =>
    obtain ⟨g', hb⟩ := ih
    exact ⟨g', mem_preorder.mpr (.inr ⟨b, by simp [children], hb⟩)⟩

end Node.Designates

namespace Node

theorem Scoped.exists_designates {env : Env} {n : Node} (h : Scoped .address env n) :
    ∃ s es, n.Designates s es := by
  generalize hr : Role.address = role at h
  induction h with
  | addressOf => exact ⟨_, _, .name⟩
  | index _ _ ih =>
    obtain ⟨s, es, hd⟩ := ih hr
    exact ⟨s, _, .element hd⟩
  | _ => cases hr

variable {types : Nat → Option Ty} {program : Program} {root body n : Node} {g : Tag} {f s : Symbol}
  {params : List Symbol} {ns : List Nat} {t : Ty}

theorem WellTyped.isArray (h : root.WellTyped) (hn : .array g s ∈ root.preorder) :
    ∃ t, s.IsArray t := by
  have hroot : root.isList := by
    cases h
    rfl
  obtain rfl | ⟨k, hk, hn⟩ := mem_preorder.mp hn
  · cases hroot
  obtain ⟨t, ht⟩ := h.declares hk
  cases ht with
  | var _ =>
    obtain e | ⟨_, hc, _⟩ := mem_preorder.mp hn
    · cases e
    · cases hc
  | array hs =>
    obtain e | ⟨_, hc, _⟩ := mem_preorder.mp hn
    · cases e
      exact ⟨_, hs⟩
    · cases hc
  | function _ _ _ _ hitems =>
    obtain e | ⟨_, hc, hn⟩ := mem_preorder.mp hn
    · cases e
    · cases List.mem_singleton.mp hc
      obtain ⟨t, ht⟩ := ((HasTypes.row hitems).part _ hn).hasType rfl
      cases ht with
      | array hs => exact ⟨_, hs⟩

theorem WellTyped.isArrayOf {a : ArrayPhrase} (h : root.WellTyped)
    (hn : .array g s ∈ root.preorder) (hs : s.type? = some a.ty) :
    s.IsArrayOf a.extents a.element := by
  obtain ⟨t, ht, -, hscalar⟩ := h.isArray hn
  obtain rfl := Option.some.inj (hs.symm.trans ht)
  obtain ⟨hty, helement⟩ := ArrayPhrase.ty_eq hscalar
  exact ⟨hs.trans (congrArg some hty), helement⟩

theorem HasTypes.array_of_declares {e : Enclosing} {extent : Nat} {element : Ty}
    (h : n.HasTypes e) (hin : n.InBody) (hs : s ∈ n.declares)
    (ht : s.type? = some (.array extent element)) : ∃ g, n = .array g s := by
  cases n with
  | var g u =>
    cases List.mem_singleton.mp hs
    obtain ⟨_, hv⟩ := h.hasType rfl
    cases hv with
    | var hv => exact absurd hv (Symbol.not_isVariable ht)
  | array g u =>
    cases List.mem_singleton.mp hs
    exact ⟨g, rfl⟩
  | function => exact hin.elim
  | _ => cases hs

theorem Declares.array_of_stored {extent : Nat} {element : Ty} (h : n.Declares t)
    (hs : s ∈ n.stored) (ht : s.type? = some (.array extent element)) : ∃ g, n = .array g s := by
  cases h with
  | var hv =>
    cases List.mem_singleton.mp hs
    exact absurd hv (Symbol.not_isVariable ht)
  | array =>
    cases List.mem_singleton.mp hs
    exact ⟨_, rfl⟩
  | function => cases hs

/-- The bytes at the address that a function finds for a variable are kept for it, in storage of
their own or in the frame of the function. -/
def Reserves (program : Program) (function : Node) (s : Symbol) (size : Nat) : Prop :=
  (.space (.global s.name) size ∈ program.data ∧
    ∀ storage fp, function.frame.locate storage fp s = storage (.global s.name)) ∨
  ∃ o, o + size ≤ function.frame.size.toNat ∧
    ∀ storage fp, function.frame.locate storage fp s = fp - .ofNat 32 (savedBytes + o + size)

theorem WellTyped.room_lt (h : root.WellTyped) (hfit : root.SizesFit)
    (hn : .array g s ∈ root.preorder) : s.ty.room < 2 ^ 64 := by
  obtain rfl | ⟨n, hn, hm⟩ := mem_preorder.mp hn
  · cases h
  · exact hfit.room_lt hn hm (List.mem_singleton_self s)

section Variables

variable (h : root.Translated types program) (hf : .function g f params body ∈ root.children)
include h hf

theorem Translated.scalar_params : ∀ p ∈ params, p.ty.isScalar := by
  obtain ⟨_, hfun⟩ := h.typed.declares hf
  cases hfun with
  | function _ _ hp => exact hp

theorem Translated.mem_variables (hn : n ∈ body.preorder) {es : List Node}
    (hd : n.Designates s es) {extent : Nat} {element : Ty} (hs : s.ty = .array extent element) :
    s ∈ root.variables (.function g f params body) ∧ s ∉ params := by
  constructor
  · obtain ⟨g', haddress⟩ := hd.addressOf_mem
    obtain hvar | ⟨_, _, hfun⟩ := (h.accepted.parts hf _ (mem_preorder_trans haddress hn)).2
    · exact hvar
    · cases hs.symm.trans hfun
  · intro hp
    have := h.scalar_params hf s hp
    rw [hs] at this
    cases this

theorem Translated.reserves (hfit : root.SizesFit) (hn : n ∈ body.preorder) {es : List Node}
    (hd : n.Designates s es) (hs : s.IsArrayOf ns t) (hne : ns ≠ []) :
    Reserves program (.function g f params body) s (Ty.wordSize * ns.prod) := by
  obtain ⟨hty, hscalar⟩ := hs
  have hty := Symbol.ty_eq hty
  obtain ⟨k, ns, rfl⟩ := List.exists_cons_of_ne_nil hne
  obtain ⟨hvar, hparam⟩ := h.mem_variables hf hn hd hty
  have hsize : ∀ p ∈ params, p.ty.size?.isSome := fun p hp =>
    Option.isSome_of_eq_some (Ty.size_foldr (h.scalar_params hf p hp) [])
  obtain ⟨hs, -⟩ | ⟨hs, hl⟩ | ⟨hs, hl⟩ :=
    locate_cases hsize (h.accepted.nodup_variables hf) hvar
  · exact absurd hs hparam
  · have hle := Symbol.offset_le hs
    have hsum := hfit _ hf
    rw [declaredVariables_function,
      declaredVariables_eq fun m hm => (h.accepted.parts hf m hm).1] at hsum
    rw [hty, Ty.room_foldr hscalar] at hle hl
    refine .inr ⟨s.offset body.declared, ?_, fun storage fp => ?_⟩
    · rwa [frame_size, UInt64.toNat_ofNat_of_lt' hsum]
    · rw [hl, Nat.add_comm, Nat.add_assoc]
  · refine .inl ⟨?_, hl⟩
    obtain ⟨m, hm, hsm⟩ := List.mem_flatMap.mp hs
    have hroom := hfit.room_lt hm (mem_preorder_self m) hsm
    rw [h.data, flatMap_unitData, ← Ty.room_foldr hscalar, ← hty]
    exact List.mem_map.mpr ⟨s, hs, by rw [Nat.mod_eq_of_lt hroom]⟩

theorem Translated.exists_array {g' : Tag} {b e : Node} (hn : .index g' b e ∈ body.preorder) :
    ∃ s es g₁, (Node.index g' b e).Designates s es ∧ .array g₁ s ∈ root.arrays := by
  obtain ⟨s, es, hd⟩ : ∃ s es, (Node.index g' b e).Designates s es := by
    obtain ⟨role, env, hscoped⟩ := h.accepted.fits.part _ (mem_preorder_of_body hf hn)
    cases hscoped with
    | index hb he => exact (Scoped.index hb he).exists_designates
    | «local» hdecl => cases hdecl
  obtain ⟨ps, result, -, -, -, -, hbody⟩ := h.typed.function_body hf
  obtain ⟨t, ht⟩ := (hbody.part _ hn).hasType rfl
  obtain ⟨extent, element, hs⟩ := hd.isArray (by cases hd; simp) ht
  obtain ⟨hvar, hparam⟩ := h.mem_variables hf hn hd (Symbol.ty_eq hs)
  rw [Node.variables, List.append_assoc] at hvar
  obtain hvar | hvar := List.mem_append.mp ((List.mem_append.mp hvar).resolve_left hparam)
  · obtain ⟨m, hm, hsm⟩ := List.mem_flatMap.mp hvar
    obtain ⟨g₁, rfl⟩ := (hbody.part m hm).array_of_declares (h.accepted.parts hf m hm).1 hsm hs
    exact ⟨s, es, g₁, hd, List.mem_filter.mpr ⟨mem_preorder_of_body hf hm, rfl⟩⟩
  · obtain ⟨m, hm, hsm⟩ := List.mem_flatMap.mp hvar
    obtain ⟨_, hm'⟩ := h.typed.declares hm
    obtain ⟨g₁, rfl⟩ := hm'.array_of_stored hsm hs
    exact ⟨s, es, g₁, hd, List.mem_filter.mpr
      ⟨mem_preorder.mpr (.inr ⟨_, hm, mem_preorder_self _⟩), rfl⟩⟩

end Variables

end Node

/-- A program keeps an array of these extents in row-major order. The elements are different words
of its storage, and the code of a designator scales each index, from the first to the last, by the
bytes that the extents behind it take, so that it leaves the address of the element. -/
structure Symbol.RowMajor (types : Nat → Option Ty) (program : Program) (root : Node) (s : Symbol)
    (ns : List Nat) : Prop where
  size : ∃ bytes, s.ty.size? = some bytes ∧ bytes.toNat = Ty.wordSize * ns.prod
  inside : ∀ is, List.Forall₂ (· < ·) is ns →
    elementOffset ns is + Ty.wordSize ≤ Ty.wordSize * ns.prod
  apart : ∀ is is', List.Forall₂ (· < ·) is ns → List.Forall₂ (· < ·) is' ns → is ≠ is' →
    elementOffset ns is + Ty.wordSize ≤ elementOffset ns is' ∨
      elementOffset ns is' + Ty.wordSize ≤ elementOffset ns is
  address : ∀ (base : Word) is, base.toNat + Ty.wordSize * ns.prod ≤ 2 ^ 32 →
    List.Forall₂ (· < ·) is ns →
    (elementAddress base ns (is.map (.ofNat 32))).toNat = base.toNat + elementOffset ns is
  designator : ∀ g f params body, .function g f params body ∈ root.children → ∀ n ∈ body.preorder,
    ∀ es, n.Designates s es →
    let F := (Node.function g f params body).frame
    es.length ≤ ns.length ∧
    Node.Reserves program (.function g f params body) s (Ty.wordSize * ns.prod) ∧
    ∀ storage,
      let p := program.image storage
      (∃ l i, p.Has i (n.code types F l)) ∧
      ∀ l i, p.Has i (n.code types F l) →
        unmarked (n.code types F l) = .plain (F.address .t1 s) :: (pushInt .t1 ++
          unmarked (Node.indexLines types F l es (strides ns))) ∧
        ∀ c : Core, Aligned (c.regs .sp) → p.Indexes types F l i c n fun ws c' =>
          ws.length = es.length ∧ c'.regs .sp = c.regs .sp - 4 ∧
            c'.mem (c'.regs .sp) = elementAddress (F.locate storage (c.regs .fp) s) ns ws

theorem Node.Translated.rowMajor {types : Nat → Option Ty} {program : Program} {root : Node}
    {s : Symbol} {ns : List Nat} {t : Ty} (h : root.Translated types program)
    (hfit : root.SizesFit) (hs : s.IsArrayOf ns t) (hne : ns ≠ []) (hroom : s.ty.room < 2 ^ 64)
    (helements : s.ty.elementsFit) : s.RowMajor types program root ns where
  size := by
    rw [Symbol.ty_eq hs.1, Ty.room_foldr hs.2] at hroom
    exact ⟨_, by rw [Symbol.ty_eq hs.1, Ty.size_foldr hs.2], UInt64.toNat_ofNat_of_lt' hroom⟩
  inside is hi := elementOffset_le hi
  apart is is' hi hi' := elementOffset_apart hi hi'
  address base is hfits hi := toNat_elementAddress hfits hi
  designator g f params body hf n hn es hd := by
    obtain ⟨ps, result, -, -, hfun, -, hbody⟩ := h.typed.function_body hf
    obtain ⟨u, hu⟩ := (hbody.part n hn).hasType (by cases hd <;> rfl)
    have hr : n.Recorded types ⟨f.name, result⟩ := fun m hm u hu =>
      h.recorded m u (.part hf hfun (mem_preorder_trans hm hn) hu)
    rw [Symbol.ty_eq hs.1] at helements
    have hstrides := Ty.strides_lt hs.2 helements
    refine ⟨(hd.hasType hs hu).1, h.reserves hf hfit hn hd hs hne,
      fun storage => ⟨?_, fun l i hl => ?_⟩⟩
    · obtain ⟨l, hin⟩ := Node.infix_programCode types hf hn fun k hk => (h.accepted.parts hf k hk).1
      rw [← h.code] at hin
      obtain ⟨i, hl⟩ := Program.has_of_infix hin storage
      exact ⟨l, i, hl⟩
    · exact ⟨hd.unmarked_code hs hstrides hu hr l, fun c ha =>
        hd.indexes hs hstrides hu hr hl ha fun ws c' hlen hsp htop => ⟨hlen, hsp, htop⟩⟩

/-- In a text that is read and checked without a report, each array that it declares lies in
row-major order, by the extents that stand in the text, and each index in a function is one into
such an array. No size may reach `2 ^ 64`, also not that of the elements of an empty array. -/
theorem compile_row_major {source : String} {root : Node} {c : Checker}
    (hread : readProgram source = .ok root) (hcheck : checkProgram root = .ok c)
    (hfit : root.SizesFit) (helements : ∀ n ∈ root.arrays, ∀ s ∈ n.declares, s.ty.elementsFit) :
    ∃ program, compile source = .ok program ∧
      (∃ ph : ProgramPhrase, (Cursor.ofString source).tokens = ph.tokens) ∧
      (∀ ph : ProgramPhrase, (Cursor.ofString source).tokens = ph.tokens →
        List.Forall₂ (fun a n => ∃ g s, n = .array g s ∧ g.pos = a.start.val.pos ∧
          s.name = a.ident.val.lexeme ∧ s.IsArrayOf a.extents a.element ∧
          s.RowMajor (c.types[·]?) program root a.extents) ph.arrays root.arrays) ∧
      ∀ g f params body, .function g f params body ∈ root.children →
        ∀ g' b e, .index g' b e ∈ body.preorder →
          ∃ s es g₁, (Node.index g' b e).Designates s es ∧ .array g₁ s ∈ root.arrays := by
  obtain ⟨program, hc, h⟩ := compile_translated hread hcheck
  obtain ⟨hp, rfl⟩ := readProgram_ok hread
  have hq : (Parser.ofString source).parse.2.diagnostics = [] := by
    simpa [Parser.hasError] using hp
  obtain ⟨ph, htext, -⟩ := Parser.exists_phrase hq
  refine ⟨program, hc, ⟨ph, htext⟩, fun ph htext => ?_,
    fun g f params body hf g' b e hn => h.exists_array hf hn⟩
  obtain ⟨hlen, hmakes⟩ := List.forall₂_iff_zip.mp (Parser.parse_arrays htext hq)
  refine List.forall₂_iff_zip.mpr ⟨hlen, fun hmem => ?_⟩
  obtain ⟨g, s, rfl, hpos, hname, hty⟩ := hmakes hmem
  have hn := (List.of_mem_zip hmem).2
  have hs := h.typed.isArrayOf (List.mem_filter.mp hn).1 hty
  exact ⟨g, s, rfl, hpos, hname, hs, h.rowMajor hfit hs (List.cons_ne_nil _ _)
    (h.typed.room_lt hfit (List.mem_filter.mp hn).1) (helements _ hn s (List.mem_singleton_self s))⟩

def gridText : String :=
  "func f():int\x7breturn 1;\x7darray a:int[2][3];func main():void\x7blet a[::f()][2]=7;\x7d"

theorem compile_row_major_grid :
    ∃ root c program, readProgram gridText = .ok root ∧ checkProgram root = .ok c ∧
      compile gridText = .ok program ∧
      ∃ g s, .array g s ∈ root.arrays ∧ s.name = "a" ∧ s.type? = some (.array 2 (.array 3 .int)) ∧
        s.RowMajor (c.types[·]?) program root [2, 3] ∧ elementOffset [2, 3] [1, 2] = 20 ∧
        ∃ g' f params body, .function g' f params body ∈ root.children ∧
          ∃ n ∈ body.preorder, ∃ es, n.Designates s es ∧ es.length = 2 := by
  have hquiet : Faultless gridText ∧ (Parser.ofString gridText).parse.1.SizesFit ∧
      (∀ n ∈ (Parser.ofString gridText).parse.1.arrays, ∀ s ∈ n.declares, s.ty.elementsFit) ∧
      (Parser.ofString gridText).parse.1.arrays.any fun n =>
      n.declares.any fun s => s.name == "a" && (s.type? == some (.array 2 (.array 3 .int)) &&
        (Parser.ofString gridText).parse.1.children.any fun n => n.function?.any fun x =>
          x.2.preorder.any fun n => (n.indices? s).any (·.length == 2)) := by
    decide +kernel
  obtain ⟨hquiet, hfit, helements, hany⟩ := hquiet
  obtain ⟨hread, hcheck⟩ := hquiet.checked
  obtain ⟨program, hc, ⟨ph, htext⟩, h, -⟩ := compile_row_major hread hcheck hfit helements
  have hall := h ph htext
  obtain ⟨n, hn, hany⟩ := List.any_eq_true.mp hany
  obtain ⟨k, hk, hget⟩ := List.getElem_of_mem hn
  obtain ⟨g, s, e, -, -, ⟨hty, hscalar⟩, hrow⟩ := hall.get (hall.length_eq ▸ hk) hk
  obtain rfl : n = .array g s := hget.symm.trans e
  obtain ⟨u, hu, hany⟩ := List.any_eq_true.mp hany
  cases List.mem_singleton.mp hu
  simp only [Bool.and_eq_true, beq_iff_eq] at hany
  obtain ⟨hname, htype, hany⟩ := hany
  obtain ⟨g', f, params, body, hf, hany⟩ := Node.exists_function_of_any hany
  obtain ⟨n, hnb, hany⟩ := List.any_eq_true.mp hany
  obtain ⟨es, hes, hlen⟩ := (Option.any_eq_true _ _).mp hany
  have hns : [2, 3] = _ := Ty.foldr_array_inj (t := .int) rfl hscalar
    (Option.some.inj (htype.symm.trans hty))
  rw [← hns] at hrow
  exact ⟨_, _, program, hread, hcheck, hc, g, s, hn, hname, htype, hrow, rfl, g', f, params, body,
    hf, n, hnb, es, Node.designates_iff.mpr hes, eq_of_beq hlen⟩

end Crux
