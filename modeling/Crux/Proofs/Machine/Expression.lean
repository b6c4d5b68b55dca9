import Crux.Proofs.Machine.Stack
import Crux.Proofs.Scope.Variables
import Crux.Proofs.Typing.Values

namespace Crux

open Instr Asm Emit

namespace Node

mutual
def depth : Node → Nat
  | .int .. | .bool .. | .addressOf .. => 1
  | .dereference _ a | .not _ a => a.depth
  | .index _ a b | .binary _ _ a b | .compare _ _ a b | .assign _ a b => max a.depth (b.depth + 1)
  | .branch _ a b c => max a.depth (max b.depth c.depth)
  | .loop _ a b => max a.depth b.depth
  | .list _ _ items => depthAll items
  | _ => 0

def depthAll : List Node → Nat
  | [] => 0
  | n :: rest => max n.depth (depthAll rest)
end

variable {types : Nat → Option Ty} {S : Store} {n : Node}

theorem hasFloat_of_eval {v : Value} (ht : n.Typed types) (h : n.eval S = some v) :
    n.hasFloat types = false := by
  have hl : n.isList = false := by
    cases n with
    | list => cases h
    | _ => rfl
  obtain ⟨e, he⟩ := ht hl
  rw [hasFloat, he, infer_eval h]
  cases v <;> rfl

theorem place_spec {q : Place} (h : n.place S = some q) :
    (∃ o, q.symbol.ty.at? q.path = some (o, q.ty)) ∧ ∃ g, .addressOf g q.symbol ∈ n.preorder := by
  induction n using children_induction generalizing q with
  | step n ih =>
    cases n with
    | addressOf g s =>
      cases h
      exact ⟨⟨0, rfl⟩, g, mem_preorder_self _⟩
    | index g b a =>
      obtain ⟨p, hp, h⟩ := Option.bind_eq_some_iff.mp h
      obtain ⟨v, hv, h⟩ := Option.bind_eq_some_iff.mp h
      obtain ⟨i, extent, rfl, ht, hi, hlt, hs, hpath⟩ := Place.element?_eq_some h
      obtain ⟨⟨o, ho⟩, g, hg⟩ := ih b (by simp [children]) hp
      rw [ht] at ho
      rw [hs, hpath]
      exact ⟨⟨_, Ty.at?_append ho (by omega)⟩, g,
        mem_preorder.mpr (.inr ⟨b, by simp [children], hg⟩)⟩
    | _ => cases h

theorem elementBytes_of_place {g : Tag} {b a : Node} {q : Place}
    (ht : Typed types (.index g b a)) (h : place S (.index g b a) = some q) :
    elementBytes types (.index g b a) = q.ty.room % 2 ^ 64 := by
  have hp : q.path ≠ [] := by
    obtain ⟨p, -, h⟩ := Option.bind_eq_some_iff.mp h
    obtain ⟨v, -, h⟩ := Option.bind_eq_some_iff.mp h
    obtain ⟨i, -, -, -, -, -, -, hpath⟩ := Place.element?_eq_some h
    simp [hpath]
  obtain ⟨e, he⟩ := ht rfl
  rw [elementBytes, he, infer_place h fun e => absurd e hp]

theorem symbol_mem_of_place {vars : List Symbol} {q : Place} {v : Value}
    (h : n.place S = some q) (hu : ∀ m ∈ n.preorder, m.UsesVar vars) (hv : v.ty = q.ty) :
    q.symbol ∈ vars := by
  obtain ⟨⟨o, ho⟩, g, hg⟩ := place_spec h
  obtain hs | ⟨params, result, hs⟩ := hu _ hg
  · exact hs
  · rw [hs, ← hv] at ho
    cases hp : q.path with
    | nil =>
      rw [hp] at ho
      obtain ⟨-, e⟩ := Prod.mk.inj (Option.some.inj ho)
      cases v <;> cases e
    | cons i path =>
      rw [hp] at ho
      cases ho

end Node

def Frame.Denotes (f : Frame) (storage : Label → Word) (fp : Word) (S : Store) (n : Node)
    (w : Word) : Prop :=
  (∃ v, n.eval S = some v ∧ w = v.word) ∨
    ∃ q o, n.place S = some q ∧ q.symbol.ty.at? q.path = some (o, q.ty) ∧
      w = f.locate storage fp q.symbol + .ofNat 32 o

namespace Layout

variable {f : Frame} {storage : Label → Word} (L : Layout f storage)

def Denotes (S : Store) (n : Node) (w : Word) : Prop := f.Denotes storage L.fp S n w

structure Stands (S : Store) (c : Core) : Prop where
  aligned : Aligned (c.regs .sp)
  fp : c.regs .fp = L.fp
  top : (c.regs .sp).toNat ≤ L.top
  holds : L.Holds S c.mem

variable {L} {S : Store} {c : Core}

theorem Denotes.value {n : Node} {w : Word} (h : L.Denotes S n w) (hn : n.place S = none) :
    ∃ v, n.eval S = some v ∧ w = v.word := by
  obtain h | ⟨q, o, hq, -⟩ := h
  · exact h
  · rw [hn] at hq
    cases hq

theorem Denotes.place {n : Node} {w : Word} (h : L.Denotes S n w) (hn : n.eval S = none) :
    ∃ q o, n.place S = some q ∧ q.symbol.ty.at? q.path = some (o, q.ty) ∧
      w = L.address q.symbol o := by
  obtain ⟨v, hv, -⟩ | h := h
  · rw [hn] at hv
    cases hv
  · exact h

theorem Stands.load (h : L.Stands S c) {q : Place} {v : Value} {o : Nat} (hs : q.symbol ∈ L.vars)
    (ho : q.symbol.ty.at? q.path = some (o, q.ty)) (hv : S.get? q = some v) :
    Aligned (L.address q.symbol o) ∧
      ((L.address q.symbol o).toNat < L.low ∨
        (c.regs .sp).toNat ≤ (L.address q.symbol o).toNat) ∧
      c.mem (L.address q.symbol o) = v.word := by
  obtain ⟨rfl, ht⟩ := Store.get?_eq_some hv
  rw [← ht] at ho
  have hc := address_clear hs ho (Value.isScalar_ty _)
  have := h.top
  exact ⟨aligned_address hs ho (Value.isScalar_ty _), by omega, h.holds _ hs _ _ _ ho⟩

end Layout

/-- Wherever the code of the node stands, and whatever operands wait below, running the code pushes
the word that the node denotes. -/
def Image.Pushes (p : Image) {f : Frame} (L : Layout f p.storage) (types : Nat → Option Ty)
    (S : Store) (c₀ : Core) (n : Node) : Prop :=
  ∀ ⦃w : Word⦄ ⦃ws : List Word⦄ ⦃c : Core⦄ ⦃i l : Nat⦄, L.Denotes S n w →
    p.Has i (n.code types f l) → c₀.Stacked L.low ws c →
    L.low + 4 * (ws.length + n.depth) ≤ (c₀.regs .sp).toNat →
    ∃ c', p.Runs ⟨i, c⟩ ⟨i + (n.code types f l).length, c'⟩ ∧ c₀.Stacked L.low (w :: ws) c'

namespace Image.Pushes

variable {p : Image} {f : Frame} {L : Layout f p.storage} {types : Nat → Option Ty} {S : Store}
  {c₀ : Core} {g : Tag} {a b : Node}

theorem int (v : Int32) (hsp : Aligned (c₀.regs .sp)) : p.Pushes L types S c₀ (.int g v) := by
  intro w ws c i l hd hp hc hl
  obtain ⟨_, hv, rfl⟩ := hd.value rfl
  cases hv
  rw [Node.code] at hp ⊢
  have hx : (li .t1 v.toInt).exec p.storage c = some (c.set .t1 v.toBitVec, none) := by
    rw [Instr.exec, ← Int32.toInt_toBitVec, BitVec.ofInt_toInt]
  exact hp.pushOne rfl hx hc hsp hl

theorem bool (v : Bool) (hsp : Aligned (c₀.regs .sp)) : p.Pushes L types S c₀ (.bool g v) := by
  intro w ws c i l hd hp hc hl
  obtain ⟨_, hv, rfl⟩ := hd.value rfl
  cases hv
  rw [Node.code] at hp ⊢
  have hx : (li .t1 (if v then 1 else 0)).exec p.storage c =
      some (c.set .t1 (Value.bool v).word, none) := by
    cases v <;> rfl
  exact hp.pushOne rfl hx hc hsp hl

theorem addressOf (s : Symbol) (hS : L.Stands S c₀) : p.Pushes L types S c₀ (.addressOf g s) := by
  intro w ws c i l hd hp hc hl
  obtain ⟨q, o, hq, ho, rfl⟩ := hd.place rfl
  cases hq
  obtain ⟨rfl, -⟩ := Prod.mk.inj (Option.some.inj ho)
  rw [Node.code] at hp ⊢
  have hx := f.exec_address p.storage s c
  rw [hc.fp, hS.fp, ← BitVec.add_zero (f.locate p.storage L.fp s)] at hx
  exact hp.pushOne rfl hx hc hS.aligned hl

theorem dereference (ha : p.Pushes L types S c₀ a) (hS : L.Stands S c₀)
    (ht : Node.Typed types (.dereference g a)) (hu : ∀ m ∈ a.preorder, m.UsesVar L.vars) :
    p.Pushes L types S c₀ (.dereference g a) := by
  intro w ws c i l hd hp hc hl
  obtain ⟨v, hv, rfl⟩ := hd.value rfl
  rw [Node.code, Node.hasFloat_of_eval ht hv] at hp ⊢
  obtain ⟨hin, -⟩ := hp.unwrap rfl
  obtain ⟨q, hq, hv⟩ := Option.bind_eq_some_iff.mp hv
  obtain ⟨⟨o, ho⟩, -⟩ := Node.place_spec hq
  have hs := Node.symbol_mem_of_place hq hu (Store.get?_eq_some hv).2
  obtain ⟨halign, hout, hw⟩ := hS.load hs ho hv
  obtain ⟨c₁, h₁, hc₁⟩ := ha (.inr ⟨q, o, hq, ho, rfl⟩) hin.left hc hl
  obtain ⟨c₂, e₂, hc₂⟩ := hc₁.loadThrough p.storage hS.aligned halign hout
  refine ⟨c₂, hp.runs_wrap rfl ?_, hw ▸ hc₂⟩
  rw [List.length_append, ← Nat.add_assoc]
  exact h₁.trans (hin.right.runs e₂)

theorem both {x y : Word} {ws : List Word} {c : Core} {j l : Nat} {ls : List Line}
    (ha : p.Pushes L types S c₀ a) (hb : p.Pushes L types S c₀ b) (hx : L.Denotes S a x)
    (hy : L.Denotes S b y)
    (hj : p.Has j (a.code types f l ++ (b.code types f (l + a.labelCount) ++ ls)))
    (hc : c₀.Stacked L.low ws c)
    (hl : L.low + 4 * (ws.length + max a.depth (b.depth + 1)) ≤ (c₀.regs .sp).toNat) :
    ∃ c', p.Runs ⟨j, c⟩ ⟨j + (a.code types f l).length +
      (b.code types f (l + a.labelCount)).length, c'⟩ ∧ c₀.Stacked L.low (y :: x :: ws) c' := by
  obtain ⟨c₁, h₁, hc₁⟩ := ha hx hj.left hc (by omega)
  obtain ⟨c₂, h₂, hc₂⟩ := hb hy hj.right.left hc₁ (by rw [List.length_cons]; omega)
  exact ⟨c₂, h₁.trans h₂, hc₂⟩

theorem index (hb : p.Pushes L types S c₀ b) (ha : p.Pushes L types S c₀ a)
    (hsp : Aligned (c₀.regs .sp)) (ht : Node.Typed types (.index g b a)) :
    p.Pushes L types S c₀ (.index g b a) := by
  intro w ws c i l hd hp hc hl
  obtain ⟨q, o, hq, ho, rfl⟩ := hd.place rfl
  rw [Node.code, Node.elementBytes_of_place ht hq] at hp ⊢
  obtain ⟨hin, -⟩ := hp.unwrap rfl
  obtain ⟨p', hp', hq⟩ := Option.bind_eq_some_iff.mp hq
  obtain ⟨v, hv, hq⟩ := Option.bind_eq_some_iff.mp hq
  obtain ⟨k, extent, rfl, he, hk, hlt, hs, hpath⟩ := Place.element?_eq_some hq
  obtain ⟨⟨o', ho'⟩, -⟩ := Node.place_spec hp'
  obtain ⟨c₁, h₁, hc₁⟩ :=
    hb.both ha (.inr ⟨p', o', hp', ho', rfl⟩) (.inl ⟨_, hv, rfl⟩) hin hc hl
  obtain ⟨c₂, e₂, hc₂⟩ := hc₁.indexCode p.storage hsp (q.ty.room % 2 ^ 64)
  rw [Word.ofNat_mod] at hc₂
  have hw : c₀.Stacked L.low (L.address q.symbol o :: ws) c₂ := by
    rw [he] at ho'
    rw [hs, hpath, Ty.at?_append ho' (by omega)] at ho
    obtain ⟨rfl, -⟩ := Prod.mk.inj (Option.some.inj ho)
    rw [hs, Layout.address_add, BitVec.ofNat_mul, ← Value.word_int hk]
    exact hc₂
  refine ⟨c₂, hp.runs_wrap rfl ?_, hw⟩
  rw [List.length_append, List.length_append, ← Nat.add_assoc, ← Nat.add_assoc]
  exact h₁.trans (hin.right.right.runs e₂)

theorem binary {op : BinaryOp} (ha : p.Pushes L types S c₀ a) (hb : p.Pushes L types S c₀ b)
    (hsp : Aligned (c₀.regs .sp)) (ht : Node.Typed types (.binary g op a b)) :
    p.Pushes L types S c₀ (.binary g op a b) := by
  intro w ws c i l hd hp hc hl
  obtain ⟨v, hv, rfl⟩ := hd.value rfl
  rw [Node.code, Node.hasFloat_of_eval ht hv] at hp ⊢
  obtain ⟨hin, -⟩ := hp.unwrap rfl
  obtain ⟨x, hx, hv⟩ := Option.bind_eq_some_iff.mp hv
  obtain ⟨y, hy, hv⟩ := Option.bind_eq_some_iff.mp hv
  obtain ⟨c₁, h₁, hc₁⟩ := ha.both hb (.inl ⟨x, hx, rfl⟩) (.inl ⟨y, hy, rfl⟩) hin hc hl
  obtain ⟨c₂, e₂, hc₂⟩ := hc₁.binaryCode p.storage hsp (Value.binary_word hv)
  refine ⟨c₂, hp.runs_wrap rfl ?_, hc₂⟩
  rw [List.length_append, List.length_append, ← Nat.add_assoc, ← Nat.add_assoc]
  exact h₁.trans (hin.right.right.runs e₂)

theorem compare {op : CompareOp} (ha : p.Pushes L types S c₀ a) (hb : p.Pushes L types S c₀ b)
    (hr : p.Resolves) (hsp : Aligned (c₀.regs .sp)) (ht : a.Typed types) :
    p.Pushes L types S c₀ (.compare g op a b) := by
  intro w ws c i l hd hp hc hl
  obtain ⟨v, hv, rfl⟩ := hd.value rfl
  obtain ⟨x, hx, hv⟩ := Option.bind_eq_some_iff.mp hv
  obtain ⟨y, hy, hv⟩ := Option.bind_eq_some_iff.mp hv
  rw [Node.code, Node.hasFloat_of_eval ht hx] at hp ⊢
  obtain ⟨hin, -⟩ := hp.unwrap rfl
  obtain ⟨c₁, h₁, hc₁⟩ := ha.both hb (.inl ⟨x, hx, rfl⟩) (.inl ⟨y, hy, rfl⟩) hin hc hl
  obtain ⟨c₂, h₂, hc₂⟩ := hin.right.right.compare hr hc₁ hsp
  refine ⟨c₂, hp.runs_wrap rfl ?_, Value.compare_word hv ▸ hc₂⟩
  rw [List.length_append, List.length_append, ← Nat.add_assoc, ← Nat.add_assoc]
  exact h₁.trans h₂

theorem not (ha : p.Pushes L types S c₀ a) (hsp : Aligned (c₀.regs .sp)) :
    p.Pushes L types S c₀ (.not g a) := by
  intro w ws c i l hd hp hc hl
  obtain ⟨v, hv, rfl⟩ := hd.value rfl
  rw [Node.code] at hp ⊢
  obtain ⟨hin, -⟩ := hp.unwrap rfl
  obtain ⟨x, hx, hv⟩ := Option.bind_eq_some_iff.mp hv
  obtain ⟨c₁, h₁, hc₁⟩ := ha (.inl ⟨x, hx, rfl⟩) hin.left hc hl
  obtain ⟨c₂, e₂, hc₂⟩ := hc₁.flip p.storage hsp
  refine ⟨c₂, hp.runs_wrap rfl ?_, Value.not_word hv ▸ hc₂⟩
  rw [List.length_append, ← Nat.add_assoc]
  exact h₁.trans (hin.right.runs e₂)

end Image.Pushes

/-- Running the code of an expression pushes the word that it denotes. -/
theorem Layout.Stands.pushes {p : Image} {f : Frame} {L : Layout f p.storage}
    {types : Nat → Option Ty} {S : Store} {n : Node} {c₀ : Core} (hS : L.Stands S c₀)
    (hr : p.Resolves) (hn : ∀ m ∈ n.preorder, m.Typed types ∧ m.UsesVar L.vars) :
    p.Pushes L types S c₀ n := by
  induction n using Node.children_induction with
  | step n ih =>
    have hpush (m : Node) (hm : m ∈ n.children) : p.Pushes L types S c₀ m :=
      ih m hm (Node.forall_child hn hm)
    have hself := (hn n (Node.mem_preorder_self n)).1
    have hsp := hS.aligned
    cases n with
    | int g v => exact .int v hsp
    | bool g v => exact .bool v hsp
    | addressOf g s => exact .addressOf s hS
    | dereference g a =>
      refine .dereference (hpush a (by simp [Node.children])) hS hself fun m hm => ?_
      exact (hn m (Node.mem_preorder.mpr (.inr ⟨a, by simp [Node.children], hm⟩))).2
    | index g b a =>
      exact .index (hpush b (by simp [Node.children])) (hpush a (by simp [Node.children])) hsp hself
    | binary g op a b =>
      exact .binary (hpush a (by simp [Node.children])) (hpush b (by simp [Node.children])) hsp hself
    | compare g op a b =>
      refine .compare (hpush a (by simp [Node.children])) (hpush b (by simp [Node.children])) hr hsp ?_
      exact (hn a (Node.mem_preorder.mpr
        (.inr ⟨a, by simp [Node.children], Node.mem_preorder_self a⟩))).1
    | not g a => exact .not (hpush a (by simp [Node.children])) hsp
    | _ =>
      intro w ws c i l hd
      obtain ⟨_, h, -⟩ | ⟨_, _, h, -⟩ := hd
      · cases h
      · cases h

end Crux
