import Crux.Proofs.Emit.Program
import Crux.Proofs.Machine.Basic

namespace Crux

open Instr Asm Emit

def Line.place? : Line → Option Nat
  | .label (.fresh k) => some k
  | _ => none

def places (ls : List Line) : List Nat := ls.filterMap Line.place?

@[simp] theorem places_nil : places [] = [] := rfl

@[simp] theorem places_fresh (k : Nat) (ls : List Line) :
    places (.label (.fresh k) :: ls) = k :: places ls := rfl

@[simp] theorem places_instr (i : Instr) (spacing : Spacing) (ls : List Line) :
    places (.instr i spacing :: ls) = places ls := rfl

@[simp] theorem places_function (name : String) (ls : List Line) :
    places (.label (.function name) :: ls) = places ls := rfl

@[simp] theorem places_epilogue (name : String) (ls : List Line) :
    places (.label (.epilogue name) :: ls) = places ls := rfl

@[simp] theorem places_mark (edge : Edge) (node : String) (ls : List Line) :
    places (.mark edge node :: ls) = places ls := rfl

@[simp] theorem places_append (ls ls' : List Line) : places (ls ++ ls') = places ls ++ places ls' :=
  List.filterMap_append

theorem count_label_le (k : Nat) (ls : List Line) :
    ls.count (.label (.fresh k)) ≤ (places ls).count k := by
  rw [places, List.count, List.count, List.countP_filterMap]
  refine List.countP_mono_left fun l _ h => ?_
  rw [eq_of_beq h]
  simp [Line.place?]

namespace Node

variable {types : Nat → Option Ty} {F : Frame}

@[simp] theorem places_wrap (n : Node) (ls : List Line) : places (n.wrap ls) = places ls := by
  unfold wrap
  split
  · simp
  · rfl

@[simp] theorem places_loadThrough (x : Bool) : places (loadThrough x) = [] := by
  cases x <;> rfl

@[simp] theorem places_storeThrough (x : Bool) : places (storeThrough x) = [] := by
  cases x <;> rfl

@[simp] theorem places_operatorCode (x : Bool) (op : BinaryOp) : places (operatorCode x op) = [] := by
  cases x <;> cases op <;> rfl

@[simp] theorem places_compareCode (op : CompareOp) (x : Bool) (a b c : Nat) :
    places (compareCode op x (.fresh a) (.fresh b) (.fresh c)) = [a, b, c] := by
  cases x <;> rfl

@[simp] theorem places_callCode (s : Symbol) (count : Nat) : places (callCode s count) = [] := by
  unfold callCode
  dsimp only
  split <;> split <;> rfl

@[simp] theorem places_dropCode (n : Node) : places (n.dropCode types) = [] := by
  unfold dropCode
  split
  · split <;> rfl
  · rfl

/-- The code of a node, made from any label on, has each of the labels that the node takes at most
once, and no others. -/
def TakesOwn (types : Nat → Option Ty) (F : Frame) (n : Node) : Prop :=
  ∀ l k, (places (n.code types F l)).count k ≤ (List.range' l n.labelCount).count k

theorem count_codeAll {items : List Node} (h : ∀ n ∈ items, n.TakesOwn types F) (l k : Nat) :
    (places (codeAll types F l items)).count k ≤
      (List.range' l (labelCountAll items)).count k := by
  induction items generalizing l with
  | nil => simp [codeAll]
  | cons n items ih =>
    obtain ⟨hn, hitems⟩ := List.forall_mem_cons.mp h
    simp only [codeAll, labelCountAll, places_append, List.count_append, ← List.range'_append_1]
    exact Nat.add_le_add (hn l k) (ih hitems _)

theorem count_rowCode {items : List Node} (h : ∀ n ∈ items, n.TakesOwn types F) (l k : Nat) :
    (places (rowCode types F l items)).count k ≤
      (List.range' l (labelCountAll items)).count k := by
  induction items generalizing l with
  | nil => simp [rowCode]
  | cons n items ih =>
    obtain ⟨hn, hitems⟩ := List.forall_mem_cons.mp h
    simp only [rowCode, labelCountAll, places_append, places_dropCode, List.nil_append,
      List.count_append, ← List.range'_append_1]
    exact Nat.add_le_add (hn l k) (ih hitems _)

theorem takesOwn (types : Nat → Option Ty) (F : Frame) (n : Node) : n.TakesOwn types F := by
  induction n using children_induction with
  | step n ih =>
    intro l k
    cases n with
    | int | float | bool | addressOf | leave | var | array | function | error =>
      simp [code, pushInt, pushFloat, Line.plain, leaveLine]
    | dereference g a | not g a | call g s a | leaveWith g a =>
      have ha := ih a (by simp [children]) l k
      simpa [code, labelCount, popInt, pushInt, Line.plain, leaveLine] using ha
    | index g a b | binary g op a b | assign g a b =>
      have ha := ih a (by simp [children]) l k
      have hb := ih b (by simp [children]) (l + a.labelCount) k
      rw [code, labelCount, ← List.range'_append_1, List.count_append]
      simpa [indexCode, popInt, pushInt, Line.plain] using Nat.add_le_add ha hb
    | compare g op a b =>
      have ha := ih a (by simp [children]) l k
      have hb := ih b (by simp [children]) (l + a.labelCount) k
      have hr (m : Nat) : List.range' m 3 = [m, m + 1, m + 2] := rfl
      simp only [code, labelCount, ← List.range'_append_1, ← Nat.add_assoc, hr, places_wrap,
        places_append, places_compareCode, List.count_append]
      omega
    | branch g a b c =>
      have ha := ih a (by simp [children]) (l + 2) k
      have hb := ih b (by simp [children]) (l + 2 + a.labelCount) k
      have hc := ih c (by simp [children]) (l + 2 + a.labelCount + b.labelCount) k
      have hr : List.range' l 2 = [l] ++ [l + 1] := rfl
      simp only [code, labelCount, ← List.range'_append_1, ← Nat.add_assoc, hr, popInt, Line.plain,
        List.cons_append, List.nil_append, places_wrap, places_append, places_instr, places_fresh,
        places_nil, List.count_append, List.count_cons, List.count_nil]
      omega
    | loop g a b =>
      have ha := ih a (by simp [children]) (l + 2) k
      have hb := ih b (by simp [children]) (l + 2 + a.labelCount) k
      have hr : List.range' l 2 = [l] ++ [l + 1] := rfl
      simp only [code, labelCount, ← List.range'_append_1, ← Nat.add_assoc, hr, popInt, Line.plain,
        List.cons_append, List.nil_append, places_wrap, places_append, places_instr, places_fresh,
        places_nil, List.count_append, List.count_cons, List.count_nil]
      omega
    | list g kind items =>
      cases kind with
      | statements =>
        rw [code, places_wrap, labelCount]
        exact count_rowCode ih l k
      | expressions | declarations =>
        rw [code, places_wrap, labelCount]
        exact count_codeAll ih l k

theorem count_unitCode (types : Nat → Option Ty) (n : Node) (l k : Nat) :
    (places (n.unitCode types l)).count k ≤ (List.range' l n.labelCount).count k := by
  cases n with
  | function g s params body =>
    have hb := takesOwn types (Node.function g s params body).frame body l k
    have he : places (ending s.name) = [] := by
      unfold ending
      split <;> rfl
    rw [unitCode, labelCount]
    simpa [prologue, epilogue, Line.aligned, he] using hb
  | _ => exact Nat.zero_le _

theorem count_unitCodeAll (types : Nat → Option Ty) (items : List Node) (l k : Nat) :
    (places (unitCodeAll types l items)).count k ≤
      (List.range' l (labelCountAll items)).count k := by
  induction items generalizing l with
  | nil => simp [unitCodeAll]
  | cons n items ih =>
    simp only [unitCodeAll, labelCountAll, places_append, List.count_append,
      ← List.range'_append_1]
    exact Nat.add_le_add (n.count_unitCode types l k) (ih _)

end Node

def Program.image (program : Program) (storage : Label → Word) : Image :=
  ⟨routines ++ program.code, storage⟩

theorem Program.has_of_infix {program : Program} {ls : List Line} (h : ls <:+: program.code)
    (storage : Label → Word) : ∃ i, (program.image storage).Has i ls := by
  obtain ⟨before, after, e⟩ := h
  exact ⟨_, routines ++ before, after, by rw [image, ← e, List.append_assoc]; simp, rfl⟩

theorem Program.places_routines : places routines = [] := by decide +kernel

/-- All jumps inside the code of a program end where they should. -/
theorem Program.resolves {program : Program} {types : Nat → Option Ty} {root : Node}
    (h : program.code = root.programCode types) (storage : Label → Word) :
    (program.image storage).Resolves := by
  refine Image.resolves_of_count fun k => Nat.le_trans (count_label_le k _) ?_
  have hu := Node.count_unitCodeAll types root.children 0 k
  have hn : (List.range' 0 (Node.labelCountAll root.children)).count k ≤ 1 :=
    List.nodup_iff_count.mp List.nodup_range' k
  rw [image, places_append, places_routines, h, Node.programCode, Node.places_wrap]
  exact Nat.le_trans hu hn

namespace Node

theorem infix_wrap (n : Node) (ls : List Line) : ls <:+: n.wrap ls := by
  unfold wrap
  split
  · exact List.infix_cons List.infix_append_left
  · exact List.infix_refl ls

theorem infix_codeAll (types : Nat → Option Ty) (F : Frame) {m : Node} {items : List Node}
    (h : m ∈ items) (l : Nat) :
    ∃ k, m.code types F k <:+: codeAll types F l items := by
  induction items generalizing l with
  | nil => cases h
  | cons n items ih =>
    rw [codeAll]
    obtain rfl | h := List.mem_cons.mp h
    · exact ⟨l, List.infix_append_left⟩
    · obtain ⟨k, hk⟩ := ih h (l + n.labelCount)
      exact ⟨k, hk.trans List.infix_append_right⟩

theorem infix_rowCode (types : Nat → Option Ty) (F : Frame) {m : Node} {items : List Node}
    (h : m ∈ items) (l : Nat) :
    ∃ k, m.code types F k <:+: rowCode types F l items := by
  induction items generalizing l with
  | nil => cases h
  | cons n items ih =>
    rw [rowCode]
    obtain rfl | h := List.mem_cons.mp h
    · exact ⟨l, List.infix_append_left⟩
    · obtain ⟨k, hk⟩ := ih h (l + n.labelCount)
      exact ⟨k, hk.trans (List.infix_append_right.trans List.infix_append_right)⟩

theorem infix_code_child (types : Nat → Option Ty) (F : Frame) {m n : Node} (h : m ∈ n.children)
    (hb : n.InBody) (l : Nat) :
    ∃ k, m.code types F k <:+: n.code types F l := by
  have right {a b c : List Line} (h : a <:+: b) : a <:+: c ++ b := h.trans List.infix_append_right
  have inner {a b : List Line} (h : a <:+: b) : a <:+: n.wrap b := h.trans (n.infix_wrap b)
  cases n with
  | function => exact hb.elim
  | dereference g a | not g a | call g s a | leaveWith g a =>
    obtain rfl := List.mem_singleton.mp h
    rw [code]
    exact ⟨_, inner List.infix_append_left⟩
  | index g a b | binary g op a b | compare g op a b | assign g a b =>
    simp only [children, List.mem_cons, List.not_mem_nil, or_false] at h
    rw [code]
    obtain rfl | rfl := h
    · exact ⟨_, inner List.infix_append_left⟩
    · exact ⟨_, inner (right List.infix_append_left)⟩
  | branch g a b c =>
    simp only [children, List.mem_cons, List.not_mem_nil, or_false] at h
    rw [code]
    obtain rfl | rfl | rfl := h
    · exact ⟨_, inner List.infix_append_left⟩
    · exact ⟨_, inner (right (right List.infix_append_left))⟩
    · exact ⟨_, inner (right (right (right (right List.infix_append_left))))⟩
  | loop g a b =>
    simp only [children, List.mem_cons, List.not_mem_nil, or_false] at h
    rw [code]
    obtain rfl | rfl := h
    · exact ⟨_, inner (List.infix_cons List.infix_append_left)⟩
    · exact ⟨_, inner (List.infix_cons (right (right List.infix_append_left)))⟩
  | list g kind items =>
    cases kind with
    | statements =>
      obtain ⟨k, hk⟩ := infix_rowCode types F h l
      rw [code]
      exact ⟨k, inner hk⟩
    | expressions | declarations =>
      obtain ⟨k, hk⟩ := infix_codeAll types F h l
      rw [code]
      exact ⟨k, inner hk⟩
  | _ => cases h

theorem infix_code (types : Nat → Option Ty) (F : Frame) {m n : Node} (h : m ∈ n.preorder)
    (hb : ∀ k ∈ n.preorder, k.InBody) (l : Nat) :
    ∃ k, m.code types F k <:+: n.code types F l := by
  induction n using children_induction generalizing l with
  | step n ih =>
    obtain rfl | ⟨c, hc, hm⟩ := mem_preorder.mp h
    · exact ⟨l, List.infix_refl _⟩
    · obtain ⟨j, hj⟩ := infix_code_child types F hc (hb n (mem_preorder_self n)) l
      obtain ⟨k, hk⟩ := ih c hc hm (forall_child hb hc) j
      exact ⟨k, hk.trans hj⟩

theorem infix_unitCodeAll (types : Nat → Option Ty) {n : Node} {items : List Node} (h : n ∈ items)
    (l : Nat) :
    ∃ k, n.unitCode types k <:+: unitCodeAll types l items := by
  induction items generalizing l with
  | nil => cases h
  | cons m items ih =>
    rw [unitCodeAll]
    obtain rfl | h := List.mem_cons.mp h
    · exact ⟨l, List.infix_append_left⟩
    · obtain ⟨k, hk⟩ := ih h (l + m.labelCount)
      exact ⟨k, hk.trans List.infix_append_right⟩

theorem infix_programCode (types : Nat → Option Ty) {root n : Node} {g : Tag} {s : Symbol}
    {params : List Symbol} {body : Node} (hf : .function g s params body ∈ root.children)
    (hn : n ∈ body.preorder) (hb : ∀ k ∈ body.preorder, k.InBody) :
    ∃ k, n.code types (Node.function g s params body).frame k <:+: root.programCode types := by
  obtain ⟨j, hj⟩ := infix_unitCodeAll types hf 0
  obtain ⟨k, hk⟩ := infix_code types (Node.function g s params body).frame hn hb j
  refine ⟨k, hk.trans (List.IsInfix.trans ?_ (hj.trans (root.infix_wrap _)))⟩
  rw [unitCode]
  exact (List.infix_cons (List.infix_append_right.trans List.infix_append_left)).trans
    (infix_wrap _ _)

end Node

end Crux
