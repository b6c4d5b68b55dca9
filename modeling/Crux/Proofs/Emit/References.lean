import Crux.Proofs.Emit.Labels

namespace Crux

open Instr Asm Emit

def Instr.references : Instr → List Label
  | .la _ l | .branchZero _ l | .branch _ _ _ l | .branchFlag _ l | .jump l | .jumpLink l => [l]
  | _ => []

namespace Line

def references : Line → List Label
  | .instr i _ => i.references
  | _ => []

def label? : Line → Option Label
  | .label l => some l
  | _ => none

def IsCode (H : Label → Prop) : Line → Prop
  | .instr .. | .mark .. | .label (.fresh _) => True
  | .label l => H l
  | .text _ => False

instance (H : Label → Prop) [DecidablePred H] (line : Line) : Decidable (line.IsCode H) := by
  unfold IsCode
  split <;> infer_instance

end Line

/-- The lines are code with labels of the first property, and refer to labels on these lines or with
the second property. -/
def ClosedUpTo (H P : Label → Prop) (ls : List Line) : Prop :=
  ∀ line ∈ ls, line.IsCode H ∧ ∀ l ∈ line.references, P l ∨ .label l ∈ ls

namespace ClosedUpTo

variable {H P Q : Label → Prop} {line : Line} {ls ls' : List Line}

theorem nil : ClosedUpTo H P [] := List.forall_mem_nil _

theorem mono (h : ClosedUpTo H P ls) (hQ : ∀ l, P l → Q l) : ClosedUpTo H Q ls :=
  fun line hm => ⟨(h line hm).1, fun l hl => ((h line hm).2 l hl).imp_left (hQ l)⟩

theorem own (labels : List Label) (hl : ∀ l ∈ labels, .label l ∈ ls)
    (h : ClosedUpTo H (fun l => P l ∨ l ∈ labels) ls) : ClosedUpTo H P ls := by
  refine fun line hm => ⟨(h line hm).1, fun l hr => ?_⟩
  obtain (hP | hown) | hin := (h line hm).2 l hr
  · exact .inl hP
  · exact .inr (hl l hown)
  · exact .inr hin

theorem append (h : ClosedUpTo H P ls) (h' : ClosedUpTo H P ls') : ClosedUpTo H P (ls ++ ls') := by
  refine List.forall_mem_append.mpr ⟨fun line hm => ?_, fun line hm => ?_⟩
  · exact ⟨(h line hm).1, fun l hl => ((h line hm).2 l hl).imp_right (List.mem_append_left _)⟩
  · exact ⟨(h' line hm).1, fun l hl => ((h' line hm).2 l hl).imp_right (List.mem_append_right _)⟩

theorem cons (hc : line.IsCode H) (hr : ∀ l ∈ line.references, P l) (h : ClosedUpTo H P ls) :
    ClosedUpTo H P (line :: ls) := by
  have hline : ClosedUpTo H P [line] :=
    List.forall_mem_singleton.mpr ⟨hc, fun l hl => .inl (hr l hl)⟩
  exact hline.append h

theorem silent (hc : line.IsCode H) (hr : line.references = []) (h : ClosedUpTo H P ls) :
    ClosedUpTo H P (line :: ls) :=
  h.cons hc (hr ▸ List.forall_mem_nil _)

theorem plain {i : Instr} (hr : ∀ l ∈ i.references, P l) (h : ClosedUpTo H P ls) :
    ClosedUpTo H P (.plain i :: ls) :=
  h.cons trivial hr

end ClosedUpTo

def Line.IsLocal : Line → Prop
  | .instr i _ => i.references = []
  | _ => False

instance (line : Line) : Decidable line.IsLocal := by
  unfold Line.IsLocal
  split <;> infer_instance

theorem ClosedUpTo.of_local {H P : Label → Prop} {ls : List Line} (h : ∀ line ∈ ls, line.IsLocal) :
    ClosedUpTo H P ls := by
  intro line hm
  have hl := h line hm
  cases line with
  | instr i spacing =>
    refine ⟨trivial, fun l hr => ?_⟩
    rw [Line.references, show i.references = [] from hl] at hr
    cases hr
  | _ => exact hl.elim

namespace Node

/-- The labels that the own instructions of a node name, apart from labels made for it. -/
def mentions (F : Frame) : Node → List Label
  | .addressOf _ s => (F.address .t1 s).references
  | .call _ s _ => [.function s.name]
  | .leave _ | .leaveWith .. => [.epilogue (F.name?.getD mainName)]
  | _ => []

def Mentions (F : Frame) (n : Node) (l : Label) : Prop := ∃ m ∈ n.preorder, l ∈ m.mentions F

variable {types : Nat → Option Ty} {F : Frame} {m n : Node} {H P : Label → Prop}

theorem Mentions.of_child {l : Label} (hm : m ∈ n.children) (h : m.Mentions F l) :
    n.Mentions F l := by
  obtain ⟨k, hk, hl⟩ := h
  exact ⟨k, mem_preorder.mpr (.inr ⟨m, hm, hk⟩), hl⟩

theorem closed_wrap {ls : List Line} (h : ClosedUpTo H P ls) : ClosedUpTo H P (n.wrap ls) := by
  unfold wrap
  split
  · exact .silent trivial rfl (h.append (.silent trivial rfl .nil))
  · exact h

theorem closed_loadThrough (x : Bool) : ClosedUpTo H P (loadThrough x) :=
  .of_local (by cases x <;> decide)

theorem closed_storeThrough (x : Bool) : ClosedUpTo H P (storeThrough x) :=
  .of_local (by cases x <;> decide)

theorem closed_operatorCode (x : Bool) (op : BinaryOp) : ClosedUpTo H P (operatorCode x op) :=
  .of_local (by cases x <;> cases op <;> decide)

theorem closed_dropCode (n : Node) : ClosedUpTo H P (n.dropCode types) := by
  unfold dropCode
  split
  · split
    · exact .nil
    · exact .of_local (by decide)
  · exact .nil

theorem closed_branchWhen (op : CompareOp) (x : Bool) {l : Label} (h : P l) :
    ClosedUpTo H P (branchWhen op x l) := by
  have hl : ∀ l' ∈ [l], P l' := List.forall_mem_singleton.mpr h
  cases x with
  | false => exact (ClosedUpTo.of_local (by decide)).append (.plain hl .nil)
  | true =>
    have ht : (floatTest op).references = [] := by cases op <;> rfl
    exact (ClosedUpTo.of_local (by decide)).append (.plain (by simp [ht]) (.plain hl .nil))

theorem closed_compareCode (op : CompareOp) (x : Bool) (a b c : Nat) :
    ClosedUpTo H P (compareCode op x (.fresh a) (.fresh b) (.fresh c)) := by
  refine .own [.fresh a, .fresh b, .fresh c] (by simp [compareCode]) ?_
  refine ((closed_branchWhen op x (by simp)).append ?_).append (.of_local (by decide))
  exact .plain (by simp [references]) (.silent trivial rfl (.plain nofun (.plain
    (by simp [references]) (.silent trivial rfl (.plain nofun (.silent trivial rfl .nil))))))

theorem closed_callCode (s : Symbol) (count : Nat) (h : P (.function s.name)) :
    ClosedUpTo H P (callCode s count) := by
  have hpush : ClosedUpTo H P (pushInt .v0) := .of_local (by decide)
  refine .plain (List.forall_mem_singleton.mpr h) (.append ?_ ?_)
  · split
    · exact .nil
    · exact .plain nofun .nil
  · split
    · exact .nil
    · exact hpush
    · exact .nil

theorem closed_leaveLine (F : Frame) (h : P (.epilogue (F.name?.getD mainName))) :
    ClosedUpTo H P [leaveLine F] :=
  .plain (List.forall_mem_singleton.mpr h) .nil

theorem closed_codeAll {items : List Node} (h : ∀ n ∈ items, ∀ l, ClosedUpTo H P (n.code types F l))
    (l : Nat) : ClosedUpTo H P (codeAll types F l items) := by
  induction items generalizing l with
  | nil => exact .nil
  | cons n items ih =>
    obtain ⟨hn, hitems⟩ := List.forall_mem_cons.mp h
    exact (hn l).append (ih hitems _)

theorem closed_rowCode {items : List Node} (h : ∀ n ∈ items, ∀ l, ClosedUpTo H P (n.code types F l))
    (l : Nat) : ClosedUpTo H P (rowCode types F l items) := by
  induction items generalizing l with
  | nil => exact .nil
  | cons n items ih =>
    obtain ⟨hn, hitems⟩ := List.forall_mem_cons.mp h
    exact (hn l).append (n.closed_dropCode.append (ih hitems _))

/-- The code of a node is closed but for what its parts name. -/
theorem closed_code (types : Nat → Option Ty) (F : Frame) (n : Node) (l : Nat) :
    ClosedUpTo H (n.Mentions F) (n.code types F l) := by
  induction n using children_induction generalizing l with
  | step n ih =>
    have hc {m : Node} (hm : m ∈ n.children) (l : Nat) :
        ClosedUpTo H (n.Mentions F) (m.code types F l) :=
      (ih m hm l).mono fun _ h => h.of_child hm
    have hc' {m : Node} {labels : List Label} (hm : m ∈ n.children) (l : Nat) :
        ClosedUpTo H (fun x => n.Mentions F x ∨ x ∈ labels) (m.code types F l) :=
      (hc hm l).mono fun _ => .inl
    have hself {x : Label} (hx : x ∈ n.mentions F) : n.Mentions F x := ⟨n, mem_preorder_self n, hx⟩
    rw [code.eq_def]
    apply closed_wrap
    cases n with
    | int | float | bool =>
      exact .of_local (by simp [Line.IsLocal, pushInt, pushFloat, Line.plain, references])
    | addressOf g s => exact .plain (fun _ => hself) (.of_local (by decide))
    | dereference g a =>
      exact (hc (by simp [children]) l).append (.append (.of_local (by decide))
        (closed_loadThrough _))
    | index g a b =>
      exact (hc (by simp [children]) l).append ((hc (by simp [children]) _).append
        (.of_local (by simp [Line.IsLocal, indexCode, popInt, pushInt, Line.plain, references])))
    | binary g op a b =>
      exact (hc (by simp [children]) l).append ((hc (by simp [children]) _).append
        (closed_operatorCode _ _))
    | compare g op a b =>
      exact (hc (by simp [children]) l).append ((hc (by simp [children]) _).append
        (closed_compareCode _ _ _ _ _))
    | not g a => exact (hc (by simp [children]) l).append (.of_local (by decide))
    | call g s args =>
      exact (hc (by simp [children]) l).append (closed_callCode s _ (hself List.mem_cons_self))
    | assign g a b =>
      exact (hc (by simp [children]) l).append ((hc (by simp [children]) _).append
        (closed_storeThrough _))
    | branch g c y z =>
      refine .own [.fresh l, .fresh (l + 1)] (by simp) ?_
      exact .append (hc' (by simp [children]) _) (.append (.append (.of_local (by decide))
        (.plain (by simp [references]) .nil)) (.append (hc' (by simp [children]) _)
          (.append (.plain (by simp [references]) (.silent trivial rfl .nil))
            (.append (hc' (by simp [children]) _) (.silent trivial rfl .nil)))))
    | loop g c b =>
      refine .own [.fresh l, .fresh (l + 1)] (by simp) ?_
      exact .silent trivial rfl (.append (hc' (by simp [children]) _) (.append
        (.append (.of_local (by decide)) (.plain (by simp [references]) .nil))
          (.append (hc' (by simp [children]) _)
            (.plain (by simp [references]) (.silent trivial rfl .nil)))))
    | leave g => exact closed_leaveLine F (hself List.mem_cons_self)
    | leaveWith g v =>
      exact (hc (by simp [children]) l).append (.append (.of_local (by decide))
        (closed_leaveLine F (hself List.mem_cons_self)))
    | list g kind items =>
      cases kind with
      | statements => exact closed_rowCode (fun m hm l => hc hm l) l
      | expressions | declarations => exact closed_codeAll (fun m hm l => hc hm l) l
    | var | array | function | error => exact .nil

def heads : Node → List Label
  | .function _ f _ _ => [.function f.name, .epilogue f.name]
  | _ => []

theorem closed_unitCode {g : Tag} {f : Symbol} {params : List Symbol} {body : Node}
    (types : Nat → Option Ty) (l : Nat) (hH : ∀ l ∈ (Node.function g f params body).heads, H l)
    (h : ∀ l, body.Mentions (Node.function g f params body).frame l → P l) :
    ClosedUpTo H P (unitCode types l (.function g f params body)) := by
  have hending : ∀ line ∈ ending f.name, line.IsLocal := by
    unfold ending
    split <;> decide
  have hlocal (size : Nat) : (∀ line ∈ prologue size, line.IsLocal) ∧
      ∀ line ∈ epilogue size, line.IsLocal := by
    simp [prologue, epilogue, Line.aligned, Line.IsLocal, references]
  rw [unitCode]
  refine closed_wrap (.silent (hH _ List.mem_cons_self) rfl (.append
    (.append (.of_local (hlocal _).1) ?_) (.silent (hH _ (by simp [heads])) rfl
      (.append (.of_local (hlocal _).2) (.of_local hending)))))
  exact (closed_code types _ body l).mono h

theorem closed_unitCodeAll {items : List Node} (types : Nat → Option Ty) (l : Nat)
    (h : ∀ n ∈ items, ∀ l, ClosedUpTo H P (n.unitCode types l)) :
    ClosedUpTo H P (unitCodeAll types l items) := by
  induction items generalizing l with
  | nil => exact .nil
  | cons n items ih =>
    obtain ⟨hn, hitems⟩ := List.forall_mem_cons.mp h
    exact (hn l).append (ih _ hitems)

theorem closed_programCode (types : Nat → Option Ty) (root : Node)
    (hH : ∀ n ∈ root.children, ∀ l ∈ n.heads, H l)
    (h : ∀ g f params body, .function g f params body ∈ root.children → ∀ l,
      body.Mentions (Node.function g f params body).frame l → P l) :
    ClosedUpTo H P (root.programCode types) := by
  refine closed_wrap (closed_unitCodeAll types 0 fun n hn l => ?_)
  cases n with
  | function g f params body =>
    exact closed_unitCode types l (hH _ hn) (h g f params body hn)
  | _ => exact .nil

end Node

end Crux
