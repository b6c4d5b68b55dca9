import Crux.Proofs.Emit.Total
import Crux.Proofs.Phrase.Numbering
import Crux.Proofs.Scope.Tree
import Mathlib.Algebra.Group.Nat.Defs

/-! The code of the parts of a function body as a function of the tree, of the recorded types, of
the frame that the function has in the end, and of the first label that may be used. -/

namespace Crux

open Instr Asm Emit

/-- The bytes of storage that a type takes, none for those that cannot be stored. -/
def Ty.room : Ty → Nat
  | .int | .float | .bool => wordSize
  | .array extent element => extent * element.room
  | _ => 0

theorem Ty.size?_eq {t : Ty} (h : t.size?.isSome) : t.size? = some (.ofNat t.room) := by
  fun_induction size? t with
  | case4 extent element ih =>
    rw [ih (by simpa using h), room, Option.map_some, UInt64.ofNat_mul]
  | case5 => cases h
  | _ => rfl

theorem Frame.address_cases (F : Frame) (r : Reg) (s : Symbol) :
    (∃ offset, F.address r s = .addi r .fp offset) ∨ F.address r s = .la r (.global s.name) := by
  induction F with
  | nil => exact .inr rfl
  | cons record F ih =>
    rw [Frame.address]
    split
    · exact .inl ⟨_, rfl⟩
    · split
      · exact .inl ⟨_, rfl⟩
      · exact ih

namespace Node

mutual
def labelCount : Node → Nat
  | .dereference _ a | .not _ a | .call _ _ a | .leaveWith _ a | .function _ _ _ a => a.labelCount
  | .index _ a b | .binary _ _ a b | .assign _ a b => a.labelCount + b.labelCount
  | .compare _ _ a b => a.labelCount + b.labelCount + 3
  | .branch _ a b c => 2 + a.labelCount + b.labelCount + c.labelCount
  | .loop _ a b => 2 + a.labelCount + b.labelCount
  | .list _ _ items => labelCountAll items
  | .int .. | .float .. | .bool .. | .addressOf .. | .var .. | .array .. | .leave ..
  | .error .. => 0

def labelCountAll : List Node → Nat
  | [] => 0
  | n :: rest => n.labelCount + labelCountAll rest
end

def wrap (n : Node) (ls : List Line) : List Line :=
  if isMarked n then .mark .opening n.render :: (ls ++ [.mark .closing n.render]) else ls

def hasFloat (types : Nat → Option Ty) (n : Node) : Bool := (types n.id).any Ty.isFloat

def elementBytes (types : Nat → Option Ty) (n : Node) : Nat :=
  match types n.id with
  | some (.address element) => element.room % 2 ^ 64
  | _ => 0

def dropCode (types : Nat → Option Ty) (n : Node) : List Line :=
  match n with
  | .call .. => if (types n.id).any Ty.isVoid then [] else popInt .t1
  | _ => []

def operatorCode (float : Bool) (op : BinaryOp) : List Line :=
  if float then (op.floatForm?.map binaryFloatCode).getD [] else binaryCode op

def leaveLine (F : Frame) : Line := .plain (jump (.epilogue (F.name?.getD mainName)))

mutual
def code (types : Nat → Option Ty) (F : Frame) (labels : Nat) (n : Node) : List Line :=
  n.wrap <|
    match n with
    | .int _ v => .plain (li .t1 v.toInt) :: pushInt .t1
    | .float _ v => .plain (liFloat .f0 v) :: pushFloat .f0
    | .bool _ v => .plain (li .t1 (if v then 1 else 0)) :: pushInt .t1
    | .addressOf _ s => .plain (F.address .t1 s) :: pushInt .t1
    | .dereference _ a => a.code types F labels ++ (popInt .t1 ++ loadThrough (n.hasFloat types))
    | .index _ b a =>
      b.code types F labels ++
        (a.code types F (labels + b.labelCount) ++ indexCode (n.elementBytes types))
    | .binary _ op l r =>
      l.code types F labels ++
        (r.code types F (labels + l.labelCount) ++ operatorCode (n.hasFloat types) op)
    | .compare _ op l r =>
      let k := labels + l.labelCount + r.labelCount
      l.code types F labels ++ (r.code types F (labels + l.labelCount) ++
        compareCode op (l.hasFloat types) (.fresh k) (.fresh (k + 1)) (.fresh (k + 2)))
    | .not _ a => a.code types F labels ++ (popInt .t0 ++ .plain (xori .t0 .t0 1) :: pushInt .t0)
    | .call _ s args => args.code types F labels ++ callCode s args.children.length
    | .assign _ t s =>
      t.code types F labels ++
        (s.code types F (labels + t.labelCount) ++ storeThrough (s.hasFloat types))
    | .branch _ c y z =>
      c.code types F (labels + 2) ++
        ((popInt .t0 ++ [.plain (branchZero .t0 (.fresh labels))]) ++
          (y.code types F (labels + 2 + c.labelCount) ++
            ([.plain (jump (.fresh (labels + 1))), .label (.fresh labels)] ++
              (z.code types F (labels + 2 + c.labelCount + y.labelCount) ++
                [.label (.fresh (labels + 1))]))))
    | .loop _ c b =>
      .label (.fresh labels) :: (c.code types F (labels + 2) ++
        ((popInt .t0 ++ [.plain (branchZero .t0 (.fresh (labels + 1)))]) ++
          (b.code types F (labels + 2 + c.labelCount) ++
            [.plain (jump (.fresh labels)), .label (.fresh (labels + 1))])))
    | .leave _ => [leaveLine F]
    | .leaveWith _ v => v.code types F labels ++ (popInt .v0 ++ [leaveLine F])
    | .list _ .statements items => rowCode types F labels items
    | .list _ .expressions items | .list _ .declarations items => codeAll types F labels items
    | .var .. | .array .. | .function .. | .error .. => []

def codeAll (types : Nat → Option Ty) (F : Frame) (labels : Nat) : List Node → List Line
  | [] => []
  | n :: rest => n.code types F labels ++ codeAll types F (labels + n.labelCount) rest

def rowCode (types : Nat → Option Ty) (F : Frame) (labels : Nat) : List Node → List Line
  | [] => []
  | n :: rest =>
    n.code types F labels ++
      (n.dropCode types ++ rowCode types F (labels + n.labelCount) rest)
end

end Node

def Line.isMark : Line → Bool
  | .mark .. => true
  | _ => false

def Asm.unmarked (ls : List Line) : List Line := ls.filter fun line => !line.isMark

@[simp] theorem unmarked_append (ls ls' : List Line) :
    unmarked (ls ++ ls') = unmarked ls ++ unmarked ls' :=
  List.filter_append ..

@[simp] theorem unmarked_label (l : Label) (ls : List Line) :
    unmarked (.label l :: ls) = .label l :: unmarked ls :=
  rfl

@[simp] theorem unmarked_mark (edge : Edge) (node : String) (ls : List Line) :
    unmarked (.mark edge node :: ls) = unmarked ls :=
  rfl

@[simp] theorem unmarked_wrap (n : Node) (ls : List Line) : unmarked (n.wrap ls) = unmarked ls := by
  unfold Node.wrap
  split
  · rw [unmarked_mark, unmarked_append, unmarked_mark]
    exact List.append_nil _
  · rfl

namespace Emit

variable {types : Nat → Option Ty} {n : Node} {k k' : Nat} {f f' : Frame} {ls : List Line} {d : List Datum}

namespace Gives

theorem marked {x : Emit Unit} (n : Node) (hx : Gives x k f ls d k' () f') :
    Gives (marked n x) k f (n.wrap ls) d k' () f' := by
  unfold Emit.marked Node.wrap
  split
  · have h := (line (.mark .opening n.render)).bind (g := fun _ => x >>= fun _ =>
      Emit.line (.mark .closing n.render)) (hx.bind (line _))
    rwa [List.append_nil] at h
  · exact hx

theorem isFloat {t : Ty} (h : types n.id = some t) :
    Gives (isFloat types n) k f [] [] k (n.hasFloat types) f := by
  rw [Emit.isFloat, typeOf_eq_pure h, Node.hasFloat, h]
  exact pure t.isFloat

end Gives

end Emit

namespace Node

def IsExpression : Node → Prop
  | .int .. | .float .. | .bool .. | .addressOf .. | .dereference .. | .index .. | .binary ..
  | .compare .. | .not .. | .call .. | .list _ .expressions _ | .error .. => True
  | _ => False

def SeesAlike (f F : Frame) : Node → Prop
  | .addressOf _ s => f.address .t1 s = F.address .t1 s
  | _ => True

variable {types : Nat → Option Ty} {f F : Frame} {k : Nat}

theorem gives_codeAll {items : List Node}
    (h : ∀ n ∈ items, ∀ k, Gives (n.emit types) k f (n.code types F k) [] (k + n.labelCount) () f) :
    Gives (emitAll types items) k f (codeAll types F k items) [] (k + labelCountAll items) () f := by
  induction items generalizing k with
  | nil => exact .pure ()
  | cons n rest ih =>
    obtain ⟨hn, hrest⟩ := List.forall_mem_cons.mp h
    simp only [emitAll, codeAll, labelCountAll, ← Nat.add_assoc]
    exact (hn k).bind (ih hrest)

theorem gives_operator (n : Node) {op : BinaryOp} {x : Bool} (h : x → op.floatForm?.isSome) :
    Gives (if x then
        match op.floatForm? with
        | some op => lines (binaryFloatCode op)
        | none => fail (.noFloatForm n)
      else lines (binaryCode op)) k f (operatorCode x op) [] k () f := by
  unfold operatorCode
  split
  · rename_i hx
    obtain ⟨form, hform⟩ := Option.isSome_iff_exists.mp (h hx)
    rw [hform]
    exact .lines _
  · exact .lines _

theorem gives_expression {n : Node}
    (h : ∀ m ∈ n.preorder, m.IsExpression ∧ m.Ready types ∧ m.SeesAlike f F) :
    Gives (n.emit types) k f (n.code types F k) [] (k + n.labelCount) () f := by
  induction n using children_induction generalizing k with
  | step n ih =>
    have hc {m : Node} (hm : m ∈ n.children) (k : Nat) :
        Gives (m.emit types) k f (m.code types F k) [] (k + m.labelCount) () f :=
      ih m hm (forall_child h hm)
    obtain ⟨he, hr, hs⟩ := h n (mem_preorder_self n)
    cases n with
    | int | float | bool =>
      rw [emit, code]
      exact .marked _ (.lines _)
    | addressOf g s =>
      rw [emit, code, ← show f.address .t1 s = F.address .t1 s from hs]
      exact .marked _ (Gives.frame.bind ((Gives.instr _).bind (.lines _)))
    | dereference g a =>
      obtain ⟨t, ht⟩ := Option.isSome_iff_exists.mp hr
      rw [emit, code]
      exact .marked _ ((hc (by simp [children]) k).bind ((Gives.lines _).bind
        ((Gives.isFloat ht).bind (.lines _))))
    | index g b a =>
      obtain ⟨element, ht, hsize⟩ := hr
      have hb := Ty.bytes_eq_ok (Ty.size?_eq hsize)
      have he : elementBytes types (.index g b a) = (UInt64.ofNat element.room).toNat := by
        simp [elementBytes, ht]
      rw [emit, code, labelCount, ← Nat.add_assoc, he, typeOf_eq_pure ht]
      refine .marked _ ((hc (by simp [children]) k).bind ((hc (by simp [children]) _).bind
        ((Gives.pure _).bind ?_)))
      show Gives (lift element.bytes >>= fun bytes => lines (indexCode bytes.toNat)) ..
      rw [hb]
      exact (Gives.pure _).bind (.lines _)
    | binary g op l r =>
      obtain ⟨t, ht, hf⟩ := hr
      rw [emit, code, labelCount, ← Nat.add_assoc]
      have ho : hasFloat types (.binary g op l r) → op.floatForm?.isSome := by
        simpa [hasFloat, ht] using hf
      exact .marked _ ((hc (by simp [children]) k).bind ((hc (by simp [children]) _).bind
        ((Gives.isFloat ht).bind (gives_operator _ ho))))
    | compare g op l r =>
      obtain ⟨t, ht⟩ := Option.isSome_iff_exists.mp hr
      rw [emit, code]
      rw [labelCount, ← Nat.add_assoc, ← Nat.add_assoc]
      exact .marked _ ((hc (by simp [children]) k).bind ((hc (by simp [children]) _).bind
        (Gives.freshLabel.bind (Gives.freshLabel.bind (Gives.freshLabel.bind
          ((Gives.isFloat ht).bind (.lines _)))))))
    | not g a =>
      rw [emit, code]
      exact .marked _ ((hc (by simp [children]) k).bind (.lines _))
    | call g s args =>
      rw [emit, code]
      exact .marked _ ((hc (by simp [children]) k).bind (.lines _))
    | list g kind items =>
      cases kind with
      | expressions =>
        rw [emit, code]
        exact .marked _ (gives_codeAll fun m hm => hc hm)
      | declarations | statements => exact he.elim
    | error => exact hr.elim
    | _ => exact he.elim

end Node

def Role.IsExpression : Role → Prop
  | .value | .address | .arguments => True
  | .statement | .block | .declaration | .program => False

namespace Node

def UsesOf (env : Env) : Node → Prop
  | .addressOf _ s => ∃ scope ∈ env, s ∈ scope
  | _ => True

theorem Scoped.expression {role : Role} {env : Env} {n : Node} (h : Scoped role env n)
    (hr : role.IsExpression) : ∀ m ∈ n.preorder, m.IsExpression ∧ m.UsesOf env := by
  induction h with
  | int | float | bool | error => exact forall_leaf rfl ⟨trivial, trivial⟩
  | addressOf hl => exact forall_leaf rfl ⟨trivial, Env.mem_of_lookup hl⟩
  | dereference _ ih | not _ ih | call _ _ ih =>
    exact forall_preorder ⟨trivial, trivial⟩ (List.forall_mem_singleton.mpr (ih trivial))
  | binary _ _ ihl ihr | compare _ _ ihl ihr | index _ _ ihl ihr =>
    exact forall_preorder ⟨trivial, trivial⟩
      (List.forall_mem_cons.mpr ⟨ihl trivial, List.forall_mem_singleton.mpr (ihr trivial)⟩)
  | arguments _ ih =>
    exact forall_preorder ⟨trivial, trivial⟩ fun m hm => ih m hm trivial
  | _ => exact hr.elim

theorem Scoped.declared_nil {role : Role} {env : Env} {n : Node} (h : Scoped role env n)
    (hr : role.IsExpression) : n.declared = [] := by
  refine List.flatMap_eq_nil_iff.mpr fun m hm => ?_
  have he := (h.expression hr m hm).1
  cases m with
  | var | array | function => exact he.elim
  | _ => rfl

end Node

end Crux
