import Crux.Proofs.Erasure.Checking
import Crux.Proofs.Emit.Names

namespace Crux

open Instr Asm Emit

def erasedTypes (types : Nat → Option Ty) (id : Nat) : Option Ty := (types id).map Ty.erased

theorem Ty.room_erased : ∀ t : Ty, t.erased.room = t.room
  | .array _ t => by rw [erased, room, room, room_erased t]
  | .int | .float | .bool | .void | .address _ | .func .. | .error _ => rfl

namespace Symbol

variable (s : Symbol)

@[simp] theorem size?_erased : s.erased.ty.size? = s.ty.size? := by
  rw [← Ty.size?_erased, s.erased_ty_erased, Ty.size?_erased]

@[simp] theorem room_erased : s.erased.ty.room = s.ty.room := by
  rw [← Ty.room_erased, s.erased_ty_erased, Ty.room_erased]

end Symbol

theorem callCode_erased (s : Symbol) (count : Nat) :
    callCode s.erased count = callCode s count := by
  unfold callCode
  obtain h | h := s.erased_ty
  · rw [h]
    rfl
  · rw [h]
    cases s.ty with
    | func params result => cases result <;> rfl
    | _ => rfl

theorem Frame.address_erased (F : Frame) (r : Reg) (s : Symbol) :
    F.address r s.erased = F.address r s := by
  induction F with
  | nil => rfl
  | cons record F ih => rw [address, address, ih]; rfl

theorem toOption_bind {α β : Type} (x : Except EmitFault α) (f : α → Except EmitFault β) :
    (x >>= f).toOption = x.toOption.bind fun a => (f a).toOption := by
  cases x with
  | _ => rfl

theorem argumentSlots_erased (params : List Symbol) :
    (argumentSlots (params.map Symbol.erased)).toOption = (argumentSlots params).toOption := by
  induction params with
  | nil => rfl
  | cons p rest ih =>
    have hbytes : p.erased.ty.bytes.toOption = p.ty.bytes.toOption := by
      rw [Ty.bytes, Ty.bytes, p.size?_erased]
      cases p.ty.size? with
      | _ => rfl
    simp only [List.map_cons, argumentSlots, toOption_bind, ih, hbytes]
    rfl

theorem Record.start_erased (name : String) (params : List Symbol) :
    Record.start name (params.map Symbol.erased) = Record.start name params := by
  rw [start, start, argumentSlots_erased]

theorem Record.addAll_erased (r : Record) (ss : List Symbol) :
    r.addAll (ss.map Symbol.erased) = r.addAll ss := by
  rw [addAll, addAll, List.foldl_map]
  congr 1
  funext r s
  rw [add, add, s.room_erased]
  rfl

namespace Node

variable (types : Nat → Option Ty) (n : Node)

theorem children_erased : n.erased.children = n.children.map erased := by
  cases n with
  | list g kind items => exact erasedAll_eq_map items
  | _ => rfl

theorem declared_erased : n.erased.declared = n.declared.map Symbol.erased := by
  induction n using children_induction with
  | step n ih =>
    have hd : n.erased.declares = n.declares.map Symbol.erased := by
      cases n with
      | _ => rfl
    rw [declared_eq, declared_eq n, children_erased, List.flatMap_map, List.map_append,
      List.map_flatMap, hd, List.flatMap_def, List.flatMap_def]
    exact congrArg (_ ++ ·) (congrArg List.flatten (List.map_congr_left ih))

theorem frame_erased : n.erased.frame = n.frame := by
  cases n with
  | function g s params body =>
    rw [erased, frame, frame, declared_erased, Record.start_erased, Record.addAll_erased]
    rfl
  | _ => rfl

theorem labelCountAll_erased {items : List Node}
    (h : ∀ m ∈ items, m.erased.labelCount = m.labelCount) :
    labelCountAll (erasedAll items) = labelCountAll items := by
  induction items with
  | nil => rfl
  | cons n rest ih =>
    obtain ⟨hn, hrest⟩ := List.forall_mem_cons.mp h
    rw [erasedAll, labelCountAll, hn, ih hrest, labelCountAll]

@[simp] theorem labelCount_erased : n.erased.labelCount = n.labelCount := by
  induction n using children_induction with
  | step n ih =>
    cases n with
    | list g kind items => exact labelCountAll_erased ih
    | dereference g a | not g a | call g s a | leaveWith g a | function g s params a =>
      exact ih a (by simp [children])
    | index g a b | binary g op a b | assign g a b | compare g op a b | loop g a b =>
      have ha := ih a (by simp [children])
      have hb := ih b (by simp [children])
      simp only [erased, labelCount, ha, hb]
    | branch g a b c =>
      have ha := ih a (by simp [children])
      have hb := ih b (by simp [children])
      have hc := ih c (by simp [children])
      simp only [erased, labelCount, ha, hb, hc]
    | _ => rfl

@[simp] theorem hasFloat_erased : n.erased.hasFloat (erasedTypes types) = n.hasFloat types := by
  rw [hasFloat, hasFloat, id_erased, erasedTypes]
  cases types n.id with
  | none => rfl
  | some t => exact t.isFloat_erased

@[simp] theorem elementBytes_erased :
    n.erased.elementBytes (erasedTypes types) = n.elementBytes types := by
  unfold elementBytes
  rw [id_erased, erasedTypes]
  cases types n.id with
  | none => rfl
  | some t =>
    cases t with
    | address element => exact congrArg (· % 2 ^ 64) element.room_erased
    | _ => rfl

@[simp] theorem dropCode_erased : n.erased.dropCode (erasedTypes types) = n.dropCode types := by
  cases n with
  | call g s args =>
    have hvoid : ((types g.id).map Ty.erased).any Ty.isVoid = (types g.id).any Ty.isVoid := by
      cases types g.id with
      | none => rfl
      | some t => exact t.isVoid_erased
    exact congrArg (if · then [] else popInt .t1) hvoid
  | _ => rfl

variable {types} {F : Frame} {items : List Node}

theorem unmarked_codeAll
    (h : ∀ m ∈ items, ∀ l,
      unmarked (m.erased.code (erasedTypes types) F l) = unmarked (m.code types F l))
    (l : Nat) : unmarked (codeAll (erasedTypes types) F l (erasedAll items)) =
      unmarked (codeAll types F l items) := by
  induction items generalizing l with
  | nil => rfl
  | cons n rest ih =>
    obtain ⟨hn, hrest⟩ := List.forall_mem_cons.mp h
    simp only [erasedAll, codeAll, unmarked_append, hn, labelCount_erased, ih hrest]

theorem unmarked_rowCode
    (h : ∀ m ∈ items, ∀ l,
      unmarked (m.erased.code (erasedTypes types) F l) = unmarked (m.code types F l))
    (l : Nat) : unmarked (rowCode (erasedTypes types) F l (erasedAll items)) =
      unmarked (rowCode types F l items) := by
  induction items generalizing l with
  | nil => rfl
  | cons n rest ih =>
    obtain ⟨hn, hrest⟩ := List.forall_mem_cons.mp h
    simp only [erasedAll, rowCode, unmarked_append, hn, labelCount_erased, dropCode_erased,
      ih hrest]

theorem unmarked_code (l : Nat) :
    unmarked (n.erased.code (erasedTypes types) F l) = unmarked (n.code types F l) := by
  induction n using children_induction generalizing l with
  | step n ih =>
    have hc {m : Node} (hm : m ∈ n.children) (l : Nat) := ih m hm l
    have hfloat := hasFloat_erased types n
    have hbytes := elementBytes_erased types n
    cases n with
    | int | float | bool | leave | var | array | function | error =>
      simp only [erased, code, unmarked_wrap]
    | addressOf g s => simp only [erased, code, unmarked_wrap, F.address_erased]
    | dereference g a =>
      have ha := hc (m := a) (by simp [children])
      simp only [erased] at hfloat
      simp only [erased, code, unmarked_wrap, unmarked_append, ha, hfloat]
    | not g a | leaveWith g a =>
      have ha := hc (m := a) (by simp [children])
      simp only [erased, code, unmarked_wrap, unmarked_append, ha]
    | call g s args =>
      have ha := hc (m := args) (by simp [children])
      simp only [erased, code, unmarked_wrap, unmarked_append, ha, callCode_erased, children_erased,
        List.length_map]
    | index g a b =>
      have ha := hc (m := a) (by simp [children])
      have hb := hc (m := b) (by simp [children])
      simp only [erased] at hbytes
      simp only [erased, code, unmarked_wrap, unmarked_append, ha, hb, labelCount_erased, hbytes]
    | binary g op a b =>
      have ha := hc (m := a) (by simp [children])
      have hb := hc (m := b) (by simp [children])
      simp only [erased] at hfloat
      simp only [erased, code, unmarked_wrap, unmarked_append, ha, hb, labelCount_erased, hfloat]
    | compare g op a b | assign g a b =>
      have ha := hc (m := a) (by simp [children])
      have hb := hc (m := b) (by simp [children])
      simp only [erased, code, unmarked_wrap, unmarked_append, ha, hb, labelCount_erased,
        hasFloat_erased]
    | branch g a b c =>
      have ha := hc (m := a) (by simp [children])
      have hb := hc (m := b) (by simp [children])
      have hc := hc (m := c) (by simp [children])
      simp only [erased, code, unmarked_wrap, unmarked_append, ha, hb, hc, labelCount_erased]
    | loop g a b =>
      have ha := hc (m := a) (by simp [children])
      have hb := hc (m := b) (by simp [children])
      simp only [erased, code, unmarked_wrap, unmarked_append, unmarked_label, ha, hb,
        labelCount_erased]
    | list g kind items =>
      cases kind with
      | statements =>
        simp only [erased, code, unmarked_wrap]
        exact unmarked_rowCode ih l
      | expressions | declarations =>
        simp only [erased, code, unmarked_wrap]
        exact unmarked_codeAll ih l

theorem unmarked_unitCode (l : Nat) :
    unmarked (n.erased.unitCode (erasedTypes types) l) = unmarked (n.unitCode types l) := by
  have hframe := n.frame_erased
  cases n with
  | function g s params body =>
    simp only [erased] at hframe
    simp only [erased, unitCode, unmarked_wrap, unmarked_append, unmarked_label, unmarked_code,
      hframe]
    rfl
  | _ => rfl

theorem unitData_erased : n.erased.unitData = n.unitData := by
  cases n with
  | var g s | array g s =>
    exact congrArg (fun k => [Datum.space (.global s.name) (k % 2 ^ 64)]) s.room_erased
  | _ => rfl

theorem unmarked_programCode :
    unmarked (n.erased.programCode (erasedTypes types)) = unmarked (n.programCode types) := by
  have hall (items : List Node) (l : Nat) :
      unmarked (unitCodeAll (erasedTypes types) l (items.map erased)) =
        unmarked (unitCodeAll types l items) := by
    induction items generalizing l with
    | nil => rfl
    | cons n rest ih =>
      simp only [List.map_cons, unitCodeAll, unmarked_append, unmarked_unitCode,
        labelCount_erased, ih]
  rw [programCode, programCode, unmarked_wrap, unmarked_wrap, children_erased, hall]

end Node

end Crux
