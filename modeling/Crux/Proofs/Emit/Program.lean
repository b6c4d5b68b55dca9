import Crux.Proofs.Emit.Body

namespace Crux

open Instr Asm Emit

def Record.start (name : String) (params : List Symbol) : Record :=
  ⟨name, 0, [], ((argumentSlots params).toOption.map Prod.fst).getD []⟩

theorem Record.arguments_start {params : List Symbol} {slots : Slots} {total : UInt64}
    (h : argumentSlots params = .ok (slots, total)) (name : String) (ss : List Symbol) :
    ((Record.start name params).addAll ss).arguments = slots := by
  rw [addAll_arguments, start, h]
  rfl

theorem Frame.enter_eq {params : List Symbol} (h : ∀ p ∈ params, p.ty.size?.isSome) (f : Frame)
    (name : String) : f.enter name params = .ok (Record.start name params :: f) := by
  obtain ⟨r, hr⟩ := argumentSlots_ok h
  rw [Frame.enter, Record.start, hr]
  rfl

namespace Node

def frame : Node → Frame
  | .function _ s params body => [(Record.start s.name params).addAll body.declared]
  | _ => []

def unitCode (types : Nat → Option Ty) (l : Nat) (n : Node) : List Line :=
  match n with
  | .function _ s _ body =>
    n.wrap (.label (.function s.name) ::
      ((prologue n.frame.size.toNat ++ body.code types n.frame l) ++
        (.label (.epilogue s.name) :: (epilogue n.frame.size.toNat ++ ending s.name))))
  | _ => []

def unitData (n : Node) : List Datum :=
  n.stored.map fun s => .space (.global s.name) (s.ty.room % 2 ^ 64)

variable {types : Nat → Option Ty} {env : Env} {n : Node} {j k : Nat}

theorem gives_global {s : Symbol} (hsize : s.ty.size?.isSome) (l : Nat) :
    Gives (do
      let (f, d) ← lift ((← Emit.frame).add s)
      data d
      setFrame f) l [] [] [.space (.global s.name) (s.ty.room % 2 ^ 64)] l () [] := by
  refine Gives.frame.bind ?_
  rw [Frame.add, Ty.bytes_eq_ok (Ty.size?_eq hsize), ← UInt64.toNat_ofNat']
  exact (Gives.pure _).bind ((Gives.data _).bind (.setFrame _))

theorem Scoped.gives_body {g : Tag} {s : Symbol} {params : List Symbol} {body : Node}
    (hbody : Scoped .block (params :: env.declare s) body)
    (hr : ∀ m ∈ (Node.function g s params body).preorder, m.Ready types) (he : env.Below j)
    (hi : Rising j (Node.function g s params body).symbolIds k) :
    (∀ l, Gives (body.emit types) l [Record.start s.name params]
      (body.code types (Node.function g s params body).frame l) [] (l + body.labelCount) ()
      (Node.function g s params body).frame) ∧
      ∀ m ∈ body.preorder, m.Made types (Node.function g s params body).frame := by
  rw [symbolIds_eq] at hi
  obtain ⟨m, hip, hib⟩ := hi.split
  rw [children, List.flatMap_singleton] at hib
  have hp : ∀ p ∈ s :: params, p.id < m := fun p hp =>
    (hip.bounds p.id (List.mem_map_of_mem hp)).2
  obtain ⟨hs, hps⟩ := List.forall_mem_cons.mp hp
  exact hbody.givesCode trivial (hbody.inBody trivial) (forall_child hr (by simp [children]))
    (((he.mono hip.le).declare hs).push hps) hib ⟨rfl, fun _ _ => rfl⟩

theorem Scoped.gives_unit (hs : Scoped .declaration env n) (hr : ∀ m ∈ n.preorder, m.Ready types)
    (he : env.Below j) (hi : Rising j n.symbolIds k) (l : Nat) :
    Gives (n.emit types) l [] (n.unitCode types l) n.unitData (l + n.labelCount) () [] := by
  cases hs with
  | var | array =>
    rw [emit]
    exact gives_global (hr _ (mem_preorder_self _)) l
  | function _ hhead hbody =>
    obtain ⟨hg, -⟩ := hbody.gives_body hr he hi
    rw [emit, unitCode]
    refine .marked _ (Gives.frame.bind ?_)
    rw [Frame.enter_eq (hr _ (mem_preorder_self _))]
    exact (Gives.setFrame _).bind ((Gives.pure _).bind ((Gives.setFrame _).bind
      (((hg l).headed _).bind ((Gives.line _).bind ((Gives.lines _).thenSet _)))))

def unitCodeAll (types : Nat → Option Ty) (l : Nat) : List Node → List Line
  | [] => []
  | n :: rest => n.unitCode types l ++ unitCodeAll types (l + n.labelCount) rest

theorem gives_units {items : List Node} (h : InOrder (Scoped .declaration) env items)
    (hr : ∀ n ∈ items, ∀ m ∈ n.preorder, m.Ready types) (he : env.Below j)
    (hi : Rising j (items.flatMap symbolIds) k) (l : Nat) :
    Gives (emitAll types items) l [] (unitCodeAll types l items) (items.flatMap unitData)
      (l + labelCountAll items) () [] := by
  induction items generalizing env j l with
  | nil => exact .pure ()
  | cons n items ih =>
    obtain ⟨hn, hitems⟩ := h
    obtain ⟨hrn, hrr⟩ := List.forall_mem_cons.mp hr
    obtain ⟨m, him, hir⟩ := hi.split
    simp only [emitAll, unitCodeAll, labelCountAll, ← Nat.add_assoc, List.flatMap_cons]
    exact (hn.gives_unit hrn he him l).bind (ih hitems hrr (he.after him) hir _)

theorem gives_bodies {items : List Node} (h : InOrder (Scoped .declaration) env items)
    (hr : ∀ n ∈ items, ∀ m ∈ n.preorder, m.Ready types) (he : env.Below j)
    (hi : Rising j (items.flatMap symbolIds) k) {g : Tag} {s : Symbol} {params : List Symbol}
    {body : Node} (hf : .function g s params body ∈ items) :
    (∀ l, Gives (body.emit types) l [Record.start s.name params]
      (body.code types (Node.function g s params body).frame l) [] (l + body.labelCount) ()
      (Node.function g s params body).frame) ∧
      ∀ m ∈ body.preorder, m.Made types (Node.function g s params body).frame := by
  induction items generalizing env j with
  | nil => cases hf
  | cons n items ih =>
    obtain ⟨hn, hitems⟩ := h
    obtain ⟨hrn, hrr⟩ := List.forall_mem_cons.mp hr
    obtain ⟨m, him, hir⟩ := hi.split
    obtain rfl | hf := List.mem_cons.mp hf
    · cases hn with
      | function _ _ hbody => exact hbody.gives_body hrn he him
    · exact ih hitems hrr (he.after him) hir hf

def programCode (types : Nat → Option Ty) (root : Node) : List Line :=
  root.wrap (unitCodeAll types 0 root.children)

theorem Accepted.gives {root : Node} (h : root.Accepted)
    (hr : ∀ n ∈ root.preorder, n.Ready types) :
    Gives (root.emit types) 0 [] (root.programCode types) (root.children.flatMap unitData)
      root.labelCount () [] := by
  obtain ⟨hs, -, k, hi⟩ := h
  cases hs with
  | program hitems =>
    rw [symbolIds_eq] at hi
    have hg := gives_units (inOrder_iff.mpr hitems) (fun n hn => forall_child hr hn)
      Env.builtins_below hi 0
    rw [Nat.zero_add] at hg
    rw [emit]
    exact .marked _ hg

theorem Accepted.gives_body {root : Node} (h : root.Accepted)
    (hr : ∀ n ∈ root.preorder, n.Ready types) {g : Tag} {s : Symbol} {params : List Symbol}
    {body : Node} (hf : .function g s params body ∈ root.children) :
    (∀ l, Gives (body.emit types) l [Record.start s.name params]
      (body.code types (Node.function g s params body).frame l) [] (l + body.labelCount) ()
      (Node.function g s params body).frame) ∧
      ∀ m ∈ body.preorder, m.Made types (Node.function g s params body).frame := by
  obtain ⟨hs, -, k, hi⟩ := h
  cases hs with
  | program hitems =>
    rw [symbolIds_eq] at hi
    exact gives_bodies (inOrder_iff.mpr hitems) (fun n hn => forall_child hr hn) Env.builtins_below
      hi hf

end Node

end Crux
