import Crux.Proofs.Emit.Labels
import Crux.Proofs.Machine.Storage
import Mathlib.Data.List.Nodup

namespace Crux

namespace Symbol

def roomAll : List Symbol → Nat
  | [] => 0
  | s :: rest => s.ty.room + roomAll rest

def offset (s : Symbol) : List Symbol → Nat
  | [] => 0
  | u :: rest => if u = s then 0 else u.ty.room + s.offset rest

variable {s u : Symbol} {ss : List Symbol}

theorem roomAll_mod (ss : List Symbol) : roomAll ss % Ty.wordSize = 0 := by
  induction ss with
  | nil => rfl
  | cons s rest ih =>
    rw [roomAll, Nat.add_mod, ih, Ty.room_mod]
    rfl

theorem offset_mod (s : Symbol) (ss : List Symbol) : s.offset ss % Ty.wordSize = 0 := by
  induction ss with
  | nil => rfl
  | cons u rest ih =>
    rw [offset]
    split
    · rfl
    · rw [Nat.add_mod, ih, Ty.room_mod]
      rfl

theorem offset_le (h : s ∈ ss) : s.offset ss + s.ty.room ≤ roomAll ss := by
  induction ss with
  | nil => cases h
  | cons u rest ih =>
    rw [offset, roomAll]
    split
    · subst s
      omega
    · rename_i hu
      have := ih ((List.mem_cons.mp h).resolve_left (Ne.symm hu))
      omega

theorem offset_apart (hs : s ∈ ss) (hu : u ∈ ss) (hne : s ≠ u) :
    s.offset ss + s.ty.room ≤ u.offset ss ∨ u.offset ss + u.ty.room ≤ s.offset ss := by
  induction ss with
  | nil => cases hs
  | cons v rest ih =>
    rw [offset, offset]
    by_cases hvs : v = s
    · subst hvs
      simp [hne]
    · by_cases hvu : v = u
      · subst hvu
        simp [hvs]
      · have := ih ((List.mem_cons.mp hs).resolve_left (Ne.symm hvs))
          ((List.mem_cons.mp hu).resolve_left (Ne.symm hvu))
        simp only [hvs, hvu, if_false]
        omega

end Symbol

namespace Record

theorem size_addAll (r : Record) (ss : List Symbol) :
    (r.addAll ss).size = r.size + .ofNat (Symbol.roomAll ss) := by
  induction ss generalizing r with
  | nil => exact (UInt64.add_zero _).symm
  | cons s ss ih =>
    refine (ih (r.add s)).trans ?_
    rw [Symbol.roomAll, UInt64.ofNat_add]
    exact UInt64.add_assoc ..

theorem lookup_addAll_of_mem {r : Record} {ss : List Symbol} {s : Symbol} (h : s ∈ ss)
    (hn : (ss.map Symbol.id).Nodup) :
    (r.addAll ss).locals.lookup s.id =
      some (r.size + .ofNat (s.offset ss + s.ty.room + savedBytes)) := by
  induction ss generalizing r with
  | nil => cases h
  | cons u ss ih =>
    obtain ⟨hu, hss⟩ := List.nodup_cons.mp hn
    show ((r.add u).addAll ss).locals.lookup s.id = _
    rw [Symbol.offset]
    by_cases hus : u = s
    · subst hus
      have hne : ∀ v ∈ ss, v.id ≠ u.id := fun v hv e => hu (List.mem_map.mpr ⟨v, hv, e⟩)
      rw [lookup_addAll hne, if_pos rfl, Nat.zero_add, UInt64.ofNat_add, ← UInt64.add_assoc]
      exact List.lookup_cons_self
    · rw [ih ((List.mem_cons.mp h).resolve_left (Ne.symm hus)) hss, if_neg hus, add]
      simp only [UInt64.ofNat_add, UInt64.add_assoc]

end Record

theorem lookup_argumentSlots {params : List Symbol} (hsize : ∀ p ∈ params, p.ty.size?.isSome)
    (hn : (params.map Symbol.id).Nodup) :
    ∃ slots, argumentSlots params = .ok (slots, .ofNat (Symbol.roomAll params)) ∧
      (∀ s ∈ params, ∃ o, slots.lookup s.id = some (.ofNat o) ∧
        o + s.offset params + s.ty.room = Symbol.roomAll params) ∧
      ∀ id, (∀ s ∈ params, s.id ≠ id) → slots.lookup id = none := by
  induction params with
  | nil => exact ⟨[], rfl, nofun, fun _ _ => rfl⟩
  | cons p rest ih =>
    obtain ⟨hp, hrest⟩ := List.forall_mem_cons.mp hsize
    obtain ⟨hid, hnr⟩ := List.nodup_cons.mp hn
    obtain ⟨slots, hs, hmem, hnone⟩ := ih hrest hnr
    refine ⟨(p.id, .ofNat (Symbol.roomAll rest)) :: slots, ?_, fun s hmem' => ?_, fun id h => ?_⟩
    · rw [argumentSlots, hs, Ty.bytes_eq_ok (Ty.size?_eq hp), Symbol.roomAll, Nat.add_comm,
        UInt64.ofNat_add]
      rfl
    · rw [Symbol.offset, Symbol.roomAll]
      by_cases hps : p = s
      · subst hps
        refine ⟨_, List.lookup_cons_self, ?_⟩
        rw [if_pos rfl]
        omega
      · have hs' := (List.mem_cons.mp hmem').resolve_left (Ne.symm hps)
        obtain ⟨o, ho, hsum⟩ := hmem s hs'
        have hne : s.id ≠ p.id := fun e => hid (List.mem_map.mpr ⟨s, hs', e⟩)
        refine ⟨o, (Slots.lookup_cons_ne hne).trans ho, ?_⟩
        rw [if_neg hps]
        omega
    · obtain ⟨hne, hr⟩ := List.forall_mem_cons.mp h
      exact (Slots.lookup_cons_ne (Ne.symm hne)).trans (hnone id hr)

namespace Datum

def offset (text : String) : List Datum → Nat
  | [] => 0
  | .space l size :: rest => if l.render = text then 0 else size + offset text rest
  | .quoted .. :: rest | .text _ :: rest => offset text rest

end Datum

def Program.storage (program : Program) (base : Word) (l : Label) : Word :=
  base + .ofNat 32 (Datum.offset l.render program.data)

theorem Label.render_global_inj {a b : String} (h : (global a).render = (global b).render) :
    a = b := by
  have h := congrArg String.toList h
  rw [toList_global, toList_global] at h
  exact String.toList_inj.mp (List.append_cancel_left h)

theorem Node.flatMap_unitData (root : Node) :
    root.children.flatMap unitData =
      root.globals.map fun s => .space (.global s.name) (s.ty.room % 2 ^ 64) := by
  rw [globals, List.map_flatMap]
  rfl

theorem Datum.offset_globals {ss : List Symbol} {s : Symbol} (h : s ∈ ss)
    (hn : (ss.map Symbol.name).Nodup) (hfit : Symbol.roomAll ss < 2 ^ 64) :
    offset (Label.global s.name).render
      (ss.map fun s => .space (.global s.name) (s.ty.room % 2 ^ 64)) = s.offset ss := by
  induction ss with
  | nil => cases h
  | cons u ss ih =>
    obtain ⟨hu, hss⟩ := List.nodup_cons.mp hn
    rw [Symbol.roomAll] at hfit
    rw [List.map_cons, offset, Symbol.offset]
    by_cases hus : u = s
    · subst hus
      simp
    · have hs := (List.mem_cons.mp h).resolve_left (Ne.symm hus)
      have hne : ¬ (Label.global u.name).render = (Label.global s.name).render := fun e =>
        hu (Label.render_global_inj e ▸ List.mem_map_of_mem hs)
      rw [if_neg hne, if_neg hus, ih hs hss (by omega), Nat.mod_eq_of_lt (by omega)]

namespace Frame

variable {r : Record} {storage : Label → Word} {fp : Word} {s : Symbol} {o : Nat}

theorem locate_argument (h : r.arguments.lookup s.id = some (.ofNat o)) :
    locate [r] storage fp s = fp + .ofNat 32 o := by
  simp only [locate, address, h, BitVec.ofInt_natCast, UInt64.toNat_ofNat', Word.ofNat_mod]

theorem locate_local (hn : r.arguments.lookup s.id = none)
    (h : r.locals.lookup s.id = some (.ofNat o)) : locate [r] storage fp s = fp - .ofNat 32 o := by
  simp only [locate, address, hn, h, BitVec.ofInt_neg, BitVec.ofInt_natCast, UInt64.toNat_ofNat',
    Word.ofNat_mod, BitVec.sub_eq_add_neg]

theorem locate_global (hn : r.arguments.lookup s.id = none) (h : r.locals.lookup s.id = none) :
    locate [r] storage fp s = storage (.global s.name) := by
  simp [locate, address, hn, h]

end Frame

def Node.parameters : Node → List Symbol
  | .function _ _ params _ => params
  | _ => []

def Node.locals : Node → List Symbol
  | .function _ _ _ body => body.declared
  | _ => []

def Node.declaredVariables (n : Node) : List Symbol := n.preorder.flatMap stored

/-- Each variable outside functions, and the variables of each function together, take less than
`2 ^ 64` bytes. -/
def Node.SizesFit (root : Node) : Prop :=
  ∀ n ∈ root.children, Symbol.roomAll n.declaredVariables < 2 ^ 64

instance (root : Node) : Decidable root.SizesFit :=
  inferInstanceAs (Decidable (∀ n ∈ root.children, Symbol.roomAll n.declaredVariables < 2 ^ 64))

theorem Node.SizesFit.room_lt {root n m : Node} {s : Symbol} (h : root.SizesFit)
    (hn : n ∈ root.children) (hm : m ∈ n.preorder) (hs : s ∈ m.stored) : s.ty.room < 2 ^ 64 := by
  have hle := Symbol.offset_le (List.mem_flatMap.mpr ⟨m, hm, hs⟩)
  exact Nat.lt_of_le_of_lt (Nat.le_trans (Nat.le_add_left ..) hle) (h n hn)

theorem Node.declaredVariables_eq {n : Node} (h : ∀ m ∈ n.preorder, m.InBody) :
    n.declaredVariables = n.declared := by
  rw [declaredVariables, declared, List.flatMap_def, List.flatMap_def]
  refine congrArg List.flatten (List.map_congr_left fun m hm => ?_)
  have hb := h m hm
  cases m with
  | function => exact hb.elim
  | _ => rfl

theorem Node.declaredVariables_function (g : Tag) (f : Symbol) (params : List Symbol)
    (body : Node) : (Node.function g f params body).declaredVariables = body.declaredVariables := by
  rw [declaredVariables, preorder_eq]
  simp [stored, children, declaredVariables]

theorem Node.frame_name (g : Tag) (f : Symbol) (params : List Symbol) (body : Node) :
    (Node.function g f params body).frame.name? = some f.name :=
  congrArg some (Record.addAll_name ..)

theorem Node.frame_size (g : Tag) (f : Symbol) (params : List Symbol) (body : Node) :
    (Node.function g f params body).frame.size = .ofNat (Symbol.roomAll body.declared) :=
  (Record.size_addAll ..).trans (UInt64.zero_add _)

theorem Node.locate_cases {root body : Node} {g : Tag} {f s : Symbol} {params : List Symbol}
    (hsize : ∀ p ∈ params, p.ty.size?.isSome)
    (hids : ((root.variables (.function g f params body)).map Symbol.id).Nodup)
    (hs : s ∈ root.variables (.function g f params body)) :
    (s ∈ params ∧ ∃ o, o + s.offset params + s.ty.room = Symbol.roomAll params ∧
      ∀ storage fp, (Node.function g f params body).frame.locate storage fp s =
        fp + .ofNat 32 o) ∨
    (s ∈ body.declared ∧ ∀ storage fp,
      (Node.function g f params body).frame.locate storage fp s =
        fp - .ofNat 32 (s.offset body.declared + s.ty.room + savedBytes)) ∨
    (s ∈ root.globals ∧ ∀ storage fp,
      (Node.function g f params body).frame.locate storage fp s = storage (.global s.name)) := by
  rw [Node.variables, List.map_append, List.map_append] at hids
  obtain ⟨hpb, hg, hpbg⟩ := List.nodup_append.mp hids
  obtain ⟨hp, hb, hpd⟩ := List.nodup_append.mp hpb
  obtain ⟨slots, hslots, hmem, hnone⟩ := lookup_argumentSlots hsize hp
  have hargs := Record.arguments_start hslots f.name body.declared
  rw [Node.variables, List.mem_append, List.mem_append] at hs
  obtain (hs | hs) | hs := hs
  · obtain ⟨o, ho, hsum⟩ := hmem s hs
    exact .inl ⟨hs, o, hsum, fun _ _ => Frame.locate_argument (hargs ▸ ho)⟩
  · have hn := hnone s.id fun p hp e => hpd p.id (List.mem_map_of_mem hp) s.id
      (List.mem_map_of_mem hs) e
    have hl := Record.lookup_addAll_of_mem (r := Record.start f.name params) hs hb
    rw [show (Record.start f.name params).size = 0 from rfl, UInt64.zero_add] at hl
    exact .inr (.inl ⟨hs, fun _ _ => Frame.locate_local (hargs ▸ hn) hl⟩)
  · have hne : ∀ p ∈ params ++ body.declared, p.id ≠ s.id := fun p hp e => hpbg p.id
      (by rw [← List.map_append]; exact List.mem_map_of_mem hp) s.id (List.mem_map_of_mem hs) e
    have hn := hnone s.id fun p hp => hne p (List.mem_append_left _ hp)
    have hl : ((Record.start f.name params).addAll body.declared).locals.lookup s.id = none :=
      Record.lookup_addAll fun p hp => hne p (List.mem_append_right _ hp)
    exact .inr (.inr ⟨hs, fun _ _ => Frame.locate_global (hargs ▸ hn) hl⟩)

/-- A call of a function in memory: its variables and the data segment are inside the address space
and apart from each other, and the area for operands, from `low` to the stack pointer, is apart
from all variables. -/
structure Activation (program : Program) (base : Word) (root function : Node) (low : Nat)
    (c : Core) : Prop where
  aligned : Aligned base ∧ Aligned (c.regs .fp) ∧ Aligned (c.regs .sp)
  data : base.toNat + Symbol.roomAll root.globals < 2 ^ 32
  arguments : (c.regs .fp).toNat + Symbol.roomAll function.parameters < 2 ^ 32
  locals : savedBytes + Symbol.roomAll function.locals ≤ (c.regs .fp).toNat
  apart : base.toNat + Symbol.roomAll root.globals + savedBytes + Symbol.roomAll function.locals ≤
      (c.regs .fp).toNat ∨
    (c.regs .fp).toNat + Symbol.roomAll function.parameters ≤ base.toNat
  clear : ∀ s ∈ root.variables function,
    (function.frame.locate (program.storage base) (c.regs .fp) s).toNat + s.ty.room ≤ low ∨
      (c.regs .sp).toNat ≤ (function.frame.locate (program.storage base) (c.regs .fp) s).toNat

namespace Activation

variable {program : Program} {base : Word} {root body : Node} {g : Tag} {f : Symbol}
  {params : List Symbol} {low : Nat} {c : Core}

theorem placed (h : Activation program base root (.function g f params body) low c)
    (hdata : program.data = root.children.flatMap Node.unitData)
    (hsize : ∀ p ∈ params, p.ty.size?.isSome)
    (hids : ((root.variables (.function g f params body)).map Symbol.id).Nodup)
    (hnames : (root.globals.map Symbol.name).Nodup) {s : Symbol}
    (hs : s ∈ root.variables (.function g f params body)) :
    let a := ((Node.function g f params body).frame.locate (program.storage base) (c.regs .fp)
      s).toNat
    (s ∈ params ∧ ∃ o, a = (c.regs .fp).toNat + o ∧
      o + s.offset params + s.ty.room = Symbol.roomAll params) ∨
    (s ∈ body.declared ∧
      a + (s.offset body.declared + s.ty.room + savedBytes) = (c.regs .fp).toNat) ∨
    (s ∈ root.globals ∧ a = base.toNat + s.offset root.globals) := by
  intro a
  have ha : a = ((Node.function g f params body).frame.locate (program.storage base)
    (c.regs .fp) s).toNat := rfl
  obtain ⟨hs, o, hsum, hl⟩ | ⟨hs, hl⟩ | ⟨hs, hl⟩ := Node.locate_cases hsize hids hs
  · have := h.arguments
    rw [Node.parameters] at this
    refine .inl ⟨hs, o, ?_, hsum⟩
    rw [ha, hl, BitVec.toNat_add, BitVec.toNat_ofNat]
    omega
  · have hlocals := h.locals
    have := Symbol.offset_le hs
    rw [Node.locals] at hlocals
    refine .inr (.inl ⟨hs, ?_⟩)
    rw [ha, hl]
    bv_omega
  · have := h.data
    have := Symbol.offset_le hs
    refine .inr (.inr ⟨hs, ?_⟩)
    rw [ha, hl, Program.storage, hdata, Node.flatMap_unitData,
      Datum.offset_globals hs hnames (by omega), BitVec.toNat_add, BitVec.toNat_ofNat]
    omega

def layout (h : Activation program base root (.function g f params body) low c)
    (hdata : program.data = root.children.flatMap Node.unitData)
    (hsize : ∀ p ∈ params, p.ty.size?.isSome)
    (hids : ((root.variables (.function g f params body)).map Symbol.id).Nodup)
    (hnames : (root.globals.map Symbol.name).Nodup) :
    Layout (Node.function g f params body).frame (program.storage base) where
  fp := c.regs .fp
  vars := root.variables (.function g f params body)
  low := low
  top := (c.regs .sp).toNat
  unique s hs u hu e := List.inj_on_of_nodup_map hids hs hu e
  aligned s hs := by
    obtain ⟨hbase, hfp, -⟩ := h.aligned
    have hp := h.placed hdata hsize hids hnames hs
    have := Ty.room_mod s.ty
    unfold Aligned Ty.wordSize at *
    obtain ⟨-, o, hp, ho⟩ | ⟨-, hp⟩ | ⟨-, hp⟩ := hp
    · have := Symbol.offset_mod s params
      have := Symbol.roomAll_mod params
      unfold Ty.wordSize at *
      omega
    · have := Symbol.offset_mod s body.declared
      unfold Ty.wordSize savedBytes at *
      omega
    · have := Symbol.offset_mod s root.globals
      unfold Ty.wordSize at *
      omega
  fits s hs := by
    have := h.data
    have := h.arguments
    rw [Node.parameters] at this
    obtain ⟨-, o, hp, ho⟩ | ⟨hs, hp⟩ | ⟨hs, hp⟩ := h.placed hdata hsize hids hnames hs
    · omega
    · have := (c.regs .fp).isLt
      omega
    · have := Symbol.offset_le hs
      omega
  apart s hs u hu hne := by
    have hlocals := h.locals
    have hapart := h.apart
    rw [Node.locals] at hlocals hapart
    rw [Node.parameters] at hapart
    unfold savedBytes at *
    obtain ⟨hs, o, hp, ho⟩ | ⟨hs, hp⟩ | ⟨hs, hp⟩ := h.placed hdata hsize hids hnames hs
    · obtain ⟨hu, o', hq, ho'⟩ | ⟨hu, hq⟩ | ⟨hu, hq⟩ := h.placed hdata hsize hids hnames hu
      · have := Symbol.offset_apart hs hu hne
        omega
      · unfold savedBytes at *
        omega
      · have := Symbol.offset_le hu
        omega
    · obtain ⟨hu, o', hq, ho'⟩ | ⟨hu, hq⟩ | ⟨hu, hq⟩ := h.placed hdata hsize hids hnames hu
      · unfold savedBytes at *
        omega
      · have := Symbol.offset_apart hs hu hne
        unfold savedBytes at *
        omega
      · have := Symbol.offset_le hs
        have := Symbol.offset_le hu
        unfold savedBytes at *
        omega
    · obtain ⟨hu, o', hq, ho'⟩ | ⟨hu, hq⟩ | ⟨hu, hq⟩ := h.placed hdata hsize hids hnames hu
      · have := Symbol.offset_le hs
        omega
      · have := Symbol.offset_le hs
        have := Symbol.offset_le hu
        unfold savedBytes at *
        omega
      · have := Symbol.offset_apart hs hu hne
        omega
  clear := h.clear

end Activation

end Crux
