import Crux.Proofs.Emit.Buffer
import Crux.Proofs.Node.Order

namespace Crux

namespace Emit

variable {α β : Type}

def Succeeds (x : Emit α) : Prop :=
  ∀ labels frame, ∃ code data labels' a frame', Gives x labels frame code data labels' a frame'

namespace Succeeds

theorem pure (a : α) : Succeeds (pure a) := fun _ _ => ⟨_, _, _, _, _, .pure a⟩

theorem bind {x : Emit α} {f : α → Emit β} (hx : Succeeds x) (hf : ∀ a, Succeeds (f a)) :
    Succeeds (x >>= f) := by
  intro labels frame
  obtain ⟨_, _, labels', a, frame', hx⟩ := hx labels frame
  obtain ⟨_, _, _, _, _, hf⟩ := hf a labels' frame'
  exact ⟨_, _, _, _, _, hx.bind hf⟩

theorem lines (code : List Line) : Succeeds (lines code) := fun _ _ => ⟨_, _, _, _, _, .lines code⟩

theorem line (l : Line) : Succeeds (line l) := lines [l]

theorem instr (i : Instr) : Succeeds (instr i) := lines _

theorem data (d : List Datum) : Succeeds (data d) := fun _ _ => ⟨_, _, _, _, _, .data d⟩

theorem freshLabel : Succeeds freshLabel := fun _ _ => ⟨_, _, _, _, _, .freshLabel⟩

theorem frame : Succeeds frame := fun _ _ => ⟨_, _, _, _, _, .frame⟩

theorem setFrame (f : Frame) : Succeeds (setFrame f) := fun _ _ => ⟨_, _, _, _, _, .setFrame f⟩

theorem headed {body : Emit Unit} (h : Succeeds body) (l : Line) : Succeeds (headed l body) := by
  intro labels frame
  obtain ⟨_, _, _, _, _, h⟩ := h labels frame
  exact ⟨_, _, _, _, _, h.headed l⟩

theorem marked (n : Node) {x : Emit Unit} (hx : Succeeds x) : Succeeds (marked n x) := by
  unfold Emit.marked
  split
  · exact (line _).bind fun _ => hx.bind fun _ => line _
  · exact hx

end Succeeds

theorem typeOf_eq_pure {types : Nat → Option Ty} {n : Node} {t : Ty} (h : types n.id = some t) :
    typeOf types n = pure t := by
  rw [typeOf, h]

end Emit

theorem Ty.bytes_eq_ok {t : Ty} {n : UInt64} (h : t.size? = some n) : t.bytes = .ok n := by
  rw [Ty.bytes, h]

theorem Ty.bytes_eq_error {t : Ty} (h : t.size? = none) : t.bytes = .error (.noSize t) := by
  rw [Ty.bytes, h]

theorem argumentSlots_cases (params : List Symbol) :
    ((∀ p ∈ params, p.ty.size?.isSome) ∧ ∃ r, argumentSlots params = .ok r) ∨
      ∃ p ∈ params, p.ty.size? = none ∧ argumentSlots params = .error (.noSize p.ty) := by
  induction params with
  | nil => exact .inl ⟨List.forall_mem_nil _, _, rfl⟩
  | cons p rest ih =>
    rw [argumentSlots]
    obtain ⟨hrest, r, hr⟩ | ⟨q, hq, hnone, he⟩ := ih
    · rw [hr]
      cases hp : p.ty.size? with
      | none =>
        rw [Ty.bytes_eq_error hp]
        exact .inr ⟨p, List.mem_cons_self, hp, rfl⟩
      | some n =>
        rw [Ty.bytes_eq_ok hp]
        exact .inl ⟨List.forall_mem_cons.mpr ⟨Option.isSome_of_eq_some hp, hrest⟩, _, rfl⟩
    · rw [he]
      exact .inr ⟨q, List.mem_cons_of_mem p hq, hnone, rfl⟩

theorem argumentSlots_ok {params : List Symbol} (h : ∀ p ∈ params, p.ty.size?.isSome) :
    ∃ r, argumentSlots params = .ok r := by
  obtain ⟨-, hr⟩ | ⟨p, hp, hnone, -⟩ := argumentSlots_cases params
  · exact hr
  · have hsome := h p hp
    rw [hnone] at hsome
    cases hsome

theorem Frame.enter_ok {params : List Symbol} (h : ∀ p ∈ params, p.ty.size?.isSome) (f : Frame)
    (name : String) : ∃ f', f.enter name params = .ok f' := by
  obtain ⟨r, hr⟩ := argumentSlots_ok h
  rw [Frame.enter, hr]
  exact ⟨_, rfl⟩

theorem Frame.enter_cases (f : Frame) (name : String) (params : List Symbol) :
    ((∀ p ∈ params, p.ty.size?.isSome) ∧ ∃ f', f.enter name params = .ok f') ∨
      ∃ p ∈ params, p.ty.size? = none ∧ f.enter name params = .error (.noSize p.ty) := by
  obtain ⟨hsize, -⟩ | ⟨p, hp, hnone, he⟩ := argumentSlots_cases params
  · exact .inl ⟨hsize, f.enter_ok hsize name⟩
  · refine .inr ⟨p, hp, hnone, ?_⟩
    rw [Frame.enter, he]
    rfl

theorem Frame.add_ok {s : Symbol} (h : s.ty.size?.isSome) (f : Frame) : ∃ r, f.add s = .ok r := by
  obtain ⟨n, hn⟩ := Option.isSome_iff_exists.mp h
  rw [Frame.add, Ty.bytes_eq_ok hn]
  cases f with
  | nil => exact ⟨_, rfl⟩
  | cons r rest => exact ⟨_, rfl⟩

theorem Frame.add_eq_error {s : Symbol} (h : s.ty.size? = none) (f : Frame) :
    f.add s = .error (.noSize s.ty) := by
  rw [Frame.add, Ty.bytes_eq_error h]
  rfl

namespace Node

open Emit

/-- What the code of a node itself depends on is there. -/
def Ready (types : Nat → Option Ty) (n : Node) : Prop :=
  match n with
  | .dereference .. | .call .. => (types n.id).isSome
  | .index .. => ∃ element, types n.id = some (.address element) ∧ element.size?.isSome
  | .binary _ op _ _ => ∃ t, types n.id = some t ∧ (t.isFloat → op.floatForm?.isSome)
  | .compare _ _ operand _ | .assign _ _ operand => (types operand.id).isSome
  | .var _ s | .array _ s => s.ty.size?.isSome
  | .function _ _ params _ => ∀ p ∈ params, p.ty.size?.isSome
  | .error .. => False
  | .int .. | .float .. | .bool .. | .addressOf .. | .not .. | .branch .. | .loop .. | .leave ..
  | .leaveWith .. | .list .. => True

variable {types : Nat → Option Ty}

theorem dropResult_succeeds {n : Node} (h : n.Ready types) : Succeeds (dropResult types n) := by
  cases n with
  | call g s args =>
    obtain ⟨t, ht⟩ := Option.isSome_iff_exists.mp h
    rw [dropResult, typeOf_eq_pure ht]
    refine (Succeeds.pure t).bind fun t => ?_
    split
    · exact .pure _
    · exact .lines _
  | _ => exact .pure _

theorem emitAll_succeeds {items : List Node} (h : ∀ n ∈ items, Succeeds (n.emit types)) :
    Succeeds (emitAll types items) := by
  induction items with
  | nil => exact .pure _
  | cons n rest ih =>
    obtain ⟨hn, hrest⟩ := List.forall_mem_cons.mp h
    exact hn.bind fun _ => ih hrest

theorem emitStatements_succeeds {items : List Node}
    (h : ∀ n ∈ items, Succeeds (n.emit types) ∧ n.Ready types) :
    Succeeds (emitStatements types items) := by
  induction items with
  | nil => exact .pure _
  | cons n rest ih =>
    obtain ⟨⟨hn, hr⟩, hrest⟩ := List.forall_mem_cons.mp h
    exact hn.bind fun _ => (dropResult_succeeds hr).bind fun _ => ih hrest

/-- Code can be made of a tree of ready nodes. -/
theorem emit_succeeds {n : Node} (h : ∀ m ∈ n.preorder, m.Ready types) :
    Succeeds (n.emit types) := by
  induction n using children_induction with
  | step n ih =>
    have hc {m : Node} (hm : m ∈ n.children) : Succeeds (m.emit types) :=
      ih m hm (forall_child h hm)
    have hn := h n (mem_preorder_self n)
    cases n with
    | int | float | bool => exact .marked _ (.lines _)
    | addressOf g s =>
      rw [emit]
      exact .marked _ (Succeeds.frame.bind fun _ => (Succeeds.instr _).bind fun _ => .lines _)
    | dereference g a =>
      obtain ⟨t, ht⟩ := Option.isSome_iff_exists.mp hn
      rw [emit, isFloat, typeOf_eq_pure ht]
      exact .marked _ ((hc (by simp [children])).bind fun _ => (Succeeds.lines _).bind fun _ =>
        ((Succeeds.pure t).bind fun _ => .pure _).bind fun _ => .lines _)
    | index g a b =>
      obtain ⟨element, ht, hs⟩ := hn
      obtain ⟨bytes, hb⟩ := Option.isSome_iff_exists.mp hs
      rw [emit, typeOf_eq_pure ht]
      refine .marked _ ((hc (by simp [children])).bind fun _ =>
        (hc (by simp [children])).bind fun _ => ?_)
      show Succeeds (lift element.bytes >>= fun bytes => lines (indexCode bytes.toNat))
      rw [Ty.bytes_eq_ok hb]
      exact (Succeeds.pure _).bind fun _ => .lines _
    | binary g op a b =>
      obtain ⟨t, ht, hf⟩ := hn
      rw [emit, isFloat, typeOf_eq_pure ht]
      refine .marked _ ((hc (by simp [children])).bind fun _ =>
        (hc (by simp [children])).bind fun _ => ?_)
      show Succeeds (if t.isFloat = true then _ else _)
      split
      · rename_i hfloat
        obtain ⟨form, hform⟩ := Option.isSome_iff_exists.mp (hf hfloat)
        rw [hform]
        exact .lines _
      · exact .lines _
    | compare g op a b =>
      obtain ⟨t, ht⟩ := Option.isSome_iff_exists.mp hn
      rw [emit, isFloat, typeOf_eq_pure ht]
      exact .marked _ ((hc (by simp [children])).bind fun _ =>
        (hc (by simp [children])).bind fun _ => Succeeds.freshLabel.bind fun _ =>
        Succeeds.freshLabel.bind fun _ => Succeeds.freshLabel.bind fun _ =>
        ((Succeeds.pure t).bind fun _ => .pure _).bind fun _ => .lines _)
    | not g a =>
      rw [emit]
      exact .marked _ ((hc (by simp [children])).bind fun _ => .lines _)
    | call g s args =>
      rw [emit]
      exact .marked _ ((hc (by simp [children])).bind fun _ => .lines _)
    | assign g a b =>
      obtain ⟨t, ht⟩ := Option.isSome_iff_exists.mp hn
      rw [emit, isFloat, typeOf_eq_pure ht]
      exact .marked _ ((hc (by simp [children])).bind fun _ =>
        (hc (by simp [children])).bind fun _ =>
        ((Succeeds.pure t).bind fun _ => .pure _).bind fun _ => .lines _)
    | var g s | array g s =>
      rw [emit]
      refine .marked _ (Succeeds.frame.bind fun f => ?_)
      obtain ⟨r, hr⟩ := f.add_ok hn
      rw [hr]
      exact (Succeeds.pure r).bind fun _ => (Succeeds.data _).bind fun _ => .setFrame _
    | function g s params body =>
      rw [emit]
      refine .marked _ (Succeeds.frame.bind fun f => ?_)
      obtain ⟨f', hf⟩ := f.enter_ok hn s.name
      rw [hf]
      exact (Succeeds.setFrame _).bind fun _ => (Succeeds.pure f').bind fun _ =>
        (Succeeds.setFrame _).bind fun _ => ((hc (by simp [children])).headed _).bind fun _ =>
        (Succeeds.line _).bind fun _ => (Succeeds.lines _).bind fun _ => .setFrame _
    | branch g a b d =>
      rw [emit]
      exact .marked _ (Succeeds.freshLabel.bind fun _ => Succeeds.freshLabel.bind fun _ =>
        (hc (by simp [children])).bind fun _ => (Succeeds.lines _).bind fun _ =>
        (hc (by simp [children])).bind fun _ => (Succeeds.lines _).bind fun _ =>
        (hc (by simp [children])).bind fun _ => .line _)
    | loop g a b =>
      rw [emit]
      exact .marked _ (Succeeds.freshLabel.bind fun _ => Succeeds.freshLabel.bind fun _ =>
        (Succeeds.line _).bind fun _ =>
        (hc (by simp [children])).bind fun _ => (Succeeds.lines _).bind fun _ =>
        (hc (by simp [children])).bind fun _ => .lines _)
    | leave g =>
      rw [emit]
      exact .marked _ (Succeeds.frame.bind fun _ => .instr _)
    | leaveWith g a =>
      rw [emit]
      exact .marked _ ((hc (by simp [children])).bind fun _ => (Succeeds.lines _).bind fun _ =>
        Succeeds.frame.bind fun _ => .instr _)
    | list g kind items =>
      have hr : ∀ m ∈ items, Succeeds (m.emit types) ∧ m.Ready types := fun m hm =>
        ⟨hc hm, h m (mem_preorder.mpr (.inr ⟨m, hm, mem_preorder_self m⟩))⟩
      cases kind with
      | statements => exact .marked _ (emitStatements_succeeds hr)
      | expressions | declarations => exact .marked _ (emitAll_succeeds fun m hm => (hr m hm).1)
    | error g message => exact hn.elim

end Node

end Crux
