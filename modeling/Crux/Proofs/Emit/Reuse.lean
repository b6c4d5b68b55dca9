import Crux.Compile
import Crux.Proofs.Emit.Code
import Mathlib.Data.List.Induction

/-! One generator for many trees. The code of a tree depends on the trees before it only in the
numbers of its labels, also where it breaks off: each label is raised by the labels given out. -/

namespace Crux

open Instr Asm

/-- The label with its number raised, if it has one. -/
def Label.raise (k : Nat) : Label → Label
  | .fresh i => .fresh (i + k)
  | l => l

def Instr.raise (k : Nat) : Instr → Instr
  | .la r l => .la r (l.raise k)
  | .branch op a b l => .branch op a b (l.raise k)
  | .branchZero r l => .branchZero r (l.raise k)
  | .branchFlag flag l => .branchFlag flag (l.raise k)
  | .jump l => .jump (l.raise k)
  | .jumpLink l => .jumpLink (l.raise k)
  | i => i

def Line.raise (k : Nat) : Line → Line
  | .instr i spacing => .instr (i.raise k) spacing
  | .label l => .label (l.raise k)
  | line => line

def Unnumbered (ls : List Line) : Prop := ∀ k, ls.map (Line.raise k) = ls

def Added.raise {α : Type} (k : Nat) (v : α → α) (e : Added α) : Added α :=
  ⟨e.code.map (Line.raise k), e.data, e.labels + k, e.frame, e.outcome.map v⟩

def Added.Placed {α : Type} (e : Added α) : Prop := ∀ pos, e.outcome ≠ .error (.misplaced pos)

theorem Added.placed_of_ok {α : Type} {e : Added α} {a : α} (h : e.outcome = .ok a) :
    e.Placed := by
  intro pos he
  rw [h] at he
  cases he

theorem Added.Placed.of_error {α β : Type} {e : Added α} {e' : Added β} {fault : EmitFault}
    (hp : e.Placed) (h : e.outcome = .error fault) (h' : e'.outcome = .error fault) :
    e'.Placed := by
  intro pos he
  refine hp pos (h.trans ?_)
  rw [Except.error.inj (h'.symm.trans he)]

theorem Added.raise_ok {α : Type} {e : Added α} {a : α} (h : e.outcome = .ok a) (k : Nat)
    (v : α → α) : (e.raise k v).outcome = .ok (v a) := by
  rw [Added.raise, h]
  rfl

theorem Added.raise_error {α : Type} {e : Added α} {fault : EmitFault}
    (h : e.outcome = .error fault) (k : Nat) (v : α → α) :
    (e.raise k v).outcome = .error fault := by
  rw [Added.raise, h]
  rfl

theorem Ty.bytes_error {t : Ty} {fault : EmitFault} (h : t.bytes = .error fault) :
    ∃ u, fault = .noSize u := by
  rw [bytes] at h
  split at h
  · cases h
  · cases h
    exact ⟨t, rfl⟩

theorem Frame.enter_error {f : Frame} {name : String} {params : List Symbol} {fault : EmitFault}
    (h : f.enter name params = .error fault) : ∃ t, fault = .noSize t := by
  obtain ⟨-, f', hf⟩ | ⟨p, -, -, he⟩ := f.enter_cases name params
  · rw [hf] at h
    cases h
  · exact ⟨p.ty, Except.error.inj (h.symm.trans he)⟩

theorem Frame.add_error {f : Frame} {s : Symbol} {fault : EmitFault}
    (h : f.add s = .error fault) : ∃ t, fault = .noSize t := by
  cases hs : s.ty.size? with
  | none => exact ⟨s.ty, Except.error.inj (h.symm.trans (add_eq_error hs f))⟩
  | some n =>
    obtain ⟨r, hr⟩ := f.add_ok (Option.isSome_of_eq_some hs)
    rw [hr] at h
    cases h

namespace Emit

variable {α β : Type} {k : Nat} {v : α → α} {w : β → β}

/-- With `k` more labels given out, the first step adds what the second one does, raised. -/
def Raises (k : Nat) (v : α → α) (x y : Emit α) : Prop :=
  ∀ labels frame, ∃ e : Added α, e.Placed ∧ Adds y labels frame e ∧
    Adds x (labels + k) frame (e.raise k v)

namespace Raises

theorem of_gives {x y : Emit α} (h : ∀ labels frame, ∃ ls d labels' a frame',
    Gives y labels frame ls d labels' a frame' ∧
      Gives x (labels + k) frame (ls.map (Line.raise k)) d (labels' + k) (v a) frame') :
    Raises k v x y := by
  intro labels frame
  obtain ⟨_, _, _, _, _, hy, hx⟩ := h labels frame
  exact ⟨_, Added.placed_of_ok rfl, hy.adds, hx.adds⟩

theorem pure (a : α) : Raises k v (pure (v a)) (pure a) :=
  .of_gives fun _ _ => ⟨_, _, _, _, _, .pure a, .pure (v a)⟩

theorem bind {x y : Emit α} {f g : α → Emit β} (hx : Raises k v x y)
    (hf : ∀ a, Raises k w (f (v a)) (g a)) : Raises k w (x >>= f) (y >>= g) := by
  intro labels frame
  obtain ⟨e, hp, hy, hx⟩ := hx labels frame
  cases h : e.outcome with
  | error fault =>
    have hr := Added.raise_error h k v
    exact ⟨_, hp.of_error h rfl, hy.bind_error h, hx.bind_error hr⟩
  | ok a =>
    have hr := Added.raise_ok h k v
    obtain ⟨e', hp', hg, hf⟩ := hf a e.labels e.frame
    refine ⟨{ e' with code := e.code ++ e'.code, data := e.data ++ e'.data }, hp', hy.bind h hg, ?_⟩
    simpa only [Added.raise, List.map_append] using hx.bind hr hf

theorem fail {fault : EmitFault} (h : ∀ pos, fault ≠ .misplaced pos) :
    Raises k v (fail fault) (fail fault) := by
  intro labels frame
  exact ⟨_, fun pos e => h pos (Except.error.inj e), .fail fault, .fail fault⟩

theorem lift {x : Except EmitFault α} (h : ∀ fault, x = .error fault → ∃ t, fault = .noSize t) :
    Raises k id (lift x) (lift x) := by
  cases x with
  | ok a => exact pure a
  | error fault =>
    obtain ⟨t, rfl⟩ := h fault rfl
    exact fail fun _ => EmitFault.noConfusion

theorem raised (ls : List Line) : Raises k id (lines (ls.map (Line.raise k))) (lines ls) :=
  .of_gives fun _ _ => ⟨_, _, _, _, _, .lines ls, .lines _⟩

theorem lines {ls : List Line} (h : Unnumbered ls) : Raises k id (lines ls) (lines ls) := by
  have hr := raised (k := k) ls
  rwa [h] at hr

theorem data (d : List Datum) : Raises k id (data d) (data d) :=
  .of_gives fun _ _ => ⟨_, _, _, _, _, .data d, .data d⟩

theorem freshLabel : Raises k (Label.raise k) freshLabel freshLabel := by
  refine .of_gives fun labels frame => ⟨_, _, _, _, _, .freshLabel, ?_⟩
  rw [Nat.add_right_comm]
  exact Gives.freshLabel

theorem frame : Raises k id frame frame := .of_gives fun _ _ => ⟨_, _, _, _, _, .frame, .frame⟩

theorem setFrame (f : Frame) : Raises k id (setFrame f) (setFrame f) :=
  .of_gives fun _ _ => ⟨_, _, _, _, _, .setFrame f, .setFrame f⟩

theorem headed {l : Line} (hl : ∀ k, l.raise k = l) {x : Emit Unit} (hx : Raises k id x x) :
    Raises k id (headed l x) (headed l x) := by
  intro labels frame
  obtain ⟨e, hp, hy, hx⟩ := hx labels frame
  cases h : e.outcome with
  | error fault =>
    have hr := Added.raise_error h k id
    refine ⟨_, hp.of_error h rfl, hy.headed_error h l, ?_⟩
    rw [Added.raise, List.map_cons, hl]
    exact hx.headed_error hr l
  | ok _ =>
    have hr := Added.raise_ok h k id
    refine ⟨_, Added.placed_of_ok rfl, hy.headed h l, ?_⟩
    rw [Added.raise, List.map_cons, List.map_append, hl]
    exact hx.headed hr l

theorem marked (n : Node) {x : Emit Unit} (hx : Raises k id x x) :
    Raises k id (marked n x) (marked n x) := by
  unfold Emit.marked
  split
  · exact (lines fun _ => rfl).bind fun _ => hx.bind fun _ => lines fun _ => rfl
  · exact hx

theorem typeOf (types : Nat → Option Ty) (n : Node) :
    Raises k id (typeOf types n) (typeOf types n) := by
  unfold Emit.typeOf
  split
  · exact pure _
  · exact fail fun _ => EmitFault.noConfusion

theorem isFloat (types : Nat → Option Ty) (n : Node) :
    Raises k id (isFloat types n) (isFloat types n) :=
  (typeOf types n).bind fun _ => pure _

theorem dropResult (types : Nat → Option Ty) (n : Node) :
    Raises k id (dropResult types n) (dropResult types n) := by
  cases n with
  | call g s args =>
    refine (typeOf types _).bind fun t => ?_
    show Raises k id (if t.isVoid then _ else _) _
    split
    · exact pure _
    · exact lines fun _ => rfl
  | _ => exact pure _

end Raises

def Steady (x : Emit α) : Prop := ∀ k, Raises k id x x

end Emit

open Emit

theorem Frame.unnumbered_address (F : Frame) (r : Reg) (s : Symbol) :
    Unnumbered [.plain (F.address r s)] := by
  obtain ⟨offset, h⟩ | h := F.address_cases r s
  · rw [h]
    exact fun _ => rfl
  · rw [h]
    exact fun _ => rfl

theorem unnumbered_loadThrough (float : Bool) : Unnumbered (loadThrough float) := by
  cases float with
  | _ => exact fun _ => rfl

theorem unnumbered_storeThrough (float : Bool) : Unnumbered (storeThrough float) := by
  cases float with
  | _ => exact fun _ => rfl

theorem unnumbered_callCode (s : Symbol) (count : Nat) : Unnumbered (callCode s count) := by
  intro k
  unfold callCode
  split <;> split <;> rfl

theorem unnumbered_ending (size : Nat) (name : String) :
    Unnumbered (epilogue size ++ ending name) := by
  intro k
  unfold ending
  split <;> rfl

theorem raises_compareCode {k : Nat} (op : CompareOp) (float : Bool) (yes no join : Label) :
    Raises k id (lines (compareCode op float (yes.raise k) (no.raise k) (join.raise k)))
      (lines (compareCode op float yes no join)) := by
  have h : (compareCode op float yes no join).map (Line.raise k) =
      compareCode op float (yes.raise k) (no.raise k) (join.raise k) := by
    cases float with
    | true => cases op <;> rfl
    | false => rfl
  exact h ▸ .raised _

namespace Node

variable (types : Nat → Option Ty)

theorem steady_emitAll {items : List Node}
    (h : ∀ n ∈ items, Steady (n.emit types)) :
    Steady (emitAll types items) := by
  induction items with
  | nil => exact fun _ => .pure _
  | cons n rest ih =>
    obtain ⟨hn, hrest⟩ := List.forall_mem_cons.mp h
    exact fun k => (hn k).bind fun _ => ih hrest k

theorem steady_emitStatements {items : List Node}
    (h : ∀ n ∈ items, Steady (n.emit types)) :
    Steady (emitStatements types items) := by
  induction items with
  | nil => exact fun _ => .pure _
  | cons n rest ih =>
    obtain ⟨hn, hrest⟩ := List.forall_mem_cons.mp h
    exact fun k => (hn k).bind fun _ => (Raises.dropResult types n).bind fun _ => ih hrest k

/-- The code of a tree, and where it breaks off, depends on the labels given out only in the numbers
of its own. -/
theorem steady_emit (n : Node) : Steady (n.emit types) := by
  induction n using children_induction with
  | step n ih =>
    intro k
    have hc {m : Node} (hm : m ∈ n.children) := ih m hm k
    cases n with
    | int | float | bool =>
      rw [emit]
      exact .marked _ (.lines fun _ => rfl)
    | addressOf g s =>
      rw [emit]
      exact .marked _ (Raises.frame.bind fun F => (Raises.lines (F.unnumbered_address _ s)).bind
        fun _ => .lines fun _ => rfl)
    | dereference g a =>
      have ha := hc (m := a) (by simp [children])
      rw [emit]
      exact .marked _ (ha.bind fun _ => (Raises.lines fun _ => rfl).bind fun _ =>
        (Raises.isFloat types _).bind fun float => .lines (unnumbered_loadThrough float))
    | index g a b =>
      have ha := hc (m := a) (by simp [children])
      have hb := hc (m := b) (by simp [children])
      rw [emit]
      refine .marked _ (ha.bind fun _ => hb.bind fun _ => (Raises.typeOf types _).bind fun t => ?_)
      cases t with
      | address element =>
        exact (Raises.lift fun _ => Ty.bytes_error).bind fun bytes => .lines fun _ => rfl
      | _ => exact .fail fun _ => EmitFault.noConfusion
    | binary g op a b =>
      have ha := hc (m := a) (by simp [children])
      have hb := hc (m := b) (by simp [children])
      rw [emit]
      refine .marked _ (ha.bind fun _ => hb.bind fun _ =>
        (Raises.isFloat types _).bind fun float => ?_)
      cases float with
      | true =>
        cases op.floatForm? with
        | some op => exact .lines fun _ => rfl
        | none => exact .fail fun _ => EmitFault.noConfusion
      | false => exact .lines fun _ => rfl
    | compare g op a b =>
      have ha := hc (m := a) (by simp [children])
      have hb := hc (m := b) (by simp [children])
      rw [emit]
      exact .marked _ (ha.bind fun _ => hb.bind fun _ => Raises.freshLabel.bind fun yes =>
        Raises.freshLabel.bind fun no => Raises.freshLabel.bind fun join =>
        (Raises.isFloat types _).bind fun float => raises_compareCode op float yes no join)
    | not g a =>
      have ha := hc (m := a) (by simp [children])
      rw [emit]
      exact .marked _ (ha.bind fun _ => .lines fun _ => rfl)
    | call g s a =>
      have ha := hc (m := a) (by simp [children])
      rw [emit]
      exact .marked _ (ha.bind fun _ => .lines (unnumbered_callCode s _))
    | assign g a b =>
      have ha := hc (m := a) (by simp [children])
      have hb := hc (m := b) (by simp [children])
      rw [emit]
      exact .marked _ (ha.bind fun _ => hb.bind fun _ =>
        (Raises.isFloat types _).bind fun float => .lines (unnumbered_storeThrough float))
    | var g s | array g s =>
      rw [emit]
      exact .marked _ (Raises.frame.bind fun F => (Raises.lift fun _ => Frame.add_error).bind
        fun r => (Raises.data _).bind fun _ => .setFrame _)
    | function g s params body =>
      have hb := hc (m := body) (by simp [children])
      rw [emit]
      exact .marked _ (Raises.frame.bind fun F => (Raises.setFrame _).bind fun _ =>
        (Raises.lift fun _ => Frame.enter_error).bind fun F' => (Raises.setFrame _).bind fun _ =>
        (Raises.headed (fun _ => rfl) hb).bind fun f => (Raises.lines fun _ => rfl).bind fun _ =>
        (Raises.lines (unnumbered_ending f.size.toNat s.name)).bind fun _ => .setFrame _)
    | branch g a b c =>
      have ha := hc (m := a) (by simp [children])
      have hb := hc (m := b) (by simp [children])
      have hc := hc (m := c) (by simp [children])
      rw [emit]
      exact .marked _ (Raises.freshLabel.bind fun otherwise => Raises.freshLabel.bind fun exit =>
        ha.bind fun _ => (Raises.raised (popInt .t0 ++ [.plain (branchZero .t0 otherwise)])).bind
        fun _ => hb.bind fun _ => (Raises.raised [.plain (jump exit), .label otherwise]).bind
        fun _ => hc.bind fun _ => .raised [.label exit])
    | loop g a b =>
      have ha := hc (m := a) (by simp [children])
      have hb := hc (m := b) (by simp [children])
      rw [emit]
      exact .marked _ (Raises.freshLabel.bind fun again => Raises.freshLabel.bind fun exit =>
        (Raises.raised [.label again]).bind fun _ => ha.bind fun _ =>
        (Raises.raised (popInt .t0 ++ [.plain (branchZero .t0 exit)])).bind fun _ =>
        hb.bind fun _ => .raised [.plain (jump again), .label exit])
    | leave g =>
      rw [emit]
      exact .marked _ (Raises.frame.bind fun F => .lines fun _ => rfl)
    | leaveWith g a =>
      have ha := hc (m := a) (by simp [children])
      rw [emit]
      exact .marked _ (ha.bind fun _ => (Raises.lines fun _ => rfl).bind fun _ =>
        Raises.frame.bind fun F => .lines fun _ => rfl)
    | list g kind items =>
      cases kind with
      | statements =>
        rw [emit]
        exact .marked _ (steady_emitStatements types ih k)
      | expressions | declarations =>
        rw [emit]
        exact .marked _ (steady_emitAll types ih k)
    | error g message =>
      rw [emit]
      exact .marked _ (.fail fun _ => EmitFault.noConfusion)

end Node

namespace Generator

variable (types : Nat → Option Ty)

def generateAll (roots : List Node) : Generator := roots.foldl (·.generate types ·) empty

theorem generateAll_append (roots : List Node) (root : Node) :
    generateAll types (roots ++ [root]) = (generateAll types roots).generate types root := by
  rw [generateAll, List.foldl_append]
  rfl

/-- A call adds what a new generator would make, raised. -/
theorem generate_eq (g : Generator) (root : Node) :
    let fresh := empty.generate types root
    g.generate types root =
      ⟨⟨⟨g.program.code ++ fresh.program.code.map (Line.raise g.program.labels),
        g.program.data ++ fresh.program.data, fresh.program.labels + g.program.labels⟩,
        fresh.frame⟩, g.faults ++ fresh.faults⟩ := by
  obtain ⟨e, -, hy, hx⟩ := root.steady_emit types g.program.labels 0 []
  rw [Nat.zero_add] at hx
  have hx := hx g.program.code g.program.data
  have hy := hy [] []
  simp only [generate, empty, Program.empty, hx, hy, Added.behind, Added.raise, List.nil_append]
  cases e.outcome with
  | ok _ => simp [Except.map]
  | error fault => simp [Except.map]

theorem misplaced_not_mem_generate (g : Generator) (root : Node) {pos : Nat}
    (h : .misplaced pos ∉ g.faults) : .misplaced pos ∉ (g.generate types root).faults := by
  obtain ⟨e, hp, hy, -⟩ := root.steady_emit types 0 g.program.labels []
  have hy := hy g.program.code g.program.data
  simp only [generate, hy, Added.behind]
  cases ho : e.outcome with
  | ok _ => exact h
  | error fault =>
    refine fun hm => (List.mem_append.mp hm).elim h fun hm => hp pos ?_
    rw [ho, List.mem_singleton.mp hm]

theorem misplaced_not_mem_generateAll (roots : List Node) (pos : Nat) :
    .misplaced pos ∉ (generateAll types roots).faults := by
  induction roots using List.reverseRecOn with
  | nil => exact List.not_mem_nil
  | append_singleton roots root ih =>
    rw [generateAll_append]
    exact misplaced_not_mem_generate types _ root ih

/-- A call for the tree ends without a fault. -/
def Completes (g : Generator) (root : Node) : Prop :=
  ∃ a, root.emit types { g.toAssembly with frame := [] } = .ok () a

variable {types}

theorem hasError_generate (g : Generator) (root : Node) :
    (g.generate types root).hasError = false ↔ g.hasError = false ∧ g.Completes types root := by
  simp only [hasError, generate, Completes]
  cases root.emit types { g.toAssembly with frame := [] } with
  | ok _ a => simp
  | error fault a => simp

theorem hasError_generateAll (roots : List Node) :
    (generateAll types roots).hasError = false ↔
      ∀ before root after, roots = before ++ root :: after →
        (generateAll types before).Completes types root := by
  induction roots using List.reverseRecOn with
  | nil => exact iff_of_true rfl (by simp)
  | append_singleton roots root ih =>
    rw [generateAll_append, hasError_generate, ih]
    constructor
    · rintro ⟨h, hlast⟩ before r after e
      obtain rfl | ⟨after, r', rfl⟩ := after.eq_nil_or_concat
      · obtain ⟨rfl, hr⟩ := List.append_inj' e rfl
        obtain rfl := List.singleton_inj.mp hr
        exact hlast
      · rw [List.concat_eq_append, ← List.cons_append, ← List.append_assoc] at e
        exact h before r after (List.append_inj' e rfl).1
    · intro h
      refine ⟨fun before r after e => h before r (after ++ [root]) ?_, h roots root [] rfl⟩
      rw [e, List.append_assoc, List.cons_append]

/-- After any calls, one more call keeps all lines of code and data in front of its own. These are
the lines of a new generator, also up to a fault, with each label raised by the labels that were
given out. Every prologue finds its place, and none among the lines before. The call is a success
just where this one and all before it have ended without a fault. -/
theorem generate_reused (types : Nat → Option Ty) (roots : List Node) (root : Node) :
    let g := generateAll types roots
    let fresh := empty.generate types root
    let g' := g.generate types root
    g'.program.code = g.program.code ++ fresh.program.code.map (Line.raise g.program.labels) ∧
      g'.program.data = g.program.data ++ fresh.program.data ∧
      g'.program.labels = fresh.program.labels + g.program.labels ∧
      g'.faults = g.faults ++ fresh.faults ∧
      (∀ pos, .misplaced pos ∉ g'.faults) ∧
      (g'.hasError = false ↔ ∀ before r after, roots ++ [root] = before ++ r :: after →
        (generateAll types before).Completes types r) := by
  intro g fresh g'
  have hg' := g.generate_eq types root
  refine ⟨congrArg (·.program.code) hg', congrArg (·.program.data) hg',
    congrArg (·.program.labels) hg', congrArg faults hg', fun pos => ?_, ?_⟩
  · exact misplaced_not_mem_generate types g root (misplaced_not_mem_generateAll types roots pos)
  · rw [← hasError_generateAll, generateAll_append]

end Generator

end Crux
