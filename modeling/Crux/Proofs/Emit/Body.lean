import Crux.Proofs.Emit.Code
import Crux.Proofs.Scope.Variables

/-! The code of function bodies. While it is made, the frame of the function grows by the variables
declared in the body; every use of a variable has the address that the frame gives it in the end. -/

namespace Crux

open Instr Asm Emit

theorem Slots.lookup_cons_ne {id k : Nat} {o : UInt64} {slots : Slots} (h : id ≠ k) :
    List.lookup id ((k, o) :: slots) = List.lookup id slots := by
  rw [List.lookup_cons, beq_eq_false_iff_ne.mpr h]

namespace Record

def add (r : Record) (s : Symbol) : Record :=
  { r with
    size := r.size + .ofNat s.ty.room
    locals := (s.id, r.size + .ofNat s.ty.room + .ofNat savedBytes) :: r.locals }

def addAll (r : Record) (ss : List Symbol) : Record := ss.foldl add r

@[simp] theorem addAll_nil (r : Record) : r.addAll [] = r := rfl

theorem addAll_append (r : Record) (ss ts : List Symbol) :
    r.addAll (ss ++ ts) = (r.addAll ss).addAll ts :=
  List.foldl_append

@[simp] theorem addAll_name (r : Record) (ss : List Symbol) : (r.addAll ss).name = r.name := by
  induction ss generalizing r with
  | nil => rfl
  | cons s ss ih => exact ih (r.add s)

@[simp] theorem addAll_arguments (r : Record) (ss : List Symbol) :
    (r.addAll ss).arguments = r.arguments := by
  induction ss generalizing r with
  | nil => rfl
  | cons s ss ih => exact ih (r.add s)

theorem lookup_addAll {r : Record} {ss : List Symbol} {id : Nat} (h : ∀ s ∈ ss, s.id ≠ id) :
    (r.addAll ss).locals.lookup id = r.locals.lookup id := by
  induction ss generalizing r with
  | nil => rfl
  | cons s ss ih =>
    obtain ⟨hs, hss⟩ := List.forall_mem_cons.mp h
    exact (ih (r := r.add s) hss).trans (Slots.lookup_cons_ne (Ne.symm hs))

end Record

namespace Frame

theorem add_eq {s : Symbol} (h : s.ty.size?.isSome) (r : Record) (rest : Frame) :
    add (r :: rest) s = .ok (r.add s :: rest, []) := by
  rw [add, Ty.bytes_eq_ok (Ty.size?_eq h)]
  rfl

theorem address_addAll {r : Record} {ss : List Symbol} {s : Symbol} (h : ∀ u ∈ ss, u.id ≠ s.id)
    (rest : Frame) (reg : Reg) : address (r.addAll ss :: rest) reg s = address (r :: rest) reg s := by
  simp only [address, Record.addAll_arguments, Record.lookup_addAll h]

end Frame

def Env.Below (k : Nat) (env : Env) : Prop := ∀ scope ∈ env, ∀ s ∈ scope, s.id < k

namespace Env.Below

variable {env : Env} {j k : Nat}

theorem mono (h : env.Below j) (hjk : j ≤ k) : env.Below k :=
  fun scope hscope s hs => Nat.lt_of_lt_of_le (h scope hscope s hs) hjk

theorem push (h : env.Below k) {scope : List Symbol} (hs : ∀ s ∈ scope, s.id < k) :
    Env.Below k (scope :: env) :=
  List.forall_mem_cons.mpr ⟨hs, h⟩

theorem declare (h : env.Below k) {s : Symbol} (hs : s.id < k) : (env.declare s).Below k :=
  Env.forall_declare h hs

theorem after (h : env.Below j) {n : Node} (hn : Rising j n.symbolIds k) : (n.after env).Below k := by
  have hb := hn.bounds
  rw [Node.symbolIds_eq] at hb
  cases n with
  | var g s | array g s | function g s =>
    exact (h.mono hn.le).declare (hb s.id (List.mem_append_left _ (by simp [Node.declares]))).2
  | _ => exact h.mono hn.le

end Env.Below

theorem Env.builtins_below : Env.builtins.Below Builtin.all.length := by
  unfold Env.Below
  decide

namespace Node

variable {types : Nat → Option Ty} {F rest : Frame} {r : Record} {env : Env} {n : Node}
  {j k l : Nat}

theorem gives_dropCode (h : n.Ready types) (f : Frame) :
    Gives (dropResult types n) l f (n.dropCode types) [] l () f := by
  cases n with
  | call g s args =>
    obtain ⟨t, ht⟩ := Option.isSome_iff_exists.mp h
    have hd : dropCode types (.call g s args) = if t.isVoid then [] else popInt .t1 := by
      simp [dropCode, ht]
    have hg : Gives (if t.isVoid then pure () else lines (popInt .t1)) l f
        (if t.isVoid then [] else popInt .t1) [] l () f := by
      split
      · exact .pure ()
      · exact .lines _
    rw [dropResult, typeOf_eq_pure ht, hd]
    exact (Gives.pure t).bind hg
  | _ => exact .pure ()

end Node

/-- A function's frame in the end, `F`, finds all symbols made before `k` where the frame of the
moment finds them. -/
structure Record.Agrees (r : Record) (rest F : Frame) (k : Nat) : Prop where
  name : F.name? = some r.name
  address : ∀ s : Symbol, s.id < k → Frame.address (r :: rest) .t1 s = F.address .t1 s

theorem Record.Agrees.before {r : Record} {rest F : Frame} {j k : Nat} {ss : List Symbol}
    (h : (r.addAll ss).Agrees rest F k) (hi : Rising j (ss.map Symbol.id) k) :
    r.Agrees rest F j := by
  refine ⟨by rw [h.name, Record.addAll_name], fun s hs => ?_⟩
  rw [← h.address s (Nat.lt_of_lt_of_le hs hi.le)]
  refine (Frame.address_addAll (fun u hu e => ?_) rest .t1).symm
  have := (hi.bounds u.id (List.mem_map_of_mem hu)).1
  omega

theorem Record.Agrees.leaveLine {r : Record} {rest F : Frame} {k : Nat} (h : r.Agrees rest F k) :
    Node.leaveLine F = Node.leaveLine (r :: rest) := by
  rw [Node.leaveLine, h.name]
  rfl

def Role.IsPart : Role → Prop
  | .statement | .block | .declaration => True
  | .value | .address | .arguments | .program => False

namespace Node

variable {types : Nat → Option Ty} {F rest : Frame} {r : Record} {env : Env} {n : Node}
  {j k l : Nat}

def Made (types : Nat → Option Ty) (F : Frame) (n : Node) : Prop :=
  ∃ f f', ∀ l, Gives (n.emit types) l f (n.code types F l) [] (l + n.labelCount) () f'

theorem Scoped.gives_value {role : Role} (hs : Scoped role env n) (hrole : role.IsExpression)
    (hr : ∀ m ∈ n.preorder, m.Ready types) (he : env.Below j) (hF : r.Agrees rest F j) :
    (∀ l, Gives (n.emit types) l (r :: rest) (n.code types F l) [] (l + n.labelCount) ()
      (r :: rest)) ∧ ∀ m ∈ n.preorder, m.Made types F := by
  have h : ∀ m ∈ n.preorder, m.IsExpression ∧ m.Ready types ∧ m.SeesAlike (r :: rest) F := by
    intro m hm
    obtain ⟨hm', hu⟩ := hs.expression hrole m hm
    refine ⟨hm', hr m hm, ?_⟩
    cases m with
    | addressOf g s =>
      obtain ⟨scope, hscope, hmem⟩ := hu
      exact hF.address s (he scope hscope s hmem)
    | _ => trivial
  exact ⟨fun l => gives_expression h, fun m hm => ⟨_, _, fun l =>
    gives_expression fun k hk => h k (mem_preorder_trans hk hm)⟩⟩

/-- What making the code of a part of a body does, with the frame and the labels of any moment. -/
def GivesCode (types : Nat → Option Ty) (rest F : Frame) (env : Env) (n : Node) : Prop :=
  n.InBody → (∀ m ∈ n.preorder, m.Ready types) → ∀ {j k : Nat} {r : Record},
    env.Below j → Rising j n.symbolIds k → (r.addAll n.declared).Agrees rest F k →
    (∀ l, Gives (n.emit types) l (r :: rest) (n.code types F l) [] (l + n.labelCount) ()
      (r.addAll n.declared :: rest)) ∧ ∀ m ∈ n.preorder, m.Made types F

theorem gives_rowCode {items : List Node} (h : InOrder (GivesCode types rest F) env items)
    (hb : ∀ n ∈ items, n.InBody) (hr : ∀ n ∈ items, ∀ m ∈ n.preorder, m.Ready types)
    (he : env.Below j) (hi : Rising j (items.flatMap symbolIds) k)
    (hF : (r.addAll (items.flatMap declared)).Agrees rest F k) :
    (∀ l, Gives (emitStatements types items) l (r :: rest) (rowCode types F l items) []
      (l + labelCountAll items) () (r.addAll (items.flatMap declared) :: rest)) ∧
      ∀ n ∈ items, ∀ m ∈ n.preorder, m.Made types F := by
  induction items generalizing env j r with
  | nil => exact ⟨fun _ => .pure (), List.forall_mem_nil _⟩
  | cons n items ih =>
    obtain ⟨hn, hitems⟩ := h
    obtain ⟨hbn, hbr⟩ := List.forall_mem_cons.mp hb
    obtain ⟨hrn, hrr⟩ := List.forall_mem_cons.mp hr
    obtain ⟨m, him, hir⟩ := hi.split
    rw [List.flatMap_cons, Record.addAll_append] at hF ⊢
    obtain ⟨hgn, hmn⟩ := hn hbn hrn he him (hF.before (by rwa [List.map_flatMap]))
    obtain ⟨hgr, hmr⟩ := ih hitems hbr hrr (he.after him) hir hF
    refine ⟨fun l => ?_, List.forall_mem_cons.mpr ⟨hmn, hmr⟩⟩
    simp only [emitStatements, rowCode, labelCountAll, ← Nat.add_assoc]
    exact (hgn l).bind ((gives_dropCode (hrn n (mem_preorder_self n)) _).bind (hgr _))

theorem Scoped.inBody {role : Role} (h : Scoped role env n) (hrole : role.InBody) :
    n.InBody := by
  cases h with
  | «local» h hf =>
    cases h with
    | function => exact absurd rfl (hf _ _ _ _)
    | _ => trivial
  | var | array | function | program => exact hrole.elim
  | _ => trivial

theorem gives_local {s : Symbol} (hsize : s.ty.size?.isSome) (l : Nat) :
    Gives (do
      let (f, d) ← lift ((← frame).add s)
      data d
      setFrame f) l (r :: rest) [] [] l () (r.add s :: rest) := by
  refine Gives.frame.bind ?_
  rw [Frame.add_eq hsize]
  exact (Gives.pure _).bind ((Gives.data []).bind (.setFrame _))

theorem Scoped.givesCode {role : Role} (hs : Scoped role env n) (hrole : role.IsPart) :
    n.GivesCode types rest F env := by
  induction hs with
  | «local» _ _ ih => exact ih trivial
  | @var env g s _ _ | @array env g s _ _ =>
    intro _ hr j k r _ _ _
    have hsize : s.ty.size?.isSome := hr _ (mem_preorder_self _)
    rw [declared_eq]
    refine ⟨fun l => ?_, forall_leaf rfl ⟨r :: rest, r.add s :: rest, fun l => ?_⟩⟩
    all_goals
      rw [emit, code]
      exact .marked _ (gives_local hsize l)
  | result hv _ =>
    intro _ hr j k r he hi hF
    have hFv := hF.before hi
    rw [hv.declared_nil trivial]
    exact hv.gives_value trivial hr he hFv
  | @assign env t s g ht hs _ _ =>
    intro _ hr j k r he hi hF
    have hFv := hF.before hi
    have hd : declared (.assign g t s) = [] := by
      rw [declared_eq]
      simp [declares, children, ht.declared_nil trivial, hs.declared_nil trivial]
    obtain ⟨u, hu⟩ := Option.isSome_iff_exists.mp (hr _ (mem_preorder_self _))
    obtain ⟨hgt, hmt⟩ := ht.gives_value trivial (forall_child hr (by simp [children])) he hFv
    obtain ⟨hgs, hms⟩ := hs.gives_value trivial (forall_child hr (by simp [children])) he hFv
    have hg : ∀ l, Gives (emit types (.assign g t s)) l (r :: rest)
        (code types F l (.assign g t s)) [] (l + labelCount (.assign g t s)) () (r :: rest) := by
      intro l
      rw [emit, code, labelCount, ← Nat.add_assoc]
      exact .marked _ ((hgt l).bind ((hgs _).bind ((Gives.isFloat hu).bind (.lines _))))
    rw [hd]
    exact ⟨hg, forall_preorder ⟨_, _, hg⟩ (by simpa [children] using ⟨hmt, hms⟩)⟩
  | @branch env c y z g hc hy hz _ ihy ihz =>
    intro _ hr j k r he hi hF
    have hd : declared (.branch g c y z) = y.declared ++ z.declared := by
      rw [declared_eq]
      simp [declares, children, hc.declared_nil trivial]
    rw [symbolIds, hd, List.map_append] at hi
    rw [hd, Record.addAll_append] at hF ⊢
    obtain ⟨m, hiy, hiz⟩ := hi.split
    have hFy := hF.before hiz
    obtain ⟨hgc, hmc⟩ := hc.gives_value trivial (forall_child hr (by simp [children])) he
      (hFy.before hiy)
    obtain ⟨hgy, hmy⟩ := ihy trivial (hy.inBody trivial) (forall_child hr (by simp [children]))
      (he.push (List.forall_mem_nil _)) hiy hFy
    obtain ⟨hgz, hmz⟩ := ihz trivial (hz.inBody trivial) (forall_child hr (by simp [children]))
      ((he.mono hiy.le).push (List.forall_mem_nil _)) hiz hF
    have hg : ∀ l, Gives (emit types (.branch g c y z)) l (r :: rest)
        (code types F l (.branch g c y z)) [] (l + labelCount (.branch g c y z)) ()
        ((r.addAll y.declared).addAll z.declared :: rest) := by
      intro l
      rw [emit, code, labelCount, ← Nat.add_assoc, ← Nat.add_assoc, ← Nat.add_assoc]
      exact .marked _ (Gives.freshLabel.bind (Gives.freshLabel.bind ((hgc _).bind
        ((Gives.lines _).bind ((hgy _).bind ((Gives.lines _).bind ((hgz _).bind (.line _))))))))
    exact ⟨hg, forall_preorder ⟨_, _, hg⟩ (by simpa [children] using ⟨hmc, hmy, hmz⟩)⟩
  | @loop env c b g hc hb _ ihb =>
    intro _ hr j k r he hi hF
    have hd : declared (.loop g c b) = b.declared := by
      rw [declared_eq]
      simp [declares, children, hc.declared_nil trivial]
    rw [symbolIds, hd] at hi
    rw [hd] at hF ⊢
    obtain ⟨hgc, hmc⟩ := hc.gives_value trivial (forall_child hr (by simp [children])) he
      (hF.before hi)
    obtain ⟨hgb, hmb⟩ := ihb trivial (hb.inBody trivial) (forall_child hr (by simp [children]))
      (he.push (List.forall_mem_nil _)) hi hF
    have hg : ∀ l, Gives (emit types (.loop g c b)) l (r :: rest) (code types F l (.loop g c b)) []
        (l + labelCount (.loop g c b)) () (r.addAll b.declared :: rest) := by
      intro l
      rw [emit, code, labelCount, ← Nat.add_assoc, ← Nat.add_assoc]
      exact .marked _ (Gives.freshLabel.bind (Gives.freshLabel.bind ((Gives.line _).bind
        ((hgc _).bind ((Gives.lines _).bind ((hgb _).bind (.lines _)))))))
    exact ⟨hg, forall_preorder ⟨_, _, hg⟩ (by simpa [children] using ⟨hmc, hmb⟩)⟩
  | @leave env g =>
    intro _ _ j k r _ hi hF
    have hd : declared (.leave g) = [] := declared_eq _
    rw [hd] at hF ⊢
    have hg : ∀ l, Gives (emit types (.leave g)) l (r :: rest) (code types F l (.leave g)) [] l ()
        (r :: rest) := by
      intro l
      rw [emit, code, hF.leaveLine]
      exact .marked _ (Gives.frame.bind (.instr _))
    exact ⟨hg, forall_leaf rfl ⟨_, _, hg⟩⟩
  | @leaveWith env v g hv _ =>
    intro _ hr j k r he hi hF
    have hFv := hF.before hi
    have hd : declared (.leaveWith g v) = [] := by
      rw [declared_eq]
      simp [declares, children, hv.declared_nil trivial]
    obtain ⟨hgv, hmv⟩ := hv.gives_value trivial (forall_child hr (by simp [children])) he hFv
    have hg : ∀ l, Gives (emit types (.leaveWith g v)) l (r :: rest)
        (code types F l (.leaveWith g v)) [] (l + labelCount (.leaveWith g v)) () (r :: rest) := by
      intro l
      rw [emit, code, hFv.leaveLine]
      exact .marked _ ((hgv l).bind ((Gives.lines _).bind (Gives.frame.bind (.instr _))))
    rw [hd]
    exact ⟨hg, forall_preorder ⟨_, _, hg⟩ (by simpa [children] using hmv)⟩
  | @block items env g hitems ih =>
    intro _ hr j k r he hi hF
    have hd : declared (.list g .statements items) = items.flatMap declared := declared_eq _
    rw [symbolIds_eq] at hi
    rw [hd] at hF ⊢
    have hb : ∀ n ∈ items, n.InBody := by
      intro n hn
      obtain ⟨before, rest, rfl⟩ := List.append_of_mem hn
      exact (hitems before n rest rfl).inBody trivial
    obtain ⟨hgi, hmi⟩ := gives_rowCode (inOrder_iff.mpr fun before n rest e =>
      ih before n rest e trivial) hb (fun n hn => forall_child hr hn) he hi hF
    have hg : ∀ l, Gives (emit types (.list g .statements items)) l (r :: rest)
        (code types F l (.list g .statements items)) [] (l + labelCountAll items) ()
        (r.addAll (items.flatMap declared) :: rest) := by
      intro l
      rw [emit, code]
      exact .marked _ (hgi l)
    exact ⟨hg, forall_preorder ⟨_, _, hg⟩ hmi⟩
  | function => exact fun hb => hb.elim
  | _ => exact hrole.elim

end Node

end Crux
