import Crux.Proofs.Node.Order
import Crux.Typing.Checker
import Mathlib.Data.List.Nodup
import Mathlib.Data.List.Perm.Basic

/-! What a check finds, apart from the state it runs in. A node has a type that depends on nothing
but the tree, and the check of a tree adds a fixed list of findings to a checker. -/

namespace Crux

inductive Finding
  | type : (id : Nat) → Ty → Finding
  | list : (id : Nat) → List Ty → Finding
  | error : TypeError → Finding

namespace Checker

def note (c : Checker) : Finding → Checker
  | .type id t => { c with types := c.types.insert id t }
  | .list id ts => { c with lists := c.lists.insert id ts }
  | .error x => { c with errors := c.errors ++ [x] }

def add (c : Checker) (fs : List Finding) : Checker := fs.foldl note c

theorem add_append (c : Checker) (fs gs : List Finding) : c.add (fs ++ gs) = (c.add fs).add gs :=
  List.foldl_append

def Lacks (c : Checker) (ids : Nat → Prop) : Prop := ∀ id, ids id → c.lists[id]? = none

theorem Lacks.add {c : Checker} {ids : Nat → Prop} {fs : List Finding} (h : c.Lacks ids)
    (hf : ∀ id ts, .list id ts ∈ fs → ¬ ids id) : (c.add fs).Lacks ids := by
  induction fs generalizing c with
  | nil => exact h
  | cons f fs ih =>
    refine ih (c := c.note f) ?_ fun id ts hm => hf id ts (List.mem_cons_of_mem _ hm)
    cases f with
    | type | error => exact h
    | list k ts =>
      intro id hid
      have hne : k ≠ id := fun e => hf k ts List.mem_cons_self (e ▸ hid)
      simp [note, Std.TreeMap.getElem?_insert, hne, h id hid]

end Checker

def Symbol.enclosing (s : Symbol) : Enclosing := ⟨s.name, s.ty.declaredResult⟩

namespace Node

mutual
def infer (e : Option Enclosing) (n : Node) : Ty :=
  match n with
  | .int .. => .int
  | .float .. => .float
  | .bool .. => .bool
  | .addressOf _ s => .ofUse s
  | .dereference _ a => (a.infer e).dereference
  | .index _ b a => (b.infer e).index (a.infer e)
  | .binary _ op l r => Ty.ofBinary op (l.infer e) (r.infer e)
  | .compare _ _ l r => (l.infer e).compare (r.infer e)
  | .not _ a => (a.infer e).not
  | .call _ s args => s.ty.call (args.members e)
  | .assign _ t s => (t.infer e).assign (s.infer e)
  | .var _ s => .ofVariable s
  | .array _ s => .ofArray s
  | .function _ s _ _ => s.ty
  | .branch _ c _ _ | .loop _ c _ => .ofCondition n.title (c.infer e)
  | .leave _ => .ofReturn e .void
  | .leaveWith _ v => .ofReturn e (v.infer e)
  | .list .. => .void
  | .error _ message => .error message

def members (e : Option Enclosing) : Node → List Ty
  | .list _ _ items => inferAll e items
  | _ => []

def inferAll (e : Option Enclosing) : List Node → List Ty
  | [] => []
  | n :: rest => n.infer e :: inferAll e rest
end

theorem inferAll_eq_map (e : Option Enclosing) (items : List Node) :
    inferAll e items = items.map (infer e) := by
  induction items with
  | nil => simp [inferAll]
  | cons n rest ih => simp [inferAll, ih]

def inputs (e : Option Enclosing) : Node → List Ty
  | .addressOf _ s => [s.ty]
  | .dereference _ a | .not _ a | .branch _ a _ _ | .loop _ a _ | .leaveWith _ a => [a.infer e]
  | .index _ a b | .binary _ _ a b | .compare _ _ a b | .assign _ a b => [a.infer e, b.infer e]
  | .call _ s args => args.members e ++ s.ty :: s.ty.signatureError?.toList
  | .leave _ => [.void]
  | _ => []

/-- What is noted when a node gets its type: an error that none of the inputs is, and the type. -/
def verdict (n : Node) (t : Ty) (inputs : List Ty) : List Finding :=
  (match t with
    | .error message => if inputs.any Ty.isError then [] else [.error ⟨n.pos, message⟩]
    | _ => []) ++ [.type n.id t]

def headErrors (n : Node) (s : Symbol) (params : List Symbol) : List Finding :=
  (headFaults s.name params s.ty.declaredResult).map fun message => .error ⟨n.pos, message⟩

def returnErrors (n : Node) (s : Symbol) (statements : List Ty) : List Finding :=
  if needsResult s.name s.ty.declaredResult && !returnsResult statements s.ty.declaredResult then
    [.error ⟨n.pos, (TypeFault.missingReturn s.name).message⟩]
  else []

mutual
/-- What the check of a node notes, in order. -/
def findings (e : Option Enclosing) (n : Node) : List Finding :=
  match n with
  | .int .. | .float .. | .bool .. | .addressOf .. | .var .. | .array .. | .leave .. | .error .. =>
    n.verdict (n.infer e) (n.inputs e)
  | .dereference _ a | .not _ a | .call _ _ a | .leaveWith _ a =>
    a.findings e ++ n.verdict (n.infer e) (n.inputs e)
  | .index _ a b | .binary _ _ a b | .compare _ _ a b | .assign _ a b =>
    a.findings e ++ b.findings e ++ n.verdict (n.infer e) (n.inputs e)
  | .branch _ c y z =>
    c.findings e ++ n.verdict (n.infer e) (n.inputs e) ++ y.findings e ++ z.findings e
  | .loop _ c b => c.findings e ++ n.verdict (n.infer e) (n.inputs e) ++ b.findings e
  | .function _ s params body =>
    n.headErrors s params ++ body.findings (some s.enclosing) ++
      n.returnErrors s (body.members (some s.enclosing)) ++ [.type n.id s.ty]
  | .list _ _ items => findingsAll e items ++ [.list n.id (n.members e)]

def findingsAll (e : Option Enclosing) : List Node → List Finding
  | [] => []
  | n :: rest => n.findings e ++ findingsAll e rest
end

theorem findingsAll_eq_flatMap (e : Option Enclosing) (items : List Node) :
    findingsAll e items = items.flatMap (findings e) := by
  induction items with
  | nil => simp [findingsAll]
  | cons n rest ih => simp [findingsAll, ih]

def isList : Node → Bool
  | .list .. => true
  | _ => false

def TakesList : Node → Prop
  | .call _ _ args => args.isList
  | .function _ _ _ body => body.isList
  | _ => True

def Listed (n : Node) : Prop := ∀ m ∈ n.preorder, m.TakesList

end Node

namespace Check

variable {α β : Type} {x : Check α} {f : α → Check β} {a : α} {b : β} {fs gs : List Finding}

structure Notes (x : Check α) (a : α) (fs : List Finding) : Prop where
  run_eq : ∀ c, x.run c = (a, c.add fs)

theorem Notes.pure (a : α) : Notes (pure a) a [] := ⟨fun _ => rfl⟩

theorem Notes.bind (hx : Notes x a fs) (hf : Notes (f a) b gs) :
    Notes (x >>= f) b (fs ++ gs) := by
  constructor
  intro c
  show (f (x.run c).1).run (x.run c).2 = _
  rw [hx.run_eq, hf.run_eq, Checker.add_append]

theorem notes_report (n : Node) (message : String) :
    Notes (report n message) () [.error ⟨n.pos, message⟩] :=
  ⟨fun _ => rfl⟩

theorem notes_record (n : Node) (t : Ty) : Notes (record n t) t [.type n.id t] :=
  ⟨fun _ => rfl⟩

theorem notes_put (n : Node) (t : Ty) (inputs : List Ty) :
    Notes (put n t inputs) t (n.verdict t inputs) := by
  cases t with
  | error message =>
    simp only [put, Node.verdict]
    cases inputs.any Ty.isError
    · exact (notes_report n message).bind (notes_record n _)
    · exact notes_record n _
  | _ => exact notes_record n _

theorem notes_reports (n : Node) (messages : List String) :
    Notes (messages.forM (report n)) () (messages.map fun message => .error ⟨n.pos, message⟩) := by
  induction messages with
  | nil => exact .pure ()
  | cons message rest ih => exact (notes_report n message).bind ih

structure NotesLacking (ids : Nat → Prop) (x : Check α) (a : α) (fs : List Finding) : Prop where
  run_eq : ∀ c : Checker, c.Lacks ids → x.run c = (a, c.add fs)
  lacks : ∀ id ts, .list id ts ∈ fs → ¬ ids id

variable {ids : Nat → Prop}

theorem Notes.lacking (h : Notes x a fs) (hl : ∀ id ts, .list id ts ∉ fs) :
    NotesLacking ids x a fs :=
  ⟨fun c _ => h.run_eq c, fun id ts hm => (hl id ts hm).elim⟩

theorem NotesLacking.bind (hx : NotesLacking ids x a fs) (hf : NotesLacking ids (f a) b gs) :
    NotesLacking ids (x >>= f) b (fs ++ gs) := by
  refine ⟨fun c hc => ?_, fun id ts hm => ?_⟩
  · show (f (x.run c).1).run (x.run c).2 = _
    rw [hx.run_eq c hc, hf.run_eq _ (hc.add hx.lacks), Checker.add_append]
  · exact (List.mem_append.mp hm).elim (hx.lacks id ts) (hf.lacks id ts)

theorem NotesLacking.map (hx : NotesLacking ids x a fs) (g : α → β) :
    NotesLacking ids (x >>= fun a => Pure.pure (g a)) (g a) fs := by
  have h := hx.bind (f := fun a => Pure.pure (g a))
    ((Notes.pure (g a)).lacking fun _ _ => List.not_mem_nil)
  rwa [List.append_nil] at h

theorem lacking_put (n : Node) (t : Ty) (inputs : List Ty) :
    NotesLacking ids (put n t inputs) t (n.verdict t inputs) := by
  refine (notes_put n t inputs).lacking fun id ts => ?_
  cases t with
  | error message =>
    simp only [Node.verdict]
    split <;> simp
  | _ => simp [Node.verdict]

theorem NotesLacking.listTypes {n : Node} {e : Option Enclosing} {f : List Ty → Check β}
    (hx : NotesLacking ids x a (n.findings e)) (hn : n.isList ∨ ids n.id)
    (hf : NotesLacking ids (f (n.members e)) b gs) :
    NotesLacking ids (x >>= fun _ => Check.listTypes n >>= f) b (n.findings e ++ gs) := by
  have hget : NotesLacking ids (x >>= fun _ => Check.listTypes n) (n.members e)
      (n.findings e) := by
    refine ⟨fun c hc => ?_, hx.lacks⟩
    have hts : ((c.add (n.findings e)).listTypesOf? n).getD [] = n.members e := by
      cases n with
      | list g kind items =>
        rw [Node.findings, Checker.add_append]
        exact congrArg (Option.getD · []) Std.TreeMap.getElem?_insert_self
      | _ =>
        have hnone := hc.add hx.lacks _ (hn.resolve_left Bool.false_ne_true)
        rw [Checker.listTypesOf?, hnone]
        simp only [Node.members, Option.getD_none]
    show (((x.run c).2.listTypesOf? n).getD [], (x.run c).2) = _
    rw [hx.run_eq c hc, hts]
  exact hget.bind hf

end Check

namespace Node

open Check

variable {ids : Nat → Prop}

/-- What takes the place of a list in a call or a function has one of these numbers. No list has
any of them. -/
def TakesListOr (ids : Nat → Prop) : Node → Prop
  | .call _ _ args => args.isList ∨ ids args.id
  | .function _ _ _ body => body.isList ∨ ids body.id
  | .list g _ _ => ¬ ids g.id
  | _ => True

theorem lacking_checkAll {items : List Node} {e : Option Enclosing}
    (h : ∀ n ∈ items, NotesLacking ids (n.check e) (n.infer e) (n.findings e)) :
    NotesLacking ids (checkAll e items) (inferAll e items) (findingsAll e items) := by
  induction items with
  | nil => exact (Notes.pure _).lacking fun _ _ => List.not_mem_nil
  | cons n rest ih =>
    obtain ⟨hn, hrest⟩ := List.forall_mem_cons.mp h
    exact hn.bind ((ih hrest).map _)

theorem lacking_check {n : Node} (hn : ∀ m ∈ n.preorder, m.TakesListOr ids)
    (e : Option Enclosing) : NotesLacking ids (n.check e) (n.infer e) (n.findings e) := by
  induction n using children_induction generalizing e with
  | step n ih =>
    have hc {m : Node} (hm : m ∈ n.children) (e : Option Enclosing) :
        NotesLacking ids (m.check e) (m.infer e) (m.findings e) :=
      ih m hm (forall_child hn hm) e
    have htakes := hn n (mem_preorder_self n)
    cases n with
    | int | float | bool | addressOf | var | array | leave | error =>
      simp only [check, infer, findings, inputs]
      exact lacking_put ..
    | dereference g a | not g a | leaveWith g a =>
      simp only [check, infer, findings, inputs]
      exact (hc (by simp [children]) e).bind (lacking_put ..)
    | index g a b | binary g op a b | compare g op a b | assign g a b =>
      simp only [check, infer, findings, inputs, List.append_assoc]
      exact (hc (by simp [children]) e).bind ((hc (by simp [children]) e).bind (lacking_put ..))
    | call g s args =>
      have ha := hc (m := args) (by simp [children]) e
      simp only [check, infer, findings, inputs]
      exact ha.listTypes htakes (lacking_put ..)
    | function g s params body =>
      have hb := hc (m := body) (by simp [children]) (some s.enclosing)
      simp only [check, infer, findings]
      rw [List.append_assoc, List.append_assoc]
      refine ((notes_reports ..).lacking (by simp)).bind (hb.listTypes htakes ?_)
      simp only [returnErrors]
      split
      · exact ((notes_report ..).bind (notes_record ..)).lacking (by simp)
      · exact (notes_record ..).lacking (by simp)
    | branch g a b d =>
      have ha := hc (m := a) (by simp [children]) e
      have hb := hc (m := b) (by simp [children]) e
      have hd := hc (m := d) (by simp [children]) e
      simp only [check, infer, findings, inputs, List.append_assoc]
      exact ha.bind ((lacking_put ..).bind (hb.bind (hd.map fun _ => _)))
    | loop g a b =>
      have ha := hc (m := a) (by simp [children]) e
      have hb := hc (m := b) (by simp [children]) e
      simp only [check, infer, findings, inputs, List.append_assoc]
      exact ha.bind ((lacking_put ..).bind (hb.map fun _ => _))
    | list g kind items =>
      simp only [check, infer, findings, members]
      refine (lacking_checkAll fun m hm => hc hm e).bind ⟨fun _ _ => rfl, fun id ts hm => ?_⟩
      cases List.mem_singleton.mp hm
      exact htakes

/-- A check gives a node its type and adds what it notes. -/
theorem notes_check {n : Node} (hn : n.Listed) (e : Option Enclosing) :
    Notes (n.check e) (n.infer e) (n.findings e) := by
  have h : ∀ m ∈ n.preorder, m.TakesListOr fun _ => False := by
    intro m hm
    have ht := hn m hm
    cases m with
    | call | function => exact .inl ht
    | list => exact not_false
    | _ => trivial
  exact ⟨fun c => (lacking_check h e).run_eq c fun _ hid => hid.elim⟩

theorem check_eq_of_nodup {n : Node} (hn : n.ids.Nodup) :
    Checker.empty.check n = Checker.empty.add (n.findings none) := by
  -- No list has the number of a node that is none, so nothing is ever kept under those numbers.
  have h : ∀ m ∈ n.preorder, m.TakesListOr fun id =>
      ∃ k ∈ n.preorder, k.isList = false ∧ k.id = id := by
    intro m hm
    have htakes {c : Node} (hc : c ∈ m.children) :
        c.isList ∨ ∃ k ∈ n.preorder, k.isList = false ∧ k.id = c.id := by
      have hcn := mem_preorder_trans (mem_preorder.mpr (.inr ⟨c, hc, mem_preorder_self c⟩)) hm
      cases hl : c.isList with
      | true => exact .inl rfl
      | false => exact .inr ⟨c, hcn, hl, rfl⟩
    cases m with
    | call | function => exact htakes List.mem_cons_self
    | list =>
      rintro ⟨k, hk, hl, hid⟩
      rw [eq_of_id_eq hn hk hm hid] at hl
      cases hl
    | _ => trivial
  refine congrArg Prod.snd ((lacking_check h none).run_eq .empty fun id _ => ?_)
  simp [Checker.empty]

end Node

namespace Finding

def noted? : Finding → Option Nat
  | .type id _ | .list id _ => some id
  | .error _ => none

def error? : Finding → Option TypeError
  | .error x => some x
  | _ => none

def Holds (types : Nat → Option Ty) : Finding → Prop
  | .type id t => types id = some t
  | .list .. => True
  | .error _ => False

end Finding

namespace Checker

theorem errors_add (c : Checker) (fs : List Finding) :
    (c.add fs).errors = c.errors ++ fs.filterMap Finding.error? := by
  induction fs generalizing c with
  | nil => simp [add]
  | cons f fs ih =>
    show ((c.note f).add fs).errors = _
    rw [ih]
    cases f <;> simp [note, Finding.error?, List.filterMap_cons]

def Has (c : Checker) : Finding → Prop
  | .type id t => c.types[id]? = some t
  | .list id ts => c.lists[id]? = some ts
  | .error x => x ∈ c.errors

def Free (c : Checker) (id : Nat) : Prop := c.types[id]? = none ∧ c.lists[id]? = none

theorem has_note {c : Checker} {g : Finding} (hg : ∀ id ∈ g.noted?, c.Free id) (f : Finding) :
    (c.note g).Has f ↔ c.Has f ∨ f = g := by
  cases g with
  | type id t =>
    obtain ⟨ht, -⟩ := hg id rfl
    cases f with
    | type k u =>
      simp only [Has, note, Std.TreeMap.getElem?_insert, Finding.type.injEq]
      by_cases h : id = k <;> grind
    | list | error => simp [Has, note]
  | list id ts =>
    obtain ⟨-, hl⟩ := hg id rfl
    cases f with
    | list k us =>
      simp only [Has, note, Std.TreeMap.getElem?_insert, Finding.list.injEq]
      by_cases h : id = k <;> grind
    | type | error => simp [Has, note]
  | error x => cases f <;> simp [Has, note]

theorem Free.note {c : Checker} {g : Finding} {id : Nat} (h : c.Free id) (hg : g.noted? ≠ some id) :
    (c.note g).Free id := by
  cases g with
  | type k t | list k ts =>
    have hne : k ≠ id := fun e => hg (congrArg some e)
    simpa [Free, Checker.note, Std.TreeMap.getElem?_insert, hne] using h
  | error => exact h

theorem has_add {c : Checker} {fs : List Finding} (hn : (fs.filterMap Finding.noted?).Nodup)
    (hfree : ∀ id ∈ fs.filterMap Finding.noted?, c.Free id) (f : Finding) :
    (c.add fs).Has f ↔ c.Has f ∨ f ∈ fs := by
  induction fs generalizing c with
  | nil => simp [add]
  | cons g fs ih =>
    have hg : ∀ id ∈ g.noted?, c.Free id ∧ id ∉ fs.filterMap Finding.noted? := by
      intro id hid
      rw [List.filterMap_cons_some hid] at hn hfree
      exact ⟨hfree id List.mem_cons_self, (List.nodup_cons.mp hn).1⟩
    have hrest : (fs.filterMap Finding.noted?).Sublist ((g :: fs).filterMap Finding.noted?) :=
      (List.sublist_cons_self g fs).filterMap _
    have hstep := ih (c := c.note g) (hn.sublist hrest) fun id hid =>
      (hfree id (hrest.subset hid)).note fun e => (hg id e).2 hid
    show ((c.note g).add fs).Has f ↔ _
    rw [hstep, has_note (fun id hid => (hg id hid).1), List.mem_cons, or_assoc]

end Checker

namespace Node

theorem noted_verdict (n : Node) (t : Ty) (inputs : List Ty) :
    (n.verdict t inputs).filterMap Finding.noted? = [n.id] := by
  cases t with
  | error message =>
    simp only [verdict]
    split <;> rfl
  | _ => rfl

theorem noted_headErrors (n : Node) (s : Symbol) (params : List Symbol) :
    (n.headErrors s params).filterMap Finding.noted? = [] := by
  simp [headErrors, List.filterMap_map, Function.comp_def, Finding.noted?]

theorem noted_returnErrors (n : Node) (s : Symbol) (statements : List Ty) :
    (n.returnErrors s statements).filterMap Finding.noted? = [] := by
  unfold returnErrors
  split <;> rfl

theorem noted_perm (n : Node) (e : Option Enclosing) :
    ((n.findings e).filterMap Finding.noted?).Perm n.ids := by
  induction n using children_induction generalizing e with
  | step n ih =>
    have hc {m : Node} (hm : m ∈ n.children) (e : Option Enclosing) (k : Nat) :
        ((m.findings e).filterMap Finding.noted?).count k = m.ids.count k :=
      (ih m hm e).count_eq k
    rw [ids_eq]
    cases n with
    | list g kind items =>
      rw [findings, findingsAll_eq_flatMap, List.filterMap_append, List.filterMap_flatMap]
      exact (List.Perm.flatMap_left items fun m hm => ih m hm e).append_right _
    | int | float | bool | addressOf | var | array | leave | error =>
      rw [findings, noted_verdict]
      rfl
    | function g s params body =>
      have hbody := ih body List.mem_cons_self (some s.enclosing)
      rw [findings, List.filterMap_append, List.filterMap_append, List.filterMap_append,
        noted_headErrors, noted_returnErrors, List.append_nil]
      simpa [children, Finding.noted?] using hbody.append_right _
    | dereference g a | not g a | call g s a | leaveWith g a =>
      rw [findings, List.filterMap_append, noted_verdict]
      simpa [children] using (ih a List.mem_cons_self e).append_right _
    | index g a b | binary g op a b | compare g op a b | assign g a b | loop g a b =>
      refine List.perm_iff_count.mpr fun k => ?_
      have ha := hc (m := a) (by simp [children]) e k
      have hb := hc (m := b) (by simp [children]) e k
      simp only [findings, children, noted_verdict, List.filterMap_append, List.count_append,
        List.flatMap_cons, List.flatMap_nil, List.count_nil]
      omega
    | branch g a b d =>
      refine List.perm_iff_count.mpr fun k => ?_
      have ha := hc (m := a) (by simp [children]) e k
      have hb := hc (m := b) (by simp [children]) e k
      have hd := hc (m := d) (by simp [children]) e k
      simp only [findings, children, noted_verdict, List.filterMap_append, List.count_append,
        List.flatMap_cons, List.flatMap_nil, List.count_nil]
      omega

theorem check_has_iff {n : Node} (hn : n.ids.Nodup) (f : Finding) :
    (Checker.empty.check n).Has f ↔ f ∈ n.findings none := by
  have hempty : ¬ Checker.empty.Has f := by
    cases f <;> simp [Checker.Has, Checker.empty]
  rw [check_eq_of_nodup hn, Checker.has_add ((n.noted_perm none).nodup_iff.mpr hn)
    (fun id _ => by simp [Checker.Free, Checker.empty])]
  exact or_iff_right hempty

theorem findings_hold {n : Node} (hn : n.ids.Nodup)
    (he : (Checker.empty.check n).errors = []) {f : Finding} (hf : f ∈ n.findings none) :
    f.Holds ((Checker.empty.check n).types[·]?) := by
  have hhas := (check_has_iff hn f).mpr hf
  cases f with
  | type => exact hhas
  | list => trivial
  | error x =>
    rw [Checker.Has, he] at hhas
    cases hhas

end Node

end Crux
