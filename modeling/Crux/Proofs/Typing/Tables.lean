import Crux.Proofs.Typing.Reports

namespace Crux

namespace Node

variable {e e' : Option Enclosing} {c m n : Node} {f : Finding}

def entry (e : Option Enclosing) (n : Node) : Finding :=
  if n.isList then .list n.id (n.members e) else .type n.id (n.infer e)

theorem list_mem_findings_iff {id : Nat} {ts : List Ty} : .list id ts ∈ n.findings e ↔
    (n.isList ∧ id = n.id ∧ ts = n.members e) ∨
      ∃ c ∈ n.children, .list id ts ∈ c.findings (n.inside e) := by
  have hverdict (t : Ty) (inputs : List Ty) : .list id ts ∉ n.verdict t inputs := by
    cases t with
    | error =>
      simp only [verdict]
      split <;> simp
    | _ => simp [verdict]
  cases n with
  | function =>
    simp only [findings, headErrors, returnErrors, children, isList, inside]
    split <;> simp
  | list => simp [findings, findingsAll_eq_flatMap, children, isList, inside, or_comm]
  | _ => simp [findings, hverdict, children, isList, inside]

theorem type_eq_entry {id : Nat} {t : Ty} :
    .type id t = n.entry e ↔ n.isList = false ∧ n.id = id ∧ t = n.infer e := by
  rw [entry]
  cases n.isList <;> simp [eq_comm]

theorem list_eq_entry {id : Nat} {ts : List Ty} :
    .list id ts = n.entry e ↔ n.isList ∧ n.id = id ∧ ts = n.members e := by
  rw [entry]
  cases n.isList <;> simp [eq_comm]

theorem noted_mem_findings (hf : f.noted?.isSome) : f ∈ n.findings e ↔
    f = n.entry e ∨ ∃ c ∈ n.children, f ∈ c.findings (n.inside e) := by
  cases f with
  | error => cases hf
  | type id t => rw [type_mem_findings, type_eq_entry, eq_comm (a := id)]
  | list id ts => rw [list_mem_findings_iff, list_eq_entry, eq_comm (a := id)]

theorem mem_findings_located (hf : f.noted?.isSome) :
    f ∈ n.findings e ↔ ∃ p ∈ n.located e, f = p.2.entry p.1 := by
  induction n using children_induction generalizing e with
  | step n ih =>
    rw [noted_mem_findings hf, located_eq]
    simp only [List.mem_cons, List.mem_flatMap]
    constructor
    · rintro (rfl | ⟨c, hc, h⟩)
      · exact ⟨_, .inl rfl, rfl⟩
      · obtain ⟨p, hp, rfl⟩ := (ih c hc).mp h
        exact ⟨p, .inr ⟨c, hc, hp⟩, rfl⟩
    · rintro ⟨p, rfl | ⟨c, hc, hp⟩, rfl⟩
      · exact .inl rfl
      · exact .inr ⟨c, hc, (ih c hc).mpr ⟨p, hp, rfl⟩⟩

theorem exists_located (h : m ∈ n.preorder) (e : Option Enclosing) :
    ∃ e', (e', m) ∈ n.located e := by
  induction n using children_induction generalizing e with
  | step n ih =>
    obtain rfl | ⟨c, hc, h⟩ := mem_preorder.mp h
    · exact ⟨e, mem_located.mpr (.inl rfl)⟩
    · obtain ⟨e', h⟩ := ih c hc h (n.inside e)
      exact ⟨e', mem_located.mpr (.inr ⟨c, hc, h⟩)⟩

theorem located_trans {p : Option Enclosing × Node} (h : (e', m) ∈ n.located e)
    (hp : p ∈ m.located e') : p ∈ n.located e := by
  induction n using children_induction generalizing e with
  | step n ih =>
    obtain h | ⟨k, hk, h⟩ := mem_located.mp h
    · cases h
      exact hp
    · exact mem_located.mpr (.inr ⟨k, hk, ih k hk h⟩)

theorem located_child (h : (e', m) ∈ n.located e) (hc : c ∈ m.children) :
    (m.inside e', c) ∈ n.located e :=
  located_trans h (mem_located.mpr (.inr ⟨c, hc, mem_located.mpr (.inl rfl)⟩))

/-- The node has the type that its rule gives from the types of its operands, if it is one that
computes with them. -/
def Agrees (type? : Node → Option Ty) (n : Node) : Prop :=
  match n with
  | .dereference _ a => ∃ t, type? a = some t ∧ type? n = some t.dereference
  | .not _ a => ∃ t, type? a = some t ∧ type? n = some t.not
  | .index _ a b => ∃ t u, type? a = some t ∧ type? b = some u ∧ type? n = some (t.index u)
  | .binary _ op a b =>
    ∃ t u, type? a = some t ∧ type? b = some u ∧ type? n = some (Ty.ofBinary op t u)
  | .compare _ _ a b => ∃ t u, type? a = some t ∧ type? b = some u ∧ type? n = some (t.compare u)
  | .assign _ a b => ∃ t u, type? a = some t ∧ type? b = some u ∧ type? n = some (t.assign u)
  | _ => True

end Node

namespace Checker

/-- The type of a node for those that take it as an operand. A list counts as void. -/
def operandType? (c : Checker) (n : Node) : Option Ty :=
  if n.isList then some .void else c.typeOf? n

variable {root n : Node} {e : Option Enclosing}

theorem has_iff_located (h : root.ids.Nodup) {f : Finding} (hf : f.noted?.isSome) :
    (empty.check root).Has f ↔ ∃ p ∈ root.located none, f = p.2.entry p.1 := by
  rw [Node.check_has_iff h, Node.mem_findings_located hf]

theorem types_iff_located (h : root.ids.Nodup) {id : Nat} {t : Ty} :
    (empty.check root).types[id]? = some t ↔
      ∃ p ∈ root.located none, p.2.isList = false ∧ p.2.id = id ∧ t = p.2.infer p.1 := by
  refine (has_iff_located h (f := .type id t) rfl).trans ?_
  simp only [Node.type_eq_entry]

theorem lists_iff_located (h : root.ids.Nodup) {id : Nat} {ts : List Ty} :
    (empty.check root).lists[id]? = some ts ↔
      ∃ p ∈ root.located none, p.2.isList ∧ p.2.id = id ∧ ts = p.2.members p.1 := by
  refine (has_iff_located h (f := .list id ts) rfl).trans ?_
  simp only [Node.list_eq_entry]

theorem mem_types_iff (h : root.ids.Nodup) {id : Nat} :
    id ∈ (empty.check root).types ↔ ∃ n ∈ root.preorder, n.isList = false ∧ n.id = id := by
  simp only [Std.TreeMap.mem_iff_isSome_getElem?, Option.isSome_iff_exists, types_iff_located h]
  constructor
  · rintro ⟨t, p, hp, hl, hid, -⟩
    exact ⟨p.2, Node.mem_preorder_of_located hp, hl, hid⟩
  · rintro ⟨n, hn, hl, hid⟩
    obtain ⟨e, hn⟩ := Node.exists_located hn none
    exact ⟨_, _, hn, hl, hid, rfl⟩

theorem mem_lists_iff (h : root.ids.Nodup) {id : Nat} :
    id ∈ (empty.check root).lists ↔ ∃ n ∈ root.preorder, n.isList ∧ n.id = id := by
  simp only [Std.TreeMap.mem_iff_isSome_getElem?, Option.isSome_iff_exists, lists_iff_located h]
  constructor
  · rintro ⟨ts, p, hp, hl, hid, -⟩
    exact ⟨p.2, Node.mem_preorder_of_located hp, hl, hid⟩
  · rintro ⟨n, hn, hl, hid⟩
    obtain ⟨e, hn⟩ := Node.exists_located hn none
    exact ⟨_, _, hn, hl, hid, rfl⟩

theorem operandType?_located (h : root.ids.Nodup) (hn : (e, n) ∈ root.located none) :
    (empty.check root).operandType? n = some (n.infer e) := by
  rw [operandType?]
  cases hl : n.isList with
  | true =>
    cases n with
    | list => simp [Node.infer]
    | _ => cases hl
  | false => exact (types_iff_located h).mpr ⟨_, hn, hl, rfl, rfl⟩

theorem listTypes_located (h : root.ids.Nodup) (hn : (e, n) ∈ root.located none) (hl : n.isList) :
    (empty.check root).listTypesOf? n = some (n.members e) ∧
      n.children.map (empty.check root).operandType? = (n.members e).map some := by
  refine ⟨(lists_iff_located h).mpr ⟨_, hn, hl, rfl, rfl⟩, ?_⟩
  cases n with
  | list g kind items =>
    rw [Node.members, Node.inferAll_eq_map, List.map_map]
    exact List.map_congr_left fun c hc => operandType?_located h (Node.located_child hn hc)
  | _ => cases hl

theorem agrees_located (h : root.ids.Nodup) (hn : (e, n) ∈ root.located none) :
    n.Agrees (empty.check root).operandType? := by
  have htype := operandType?_located h hn
  have hchild {c : Node} (hc : c ∈ n.children) := operandType?_located h (Node.located_child hn hc)
  cases n with
  | dereference g a | not g a =>
    exact ⟨_, hchild List.mem_cons_self, htype.trans (by rw [Node.infer]; rfl)⟩
  | index g a b | binary g op a b | compare g op a b | assign g a b =>
    refine ⟨_, _, hchild List.mem_cons_self, hchild (List.mem_cons_of_mem _ List.mem_cons_self), ?_⟩
    rw [htype, Node.infer]
    rfl
  | _ => trivial

/-- In a tree whose nodes have different numbers, the table of types has exactly the nodes that are
no lists, and the table of lists the others. A list has the types of its members, in order, and a
node that computes has the type that its rule gives from those of its operands. -/
theorem check_tables (h : root.ids.Nodup) :
    let c := empty.check root
    (∀ id, id ∈ c.types ↔ ∃ n ∈ root.preorder, n.isList = false ∧ n.id = id) ∧
      (∀ id, id ∈ c.lists ↔ ∃ n ∈ root.preorder, n.isList ∧ n.id = id) ∧
      (∀ n ∈ root.preorder, n.isList →
        ∃ ts, c.listTypesOf? n = some ts ∧ n.children.map c.operandType? = ts.map some) ∧
      ∀ n ∈ root.preorder, n.Agrees c.operandType? := by
  refine ⟨fun id => mem_types_iff h, fun id => mem_lists_iff h, fun n hn hl => ?_, fun n hn => ?_⟩
  · obtain ⟨e, hn⟩ := Node.exists_located hn none
    exact ⟨_, listTypes_located h hn hl⟩
  · obtain ⟨e, hn⟩ := Node.exists_located hn none
    exact agrees_located h hn

def looseTree : Node :=
  .binary ⟨6, .start⟩ .add
    (.list ⟨2, .start⟩ .statements [.int ⟨0, .start⟩ 7, .list ⟨1, .start⟩ .expressions []])
    (.call ⟨5, .start⟩ ⟨0, "f", some (.func [] .int)⟩ (.not ⟨4, .start⟩ (.bool ⟨3, .start⟩ true)))

theorem check_tables_loose :
    let c := empty.check looseTree
    looseTree.ids.Nodup ∧ (∀ id, id ∈ c.types ↔ id ∈ [6, 0, 5, 4, 3]) ∧
      (∀ id, id ∈ c.lists ↔ id ∈ [2, 1]) ∧ looseTree.Agrees c.operandType? ∧
      c.lists[2]? = some [.int, .void] ∧
      c.types[6]? = some (.error "Cannot add void with int.") := by
  have hn : looseTree.ids.Nodup := by decide
  obtain ⟨htypes, hlists, -, hagrees⟩ := check_tables hn
  have hids : (looseTree.preorder.filter fun n => !n.isList).map Node.id = [6, 0, 5, 4, 3] ∧
      (looseTree.preorder.filter Node.isList).map Node.id = [2, 1] := by
    decide
  refine ⟨hn, fun id => ?_, fun id => ?_, hagrees _ (Node.mem_preorder_self _), by decide +kernel,
    by decide +kernel⟩
  · rw [htypes, ← hids.1]
    simp [and_assoc]
  · rw [hlists, ← hids.2]
    simp [and_assoc]

end Checker

end Crux
