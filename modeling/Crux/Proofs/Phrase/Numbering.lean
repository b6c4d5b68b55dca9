import Crux.Proofs.Node.Order
import Crux.Proofs.Phrase.Program

namespace Crux

/-- The numbers from one to before another, in order. -/
def Span (a : Nat) (ns : List Nat) (b : Nat) : Prop := ∃ k, b = a + k ∧ ns = List.range' a k

namespace Span

theorem nil (a : Nat) : Span a [] a := ⟨0, rfl, rfl⟩

theorem append {a b c : Nat} {ms ns : List Nat} (h : Span a ms b) (h' : Span b ns c) :
    Span a (ms ++ ns) c := by
  obtain ⟨k, rfl, rfl⟩ := h
  obtain ⟨l, rfl, rfl⟩ := h'
  exact ⟨k + l, by omega, List.range'_append_1⟩

theorem node {a : Nat} {ns : List Nat} {d : Draft} (h : Span a ns d.nextId) (pos : Position)
    (build : Tag → Node) (hc : (build ⟨d.nextId, pos⟩).children.flatMap Node.ids = ns)
    (hid : (build ⟨d.nextId, pos⟩).id = d.nextId) :
    Span a (d.node pos build).1.ids (d.node pos build).2.nextId := by
  show Span a (build ⟨d.nextId, pos⟩).ids (d.nextId + 1)
  rw [Node.ids_eq, hc, hid]
  exact h.append ⟨1, rfl, rfl⟩

end Span

namespace Draft

variable (ident : Token) (d : Draft)

@[simp] theorem declare_nextId : (d.declare ident).2.nextId = d.nextId := by
  unfold declare
  split <;> rfl

@[simp] theorem resolve_nextId : (d.resolve ident).2.nextId = d.nextId := by
  unfold resolve
  split <;> rfl

@[simp] theorem declareAs_nextId (t : Ty) : (d.declareAs ident t).2.nextId = d.nextId :=
  d.declare_nextId ident

end Draft

namespace Parse

theorem literalNode_leaf (t : Token) (tag : Tag) :
    (literalNode t tag).children = [] ∧ (literalNode t tag).id = tag.id ∧
      (literalNode t tag).declares = [] := by
  unfold literalNode
  split
  · dsimp only
    split <;> exact ⟨rfl, rfl, rfl⟩
  · split <;> exact ⟨rfl, rfl, rfl⟩
  · exact ⟨rfl, rfl, rfl⟩
  · exact ⟨rfl, rfl, rfl⟩

theorem operatorNode_pair (op : Kind) (left right : Node) (tag : Tag) :
    (operatorNode op left right tag).children = [left, right] ∧
      (operatorNode op left right tag).id = tag.id ∧
      (operatorNode op left right tag).declares = [] := by
  unfold operatorNode
  split <;> exact ⟨rfl, rfl, rfl⟩

end Parse

def Form.gather {α : Type} (g : Node → List α) : (f : Form) → f.Result → List α
  | .arguments, ns | .further, ns => ns.flatMap g
  | .operand, n | .product, n | .sum, n | .comparison, n | .designator, n | .call, n => g n

theorem Phrase.operation_span {op : Token} {left : Node} {right : Node × Draft} {a b : Nat}
    (hl : Span a left.ids b) (hr : Span b right.1.ids right.2.nextId) :
    Span a (operation op left right).1.ids (operation op left right).2.nextId := by
  obtain ⟨hc, hid, -⟩ := Parse.operatorNode_pair op.kind left right.1 ⟨right.2.nextId, op.pos⟩
  exact (hl.append hr).node op.pos _ (by simp [hc]) hid

/-- Building a phrase numbers its nodes without a gap. -/
theorem Phrase.build_span {f : Form} (ph : Phrase f) (d : Draft) :
    Span d.nextId (f.gather Node.ids (ph.build d).1) (ph.build d).2.nextId := by
  induction ph generalizing d with
  | literal t =>
    obtain ⟨hc, hid, -⟩ := Parse.literalNode_leaf t.val ⟨d.nextId, t.val.pos⟩
    exact (Span.nil _).node _ _ (by simp [hc]) hid
  | not mark inner ih => exact (ih d).node _ _ (by simp [Node.children, Form.gather]) rfl
  | group left inner right ih => exact ih d
  | value address ih => exact (ih d).node _ _ (by simp [Node.children, Form.gather]) rfl
  | result c ih => exact ih d
  | name ident =>
    have h : Span d.nextId [] (d.resolve ident).2.nextId := by
      rw [Draft.resolve_nextId]
      exact .nil _
    exact h.node _ _ (by simp [Node.children]) rfl
  | element base left amount right ihb iha =>
    exact ((ihb d).append (iha _)).node _ _ (by simp [Node.children, Form.gather]) rfl
  | call mark ident left args right ih =>
    have h := ih (d.resolve ident).2
    rw [Draft.resolve_nextId] at h
    have hitems := h.node (startOf args.tokens right.val.pos) (.list · .expressions _) rfl rfl
    exact hitems.node _ _ (List.append_nil _) rfl
  | noArguments | noFurther => exact .nil _
  | arguments first rest ihf ihr => exact (ihf d).append (ihr _)
  | further comma next rest ihn ihr => exact (ihn d).append (ihr _)
  | factor e ih | term e ih | plain e ih => exact ih d
  | product left op right ihl ihr | sum left op right ihl ihr | comparison left op right ihl ihr =>
    exact operation_span (ihl d) (ihr _)

def StatementForm.gather {α : Type} (g : Node → List α) : (f : StatementForm) → f.Result → List α
  | .statements, ns => ns.flatMap g
  | .statement, n | .block, n => g n

theorem VariablePhrase.build_span (v : VariablePhrase) (d : Draft) :
    Span d.nextId (v.build d).1.ids (v.build d).2.nextId := by
  have h : Span d.nextId [] (d.declareAs v.ident v.ty).2.nextId := by
    rw [Draft.declareAs_nextId]
    exact .nil _
  exact h.node _ _ rfl rfl

theorem ArrayPhrase.build_span (a : ArrayPhrase) (d : Draft) :
    Span d.nextId (a.build d).1.ids (a.build d).2.nextId := by
  have h : Span d.nextId [] (d.declareAs a.ident a.ty).2.nextId := by
    rw [Draft.declareAs_nextId]
    exact .nil _
  exact h.node _ _ rfl rfl

theorem StatementPhrase.build_span {f : StatementForm} (s : StatementPhrase f) (after : Position)
    (d : Draft) :
    Span d.nextId (f.gather Node.ids (s.build after d).1) (s.build after d).2.nextId := by
  induction s generalizing after d with
  | var v => exact v.build_span d
  | array a => exact a.build_span d
  | call c stop => exact c.build_span d
  | assign start target mark source stop =>
    exact ((target.build_span d).append (source.build_span _)).node _ _
      (by simp [Node.children, Form.gather]) rfl
  | branch start condition yes ih =>
    have hy := (condition.build_span d).append (ih after (condition.build d).2.openScope)
    have hn := hy.append ((Span.nil _).node (d := Draft.closeScope _) after
      (.list · .statements []) rfl rfl)
    exact hn.node _ _ (by simp [Node.children, Form.gather, StatementForm.gather, Draft.node]) rfl
  | branchElse start condition yes mark no ihy ihn =>
    have hy := (condition.build_span d).append (ihy mark.val.pos (condition.build d).2.openScope)
    have hn := hy.append (ihn after (Draft.openScope (Draft.closeScope _)))
    exact hn.node (d := Draft.closeScope _) _ _
      (by simp [Node.children, Form.gather, StatementForm.gather]) rfl
  | loop start condition body ih =>
    have hb := (condition.build_span d).append (ih after (condition.build d).2.openScope)
    exact hb.node (d := Draft.closeScope _) _ _
      (by simp [Node.children, Form.gather, StatementForm.gather]) rfl
  | leave start stop => exact (Span.nil _).node _ _ rfl rfl
  | leaveWith start result stop =>
    exact (result.build_span d).node _ _ (by simp [Node.children, Form.gather]) rfl
  | block left items right ih => exact (ih _ d).node _ _ rfl rfl
  | none => exact .nil _
  | next first rest ihf ihr => exact (ihf _ d).append (ihr _ _)

theorem Draft.forEach_nextId {α β : Type} {build : α → Draft → β × Draft}
    (h : ∀ (a : α) (d : Draft), (build a d).2.nextId = d.nextId) (l : List α) (d : Draft) :
    (forEach build l d).2.nextId = d.nextId := by
  induction l generalizing d with
  | nil => rfl
  | cons a l ih => exact (ih _).trans (h a d)

theorem ParameterPhrase.build_nextId (p : ParameterPhrase) (d : Draft) :
    (p.build d).2.nextId = d.nextId :=
  d.declareAs_nextId p.ident p.ty

theorem FunctionPhrase.build_span (f : FunctionPhrase) (d : Draft) :
    Span d.nextId (f.build d).1.ids (f.build d).2.nextId := by
  have hp := Draft.forEach_nextId ParameterPhrase.build_nextId f.params.list
    (d.declare f.ident).2.openScope
  have hd : (d.declare f.ident).2.openScope.nextId = d.nextId := d.declare_nextId f.ident
  have hb := f.body.build_span .start (Draft.setType (d.declare f.ident).1
    (.func ((Draft.forEach ParameterPhrase.build f.params.list
      (d.declare f.ident).2.openScope).1.map Symbol.ty) f.result)
    (Draft.forEach ParameterPhrase.build f.params.list (d.declare f.ident).2.openScope).2)
  rw [show (Draft.setType _ _ _).nextId = d.nextId from hp.trans hd] at hb
  exact hb.node (d := Draft.closeScope _) _ _ (List.append_nil _) rfl

theorem DeclarationPhrase.build_span (x : DeclarationPhrase) (d : Draft) :
    Span d.nextId (x.build d).1.ids (x.build d).2.nextId := by
  cases x with
  | var v => exact v.build_span d
  | array a => exact a.build_span d
  | function f => exact f.build_span d

theorem ProgramPhrase.build_span (p : ProgramPhrase) (d : Draft) :
    Span d.nextId (p.build d).1.ids (p.build d).2.nextId := by
  have h (l : List DeclarationPhrase) (d : Draft) :
      Span d.nextId ((Draft.forEach DeclarationPhrase.build l d).1.flatMap Node.ids)
        (Draft.forEach DeclarationPhrase.build l d).2.nextId := by
    induction l generalizing d with
    | nil => exact .nil _
    | cons x l ih => exact (x.build_span d).append (ih _)
  exact (h p.items d).node _ _ rfl rfl

/-- Numbers that grow from one on, all of them below another. -/
structure Rising (a : Nat) (ns : List Nat) (b : Nat) : Prop where
  le : a ≤ b
  sorted : ns.Pairwise (· < ·)
  bounds : ∀ n ∈ ns, a ≤ n ∧ n < b

namespace Rising

theorem nil {a b : Nat} (h : a ≤ b) : Rising a [] b := ⟨h, .nil, nofun⟩

theorem single (a : Nat) : Rising a [a] (a + 1) := ⟨by omega, by simp, by simp⟩

theorem append {a b c : Nat} {ms ns : List Nat} (h : Rising a ms b) (h' : Rising b ns c) :
    Rising a (ms ++ ns) c := by
  obtain ⟨hab, hm, hmb⟩ := h
  obtain ⟨hbc, hn, hnb⟩ := h'
  refine ⟨by omega, List.pairwise_append.mpr ⟨hm, hn, fun m hm n hn => ?_⟩, fun n hn => ?_⟩
  · have := hmb m hm
    have := hnb n hn
    omega
  · obtain hn | hn := List.mem_append.mp hn
    · have := hmb n hn
      omega
    · have := hnb n hn
      omega

theorem split {a b : Nat} {ms ns : List Nat} (h : Rising a (ms ++ ns) b) :
    ∃ c, Rising a ms c ∧ Rising c ns b := by
  obtain ⟨hab, hs, hb⟩ := h
  obtain ⟨hm, hn, hmn⟩ := List.pairwise_append.mp hs
  cases ns with
  | nil => exact ⟨b, ⟨hab, hm, fun i hi => hb i (by simpa using hi)⟩, .nil (Nat.le_refl b)⟩
  | cons n ns =>
    have hn' := hb n (by simp)
    refine ⟨n, ⟨hn'.1, hm, fun i hi => ?_⟩, ⟨by omega, hn, fun i hi => ?_⟩⟩
    · exact ⟨(hb i (by simp [hi])).1, hmn i hi n (by simp)⟩
    · refine ⟨?_, (hb i (List.mem_append_right _ hi)).2⟩
      obtain rfl | hi := List.mem_cons.mp hi
      · exact Nat.le_refl _
      · exact Nat.le_of_lt ((List.pairwise_cons.mp hn).1 i hi)

theorem node {a b : Nat} {ns : List Nat} (h : Rising a ns b) {n : Node} (hd : n.declares = [])
    (hc : n.children.flatMap Node.symbolIds = ns) : Rising a n.symbolIds b := by
  rw [Node.symbolIds_eq, hd, hc]
  exact h

end Rising

namespace Draft

def made (d : Draft) : Nat := d.scopes.types.size

variable (ident : Token) (d : Draft)

theorem declare_made :
    (d.declare ident).1.id = d.made ∧ (d.declare ident).2.made = d.made + 1 := by
  unfold declare Scopes.declare
  split
  · rename_i h
    split at h
    · cases h
    · cases h
      refine ⟨rfl, ?_⟩
      simp only [made, Scopes.enter]
      split <;> simp
  · exact ⟨rfl, by simp [made, troubled, Scopes.placeholder, Scopes.fresh]⟩

theorem made_le_resolve : d.made ≤ (d.resolve ident).2.made := by
  unfold resolve
  split
  · exact Nat.le_refl _
  · simp [made, troubled, Scopes.placeholder, Scopes.fresh]

@[simp] theorem setType_made (b : Binding) (t : Ty) : (d.setType b t).made = d.made := by
  unfold setType Scopes.setType made
  dsimp only
  split
  · rfl
  · exact Array.size_setIfInBounds

theorem declareAs_made (t : Ty) :
    (d.declareAs ident t).1.id = d.made ∧ (d.declareAs ident t).2.made = d.made + 1 := by
  obtain ⟨hid, hmade⟩ := d.declare_made ident
  exact ⟨hid, (setType_made _ _ _).trans hmade⟩

end Draft

theorem Phrase.operation_symbolIds {op : Token} {left : Node} {right : Node × Draft}
    (hl : left.symbolIds = []) (hr : right.1.symbolIds = []) :
    (operation op left right).1.symbolIds = [] := by
  obtain ⟨hc, -, hd⟩ := Parse.operatorNode_pair op.kind left right.1 ⟨right.2.nextId, op.pos⟩
  rw [Node.symbolIds_eq]
  simp [operation, Draft.node, hc, hd, hl, hr]

theorem Phrase.build_made {f : Form} (ph : Phrase f) (d : Draft) :
    d.made ≤ (ph.build d).2.made ∧ f.gather Node.symbolIds (ph.build d).1 = [] := by
  induction ph generalizing d with
  | literal t =>
    obtain ⟨hc, -, hd⟩ := Parse.literalNode_leaf t.val ⟨d.nextId, t.val.pos⟩
    refine ⟨Nat.le_refl _, (Node.symbolIds_eq _).trans ?_⟩
    simp [build, Draft.node, hc, hd]
  | not mark inner ih | value inner ih =>
    obtain ⟨hm, hi⟩ := ih d
    refine ⟨hm, (Node.symbolIds_eq _).trans ?_⟩
    simpa [Node.declares, Node.children, build, Draft.node, Form.gather] using hi
  | group left inner right ih => exact ih d
  | result c ih => exact ih d
  | name ident => exact ⟨d.made_le_resolve ident, Node.symbolIds_eq _⟩
  | element base left amount right ihb iha =>
    obtain ⟨hmb, hb⟩ := ihb d
    obtain ⟨hma, ha⟩ := iha (base.build d).2
    refine ⟨Nat.le_trans hmb hma, (Node.symbolIds_eq _).trans ?_⟩
    simpa [Node.declares, Node.children, build, Draft.node] using ⟨hb, ha⟩
  | call mark ident left args right ih =>
    obtain ⟨hma, ha⟩ := ih (d.resolve ident).2
    refine ⟨Nat.le_trans (d.made_le_resolve ident) hma, (Node.symbolIds_eq _).trans ?_⟩
    rw [← ha]
    exact (List.append_nil _).trans (Node.symbolIds_eq _)
  | noArguments | noFurther => exact ⟨Nat.le_refl _, rfl⟩
  | arguments first rest ihf ihr | further comma first rest ihf ihr =>
    obtain ⟨hmf, hf⟩ := ihf d
    obtain ⟨hmr, hr⟩ := ihr (first.build d).2
    refine ⟨Nat.le_trans hmf hmr, ?_⟩
    exact List.append_eq_nil_iff.mpr ⟨hf, hr⟩
  | factor e ih | term e ih | plain e ih => exact ih d
  | product left op right ihl ihr | sum left op right ihl ihr | comparison left op right ihl ihr =>
    obtain ⟨hml, hl⟩ := ihl d
    obtain ⟨hmr, hr⟩ := ihr (left.build d).2
    exact ⟨Nat.le_trans hml hmr, operation_symbolIds hl hr⟩

theorem Phrase.build_rising {f : Form} (ph : Phrase f) (d : Draft) :
    Rising d.made (f.gather Node.symbolIds (ph.build d).1) (ph.build d).2.made := by
  obtain ⟨hm, h⟩ := ph.build_made d
  exact h ▸ .nil hm

theorem VariablePhrase.build_rising (v : VariablePhrase) (d : Draft) :
    Rising d.made (v.build d).1.symbolIds (v.build d).2.made := by
  obtain ⟨hid, hm⟩ := d.declareAs_made v.ident v.ty
  have hs : (v.build d).1.symbolIds = [d.made] := hid ▸ Node.symbolIds_eq _
  rw [hs, show (v.build d).2.made = d.made + 1 from hm]
  exact .single _

theorem ArrayPhrase.build_rising (a : ArrayPhrase) (d : Draft) :
    Rising d.made (a.build d).1.symbolIds (a.build d).2.made := by
  obtain ⟨hid, hm⟩ := d.declareAs_made a.ident a.ty
  have hs : (a.build d).1.symbolIds = [d.made] := hid ▸ Node.symbolIds_eq _
  rw [hs, show (a.build d).2.made = d.made + 1 from hm]
  exact .single _

theorem StatementPhrase.build_rising {f : StatementForm} (s : StatementPhrase f) (after : Position)
    (d : Draft) :
    Rising d.made (f.gather Node.symbolIds (s.build after d).1) (s.build after d).2.made := by
  induction s generalizing after d with
  | var v => exact v.build_rising d
  | array a => exact a.build_rising d
  | call c stop => exact c.build_rising d
  | assign start target mark source stop =>
    exact ((target.build_rising d).append (source.build_rising _)).node rfl
      (by simp [build, Draft.node, Node.children, Form.gather])
  | branch start condition yes ih =>
    have hy := (condition.build_rising d).append (ih after (condition.build d).2.openScope)
    have hn (g : Tag) : Node.symbolIds (.list g .statements []) = [] := Node.symbolIds_eq _
    exact hy.node rfl
      (by simp [build, Draft.node, Node.children, Form.gather, StatementForm.gather, hn])
  | branchElse start condition yes mark no ihy ihn =>
    have hy := (condition.build_rising d).append (ihy mark.val.pos (condition.build d).2.openScope)
    have hn := hy.append (ihn after (Draft.openScope (Draft.closeScope _)))
    exact hn.node rfl
      (by simp [build, Draft.node, Node.children, Form.gather, StatementForm.gather])
  | loop start condition body ih =>
    have hb := (condition.build_rising d).append (ih after (condition.build d).2.openScope)
    exact hb.node rfl
      (by simp [build, Draft.node, Node.children, Form.gather, StatementForm.gather])
  | leave start stop => exact (Rising.nil (Nat.le_refl _)).node rfl rfl
  | leaveWith start result stop =>
    exact (result.build_rising d).node rfl
      (by simp [build, Draft.node, Node.children, Form.gather])
  | block left items right ih => exact (ih _ d).node rfl rfl
  | none => exact .nil (Nat.le_refl _)
  | next first rest ihf ihr => exact (ihf _ d).append (ihr _ _)

theorem ParameterPhrase.forEach_rising (l : List ParameterPhrase) (d : Draft) :
    Rising d.made ((Draft.forEach build l d).1.map Symbol.id) (Draft.forEach build l d).2.made := by
  induction l generalizing d with
  | nil => exact .nil (Nat.le_refl _)
  | cons p l ih =>
    obtain ⟨hid, hm⟩ := d.declareAs_made p.ident p.ty
    have h := ih (p.build d).2
    rw [show (p.build d).2.made = d.made + 1 from hm] at h
    have hp : Rising d.made [(p.build d).1.id] (d.made + 1) := by
      rw [show (p.build d).1.id = d.made from hid]
      exact .single _
    exact hp.append h

theorem FunctionPhrase.build_rising (f : FunctionPhrase) (d : Draft) :
    Rising d.made (f.build d).1.symbolIds (f.build d).2.made := by
  obtain ⟨hid, hm⟩ := d.declare_made f.ident
  have hp := ParameterPhrase.forEach_rising f.params.list (d.declare f.ident).2.openScope
  have hb := f.body.build_rising .start (Draft.setType (d.declare f.ident).1
    (.func ((Draft.forEach ParameterPhrase.build f.params.list
      (d.declare f.ident).2.openScope).1.map Symbol.ty) f.result)
    (Draft.forEach ParameterPhrase.build f.params.list (d.declare f.ident).2.openScope).2)
  rw [Draft.setType_made] at hb
  rw [show (d.declare f.ident).2.openScope.made = d.made + 1 from hm] at hp
  have hs : Rising d.made [(d.declare f.ident).1.id] (d.made + 1) := by
    rw [hid]
    exact .single _
  rw [Node.symbolIds_eq]
  exact hs.append (hp.append (hb.append (.nil (Nat.le_refl _))))

theorem DeclarationPhrase.build_rising (x : DeclarationPhrase) (d : Draft) :
    Rising d.made (x.build d).1.symbolIds (x.build d).2.made := by
  cases x with
  | var v => exact v.build_rising d
  | array a => exact a.build_rising d
  | function f => exact f.build_rising d

theorem ProgramPhrase.build_rising (p : ProgramPhrase) (d : Draft) :
    Rising d.made (p.build d).1.symbolIds (p.build d).2.made := by
  have h (l : List DeclarationPhrase) (d : Draft) :
      Rising d.made ((Draft.forEach DeclarationPhrase.build l d).1.flatMap Node.symbolIds)
        (Draft.forEach DeclarationPhrase.build l d).2.made := by
    induction l generalizing d with
    | nil => exact .nil (Nat.le_refl _)
    | cons x l ih => exact (x.build_rising d).append (ih _)
  exact (h p.items d).node rfl rfl

end Crux
