import Crux.Proofs.Grammar.Reads

/-! What every run of the parser keeps. An invariant says what holds of a parser between two steps,
of one that has broken off, and of the values that steps hand on. Where the single steps keep it, so
does every rule of the grammar. -/

namespace Crux.Parse

/-- What holds along a run, with the laws by which single steps keep it. `opened` counts the scopes
that have been opened on the way and are not yet closed. -/
structure Invariant where
  stream : List Token → Prop
  draft : (opened : Nat) → Draft → Prop
  broken : (opened : Nat) → Position → Parser → Prop
  token : Token → Prop
  binding : Binding → Prop
  ty : Ty → Prop
  symbol : Symbol → Prop
  node : Node → Prop
  front : ∀ {t ts}, stream (t :: ts) → token t
  next : ∀ {t u ts}, stream (t :: u :: ts) → stream (u :: ts)
  numbers : ∀ {n d}, draft n d → draft n { d with nextId := d.nextId + 1 }
  opens : ∀ {n d}, draft n d → draft (n + 1) d.openScope
  closes : ∀ {n d}, draft (n + 1) d → draft n d.closeScope
  declares : ∀ {n d t}, token t → draft n d →
    binding (d.declare t).1 ∧ draft n (d.declare t).2
  resolves : ∀ {n d t}, token t → draft n d →
    binding (d.resolve t).1 ∧ draft n (d.resolve t).2
  setsType : ∀ {n d b t}, ty t → draft n d → draft n (d.setType b t)
  symbolOf : ∀ {n d b}, binding b → draft n d → symbol (d.symbol b)
  breaks : ∀ {n} {p : Parser} (e : Expected), stream p.tokens → draft n p.toDraft →
    broken n p.current.pos
      { p with toDraft := p.report (.unexpected p.current.pos e p.current.kind) }
  leaves : ∀ {n pos p}, broken (n + 1) pos p → broken n pos p
  typeName : ∀ {t}, token t → ty (.ofName t.lexeme)
  arrayOf : ∀ {t element}, token t → ty element → ty (arrayOf t element)
  func : ∀ {params : List Symbol} {result : Ty}, (∀ s ∈ params, symbol s) → ty result →
    ty (.func (params.map Symbol.ty) result)
  literal : ∀ {t} (tag : Tag), token t → node (literalNode t tag)
  tree : ∀ {n : Node}, n.isError = false → (∀ s ∈ n.symbols, symbol s) →
    (∀ m ∈ n.children, node m) → node n

namespace Invariant

variable {α β : Type} {I : Invariant} {x : Parse α} {f : α → Parse β} {Q : α → Prop}
  {R : β → Prop} {e : Expected}

def Holds (I : Invariant) (opened : Nat) (p : Parser) : Prop :=
  I.stream p.tokens ∧ I.draft opened p.toDraft

/-- The runs of the step keep the invariant, and what they make is as `Q` says. -/
structure Keeps (I : Invariant) (x : Parse α) (Q : α → Prop) : Prop where
  done : ∀ {n p a q}, I.Holds n p → x p = .done a q → Q a ∧ I.Holds n q
  stuck : ∀ {n p pos q}, I.Holds n p → x p = .stuck pos q → I.broken n pos q

namespace Keeps

theorem bind (hx : I.Keeps x Q) (hf : ∀ a, Q a → I.Keeps (f a) R) : I.Keeps (x >>= f) R where
  done hp h := by
    obtain ⟨a, r, hr, h⟩ := bind_eq_done.mp h
    obtain ⟨ha, hr⟩ := hx.done hp hr
    exact (hf a ha).done hr h
  stuck hp h := by
    obtain h | ⟨a, r, hr, h⟩ := bind_eq_stuck.mp h
    · exact hx.stuck hp h
    · obtain ⟨ha, hr⟩ := hx.done hp hr
      exact (hf a ha).stuck hr h

theorem pure {a : α} (h : Q a) : I.Keeps (pure a) Q where
  done := by
    rintro n p a q hp ⟨⟩
    exact ⟨h, hp⟩
  stuck _ h := by cases h

theorem ite {y : Parse α} {b : Bool} (hx : I.Keeps x Q) (hy : I.Keeps y Q) :
    I.Keeps (if b then x else y) Q := by
  split
  · exact hx
  · exact hy

theorem make {g : Draft → α × Draft}
    (h : ∀ {n d}, I.draft n d → Q (g d).1 ∧ I.draft n (g d).2) : I.Keeps (make g) Q where
  done := by
    rintro n p a q ⟨hs, hd⟩ ⟨⟩
    exact ⟨(h hd).1, hs, (h hd).2⟩
  stuck _ h := by cases h

theorem look {g : Parser → α} (h : ∀ p, x p = .done (g p) p) : I.Keeps x fun _ => True where
  done hp hx := by
    obtain ⟨-, rfl⟩ := Parsed.done.inj ((h _).symm.trans hx)
    exact ⟨trivial, hp⟩
  stuck _ hx := by cases (h _).symm.trans hx

end Keeps

theorem position_keeps : I.Keeps position fun _ => True := .look fun _ => rfl

theorem sees_keeps : I.Keeps (sees e) fun _ => True := .look fun _ => rfl

theorem fail_keeps : I.Keeps (fail e) Q where
  done _ h := absurd h fail_ne_done
  stuck := by
    rintro n p pos q ⟨hs, hd⟩ ⟨⟩
    exact I.breaks e hs hd

theorem expect_keeps : I.Keeps (expect e) I.token where
  done := by
    rintro n p t q ⟨hs, hd⟩ h
    unfold Parse.expect at h
    split at h
    · obtain ⟨rfl, rfl⟩ := Parsed.done.inj h
      refine ⟨I.front hs, ?_⟩
      unfold Parser.advance
      split
      · exact ⟨hs, hd⟩
      · rename_i u rest hl
        rw [Parser.tokens, hl] at hs
        exact ⟨I.next hs, hd⟩
    · exact absurd h fail_ne_done
  stuck hp h := by
    unfold Parse.expect at h
    split at h
    · cases h
    · exact fail_keeps.stuck (Q := I.token) hp h

theorem accept_keeps {k : Kind} : I.Keeps (accept k) fun _ => True :=
  sees_keeps.bind fun _ _ => .ite (expect_keeps.bind fun _ _ => .pure trivial) (.pure trivial)

theorem node_keeps {pos : Position} {build : Tag → Node} (h : ∀ tag, I.node (build tag)) :
    I.Keeps (Parse.node pos build) I.node :=
  .make fun hd => ⟨h _, I.numbers hd⟩

theorem declare_keeps {t : Token} (ht : I.token t) : I.Keeps (declare t) I.binding :=
  .make (I.declares ht)

theorem resolve_keeps {t : Token} (ht : I.token t) : I.Keeps (resolve t) I.binding :=
  .make (I.resolves ht)

theorem setType_keeps {b : Binding} {t : Ty} (ht : I.ty t) : I.Keeps (setType b t) fun _ => True :=
  .make fun hd => ⟨trivial, I.setsType ht hd⟩

theorem symbol_keeps {b : Binding} (hb : I.binding b) : I.Keeps (Parse.symbol b) I.symbol :=
  .make fun hd => ⟨I.symbolOf hb hd, hd⟩

theorem inScope_keeps (hx : I.Keeps x Q) : I.Keeps (inScope x) Q where
  done := by
    rintro n p a q ⟨hs, hd⟩ h
    simp only [Parse.inScope, bind_eq_done] at h
    obtain ⟨_, r, ⟨⟩, b, r', hr, _, r'', ⟨⟩, ⟨⟩⟩ := h
    have hopen : I.Holds (n + 1) { p with toDraft := p.openScope } := ⟨hs, I.opens hd⟩
    obtain ⟨ha, hs', hd'⟩ := hx.done hopen hr
    exact ⟨ha, hs', I.closes hd'⟩
  stuck := by
    rintro n p pos q ⟨hs, hd⟩ h
    have hopen : I.Holds (n + 1) { p with toDraft := p.openScope } := ⟨hs, I.opens hd⟩
    obtain h | ⟨_, r, ⟨⟩, h⟩ := bind_eq_stuck.mp h
    · cases h
    · obtain h | ⟨b, r', -, h⟩ := bind_eq_stuck.mp h
      · exact I.leaves (hx.stuck hopen h)
      · cases h

theorem foldUpTo_keeps {step : α → Parse α} (hs : ∀ a, Q a → I.Keeps (step a) Q) (n : Nat) {a : α}
    (ha : Q a) : I.Keeps (foldUpTo e step n a) Q := by
  induction n generalizing a with
  | zero => exact .pure ha
  | succ n ih =>
    rw [foldUpTo_succ]
    exact sees_keeps.bind fun _ _ => .ite ((hs a ha).bind fun b hb => ih hb) (.pure ha)

theorem fold_keeps {step : α → Parse α} (hs : ∀ a, Q a → I.Keeps (step a) Q) {a : α} (ha : Q a) :
    I.Keeps (fold e step a) Q where
  done hp h := (foldUpTo_keeps hs _ ha).done hp h
  stuck hp h := (foldUpTo_keeps hs _ ha).stuck hp h

theorem manyUpTo_keeps (hx : I.Keeps x Q) (n : Nat) :
    I.Keeps (manyUpTo e x n) fun as => ∀ a ∈ as, Q a := by
  induction n with
  | zero => exact .pure (List.forall_mem_nil _)
  | succ n ih =>
    rw [manyUpTo_succ]
    refine sees_keeps.bind fun _ _ => .ite ?_ (.pure (List.forall_mem_nil _))
    exact hx.bind fun a ha => ih.bind fun as has => .pure (List.forall_mem_cons.mpr ⟨ha, has⟩)

theorem many_keeps (hx : I.Keeps x Q) : I.Keeps (many e x) fun as => ∀ a ∈ as, Q a where
  done hp h := (manyUpTo_keeps hx _).done hp h
  stuck hp h := (manyUpTo_keeps hx _).stuck hp h

theorem commaList_keeps (hx : I.Keeps x Q) : I.Keeps (commaList e x) fun as => ∀ a ∈ as, Q a := by
  refine sees_keeps.bind fun _ _ => .ite ?_ (.pure (List.forall_mem_nil _))
  refine hx.bind fun a ha => (many_keeps (expect_keeps.bind fun _ _ => hx)).bind fun as has => ?_
  exact .pure (List.forall_mem_cons.mpr ⟨ha, has⟩)

section Rules

theorem operatorNode {left right : Node} (op : Kind) (hl : I.node left) (hr : I.node right)
    (tag : Tag) : I.node (operatorNode op left right tag) := by
  have hpair : ∀ m ∈ [left, right], I.node m := by simp [hl, hr]
  unfold Parse.operatorNode
  split <;> exact I.tree rfl (List.forall_mem_nil _) hpair

theorem literal_keeps : I.Keeps Parse.literal I.node :=
  expect_keeps.bind fun _ ht => node_keeps fun tag => I.literal tag ht

theorem operation_keeps {level : Nonterminal} {operand : Parse Node} {left : Node}
    (ho : I.Keeps operand I.node) (hl : I.node left) :
    I.Keeps (operation level operand left) I.node :=
  expect_keeps.bind fun op _ => ho.bind fun _ hr => node_keeps (operatorNode op.kind hl hr)

variable {atom expression statement : Parse Node}

theorem product_keeps (ha : I.Keeps atom I.node) : I.Keeps (product atom) I.node :=
  ha.bind fun _ hl => fold_keeps (fun _ => operation_keeps ha) hl

theorem sum_keeps (ha : I.Keeps atom I.node) : I.Keeps (sum atom) I.node :=
  (product_keeps ha).bind fun _ hl => fold_keeps (fun _ => operation_keeps (product_keeps ha)) hl

theorem comparison_keeps (ha : I.Keeps atom I.node) : I.Keeps (comparison atom) I.node :=
  (sum_keeps ha).bind fun _ hl => sees_keeps.bind fun _ _ =>
    .ite (operation_keeps (sum_keeps ha) hl) (.pure hl)

theorem place_keeps : I.Keeps place I.node :=
  expect_keeps.bind fun _ ht => (resolve_keeps ht).bind fun _ hb =>
    (symbol_keeps hb).bind fun _ hs => node_keeps fun _ =>
      I.tree rfl (List.forall_mem_singleton.mpr hs) (List.forall_mem_nil _)

theorem designatorOf_keeps (he : I.Keeps expression I.node) :
    I.Keeps (designatorOf expression) I.node := by
  refine place_keeps.bind fun _ hp => fold_keeps (fun base hb => ?_) hp
  refine expect_keeps.bind fun _ _ => position_keeps.bind fun pos _ => he.bind fun amount ha => ?_
  exact expect_keeps.bind fun _ _ => node_keeps fun _ =>
    I.tree rfl (List.forall_mem_nil _) (by simp [Node.children, hb, ha])

theorem callOf_keeps (he : I.Keeps expression I.node) : I.Keeps (callOf expression) I.node := by
  have harguments : I.Keeps (arguments expression) I.node :=
    position_keeps.bind fun _ _ => (commaList_keeps he).bind fun _ hs => node_keeps fun _ =>
      I.tree rfl (List.forall_mem_nil _) hs
  refine expect_keeps.bind fun mark _ => expect_keeps.bind fun ident ht => ?_
  refine (resolve_keeps ht).bind fun b hb => (symbol_keeps hb).bind fun callee hc => ?_
  refine expect_keeps.bind fun _ _ => harguments.bind fun items ha => ?_
  exact expect_keeps.bind fun _ _ => node_keeps fun _ =>
    I.tree rfl (List.forall_mem_singleton.mpr hc) (List.forall_mem_singleton.mpr ha)

theorem operand_keeps (ha : I.Keeps atom I.node) : I.Keeps (operand atom) I.node := by
  have he := comparison_keeps ha
  refine position_keeps.bind fun pos _ => accept_keeps.bind fun _ _ => .ite ?_ ?_
  · exact ha.bind fun _ hi => node_keeps fun _ =>
      I.tree rfl (List.forall_mem_nil _) (List.forall_mem_singleton.mpr hi)
  refine accept_keeps.bind fun _ _ => .ite ?_ ?_
  · exact he.bind fun _ hi => expect_keeps.bind fun _ _ => .pure hi
  refine sees_keeps.bind fun _ _ => .ite ?_ ?_
  · exact (designatorOf_keeps he).bind fun _ hd => node_keeps fun _ =>
      I.tree rfl (List.forall_mem_nil _) (List.forall_mem_singleton.mpr hd)
  refine sees_keeps.bind fun _ _ => .ite (callOf_keeps he) ?_
  exact sees_keeps.bind fun _ _ => .ite literal_keeps fail_keeps

theorem operandAt_keeps (depth : Nat) : I.Keeps (operandAt depth) I.node := by
  induction depth with
  | zero => exact fail_keeps
  | succ depth ih => exact operand_keeps ih

theorem expression_keeps : I.Keeps Parse.expression I.node where
  done hp h := (comparison_keeps (operandAt_keeps _)).done hp h
  stuck hp h := (comparison_keeps (operandAt_keeps _)).stuck hp h

theorem typeName_keeps : I.Keeps Parse.typeName I.ty :=
  expect_keeps.bind fun _ ht => .pure (I.typeName ht)

theorem variableDeclaration_keeps : I.Keeps variableDeclaration I.node := by
  refine expect_keeps.bind fun start _ => expect_keeps.bind fun ident hi => ?_
  refine (declare_keeps hi).bind fun b hb => expect_keeps.bind fun _ _ => ?_
  refine typeName_keeps.bind fun t ht => (setType_keeps ht).bind fun _ _ => ?_
  refine expect_keeps.bind fun _ _ => (symbol_keeps hb).bind fun s hs => ?_
  exact node_keeps fun _ => I.tree rfl (List.forall_mem_singleton.mpr hs) (List.forall_mem_nil _)

theorem foldr_arrayOf {extents : List Token} {base : Ty} (he : ∀ t ∈ extents, I.token t)
    (hb : I.ty base) : I.ty (extents.foldr Parse.arrayOf base) := by
  induction extents with
  | nil => exact hb
  | cons t extents ih =>
    obtain ⟨ht, he⟩ := List.forall_mem_cons.mp he
    exact I.arrayOf ht (ih he)

theorem arrayDeclaration_keeps : I.Keeps arrayDeclaration I.node := by
  have hextent : I.Keeps extent I.token :=
    expect_keeps.bind fun _ _ => expect_keeps.bind fun _ ht => expect_keeps.bind fun _ _ => .pure ht
  refine expect_keeps.bind fun start _ => expect_keeps.bind fun ident hi => ?_
  refine (declare_keeps hi).bind fun b hb => expect_keeps.bind fun _ _ => ?_
  refine typeName_keeps.bind fun base ht => hextent.bind fun first hf => ?_
  refine (many_keeps hextent).bind fun rest hr => expect_keeps.bind fun _ _ => ?_
  have htype := foldr_arrayOf (List.forall_mem_cons.mpr ⟨hf, hr⟩) ht
  refine (setType_keeps htype).bind fun _ _ => (symbol_keeps hb).bind fun s hs => ?_
  exact node_keeps fun _ => I.tree rfl (List.forall_mem_singleton.mpr hs) (List.forall_mem_nil _)

theorem callStatement_keeps : I.Keeps callStatement I.node :=
  (callOf_keeps expression_keeps).bind fun _ hc => expect_keeps.bind fun _ _ => .pure hc

theorem assignment_keeps : I.Keeps assignment I.node := by
  refine expect_keeps.bind fun start _ => ?_
  refine (designatorOf_keeps expression_keeps).bind fun target ht => expect_keeps.bind fun _ _ => ?_
  refine expression_keeps.bind fun source hs => expect_keeps.bind fun _ _ => ?_
  exact node_keeps fun _ => I.tree rfl (List.forall_mem_nil _) (by simp [Node.children, ht, hs])

theorem returnStatement_keeps : I.Keeps returnStatement I.node := by
  refine expect_keeps.bind fun start _ => sees_keeps.bind fun _ _ => .ite ?_ ?_
  · exact expression_keeps.bind fun value hv => expect_keeps.bind fun _ _ => node_keeps fun _ =>
      I.tree rfl (List.forall_mem_nil _) (List.forall_mem_singleton.mpr hv)
  · exact expect_keeps.bind fun _ _ => node_keeps fun _ =>
      I.tree rfl (List.forall_mem_nil _) (List.forall_mem_nil _)

theorem blockOf_keeps (hs : I.Keeps statement I.node) : I.Keeps (blockOf statement) I.node := by
  refine expect_keeps.bind fun _ _ => position_keeps.bind fun pos _ => ?_
  refine (many_keeps hs).bind fun items hi => (node_keeps fun tag => ?_).bind fun block hb => ?_
  · exact I.tree (n := .list tag .statements items) rfl (List.forall_mem_nil _) hi
  · exact expect_keeps.bind fun _ _ => .pure hb

theorem ifStatement_keeps (hs : I.Keeps statement I.node) :
    I.Keeps (ifStatement statement) I.node := by
  have hblock := inScope_keeps (blockOf_keeps hs)
  refine expect_keeps.bind fun start _ => expression_keeps.bind fun condition hc => ?_
  refine hblock.bind fun yes hy => accept_keeps.bind fun _ _ => ?_
  have hbranch (no : Node) (hn : I.node no) :
      I.Keeps (Parse.node start.pos (.branch · condition yes no)) I.node :=
    node_keeps fun _ =>
      I.tree rfl (List.forall_mem_nil _) (by simp [Node.children, hc, hy, hn])
  refine .ite (hblock.bind hbranch) (position_keeps.bind fun _ _ => ?_)
  exact (node_keeps fun _ =>
    I.tree rfl (List.forall_mem_nil _) (List.forall_mem_nil _)).bind hbranch

theorem whileStatement_keeps (hs : I.Keeps statement I.node) :
    I.Keeps (whileStatement statement) I.node := by
  refine expect_keeps.bind fun start _ => expression_keeps.bind fun condition hc => ?_
  refine (inScope_keeps (blockOf_keeps hs)).bind fun body hb => node_keeps fun _ => ?_
  exact I.tree rfl (List.forall_mem_nil _) (by simp [Node.children, hc, hb])

theorem statementOf_keeps (hs : I.Keeps statement I.node) :
    I.Keeps (statementOf statement) I.node := by
  refine sees_keeps.bind fun _ _ => .ite variableDeclaration_keeps ?_
  refine sees_keeps.bind fun _ _ => .ite arrayDeclaration_keeps ?_
  refine sees_keeps.bind fun _ _ => .ite callStatement_keeps ?_
  refine sees_keeps.bind fun _ _ => .ite assignment_keeps ?_
  refine sees_keeps.bind fun _ _ => .ite (ifStatement_keeps hs) ?_
  refine sees_keeps.bind fun _ _ => .ite (whileStatement_keeps hs) ?_
  exact sees_keeps.bind fun _ _ => .ite returnStatement_keeps fail_keeps

theorem statementAt_keeps (depth : Nat) : I.Keeps (statementAt depth) I.node := by
  induction depth with
  | zero => exact fail_keeps
  | succ depth ih => exact statementOf_keeps ih

theorem block_keeps : I.Keeps block I.node where
  done hp h := (blockOf_keeps (statementAt_keeps _)).done hp h
  stuck hp h := (blockOf_keeps (statementAt_keeps _)).stuck hp h

theorem parameter_keeps : I.Keeps parameter I.symbol := by
  refine expect_keeps.bind fun ident hi => (declare_keeps hi).bind fun b hb => ?_
  refine expect_keeps.bind fun _ _ => ?_
  exact typeName_keeps.bind fun t ht => (setType_keeps ht).bind fun _ _ => symbol_keeps hb

theorem functionRest_keeps (b : Binding) :
    I.Keeps (functionRest b) fun r => (∀ s ∈ r.1, I.symbol s) ∧ I.node r.2 := by
  refine (commaList_keeps parameter_keeps).bind fun params hp => expect_keeps.bind fun _ _ => ?_
  refine expect_keeps.bind fun _ _ => typeName_keeps.bind fun result hr => ?_
  refine (setType_keeps (I.func hp hr)).bind fun _ _ => block_keeps.bind fun body hb => ?_
  exact .pure ⟨hp, hb⟩

theorem functionDefinition_keeps : I.Keeps functionDefinition I.node := by
  refine expect_keeps.bind fun start _ => expect_keeps.bind fun ident hi => ?_
  refine (declare_keeps hi).bind fun b hb => expect_keeps.bind fun _ _ => ?_
  refine (inScope_keeps (functionRest_keeps b)).bind fun r hr => ?_
  refine (symbol_keeps hb).bind fun s hs => node_keeps fun _ => ?_
  exact I.tree rfl (List.forall_mem_cons.mpr ⟨hs, hr.1⟩) (List.forall_mem_singleton.mpr hr.2)

theorem declaration_keeps : I.Keeps declaration I.node := by
  refine sees_keeps.bind fun _ _ => .ite variableDeclaration_keeps ?_
  refine sees_keeps.bind fun _ _ => .ite arrayDeclaration_keeps ?_
  exact sees_keeps.bind fun _ _ => .ite functionDefinition_keeps fail_keeps

/-- Reading a program keeps whatever its single steps keep. -/
theorem program_keeps : I.Keeps program I.node := by
  refine position_keeps.bind fun pos _ => (many_keeps declaration_keeps).bind fun items hi => ?_
  refine (node_keeps fun tag => ?_).bind fun root hr => expect_keeps.bind fun _ _ => .pure hr
  exact I.tree (n := .list tag .declarations items) rfl (List.forall_mem_nil _) hi

end Rules

end Invariant

end Crux.Parse
