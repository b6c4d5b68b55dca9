import Crux.Proofs.Erasure.Reading

namespace Crux

namespace Parse

variable {x y : Parse Node} {n n' : Node} {t t' : Token}

theorem literalNode_alike (ht : t.erased = t'.erased) (i : Nat) (pos pos' : Position) :
    (literalNode t ⟨i, pos⟩).erased = (literalNode t' ⟨i, pos'⟩).erased := by
  have hkind : t.kind = t'.kind := congrArg (·.kind) ht
  have hlexeme : t.lexeme = t'.lexeme := congrArg (·.lexeme) ht
  rw [literalNode, literalNode, hkind, hlexeme]
  split
  · dsimp only
    split <;> rfl
  · split <;> rfl
  · rfl
  · rfl

theorem operatorNode_alike (op : Kind) {l l' r r' : Node} (hl : l.erased = l'.erased)
    (hr : r.erased = r'.erased) (i : Nat) (pos pos' : Position) :
    (operatorNode op l r ⟨i, pos⟩).erased = (operatorNode op l' r' ⟨i, pos'⟩).erased := by
  unfold operatorNode
  split <;> simp only [Node.erased, Tag.erased, hl, hr]

theorem arrayOf_alike (ht : t.erased = t'.erased) {u u' : Ty} (hu : u.erased = u'.erased) :
    (arrayOf t u).erased = (arrayOf t' u').erased := by
  have hlexeme : t.lexeme = t'.lexeme := congrArg (·.lexeme) ht
  rw [arrayOf, arrayOf, hlexeme]
  split
  · rw [Ty.erased, hu, Ty.erased]
  · rfl

theorem foldr_arrayOf_alike {ts ts' : List Token} (hts : ts.map Token.erased = ts'.map Token.erased)
    {u u' : Ty} (hu : u.erased = u'.erased) :
    (ts.foldr arrayOf u).erased = (ts'.foldr arrayOf u').erased := by
  induction ts generalizing ts' with
  | nil =>
    cases ts' with
    | nil => exact hu
    | cons => cases hts
  | cons t ts ih =>
    cases ts' with
    | nil => cases hts
    | cons t' ts' =>
      obtain ⟨ht, hts⟩ := List.cons.inj hts
      exact arrayOf_alike ht (ih hts)

theorem signature_alike {ps ps' : List Symbol} (hps : ps.map Symbol.erased = ps'.map Symbol.erased)
    {u u' : Ty} (hu : u.erased = u'.erased) :
    (Ty.func (ps.map Symbol.ty) u).erased = (Ty.func (ps'.map Symbol.ty) u').erased := by
  have htypes (ps : List Symbol) :
      (ps.map Symbol.ty).map Ty.erased = (ps.map Symbol.erased).map fun s => s.ty.erased := by
    simp
  rw [Ty.erased, Ty.erased, Ty.erasedAll_eq_map, Ty.erasedAll_eq_map, htypes, hps, htypes, hu]

namespace Agree

theorem literal : Agree Node.erased Parse.literal Parse.literal :=
  (expect _).bind fun _ _ ht => node fun i => literalNode_alike ht i _ _

theorem operation (level : Nonterminal) (h : Agree Node.erased x y) (hn : n.erased = n'.erased) :
    Agree Node.erased (Parse.operation level x n) (Parse.operation level y n') := by
  refine (expect _).bind fun t t' ht => h.bind fun r r' hr => node fun i => ?_
  have hkind : t.kind = t'.kind := congrArg (·.kind) ht
  rw [hkind]
  exact operatorNode_alike _ hn hr i _ _

theorem product (h : Agree Node.erased x y) :
    Agree Node.erased (Parse.product x) (Parse.product y) :=
  h.bind fun _ _ hn => fold (fun _ _ => operation _ h) _ hn

theorem sum (h : Agree Node.erased x y) : Agree Node.erased (Parse.sum x) (Parse.sum y) :=
  h.product.bind fun _ _ hn => fold (fun _ _ => operation _ h.product) _ hn

theorem comparison (h : Agree Node.erased x y) :
    Agree Node.erased (Parse.comparison x) (Parse.comparison y) :=
  h.sum.bind fun _ _ hn => ite (sees _) (operation _ h.sum hn) (pure hn)

theorem element (h : Agree Node.erased x y) (hn : n.erased = n'.erased) :
    Agree Node.erased (Parse.element x n) (Parse.element y n') := by
  refine (expect _).bind fun _ _ _ => position.bind fun _ _ _ => h.bind fun a a' ha => ?_
  refine (expect _).bind fun _ _ _ => node fun i => ?_
  simp only [Node.erased, Tag.erased, hn, ha]

theorem place : Agree Node.erased Parse.place Parse.place := by
  refine (expect _).bind fun t t' ht => (resolve ht).bind fun b b' hb => ?_
  refine (symbol hb).bind fun s s' hs => node fun i => ?_
  simp only [Node.erased, Tag.erased, hs]

theorem designatorOf (h : Agree Node.erased x y) :
    Agree Node.erased (Parse.designatorOf x) (Parse.designatorOf y) :=
  place.bind fun _ _ hn => fold (fun _ _ => element h) _ hn

theorem arguments (h : Agree Node.erased x y) :
    Agree Node.erased (Parse.arguments x) (Parse.arguments y) := by
  refine position.bind fun _ _ _ => (h.commaList _).bind fun as bs has => node fun i => ?_
  simp only [Node.erased, Tag.erased, Node.erasedAll_eq_map, has]

theorem callOf (h : Agree Node.erased x y) :
    Agree Node.erased (Parse.callOf x) (Parse.callOf y) := by
  refine (expect _).bind fun _ _ _ => (expect _).bind fun t t' ht => ?_
  refine (resolve ht).bind fun b b' hb => (symbol hb).bind fun s s' hs => ?_
  refine (expect _).bind fun _ _ _ => h.arguments.bind fun a a' ha => ?_
  refine (expect _).bind fun _ _ _ => node fun i => ?_
  simp only [Node.erased, Tag.erased, hs, ha]

theorem operand (h : Agree Node.erased x y) :
    Agree Node.erased (Parse.operand x) (Parse.operand y) := by
  refine position.bind fun _ _ _ => ite (accept _) ?_ (ite (accept _) ?_ (ite (sees _) ?_
    (ite (sees _) h.comparison.callOf (ite (sees _) literal (fail _)))))
  · refine h.bind fun a a' ha => node fun i => ?_
    simp only [Node.erased, Tag.erased, ha]
  · exact h.comparison.bind fun a a' ha => (expect _).bind fun _ _ _ => pure ha
  · refine h.comparison.designatorOf.bind fun a a' ha => node fun i => ?_
    simp only [Node.erased, Tag.erased, ha]

theorem operandAt (depth : Nat) :
    Agree Node.erased (Parse.operandAt depth) (Parse.operandAt depth) := by
  induction depth with
  | zero => exact fail _
  | succ depth ih => exact ih.operand

theorem expression : Agree Node.erased Parse.expression Parse.expression := by
  intro p q hp
  rw [Parse.expression, Parse.expression, Parser.length_later hp]
  exact (operandAt _).comparison p q hp

theorem typeName : Agree Ty.erased Parse.typeName Parse.typeName := by
  refine (expect _).bind fun t t' ht => pure ?_
  have hlexeme : t.lexeme = t'.lexeme := congrArg (·.lexeme) ht
  rw [hlexeme]

theorem variableDeclaration :
    Agree Node.erased Parse.variableDeclaration Parse.variableDeclaration := by
  refine (expect _).bind fun _ _ _ => (expect _).bind fun t t' ht => ?_
  refine (declare ht).bind fun b b' hb => (expect _).bind fun _ _ _ => ?_
  refine typeName.bind fun u u' hu => (setType hb hu).bind fun _ _ _ => ?_
  refine (expect _).bind fun _ _ _ => (symbol hb).bind fun s s' hs => node fun i => ?_
  simp only [Node.erased, Tag.erased, hs]

theorem extent : Agree Token.erased Parse.extent Parse.extent :=
  (expect _).bind fun _ _ _ => (expect _).bind fun _ _ ht => (expect _).bind fun _ _ _ => pure ht

theorem arrayDeclaration : Agree Node.erased Parse.arrayDeclaration Parse.arrayDeclaration := by
  refine (expect _).bind fun _ _ _ => (expect _).bind fun t t' ht => ?_
  refine (declare ht).bind fun b b' hb => (expect _).bind fun _ _ _ => ?_
  refine typeName.bind fun u u' hu => extent.bind fun e e' he => ?_
  refine (extent.many _).bind fun es es' hes => (expect _).bind fun _ _ _ => ?_
  refine (setType hb (foldr_arrayOf_alike (map_cons_congr he hes) hu)).bind fun _ _ _ => ?_
  refine (symbol hb).bind fun s s' hs => node fun i => ?_
  simp only [Node.erased, Tag.erased, hs]

theorem callStatement : Agree Node.erased Parse.callStatement Parse.callStatement :=
  expression.callOf.bind fun _ _ hn => (expect _).bind fun _ _ _ => pure hn

theorem assignment : Agree Node.erased Parse.assignment Parse.assignment := by
  refine (expect _).bind fun _ _ _ => expression.designatorOf.bind fun a a' ha => ?_
  refine (expect _).bind fun _ _ _ => expression.bind fun b b' hb => ?_
  refine (expect _).bind fun _ _ _ => node fun i => ?_
  simp only [Node.erased, Tag.erased, ha, hb]

theorem returnStatement : Agree Node.erased Parse.returnStatement Parse.returnStatement := by
  refine (expect _).bind fun _ _ _ => ite (sees _) ?_ ?_
  · refine expression.bind fun a a' ha => (expect _).bind fun _ _ _ => node fun i => ?_
    simp only [Node.erased, Tag.erased, ha]
  · exact (expect _).bind fun _ _ _ => node fun i => rfl

theorem blockOf (h : Agree Node.erased x y) :
    Agree Node.erased (Parse.blockOf x) (Parse.blockOf y) := by
  refine (expect _).bind fun _ _ _ => position.bind fun _ _ _ => (h.many _).bind fun as bs has => ?_
  refine (node fun i => ?_).bind fun a a' ha => (expect _).bind fun _ _ _ => pure ha
  simp only [Node.erased, Tag.erased, Node.erasedAll_eq_map, has]

theorem ifStatement (h : Agree Node.erased x y) :
    Agree Node.erased (Parse.ifStatement x) (Parse.ifStatement y) := by
  refine (expect _).bind fun _ _ _ => expression.bind fun a a' ha => ?_
  refine h.blockOf.inScope.bind fun b b' hb => ?_
  have hbranch {c c' : Node} (hc : c.erased = c'.erased) (pos pos' : Position) :
      Agree Node.erased (Parse.node pos (.branch · a b c))
        (Parse.node pos' (.branch · a' b' c')) := by
    refine node fun i => ?_
    simp only [Node.erased, Tag.erased, ha, hb, hc]
  refine ite (accept _) (h.blockOf.inScope.bind fun _ _ hc => hbranch hc _ _) ?_
  exact position.bind fun _ _ _ => (node fun _ => rfl).bind fun _ _ hc => hbranch hc _ _

theorem whileStatement (h : Agree Node.erased x y) :
    Agree Node.erased (Parse.whileStatement x) (Parse.whileStatement y) := by
  refine (expect _).bind fun _ _ _ => expression.bind fun a a' ha => ?_
  refine h.blockOf.inScope.bind fun b b' hb => node fun i => ?_
  simp only [Node.erased, Tag.erased, ha, hb]

theorem statementOf (h : Agree Node.erased x y) :
    Agree Node.erased (Parse.statementOf x) (Parse.statementOf y) :=
  ite (sees _) variableDeclaration <| ite (sees _) arrayDeclaration <|
    ite (sees _) callStatement <| ite (sees _) assignment <| ite (sees _) h.ifStatement <|
    ite (sees _) h.whileStatement <| ite (sees _) returnStatement (fail _)

theorem statementAt (depth : Nat) :
    Agree Node.erased (Parse.statementAt depth) (Parse.statementAt depth) := by
  induction depth with
  | zero => exact fail _
  | succ depth ih => exact ih.statementOf

theorem block : Agree Node.erased Parse.block Parse.block := by
  intro p q hp
  rw [Parse.block, Parse.block, Parser.length_later hp]
  exact (statementAt _).blockOf p q hp

theorem parameter : Agree Symbol.erased Parse.parameter Parse.parameter := by
  refine (expect _).bind fun t t' ht => (declare ht).bind fun b b' hb => ?_
  refine (expect _).bind fun _ _ _ => typeName.bind fun u u' hu => ?_
  exact (setType hb hu).bind fun _ _ _ => symbol hb

theorem functionRest (b : Binding) :
    Agree (Prod.map (List.map Symbol.erased) Node.erased) (Parse.functionRest b)
      (Parse.functionRest b) := by
  refine (parameter.commaList _).bind fun ps ps' hps => (expect _).bind fun _ _ _ => ?_
  refine (expect _).bind fun _ _ _ => typeName.bind fun u u' hu => ?_
  refine (setType rfl (signature_alike hps hu)).bind fun _ _ _ => ?_
  exact block.bind fun n n' hn => pure (Prod.ext hps hn)

theorem functionDefinition :
    Agree Node.erased Parse.functionDefinition Parse.functionDefinition := by
  refine (expect _).bind fun _ _ _ => (expect _).bind fun t t' ht => ?_
  refine (declare ht).bind fun b b' hb => (expect _).bind fun _ _ _ => ?_
  obtain rfl : b = b' := hb
  refine (functionRest b).inScope.bind fun r r' hr => ?_
  refine (symbol rfl).bind fun s s' hs => node fun i => ?_
  obtain ⟨hparams, hbody⟩ := Prod.mk.inj hr
  simp only [Node.erased, Tag.erased, hs, hparams, hbody]

theorem declaration : Agree Node.erased Parse.declaration Parse.declaration :=
  ite (sees _) variableDeclaration <| ite (sees _) arrayDeclaration <|
    ite (sees _) functionDefinition (fail _)

theorem program : Agree Node.erased Parse.program Parse.program := by
  refine position.bind fun _ _ _ => (declaration.many _).bind fun as bs has => ?_
  refine (node fun i => ?_).bind fun a a' ha => (expect _).bind fun _ _ _ => pure ha
  simp only [Node.erased, Tag.erased, Node.erasedAll_eq_map, has]

end Agree

end Parse

theorem Parser.parse_alike {p q : Parser} (h : p.erased = q.erased) :
    p.parse.1.erased = q.parse.1.erased ∧ p.parse.2.erased = q.parse.2.erased := by
  unfold parse
  obtain ⟨n, n', p', q', hp, hq, hn, hb⟩ | ⟨_, _, p', q', hp, hq, hb⟩ :=
    Parsed.erased_cases (Parse.Agree.program p q h)
  · rw [hp, hq]
    exact ⟨hn, hb⟩
  · have hnext : p'.nextId = q'.nextId := congrArg (·.nextId) hb
    simp only [erased, Draft.erased, mk.injEq, Draft.mk.injEq] at hb
    rw [hp, hq]
    simp [Node.erased, Tag.erased, erased, Draft.erased, hnext, hb]

end Crux
