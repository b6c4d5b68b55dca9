import Crux.Proofs.Grammar.Reads

namespace Crux.Parse

theorem literal_reads : literal.Reads Nonterminal.literal :=
  (expect_choice_reads rfl (by decide)).then_silent fun _ => make_silent _

theorem operation_reads {level : Nonterminal} {x : Parse Node} {g : Ebnf} [g.Productive]
    (left : Node) (hl : (expect level).Reads level) (hx : x.Reads g) :
    (operation level x left).Reads (.sequence [level, g]) :=
  hl.cons fun _ => hx.last.then_silent fun _ => make_silent _

variable {atom : Parse Node}

theorem product_reads (ha : atom.Reads Nonterminal.expression3) :
    (product atom).Reads Nonterminal.expression2 := by
  have hop : (expect Nonterminal.op2).Reads Nonterminal.op2 :=
    expect_choice_reads rfl (by decide)
  exact .rule (ha.cons fun left => (fold_reads (fun l => operation_reads l hop ha) left).last)

theorem sum_reads (ha : atom.Reads Nonterminal.expression3) :
    (sum atom).Reads Nonterminal.expression1 := by
  have hp := product_reads ha
  have hop : (expect Nonterminal.op1).Reads Nonterminal.op1 :=
    expect_choice_reads rfl (by decide)
  exact .rule (hp.cons fun left => (fold_reads (fun l => operation_reads l hop hp) left).last)

theorem comparison_reads (ha : atom.Reads Nonterminal.expression3) :
    (comparison atom).Reads Nonterminal.expression0 := by
  have hs := sum_reads ha
  have hop : (expect Nonterminal.op0).Reads Nonterminal.op0 :=
    expect_choice_reads rfl (by decide)
  refine .rule (hs.cons fun left => Reads.last ?_)
  refine (sees_silent _).then_reads fun more => .ite ?_ ?_
  · exact (operation_reads left hop hs).present
  · exact (pure_silent left).absent _

variable {expression : Parse Node}

theorem designatorOf_reads (he : expression.Reads Nonterminal.expression0) :
    (designatorOf expression).Reads Nonterminal.designator := by
  have hplace : place.Reads Kind.identifier :=
    (expect_reads (by decide)).then_silent fun ident =>
      (make_silent _).bind fun b => (make_silent _).bind fun s => make_silent _
  refine .rule (hplace.cons fun base => (fold_reads (fun base => ?_) base).last)
  refine (expect_reads (by decide)).cons fun _ => position_silent.then_reads fun pos => ?_
  exact he.cons fun amount =>
    (expect_reads (by decide)).last.then_silent fun _ => make_silent _

theorem arguments_reads (he : expression.Reads Nonterminal.expression0) :
    (arguments expression).Reads Nonterminal.expressionList :=
  .rule (position_silent.then_reads fun _ =>
    (commaList_reads he).then_silent fun _ => make_silent _)

theorem callOf_reads (he : expression.Reads Nonterminal.expression0) :
    (callOf expression).Reads Nonterminal.callExpression := by
  refine .rule ((expect_reads (by decide)).cons fun mark => ?_)
  refine (expect_reads (by decide)).cons fun ident => ?_
  refine (make_silent _).then_reads fun b => (make_silent _).then_reads fun callee => ?_
  refine (expect_reads (by decide)).cons fun _ => (arguments_reads he).cons fun items => ?_
  exact (expect_reads (by decide)).last.then_silent fun _ => make_silent _

theorem operand_reads (ha : atom.Reads Nonterminal.expression3) :
    (operand atom).Reads Nonterminal.expression3 := by
  have he := comparison_reads ha
  refine .rule (position_silent.then_reads fun pos => ?_)
  rw [accept_bind]
  refine (sees_silent _).then_reads fun _ => .ite (.choose ?_ (.head _)) ?_
  · exact (expect_reads (by decide)).cons fun _ => ha.last.then_silent fun _ => make_silent _
  simp only [Bool.false_eq_true, if_false]
  rw [accept_bind]
  refine (sees_silent _).then_reads fun _ => .ite (.choose ?_ (.tail _ (.head _))) ?_
  · exact (expect_reads (by decide)).cons fun _ => he.cons fun inner =>
      (expect_reads (by decide)).last.then_silent fun _ => pure_silent _
  simp only [Bool.false_eq_true, if_false]
  refine (sees_silent _).then_reads fun _ => .ite (.choose (g := Nonterminal.designator) ?_ ?_) ?_
  · exact (designatorOf_reads he).then_silent fun _ => make_silent _
  · simp
  refine (sees_silent _).then_reads fun _ => .ite (.choose (callOf_reads he) ?_) ?_
  · simp
  refine (sees_silent _).then_reads fun _ => .ite (.choose literal_reads ?_) (fail_reads _ _)
  · simp

theorem operandAt_reads (depth : Nat) : (operandAt depth).Reads Nonterminal.expression3 := by
  induction depth with
  | zero => exact fail_reads _ _
  | succ depth ih => exact operand_reads ih

theorem expression_reads : Parse.expression.Reads Nonterminal.expression0 where
  done hp h := (comparison_reads (operandAt_reads _)).done hp h
  stuck hp h := (comparison_reads (operandAt_reads _)).stuck hp h

theorem typeName_reads : typeName.Reads Nonterminal.typeName := by
  refine Reads.then_silent (expect_reads_of (by decide) fun k h => .rule ?_) fun _ => pure_silent _
  rw [show k = .identifier by simpa [Expected.admits, Nonterminal.first] using h]
  exact .token

theorem variableDeclaration_reads :
    variableDeclaration.Reads Nonterminal.variableDeclaration := by
  refine .rule ((expect_reads (by decide)).cons fun start => ?_)
  refine (expect_reads (by decide)).cons fun ident => (make_silent _).then_reads fun b => ?_
  refine (expect_reads (by decide)).cons fun _ => typeName_reads.cons fun t => ?_
  refine (make_silent _).then_reads fun _ => (expect_reads (by decide)).last.then_silent fun _ => ?_
  exact (make_silent _).bind fun s => make_silent _

theorem extent_reads : extent.Reads .extent := by
  refine (expect_reads (by decide)).cons fun _ => (expect_reads (by decide)).cons fun t => ?_
  exact (expect_reads (by decide)).last.then_silent fun _ => pure_silent _

theorem arrayDeclaration_reads : arrayDeclaration.Reads Nonterminal.arrayDeclaration := by
  refine .rule ((expect_reads (by decide)).cons fun start => ?_)
  refine (expect_reads (by decide)).cons fun ident => (make_silent _).then_reads fun b => ?_
  refine (expect_reads (by decide)).cons fun _ => typeName_reads.cons fun base => ?_
  refine extent_reads.cons fun first => (many_reads extent_reads).cons fun rest => ?_
  refine (expect_reads (by decide)).last.then_silent fun _ => ?_
  exact (make_silent _).bind fun _ => (make_silent _).bind fun s => make_silent _

theorem callStatement_reads : callStatement.Reads Nonterminal.callStatement :=
  .rule ((callOf_reads expression_reads).cons fun _ =>
    (expect_reads (by decide)).last.then_silent fun _ => pure_silent _)

theorem assignment_reads : assignment.Reads Nonterminal.assignmentStatement := by
  refine .rule ((expect_reads (by decide)).cons fun start => ?_)
  refine (designatorOf_reads expression_reads).cons fun target => ?_
  refine (expect_reads (by decide)).cons fun _ => expression_reads.cons fun source => ?_
  exact (expect_reads (by decide)).last.then_silent fun _ => make_silent _

theorem returnStatement_reads : returnStatement.Reads Nonterminal.returnStatement := by
  have hstop : (expect Kind.semicolon).Reads (.sequence [Kind.semicolon]) :=
    (expect_reads (by decide)).last
  refine .rule ((expect_reads (by decide)).cons fun start => ?_)
  refine (sees_silent _).then_reads fun _ => .ite ?_ ?_
  · exact expression_reads.present.cons fun value => hstop.then_silent fun _ => make_silent _
  · exact (hstop.then_silent fun _ => make_silent _).skip

variable {statement : Parse Node}

theorem blockOf_reads (hs : statement.Reads Nonterminal.statement) :
    (blockOf statement).Reads Nonterminal.statementBlock := by
  refine .rule ((expect_reads (by decide)).cons fun _ => position_silent.then_reads fun pos => ?_)
  have hlist : (many Nonterminal.statement statement).Reads Nonterminal.statementList :=
    .rule (many_reads hs)
  refine hlist.cons fun items => (make_silent _).then_reads fun block => ?_
  exact (expect_reads (by decide)).last.then_silent fun _ => pure_silent _

theorem ifStatement_reads (hs : statement.Reads Nonterminal.statement) :
    (ifStatement statement).Reads Nonterminal.ifStatement := by
  have hb := inScope_reads (blockOf_reads hs)
  refine .rule ((expect_reads (by decide)).cons fun start => expression_reads.cons fun cond => ?_)
  refine hb.cons fun thenBlock => Reads.last ?_
  rw [accept_bind]
  refine (sees_silent _).then_reads fun _ => .ite (.present ?_) ?_
  · exact (expect_reads (by decide)).cons fun _ => hb.last.then_silent fun _ => make_silent _
  · simp only [Bool.false_eq_true, if_false]
    refine Silent.absent (position_silent.bind fun pos => ?_) _
    exact (make_silent _).bind fun _ => make_silent _

theorem whileStatement_reads (hs : statement.Reads Nonterminal.statement) :
    (whileStatement statement).Reads Nonterminal.whileStatement := by
  refine .rule ((expect_reads (by decide)).cons fun start => expression_reads.cons fun cond => ?_)
  exact (inScope_reads (blockOf_reads hs)).last.then_silent fun _ => make_silent _

theorem statementOf_reads (hs : statement.Reads Nonterminal.statement) :
    (statementOf statement).Reads Nonterminal.statement := by
  refine .rule ((sees_silent _).then_reads fun _ => .ite ?_ ?_)
  · exact variableDeclaration_reads.choose (by simp)
  refine (sees_silent _).then_reads fun _ => .ite (arrayDeclaration_reads.choose (by simp)) ?_
  refine (sees_silent _).then_reads fun _ => .ite (callStatement_reads.choose (by simp)) ?_
  refine (sees_silent _).then_reads fun _ => .ite (assignment_reads.choose (by simp)) ?_
  refine (sees_silent _).then_reads fun _ => .ite ((ifStatement_reads hs).choose (by simp)) ?_
  refine (sees_silent _).then_reads fun _ => .ite ((whileStatement_reads hs).choose (by simp)) ?_
  refine (sees_silent _).then_reads fun _ => .ite (returnStatement_reads.choose (by simp)) ?_
  exact fail_reads _ _

theorem statementAt_reads (depth : Nat) : (statementAt depth).Reads Nonterminal.statement := by
  induction depth with
  | zero => exact fail_reads _ _
  | succ depth ih => exact statementOf_reads ih

theorem block_reads : block.Reads Nonterminal.statementBlock where
  done hp h := (blockOf_reads (statementAt_reads _)).done hp h
  stuck hp h := (blockOf_reads (statementAt_reads _)).stuck hp h

theorem parameter_reads : parameter.Reads Nonterminal.parameter := by
  refine .rule ((expect_reads (by decide)).cons fun ident => (make_silent _).then_reads fun b => ?_)
  refine (expect_reads (by decide)).cons fun _ => typeName_reads.last.then_silent fun t => ?_
  exact (make_silent _).bind fun _ => make_silent _

theorem functionDefinition_reads : functionDefinition.Reads Nonterminal.functionDefinition := by
  have hparams : (commaList Nonterminal.parameter parameter).Reads Nonterminal.parameterList :=
    .rule (commaList_reads parameter_reads)
  refine .rule ((expect_reads (by decide)).cons fun start => ?_)
  refine (expect_reads (by decide)).cons fun ident => (make_silent _).then_reads fun b => ?_
  refine (expect_reads (by decide)).cons fun _ => ?_
  refine Reads.then_silent (inScope_reads ?_) fun _ => (make_silent _).bind fun s => make_silent _
  refine hparams.cons fun params => (expect_reads (by decide)).cons fun _ => ?_
  refine (expect_reads (by decide)).cons fun _ => typeName_reads.cons fun result => ?_
  refine (make_silent _).then_reads fun _ => ?_
  exact block_reads.last.then_silent fun body => pure_silent _

theorem declaration_reads : declaration.Reads Nonterminal.declaration := by
  refine .rule ((sees_silent _).then_reads fun _ => .ite ?_ ?_)
  · exact variableDeclaration_reads.choose (by simp)
  refine (sees_silent _).then_reads fun _ => .ite (arrayDeclaration_reads.choose (by simp)) ?_
  refine (sees_silent _).then_reads fun _ => .ite (functionDefinition_reads.choose (by simp)) ?_
  exact fail_reads _ _

theorem declarations_reads (pos : Position) :
    (do
      let items ← many Nonterminal.declaration declaration
      node pos (.list · .declarations items)).Reads Nonterminal.declarationList :=
  .rule ((many_reads declaration_reads).then_silent fun _ => make_silent _)

theorem program_eq :
    program = position >>= fun pos =>
      (do
        let items ← many Nonterminal.declaration declaration
        node pos (.list · .declarations items)) >>= fun root => do
      let _ ← expect Kind.eof
      return root := by
  simp only [program, bind_assoc]

theorem program_derives {p q : Parser} {root : Node} (hp : p.Ended)
    (h : program p = .done root q) :
    (Ebnf.rule .program).Derives (p.tokens.map Token.kind) := by
  rw [program_eq] at h
  obtain ⟨pos, p₁, h₁, h⟩ := bind_eq_done.mp h
  obtain ⟨root, p₂, h₂, h⟩ := bind_eq_done.mp h
  obtain ⟨t, p₃, ht, -⟩ := bind_eq_done.mp h
  have e₁ := position_silent.tokens_eq h₁
  obtain ⟨ts, e₂, hd⟩ := (declarations_reads pos).done (hp.of_eq e₁) h₂
  have e := e₁.trans e₂
  have hend : p₂.current.kind = .eof := by
    unfold expect at ht
    split at ht
    · rename_i hk
      simpa [Expected.admits, eq_comm] using hk
    · exact absurd ht fail_ne_done
  rw [e, Parser.tokens, (hp.of_append e).later_eq_nil hend, List.map_append, List.map_singleton,
    hend]
  exact .rule (.cons hd (.cons .token .nil))

theorem program_viable {p q : Parser} {pos : Position} (hp : p.Ended)
    (h : program p = .stuck pos q) :
    ∃ ts rest, p.tokens = ts ++ q.tokens ∧
      (Ebnf.rule .program).Derives (ts.map Token.kind ++ rest) := by
  have hend : Ebnf.Derives (.sequence [Kind.eof]) [.eof] := .cons .token .nil
  rw [program_eq] at h
  obtain h | ⟨pos, p₁, h₁, h⟩ := bind_eq_stuck.mp h
  · exact absurd h position_silent.ne_stuck
  have e₁ := position_silent.tokens_eq h₁
  obtain h | ⟨root, p₂, h₂, h⟩ := bind_eq_stuck.mp h
  · obtain ⟨ts, rest, e₂, hd⟩ := (declarations_reads pos).stuck (hp.of_eq e₁) h
    exact ⟨ts, rest ++ [.eof], e₁.trans e₂,
      by rw [← List.append_assoc]; exact .rule (.cons hd hend)⟩
  · obtain ⟨ts, e₂, hd⟩ := (declarations_reads pos).done (hp.of_eq e₁) h₂
    have e₃ : p₂.tokens = q.tokens := by
      obtain h | ⟨t, p₃, -, h⟩ := bind_eq_stuck.mp h
      · exact expect_stuck_tokens h
      · exact absurd h (pure_silent _).ne_stuck
    exact ⟨ts, [.eof], by rw [e₁, e₂, e₃], .rule (.cons hd hend)⟩

end Crux.Parse
